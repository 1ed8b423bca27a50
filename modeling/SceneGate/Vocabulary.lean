/-
The vocabulary of the renderer's library, as far as checks and rules need it,
and the limits they work within.
-/
import SceneGate.Text.Basic

namespace SceneGate

/-- Names and what replaces them, in the order in which they were first given. -/
abbrev Renaming := List (Text × Text)

namespace Renaming

/-- Says what replaces a name. A name that was given before keeps its place. -/
def put (names : Renaming) (old new : Text) : Renaming :=
  if names.any (·.1 == old) then
    names.map fun entry => if entry.1 == old then (old, new) else entry
  else names ++ [(old, new)]

/-- The renaming that pairs make, given one after another. -/
def ofPairs (pairs : List (Text × Text)) : Renaming :=
  pairs.foldl (fun names pair => put names pair.1 pair.2) []

end Renaming

/-- What a scene program is written with. -/
structure Vocabulary where
  /-- The module that a program must import. -/
  importModule : Text := "manimlib".toList
  /-- The classes that make a class a scene. -/
  sceneBases : List Text := ["Scene".toList, "InteractiveScene".toList, "ThreeDScene".toList]
  /-- The method that the renderer calls on the scene. -/
  entryMethod : Text := "construct".toList
  /-- Effects that take a single target. -/
  singleTargetEffects : List Text := ["FadeIn".toList]
  /-- The constructor that makes one target of several. -/
  groupConstructor : Text := "VGroup".toList
  /-- Deprecated names and what replaces them. -/
  deprecatedNames : Renaming := [("GRAY".toList, "GREY".toList)]
  /-- The constructor of typeset formulas. -/
  texConstructor : Text := "Tex".toList
  /-- The constructor of text that was removed. -/
  legacyTextConstructor : Text := "TexText".toList
  /-- The constructor of text. -/
  textConstructor : Text := "Text".toList
  /-- The font given to text that had the removed constructor. -/
  defaultFont : Text := "Arial".toList
deriving DecidableEq, Repr

namespace Vocabulary

/-- Whether the name is that of a class that makes a class a scene. -/
def isSceneBase (v : Vocabulary) (name : Text) : Bool := v.sceneBases.contains name

/-- Whether the name is that of an effect that takes a single target. -/
def isSingleTargetEffect (v : Vocabulary) (name : Text) : Bool :=
  v.singleTargetEffects.contains name

end Vocabulary

/-- The vocabulary, with the limits of generating and of grouping. -/
structure Config where
  vocabulary : Vocabulary := {}
  /-- The class that the generator is asked to define. -/
  sceneName : Text := "MathAnimation".toList
  /-- How often the generator is asked for one program; 0 reads as 1. -/
  maxAttempts : Nat := 2
  /-- How often calls are grouped when they lie in one another; 0 reads as 1. -/
  maxGroupPasses : Nat := 4
deriving DecidableEq, Repr

end SceneGate
