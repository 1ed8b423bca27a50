/-
Whether a program is a scene: it imports the renderer's module, one of its
classes derives from a scene class, and a scene has the method that the
renderer calls.
-/
import SceneGate.Check.Issue
import SceneGate.Source.Parse
import SceneGate.Source.View
import SceneGate.Vocabulary

namespace SceneGate.Scene

/-- Adds the name of a class, if one of its bases makes it a scene: a base of the
vocabulary, or a class known to be a scene. -/
def addClass (v : Vocabulary) (known : List Text) (cls : Tree) : List Text :=
  match cls.name? with
  | some name =>
    if (ClassDef.baseNames cls).any (fun base => v.isSceneBase base || known.contains base) &&
        !known.contains name then
      name :: known
    else known
  | none => known

/-- Goes through the classes again and again, at most `rounds` times, as long as
new scenes come to light. -/
def grow (v : Vocabulary) (classes : List Tree) : (rounds : Nat) → List Text → List Text
  | 0, known => known
  | rounds + 1, known =>
    let next := classes.foldl (addClass v) known
    if next.length = known.length then known else grow v classes rounds next

/-- The names of the classes that derive from a scene class, perhaps through
other classes. Every round but the last finds one more, so there are never more
rounds than classes and one. -/
def names (v : Vocabulary) (classes : List Tree) : List Text :=
  grow v classes (classes.length + 1) []

/-- The classes that are scenes. -/
def scenes (v : Vocabulary) (classes : List Tree) : List Tree :=
  classes.filter fun cls => cls.name?.any fun name => (names v classes).contains name

/-- Whether a class has the method that the renderer calls. -/
def hasEntry (v : Vocabulary) (cls : Tree) : Bool :=
  (ClassDef.methods cls).any fun m => m.name? == some v.entryMethod

/-- What keeps a program from being a scene. Without a scene, any class may have
the method that the renderer calls. -/
def issuesOf (v : Vocabulary) (root : Tree) : Findings :=
  let scenes := scenes v root.classes
  let candidates := if scenes.isEmpty then root.classes else scenes
  (if root.imports.any (Import.brings v.importModule) then []
    else [.missingImport v.importModule]) ++
  (if scenes.isEmpty then [.missingEntryType v.sceneBases] else []) ++
  (if candidates.any (hasEntry v) then [] else [.missingEntryMethod v.entryMethod])

/-- What keeps a text from being a scene program. A fault of the text is reported
alone: the one that begins first. -/
def inspect (v : Vocabulary) (p : Parse) : Findings :=
  match p.firstFault? with
  | some fault => [.notAProgram fault.cause (p.lineOf fault.start)]
  | none => issuesOf v p.tree

/-- Reads a text and inspects it. -/
def check (v : Vocabulary) (t : Text) : Findings := inspect v (parse t)

end SceneGate.Scene
