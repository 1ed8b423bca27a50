/-
Looking for one text in another, and replacing what is found. All searches run
from left to right and resume after what they found, so finds never overlap.
-/
import SceneGate.Text.Basic

namespace SceneGate.Text

/-- Whether `word` occurs in the text. -/
def hasPart : Text → (word : Text) → Bool
  | [], word => word.isEmpty
  | c :: cs, word => word.isPrefixOf (c :: cs) || hasPart cs word

/-- The parts before and after the first occurrence of `mark`. -/
def splitAtFirst? : Text → (mark : Text) → Option (Text × Text)
  | [], mark => if mark.isEmpty then some ([], []) else none
  | c :: cs, mark =>
    if mark.isPrefixOf (c :: cs) then some ([], (c :: cs).drop mark.length)
    else (splitAtFirst? cs mark).map fun (before, after) => (c :: before, after)

/-- Something recognised at the front of a text: how many characters it has
and what to write in its place. -/
structure Find where
  length : Nat
  replacement : Text
deriving DecidableEq, Repr

/-- Replaces finds from left to right: wherever `recognise` finds something,
its replacement is written and the characters found are passed over. The
count `skip` is of characters still to pass over. -/
def replaceFindsFrom (recognise : Text → Option Find) : (skip : Nat) → Text → Text
  | _, [] => []
  | skip + 1, _ :: cs => replaceFindsFrom recognise skip cs
  | 0, c :: cs =>
    match recognise (c :: cs) with
    | some found => found.replacement ++ replaceFindsFrom recognise (found.length - 1) cs
    | none => c :: replaceFindsFrom recognise 0 cs

/-- Replaces all that `recognise` finds in a text. -/
def replaceFinds (t : Text) (recognise : Text → Option Find) : Text :=
  replaceFindsFrom recognise 0 t

/-- Replaces every occurrence of the word `old` (not empty) by `new`. -/
def replaceAll (t old new : Text) : Text :=
  t.replaceFinds fun rest => if old.isPrefixOf rest then some ⟨old.length, new⟩ else none

/-- The texts joined with `mark` between them. -/
def joinWith (mark : Text) (ts : List Text) : Text := (ts.intersperse mark).flatten

/-- The text before the first `mark`, or all of it. -/
def upTo (t mark : Text) : Text :=
  match t.splitAtFirst? mark with
  | some (before, _) => before
  | none => t

end SceneGate.Text
