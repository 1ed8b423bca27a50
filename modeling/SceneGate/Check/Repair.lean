/-
Repair: a text that does not pass the gate may pass it once its stray prose is
quoted. What a scene lacks cannot be made up for here, and if quoting does not
help, the text is rejected for what is wrong with it as it was given.
-/
import SceneGate.Check.Gate
import SceneGate.Rules.QuoteWords

namespace SceneGate

/-- What becomes of a text. -/
inductive Repair (v : Vocabulary) where
  /-- The text passes as it is. -/
  | valid (program : SceneProgram v)
  /-- The text passes with its stray prose quoted. -/
  | repaired (program : SceneProgram v)
  /-- The text is rejected. -/
  | failed (findings : Findings)
deriving DecidableEq, Repr

namespace Repair

/-- Whether a program came of the text. -/
def isSuccess {v : Vocabulary} : Repair v → Bool
  | .failed _ => false
  | _ => true

/-- Whether the text was changed. -/
def wasRepaired {v : Vocabulary} : Repair v → Bool
  | .repaired _ => true
  | _ => false

/-- The program that came of the text. -/
def program? {v : Vocabulary} : Repair v → Option (SceneProgram v)
  | .valid p | .repaired p => some p
  | .failed _ => none

/-- The program that came of the text, or why there is none. -/
def toExcept {v : Vocabulary} : Repair v → Except Findings (SceneProgram v)
  | .valid p | .repaired p => .ok p
  | .failed findings => .error findings

end Repair

/-- Lets a text through, if need be with its stray prose quoted. Only the quoted
text goes through the gate; the text itself is read once, for what is wrong with
it and for the words to quote. -/
def repair (v : Vocabulary) (t : Text) : Repair v :=
  let p := parse t
  if passes : Scene.inspect v p = [] ∧ StrayProse.issues p = [] then
    .valid ⟨t, passes.1, passes.2⟩
  else
    let findings := if Scene.inspect v p = [] then StrayProse.issues p else Scene.inspect v p
    let words := StrayProse.names p
    if findings.defect? = some .structural ∨ words = [] then .failed findings
    else
      match certify v (QuoteWords.quote words t) with
      | .ok program => .repaired program
      | .error _ => .failed findings

end SceneGate
