/-
Generating a program: the generator is asked, its program goes through the
rules and through repair, and if it is rejected the generator is asked again,
with the reason, as often as the limit allows. A generator that fails is not
asked again.
-/
import SceneGate.Check.Repair
import SceneGate.Generate.Prompt
import SceneGate.Rules.Standard

namespace SceneGate

/-- A generator answers a prompt or fails, and may remember what it was asked. -/
abbrev Generator (σ : Type) := Text → σ → Except GenerationError Response × σ

/-- What became of one program of the generator. -/
structure Attempt where
  /-- Which attempt it was, from 1. -/
  number : Nat
  /-- The program as it was generated. -/
  generated : Text
  /-- The program after the rules. -/
  fixed : Text
  /-- Why it was rejected; `none` if it was accepted. -/
  rejection : Option Findings
deriving DecidableEq, Repr

/-- A program that was accepted, and how it came about. -/
structure Generated (v : Vocabulary) where
  program : SceneProgram v
  provider : Text
  model : Text
  /-- Whether stray prose was quoted. -/
  repaired : Bool
  /-- The rules that changed the program. -/
  rulesApplied : List String
deriving DecidableEq, Repr

/-- How generating ends. -/
inductive Outcome (v : Vocabulary) where
  /-- A program was accepted. -/
  | success (attempts : Nat) (result : Generated v) (log : List Attempt)
  /-- The generator failed. -/
  | generationFailed (attempts : Nat) (error : GenerationError)
  /-- Every program was rejected, the last one for the given reasons. -/
  | exhausted (attempts : Nat) (lastError : Findings) (log : List Attempt)
deriving DecidableEq, Repr

namespace Outcome

/-- How often the generator was asked. -/
def attempts {v : Vocabulary} : Outcome v → Nat
  | .success n _ _ | .generationFailed n _ | .exhausted n _ _ => n

/-- The program that was accepted. -/
def program? {v : Vocabulary} : Outcome v → Option (SceneProgram v)
  | .success _ result _ => some result.program
  | .generationFailed _ _ | .exhausted _ _ _ => none

/-- Whether a program was accepted. -/
def isSuccess {v : Vocabulary} (o : Outcome v) : Bool := o.program?.isSome

end Outcome

namespace Generation

/-- What becomes of an answer: the attempt for the log, and the program if it is
accepted, or else why it is not. -/
@[irreducible]
def review (c : Config) (number : Nat) (answer : Response) :
    Attempt × Except Findings (Generated c.vocabulary) :=
  let generated := Response.program answer.text
  let (fixed, fired) := (RuleSet.standard c).applyTraced generated
  let accept (program : SceneProgram c.vocabulary) (repaired : Bool) :=
    (⟨number, generated, fixed, none⟩,
      .ok ⟨program, answer.provider, answer.model, repaired, fired⟩)
  match repair c.vocabulary fixed with
  | .valid program => accept program false
  | .repaired program => accept program true
  | .failed findings => (⟨number, generated, fixed, some findings⟩, .error findings)

/-- Asks the generator with a prompt, for the attempt of the given number. There
may be as many more attempts as `retries` says, and the log holds those made
before. -/
def drive {σ : Type} (c : Config) (generator : Generator σ) (base : Text) :
    (retries number : Nat) → (prompt : Text) → (log : List Attempt) → σ →
      Outcome c.vocabulary × σ
  | retries, number, prompt, log, state =>
    match generator prompt state with
    | (.error error, state) => (.generationFailed number error, state)
    | (.ok answer, state) =>
      let (attempt, result) := review c number answer
      let log := log ++ [attempt]
      match result, retries with
      | .ok result, _ => (.success number result log, state)
      | .error findings, 0 => (.exhausted number findings log, state)
      | .error findings, retries + 1 =>
        drive c generator base retries (number + 1) (Prompt.retry findings.diagnostic base) log
          state

/-- Generates a program about a problem. -/
def run {σ : Type} (c : Config) (generator : Generator σ) (problem context : Text) (state : σ) :
    Outcome c.vocabulary × σ :=
  let base := Prompt.base c.vocabulary c.sceneName problem context
  drive c generator base (c.maxAttempts - 1) 1 base [] state

/-- Generates a better version of a program, in one attempt. -/
def improve {σ : Type} (c : Config) (generator : Generator σ) (code feedback : Text) (state : σ) :
    Outcome c.vocabulary × σ :=
  let base := Prompt.improvement code feedback
  drive c generator base 0 1 base [] state

end Generation

/-- A script for a generator: the answers it has still to give, and the prompts
it was given, in order. -/
structure Script where
  answers : List (Except GenerationError Response)
  prompts : List Text

/-- The generator that follows a script. At the end of the script it answers with
no text. -/
def Script.generator : Generator Script := fun prompt script =>
  let prompts := script.prompts ++ [prompt]
  match script.answers with
  | answer :: later => (answer, ⟨later, prompts⟩)
  | [] => (.error .emptyResponse, ⟨[], prompts⟩)

end SceneGate
