/-
Rules: each mends one defect that generated programs often have. A rule turns
a text into a text, and leaves a text alone that it has nothing to do with.
-/
import SceneGate.Text.Basic

namespace SceneGate

/-- A rule and the name it is reported by. -/
structure Rule where
  name : String
  apply : Text → Text

/-- Rules in the order in which they are applied. -/
abbrev RuleSet := List Rule

namespace RuleSet

/-- Applies the rules one after another: the text after the last, and the names
of the rules that changed it. -/
def applyTraced : RuleSet → Text → Text × List String
  | [], t => (t, [])
  | rule :: rules, t =>
    let t' := rule.apply t
    let (final, fired) := applyTraced rules t'
    (final, if t' = t then fired else rule.name :: fired)

/-- Applies the rules one after another. -/
def apply (rules : RuleSet) (t : Text) : Text := rules.foldl (fun t rule => rule.apply t) t

/-- The names of the rules, in order. -/
def names (rules : RuleSet) : List String := rules.map Rule.name

theorem applyTraced_fst (rules : RuleSet) (t : Text) : (applyTraced rules t).1 = apply rules t := by
  induction rules generalizing t with
  | nil => rfl
  | cons rule rules ih => simp [applyTraced, apply, ih]

end RuleSet

end SceneGate
