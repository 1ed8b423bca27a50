/-
The rules every generated program goes through, in their order. Quoting words
is not one of them: it is a repair, and needs to know the words.
-/
import SceneGate.Rules.AxisLabels
import SceneGate.Rules.DeprecatedNames
import SceneGate.Rules.GroupTargets
import SceneGate.Rules.InlineText
import SceneGate.Rules.LegacyText

namespace SceneGate

/-- The standard rules in their order. -/
def RuleSet.standard (c : Config) : RuleSet := [
  GroupTargets.rule c.vocabulary c.maxGroupPasses,
  DeprecatedNames.rule c.vocabulary,
  InlineText.rule c.vocabulary,
  AxisLabels.rule c.vocabulary,
  LegacyText.rule c.vocabulary]

end SceneGate
