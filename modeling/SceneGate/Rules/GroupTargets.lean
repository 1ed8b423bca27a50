/-
Grouping the targets of effects that take one target: `FadeIn(a, b, shift=UP)`
becomes `FadeIn(VGroup(a, b), shift=UP)`. The calls are found in the syntax
tree of a text without faults. Of calls that lie in one another only the
outermost is changed at a time, and the text is then read again.
-/
import SceneGate.Edits
import SceneGate.Rules.Rule
import SceneGate.Source.Parse
import SceneGate.Source.View
import SceneGate.Text.Search
import SceneGate.Vocabulary

namespace SceneGate.GroupTargets

/-- The arguments with the positional ones grouped, if there is anything to
group: two positional arguments at least, no unpacked ones, whose number is not
known, and no group in first place. -/
def groupedArguments? (group : Text) (arguments : List Argument) : Option Text :=
  let opening := group ++ ['(']
  let sources (args : List Argument) : List Text := args.map (·.tree.text)
  let positional := sources (arguments.filter (!·.isKeyword))
  let keywords := sources (arguments.filter Argument.isKeyword)
  match positional with
  | first :: _ :: _ =>
    if arguments.any Argument.isUnpacked || opening.isPrefixOf first then none
    else
      let grouped := opening ++ Text.joinWith ", ".toList positional ++ [')']
      some (Text.joinWith ", ".toList (grouped :: keywords))
  | _ => none

/-- The edit that groups the targets of a call, if it needs one. -/
def span? (v : Vocabulary) (call : Located) : Option Span := do
  let callee ← Call.callee? call.tree
  let name ← callee.tailName?
  let list ← Call.argumentList? call.tree
  let arguments ← groupedArguments? v.groupConstructor list.arguments
  if v.isSingleTargetEffect name then
    some ⟨call.start, call.tree.bytes, callee.text ++ '(' :: arguments ++ [')']⟩
  else none

/-- The edits that a text needs, the outer calls before the inner ones. -/
def spans (v : Vocabulary) (tree : Tree) : List Span :=
  (tree.findAll .callExpr).filterMap (span? v)

/-- Groups targets at most `passes` times, as long as a pass leaves calls for
the next one. -/
def group (v : Vocabulary) : (passes : Nat) → Text → Text
  | 0, t => t
  | passes + 1, t =>
    let p := parse t
    let spans := spans v p.tree
    if p.ok && !spans.isEmpty then
      let edits := Edits.ofSpans spans
      match edits.apply t with
      | .ok t' => if edits.spans.length < spans.length then group v passes t' else t'
      | .error _ => t
    else t

/-- The rule; the number of passes is at least 1. -/
def rule (v : Vocabulary) (maxPasses : Nat) : Rule :=
  ⟨"multi-arg-call", group v (max maxPasses 1)⟩

end SceneGate.GroupTargets
