/-
Labels of axes. `axes.get_axis_labels(x_label="x", y_label="y")` becomes a
group of two formulas placed next to the axes, since the method takes no
labels.
-/
import SceneGate.Rules.Rule
import SceneGate.Source.Literal
import SceneGate.Text.Blank
import SceneGate.Text.Search
import SceneGate.Text.Word
import SceneGate.Vocabulary

namespace SceneGate.AxisLabels

/-- A call that asks for labels: the axes it is called on, and the labels. -/
structure LabelCall where
  axes : Text
  x : Text
  y : Text
deriving DecidableEq, Repr

/-- The text after `mark`, which may stand behind blanks. -/
def after? (mark t : Text) : Option Text :=
  let t := t.trimStart
  if mark.isPrefixOf t then some (t.drop mark.length) else none

/-- A label between quotes, which may stand behind blanks, and the text after
it. There is no quote of either kind in a label. -/
def label? (t : Text) : Option (Text × Text) :=
  match t.trimStart with
  | q :: cs =>
    let label := cs.takeWhile fun c => !StringLiteral.isQuote c
    if StringLiteral.isQuote q && (cs.drop label.length).head? == some q then
      some (label, cs.drop (label.length + 1))
    else none
  | [] => none

/-- The labels in the arguments at the front of a text, and the text after
them. -/
def labels? (t : Text) : Option (Text × Text × Text) := do
  let t ← after? ['('] t
  let t ← after? "x_label".toList t
  let t ← after? ['='] t
  let (x, t) ← label? t
  let t ← after? [','] t
  let t ← after? "y_label".toList t
  let t ← after? ['='] t
  let (y, t) ← label? t
  let t ← after? [')'] t
  return (x, y, t)

/-- Whether a text is made of words with single dots between them. -/
def isDotted (t : Text) : Bool :=
  !t.isEmpty && t.head? != some '.' && t.getLast? != some '.' && !t.hasPart "..".toList

/-- The call at the front of a text, and how many characters it has. -/
def call? (t : Text) : Option (LabelCall × Nat) :=
  let chain := t.takeWhile fun c => isWordChar c || c == '.'
  let method := ".get_axis_labels".toList
  let axes := chain.take (chain.length - method.length)
  if method.isSuffixOf chain && isDotted axes then
    (labels? (t.drop chain.length)).map fun (x, y, rest) => (⟨axes, x, y⟩, t.length - rest.length)
  else none

/-- The group that replaces a call. -/
def LabelCall.replacement (v : Vocabulary) (call : LabelCall) : Text :=
  let placed (label axis side : Text) : Text :=
    v.texConstructor ++ "(\"".toList ++ label ++ "\").next_to(".toList ++ call.axes ++ '.' ::
      axis ++ ", ".toList ++ side ++ [')']
  v.groupConstructor ++ '(' :: placed call.x "x_axis".toList "DOWN".toList ++ ", ".toList ++
    placed call.y "y_axis".toList "LEFT".toList ++ [')']

/-- Replaces the calls in a text. -/
def replaceCalls (v : Vocabulary) (t : Text) : Text :=
  t.replaceFinds fun rest =>
    (call? rest).map fun (call, length) => ⟨length, call.replacement v⟩

/-- The rule. -/
def rule (v : Vocabulary) : Rule := ⟨"axis-labels", replaceCalls v⟩

end SceneGate.AxisLabels
