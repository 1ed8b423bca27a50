/-
The removed constructor of text: `TexText("A", color=RED)` becomes
`Text("A", font="Arial", color=RED)`, without a font if the call names one.
-/
import SceneGate.Edits
import SceneGate.Rules.Rule
import SceneGate.Rules.StringCall
import SceneGate.Text.Search
import SceneGate.Vocabulary

namespace SceneGate.LegacyText

/-- The rest of the arguments, with the font in front unless they name one. -/
def withFont (v : Vocabulary) (rest : Text) : Text :=
  if rest.hasPart "font=".toList then rest
  else ", font=\"".toList ++ v.defaultFont ++ '"' :: rest

/-- The edit for a call. -/
def span (v : Vocabulary) (call : StringCall) : Span :=
  let argument := { call.argument with rest := withFont v call.argument.rest }
  ⟨call.start, call.length, v.textConstructor ++ '(' :: argument.source⟩

/-- The edits that a text needs. -/
def spans (v : Vocabulary) (t : Text) : List Span :=
  (StringCall.findAll v.legacyTextConstructor t).map (span v)

/-- The rule. -/
def rule (v : Vocabulary) : Rule :=
  ⟨"legacy-text", fun t => (Edits.ofSpans (spans v t)).applyOrKeep t⟩

end SceneGate.LegacyText
