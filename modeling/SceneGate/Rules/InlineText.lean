/-
Taking natural-language text out of formulas. Blocks `\text{...}` are removed
from the string of a formula that holds letters of the natural-language
alphabet, and a note above the line says so.
-/
import SceneGate.Edits
import SceneGate.Rules.Rule
import SceneGate.Rules.StringCall
import SceneGate.Text.Blank
import SceneGate.Text.Lines
import SceneGate.Text.Prose
import SceneGate.Text.Search
import SceneGate.Vocabulary

namespace SceneGate.InlineText

/-- The text block at the front of a text: `\text`, perhaps blanks, and
everything from an opening brace to the next closing one. -/
def block? (t : Text) : Option Text.Find :=
  let command := "\\text".toList
  if command.isPrefixOf t then
    let gap := runLength isBlank (t.drop command.length)
    match t.drop (command.length + gap) with
    | '\x7b' :: inside =>
      let n := runLength (· != '\x7d') inside
      if (inside.drop n).head? = some '\x7d' then some ⟨command.length + gap + n + 2, []⟩
      else none
    | _ => none
  else none

/-- The blanks at the front of a text, to be written as one space. -/
def blanks? (t : Text) : Option Text.Find :=
  let n := runLength isBlank t
  if n = 0 then none else some ⟨n, [' ']⟩

/-- The content of a formula without text blocks, without blanks at its ends,
and with single spaces. -/
def clean (content : Text) : Text :=
  Text.trim ((content.replaceFinds block?).replaceFinds blanks?)

/-- Whether the content of a formula has a text block and natural language. -/
def hasProseBlock (content : Text) : Bool :=
  (content.hasPart "\\text\x7b".toList || content.hasPart "\\text \x7b".toList) &&
    content.hasProse

/-- The note that is left above a line. -/
def note (v : Vocabulary) : Text :=
  "# Note: natural-language text removed from LaTeX. Consider splitting into separate ".toList ++
    v.textConstructor ++ "() and ".toList ++ v.texConstructor ++ "() objects.".toList

/-- The call with the content of its string cleaned. -/
def cleanedCall (call : StringCall) : Text :=
  call.callee ++ '(' ::
    { call.argument with content := clean call.argument.content : StringArgument }.source

/-- The line that an offset lies on. -/
def lineAt? (lines : List Line) (offset : Nat) : Option Line :=
  (lines.filter (·.start ≤ offset)).getLast?

/-- The edits for calls in a text with the given lines. The first call of a line
brings the note with it: in its own edit if it begins the line, for an
insertion there would overlap it. The list `noted` has the starts of the lines
that have their note. -/
def spansFrom (v : Vocabulary) (lines : List Line) (noted : List Nat) : List StringCall → List Span
  | [] => []
  | call :: calls =>
    let edit (before : Text) : Span := ⟨call.start, call.length, before ++ cleanedCall call⟩
    match lineAt? lines call.start with
    | some line =>
      if noted.contains line.start then edit [] :: spansFrom v lines noted calls
      else
        let above := line.content.indentation ++ note v ++ ['\n']
        let later := spansFrom v lines (line.start :: noted) calls
        if line.start = call.start then edit above :: later
        else Span.insertion line.start above :: edit [] :: later
    | none => edit [] :: spansFrom v lines noted calls

/-- The edits that a text needs. -/
def spans (v : Vocabulary) (t : Text) : List Span :=
  spansFrom v t.lines []
    ((StringCall.findAll v.texConstructor t).filter (hasProseBlock ·.argument.content))

/-- The rule. -/
def rule (v : Vocabulary) : Rule :=
  ⟨"inline-text", fun t => (Edits.ofSpans (spans v t)).applyOrKeep t⟩

end SceneGate.InlineText
