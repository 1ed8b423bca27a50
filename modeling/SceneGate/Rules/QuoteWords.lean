/-
Quoting words that lost their quotes. A word is put between double quotes where
it stands in the place of a value, which is told by what surrounds it on its
line. Lines that are comments are left alone; strings are not told apart from
the rest of a line.
-/
import SceneGate.Edits
import SceneGate.Rules.Rule
import SceneGate.Source.Literal
import SceneGate.Text.Blank
import SceneGate.Text.Lines
import SceneGate.Text.Search

namespace SceneGate.QuoteWords

/-- What stands before a word. -/
inductive Lead where
  /-- A sign, and perhaps blanks. -/
  | sign (c : Char)
  /-- The beginning of the line, and perhaps blanks. -/
  | lineStart
  /-- A blank. -/
  | blank
deriving DecidableEq, Repr

/-- What stands after a word. -/
inductive Trail where
  /-- Perhaps blanks, and the end of the line. -/
  | lineEnd
  /-- A blank. -/
  | blank
  /-- Perhaps blanks, and a sign. -/
  | sign (c : Char)
deriving DecidableEq, Repr

/-- The places of values, in the order in which they are tried. -/
def places : List (Lead × Trail) := [
  (.sign '=', .lineEnd), (.sign '=', .blank), (.sign '(', .sign ')'), (.sign '[', .sign ']'),
  (.sign ',', .lineEnd), (.sign ',', .blank), (.lineStart, .lineEnd), (.blank, .blank)]

/-- How many characters of a text are what stands after a word, if it does. -/
def Trail.length? : Trail → Text → Option Nat
  | .lineEnd, t => if t.all isBlank then some t.length else none
  | .blank, t => if t.head?.any isBlank then some 1 else none
  | .sign c, t =>
    let gap := runLength isBlank t
    if (t.drop gap).head? = some c then some (gap + 1) else none

/-- A word behind the first `gap` characters of a text: the part before the
word, and the part that stands after it. -/
def wordBehind? (word : Text) (trail : Trail) (t : Text) (gap : Nat) : Option (Text × Text) :=
  if word.isPrefixOf (t.drop gap) then
    let after := t.drop (gap + word.length)
    (trail.length? after).map fun n => (t.take gap, after.take n)
  else none

/-- A word behind the first `gap` characters of a text, or else behind fewer. -/
def wordWithin? (word : Text) (trail : Trail) (t : Text) : (gap : Nat) → Option (Text × Text)
  | 0 => wordBehind? word trail t 0
  | gap + 1 => (wordBehind? word trail t (gap + 1)).or (wordWithin? word trail t gap)

/-- The word between double quotes. -/
def quoted (word : Text) : Text := '"' :: word ++ ['"']

/-- A word with what surrounds it, to be quoted. -/
def edit (word before after : Text) : Text.Find :=
  ⟨before.length + word.length + after.length, before ++ quoted word ++ after⟩

/-- A word in a place of a value at the front of a text, behind a sign or a
blank. -/
def find? (word : Text) (lead : Lead) (trail : Trail) : Text → Option Text.Find
  | [] => none
  | c :: cs =>
    let gap :=
      match lead with
      | .sign s => if c == s then some (runLength isBlank cs) else none
      | .blank => if isBlank c then some 0 else none
      | .lineStart => none
    (gap.bind (wordWithin? word trail cs)).map fun (before, after) =>
      edit word (c :: before) after

/-- Quotes a word on a line wherever it stands in one of the places. -/
def quoteAt (word line : Text) (place : Lead × Trail) : Text :=
  match place.1 with
  | .lineStart =>
    match wordWithin? word place.2 line (runLength isBlank line) with
    | some (before, after) => before ++ quoted word ++ after
    | none => line
  | lead => line.replaceFinds (find? word lead place.2)

/-- Quotes words on a line, one after another, and each in one place after
another. -/
def quoteLine (words : List Text) (line : Text) : Text :=
  words.foldl (fun line word => places.foldl (quoteAt word) line) line

/-- Whether a line is a comment. -/
def isComment (line : Text) : Bool := line.trimStart.head? == some '#'

/-- The edit for a line, if it changes. -/
def span? (words : List Text) (line : Line) : Option Span :=
  let quoted := quoteLine words line.content
  if isComment line.content || quoted == line.content then none
  else some ⟨line.start, line.content.bytes, quoted⟩

/-- The edits that a text needs. -/
def spans (words : List Text) (t : Text) : List Span :=
  t.lines.filterMap (span? (words.filter (!·.isEmpty)))

/-- The text with the words quoted. -/
def quote (words : List Text) (t : Text) : Text := (Edits.ofSpans (spans words t)).applyOrKeep t

/-- The rule. -/
def rule (words : List Text) : Rule := ⟨"quote-identifiers", quote words⟩

end SceneGate.QuoteWords
