/-
Lines. Only a line feed ends a line, so of a carriage return and a line feed
the carriage return is the last character of its line. Lines count from 1 and
columns from 0, in bytes.
-/
import SceneGate.Text.Basic

namespace SceneGate

/-- A position: a line, from 1, and a column, from 0 and in bytes. -/
structure Position where
  line : Nat
  column : Nat
deriving DecidableEq, Repr

/-- Where the lines of a text begin. The first begins at 0; `later` holds the
starts of the others, in order. -/
structure LineIndex where
  later : List Nat
  size : Nat
deriving DecidableEq, Repr

namespace LineIndex

/-- The offsets just past each line feed of a text that begins at `offset`. -/
def startsFrom (offset : Nat) : Text → List Nat
  | [] => []
  | c :: cs =>
    let next := offset + c.utf8Size
    if c = '\n' then next :: startsFrom next cs else startsFrom next cs

/-- The line index of a text. -/
def ofText (t : Text) : LineIndex := ⟨startsFrom 0 t, t.bytes⟩

/-- Number of lines; an empty line after a final line feed counts. -/
def lineCount (index : LineIndex) : Nat := index.later.length + 1

/-- The start of the line with `n` lines before it. -/
def startAt (index : LineIndex) (n : Nat) : Nat := (0 :: index.later).getD n 0

/-- Where a line begins. Line 0 reads as line 1, and a line past the end as the
last line. -/
def lineStart (index : LineIndex) (line : Nat) : Nat :=
  index.startAt (min (max line 1 - 1) index.later.length)

/-- The offset of a position: the start of its line and the column. -/
def offset (index : LineIndex) (p : Position) : Nat := index.lineStart p.line + p.column

/-- The position of an offset; an offset past the end reads as the end. -/
def position (index : LineIndex) (offset : Nat) : Position :=
  let inside := min offset index.size
  let before := index.later.countP (· ≤ inside)
  ⟨before + 1, inside - index.startAt before⟩

/-- The line that an offset lies on. -/
def lineOf (index : LineIndex) (offset : Nat) : Nat := (index.position offset).line

end LineIndex

/-- One line of a text: where it begins, and what stands on it before its line
ending. -/
structure Line where
  start : Nat
  content : Text
deriving DecidableEq, Repr

namespace Text

/-- The lines of a text with their line feeds. A text that ends in a line feed
has no empty line after it. -/
def splitLines : Text → List Text
  | [] => []
  | c :: cs =>
    if c = '\n' then [c] :: splitLines cs
    else
      match splitLines cs with
      | [] => [[c]]
      | line :: rest => (c :: line) :: rest

/-- Nothing is lost in splitting a text into lines. -/
@[simp] theorem flatten_splitLines (t : Text) : (splitLines t).flatten = t := by
  induction t with
  | nil => rfl
  | cons c cs ih =>
    simp only [splitLines]
    split
    · simp [ih]
    · cases h : splitLines cs with
      | nil => simp [h] at ih; simp [← ih]
      | cons line rest => simp [h] at ih; simp [ih]

/-- The text without a last character `c`. -/
def withoutLast (c : Char) (t : Text) : Text := if t.getLast? = some c then t.dropLast else t

/-- A line without its line ending: a line feed, or a carriage return and a
line feed. -/
def withoutLineEnding (line : Text) : Text := withoutLast '\r' (withoutLast '\n' line)

/-- Lines that begin at `start` and follow one another. -/
def linesFrom (start : Nat) : List Text → List Line
  | [] => []
  | line :: rest => ⟨start, withoutLineEnding line⟩ :: linesFrom (start + bytes line) rest

/-- The lines of a text with their starts, without their line endings. -/
def lines (t : Text) : List Line := linesFrom 0 (splitLines t)

end Text

end SceneGate
