/-
Numbers and string literals, measured at the front of a text. Every function
returns how many characters it recognises, always as many as it can.
-/
import SceneGate.Text.Ranges
import SceneGate.Text.Basic

namespace SceneGate

/-- How many characters of a class stand at the front of a text. -/
def runLength (p : Char → Bool) (t : Text) : Nat := (t.takeWhile p).length

theorem runLength_le (p : Char → Bool) (t : Text) : runLength p t ≤ t.length :=
  (List.takeWhile_prefix p).length_le

namespace NumberLiteral

/-- A decimal digit or the underscore that may stand between digits. -/
def isDigitChar (c : Char) : Bool := isAsciiDigit c || c == '_'

/-- An exponent: `e`, perhaps a sign, and at least one digit or underscore. -/
def exponentLength : Text → Nat
  | e :: rest =>
    if e == 'e' || e == 'E' then
      match rest with
      | sign :: digits =>
        if sign == '+' || sign == '-' then
          let n := runLength isDigitChar digits
          if n = 0 then 0 else n + 2
        else
          let n := runLength isDigitChar rest
          if n = 0 then 0 else n + 1
      | [] => 0
    else 0
  | [] => 0

/-- The mark of an imaginary number. -/
def imaginaryLength : Text → Nat
  | c :: _ => if c == 'j' || c == 'J' then 1 else 0
  | [] => 0

/-- What may follow the digits of a decimal number: an exponent and the mark of
an imaginary number. -/
def tailLength (t : Text) : Nat :=
  let n := exponentLength t
  n + imaginaryLength (t.drop n)

/-- The fraction of a decimal number: a point and any digits. -/
def fractionLength : Text → Nat
  | '.' :: rest => runLength isDigitChar rest + 1
  | _ => 0

/-- What follows the first digit of a decimal number. -/
def decimalLength (t : Text) : Nat :=
  let whole := runLength isDigitChar t
  let n := whole + fractionLength (t.drop whole)
  n + tailLength (t.drop n)

/-- What follows the point of a number that begins with one; there must be a
digit first. -/
def pointedLength : Text → Nat
  | c :: rest =>
    if isAsciiDigit c then
      let n := runLength isDigitChar rest + 1
      n + tailLength (rest.drop (n - 1))
    else 0
  | [] => 0

/-- The digits that a base letter allows after it. -/
def baseDigit? (base : Char) : Option (Char → Bool) :=
  if base == 'x' || base == 'X' then
    some fun c => isAsciiDigit c || ('a' ≤ c && c ≤ 'f') || ('A' ≤ c && c ≤ 'F') || c == '_'
  else if base == 'o' || base == 'O' then some fun c => ('0' ≤ c && c ≤ '7') || c == '_'
  else if base == 'b' || base == 'B' then some fun c => c == '0' || c == '1' || c == '_'
  else none

/-- What follows the zero of a number in base sixteen, eight or two. -/
def basedLength : Text → Nat
  | base :: rest =>
    match baseDigit? base with
    | some isDigit =>
      let n := runLength isDigit rest
      if n = 0 then 0 else n + 1
    | none => 0
  | [] => 0

/-- What follows the first digit `c` of a number. -/
def lengthAfter (c : Char) (t : Text) : Nat :=
  if c == '0' then max (decimalLength t) (basedLength t) else decimalLength t

end NumberLiteral

namespace StringLiteral

/-- A quote character. -/
def isQuote (c : Char) : Bool := c == '"' || c == '\''

/-- A letter that may stand alone before the quote. -/
def isMark (c : Char) : Bool := "rRuUbBfF".toList.contains c

/-- Two letters that may stand together before the quote: `r` with `b` or `f`,
in either order and case. -/
def areMarks (a b : Char) : Bool :=
  ((a == 'r' || a == 'R') && "bBfF".toList.contains b) ||
    ((b == 'r' || b == 'R') && "bBfF".toList.contains a)

/-- The opening of a string literal at the front of a text: how many letters
stand before the quote, the quote, and the text after it. -/
def opening? : Text → Option (Nat × Char × Text)
  | a :: rest =>
    if isQuote a then some (0, a, rest)
    else
      match rest with
      | b :: rest' =>
        if isMark a && isQuote b then some (1, b, rest')
        else
          match rest' with
          | q :: rest'' => if areMarks a b && isQuote q then some (2, q, rest'') else none
          | [] => none
      | [] => none
  | [] => none

/-- The body of a literal between single quote characters `q`, and whether its
closing quote follows. A backslash takes the next character with it, whatever
that is; a bare line feed ends the body. -/
def shortBody (q : Char) : Text → Nat × Bool
  | [] => (0, false)
  | '\\' :: [] => (0, false)
  | '\\' :: _ :: cs => let (n, closed) := shortBody q cs; (n + 2, closed)
  | c :: cs =>
    if c == q then (0, true)
    else if c == '\n' then (0, false)
    else let (n, closed) := shortBody q cs; (n + 1, closed)

/-- The body of a literal between three quote characters `q`, and whether its
closing quotes follow. One or two quotes belong to the body if more of it
follows them. -/
def longBody (q : Char) : Text → Nat × Bool
  | [] => (0, false)
  | '\\' :: [] => (0, false)
  | '\\' :: _ :: cs => let (n, closed) := longBody q cs; (n + 2, closed)
  | c :: cs =>
    if c == q then
      if [q, q].isPrefixOf cs then (0, true)
      else
        match longBody q cs with
        | (0, false) => (0, false)
        | (n, closed) => (n + 1, closed)
    else let (n, closed) := longBody q cs; (n + 1, closed)

/-- What is found at the opening of a string literal. -/
inductive Shape where
  /-- A whole literal. -/
  | closed
  /-- A literal whose closing quotes are missing. -/
  | unclosed
  /-- Marks and a quote in front of a backslash that ends the text; they read
  as a word. -/
  | word
deriving DecidableEq, Repr

/-- Measures the literal that opens with `marks` letters and the quote `q`
before `rest`: its shape, and its length from the first letter. -/
def measure (marks : Nat) (q : Char) (rest : Text) : Shape × Nat :=
  if [q, q].isPrefixOf rest then
    match longBody q (rest.drop 2) with
    | (n, true) => (.closed, marks + n + 6)
    | (n, false) => (.unclosed, marks + n + 3)
  else
    match shortBody q rest with
    | (n, true) => (.closed, marks + n + 2)
    | (n, false) =>
      if marks ≠ 0 ∧ rest = ['\\'] then (.word, marks + 1) else (.unclosed, marks + n + 1)

/-- The string literal at the front of a text, if one opens there. -/
def find? (t : Text) : Option (Shape × Nat) :=
  (opening? t).map fun (marks, q, rest) => measure marks q rest

end StringLiteral

end SceneGate
