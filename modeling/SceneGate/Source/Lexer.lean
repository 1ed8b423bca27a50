/-
Cutting a text into tokens. `munch` says what stands at the front of a text:
the kind of the longest token there and how many characters it has after its
first. `tokenize` cuts the whole text with it, so no character is lost
(`spelling_tokenize`), and what no rule fits is an error token of one
character.
-/
import SceneGate.Source.Literal
import SceneGate.Source.Token
import SceneGate.Text.Identifier

namespace SceneGate

/-- The spaces that may stand between words on a line. -/
def isSpace (c : Char) : Bool := c == ' ' || c == '\t' || c == '\x0c'

/-- Operators and punctuation, the longer before the shorter. -/
def operators : List (Text × Kind) := [
  ("...".toList, .ellipsis), ("//=".toList, .augAssign), (">>=".toList, .augAssign),
  ("<<=".toList, .augAssign), ("**=".toList, .augAssign),
  ("->".toList, .arrow), (":=".toList, .colonEq), ("+=".toList, .augAssign),
  ("-=".toList, .augAssign), ("*=".toList, .augAssign), ("/=".toList, .augAssign),
  ("%=".toList, .augAssign), ("@=".toList, .augAssign), ("&=".toList, .augAssign),
  ("|=".toList, .augAssign), ("^=".toList, .augAssign), ("==".toList, .eqEq),
  ("!=".toList, .bangEq), ("<=".toList, .ltEq), (">=".toList, .gtEq), ("**".toList, .starStar),
  ("//".toList, .slashSlash), ("<<".toList, .ltLt), (">>".toList, .gtGt),
  ("(".toList, .lParen), (")".toList, .rParen), ("[".toList, .lBracket), ("]".toList, .rBracket),
  ("\x7b".toList, .lBrace), ("\x7d".toList, .rBrace), (",".toList, .comma), (":".toList, .colon),
  (";".toList, .semicolon), (".".toList, .dot), ("@".toList, .atSign), ("=".toList, .eq),
  ("<".toList, .lt), (">".toList, .gt), ("+".toList, .plus), ("-".toList, .minus),
  ("*".toList, .star), ("/".toList, .slash), ("%".toList, .percent), ("&".toList, .amp),
  ("|".toList, .pipe), ("^".toList, .caret), ("~".toList, .tilde)]

/-- The operator at the front of a text: its kind, and its length without its
first character. -/
def operator? (t : Text) : Option (Kind × Nat) :=
  (operators.find? fun entry => entry.1.isPrefixOf t).map fun (spelling, kind) =>
    (kind, spelling.length - 1)

/-- The identifier or reserved word that begins with `c`. -/
def munchWord (c : Char) (cs : Text) : Kind × Nat :=
  let n := runLength isIdentifierContinue cs
  ((Kind.ofKeyword? (c :: cs.take n)).getD .ident, n)

/-- The longest token at the front of `c :: cs`: its kind, and how many
characters of `cs` belong to it. -/
def munch (c : Char) (cs : Text) : Kind × Nat :=
  if isSpace c then (.whitespace, runLength isSpace cs)
  else if c == '\n' then (.newline, 0)
  else if c == '\r' then
    match cs with
    | '\n' :: _ => (.newline, 1)
    | _ => (.error, 0)
  else if c == '\\' then
    match cs with
    | '\n' :: _ => (.lineContinuation, 1)
    | '\r' :: '\n' :: _ => (.lineContinuation, 2)
    | _ => (.error, 0)
  else if c == '#' then (.comment, runLength (fun c => c != '\r' && c != '\n') cs)
  else
    match StringLiteral.find? (c :: cs) with
    | some (.closed, n) => (.string, n - 1)
    | some (.unclosed, n) => (.error, n - 1)
    | some (.word, n) => (.ident, n - 1)
    | none =>
      if isIdentifierStart c then munchWord c cs
      else if isAsciiDigit c then (.number, NumberLiteral.lengthAfter c cs)
      else if c == '.' && NumberLiteral.pointedLength cs != 0 then
        (.number, NumberLiteral.pointedLength cs)
      else (operator? (c :: cs)).getD (.error, 0)

/-- The tokens of a text that begins at `offset`. -/
def tokenizeFrom (offset : Nat) : Text → List Token
  | [] => []
  | c :: cs =>
    let (kind, n) := munch c cs
    let text : Text := c :: cs.take n
    ⟨kind, text, offset⟩ :: tokenizeFrom (offset + text.bytes) (cs.drop n)
termination_by t => t.length

/-- The tokens of a text, in order. -/
def tokenize (t : Text) : List Token := tokenizeFrom 0 t

theorem spelling_tokenizeFrom (offset : Nat) (t : Text) :
    spelling (tokenizeFrom offset t) = t := by
  fun_induction tokenizeFrom offset t with
  | case1 => rfl
  | case2 offset c cs kind n h text ih => simp_all [spelling, text]

/-- The tokens of a text spell the text. -/
theorem spelling_tokenize (t : Text) : spelling (tokenize t) = t :=
  spelling_tokenizeFrom 0 t

end SceneGate
