/-
Calls that begin with a string literal, found by their text: the name of what
is called, an opening bracket, a string literal, and whatever follows it on
the line up to the first closing bracket.
-/
import SceneGate.Source.Literal
import SceneGate.Text.Word

namespace SceneGate

/-- A string literal that begins the arguments of a call, and the rest of the
arguments. -/
structure StringArgument where
  /-- Empty, `r` or `R`. -/
  mark : Text
  quote : Char
  content : Text
  rest : Text
deriving DecidableEq, Repr

namespace StringArgument

/-- The arguments as they are written, with the closing bracket. -/
def source (a : StringArgument) : Text :=
  a.mark ++ a.quote :: a.content ++ a.quote :: a.rest ++ [')']

/-- The content of a literal up to its closing quote, and the text after that.
A backslash takes the next character with it, and there is no line feed. -/
def content? (q : Char) : Text → Option (Text × Text)
  | [] => none
  | '\\' :: [] => none
  | '\\' :: c :: cs =>
    if c == '\n' then none
    else (content? q cs).map fun (content, after) => ('\\' :: c :: content, after)
  | c :: cs =>
    if c == q then some ([], cs)
    else if c == '\n' then none
    else (content? q cs).map fun (content, after) => (c :: content, after)

/-- The arguments that begin with a literal with the given mark and quote, whose
content begins the text. -/
def afterQuote? (mark : Text) (q : Char) (t : Text) : Option StringArgument :=
  match content? q t with
  | some (content, after) =>
    let rest := after.takeWhile fun c => c != ')' && c != '\n'
    if (after.drop rest.length).head? = some ')' then some ⟨mark, q, content, rest⟩ else none
  | none => none

/-- The arguments at the front of a text. -/
def read? : Text → Option StringArgument
  | m :: cs =>
    if StringLiteral.isQuote m then afterQuote? [] m cs
    else if m == 'r' || m == 'R' then
      match cs with
      | q :: cs => if StringLiteral.isQuote q then afterQuote? [m] q cs else none
      | [] => none
    else none
  | [] => none

end StringArgument

/-- A call in its place. -/
structure StringCall where
  start : Nat
  callee : Text
  argument : StringArgument
deriving DecidableEq, Repr

namespace StringCall

/-- The call as it is written. -/
def source (call : StringCall) : Text := call.callee ++ '(' :: call.argument.source

/-- The length of the call in bytes. -/
def length (call : StringCall) : Nat := call.source.bytes

/-- Whether a name that follows the character is only the end of a longer name
or of a chain of attributes. -/
def continuesName (before : Option Char) : Bool :=
  match before with
  | some c => c == '_' || c == '.' || isAlphanumeric c
  | none => false

/-- The calls in a text that begins at `offset` after the character `before`.
The count `skip` is of characters that an opening of a call already took. -/
def findFrom (callee : Text) (before : Option Char) (offset : Nat) :
    (skip : Nat) → Text → List StringCall
  | _, [] => []
  | skip + 1, c :: cs => findFrom callee (some c) (offset + c.utf8Size) skip cs
  | 0, c :: cs =>
    let opening := callee ++ ['(']
    if opening.isPrefixOf (c :: cs) then
      let found :=
        if continuesName before then none
        else StringArgument.read? ((c :: cs).drop opening.length)
      let later := findFrom callee (some c) (offset + c.utf8Size) callee.length cs
      match found with
      | some argument => ⟨offset, callee, argument⟩ :: later
      | none => later
    else findFrom callee (some c) (offset + c.utf8Size) 0 cs

/-- The calls of the bare name `callee` in a text, in order. -/
def findAll (callee t : Text) : List StringCall := findFrom callee none 0 0 t

end StringCall

end SceneGate
