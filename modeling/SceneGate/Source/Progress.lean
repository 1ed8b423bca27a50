/-
How far reading has come: what has been built of the node that is open, the
tokens still to read, and the faults found.

Trivia is not given to a node before something that means more follows it: it
waits in `pending` until the next node opens or the next token is taken. So a
node begins with a token that is not trivia and, where nothing is missing, ends
with one.
-/
import SceneGate.Source.Fault
import SceneGate.Source.Tree

namespace SceneGate

/-- A token that is not trivia, with the trivia after it. -/
structure Lexeme where
  token : Token
  trail : List Token
deriving DecidableEq, Repr

namespace Lexeme

/-- The trivia at the front of the tokens, and the lexemes after it. -/
def split : List Token → List Token × List Lexeme
  | [] => ([], [])
  | t :: ts =>
    let (trail, lexemes) := split ts
    if t.isTrivia then (t :: trail, lexemes) else ([], ⟨t, trail⟩ :: lexemes)

/-- The tokens of lexemes in a row. -/
def tokens (ls : List Lexeme) : List Token := ls.flatMap fun l => l.token :: l.trail

/-- Nothing is lost in splitting tokens into lexemes. -/
theorem split_tokens (ts : List Token) : (split ts).1 ++ tokens (split ts).2 = ts := by
  induction ts with
  | nil => rfl
  | cons t ts ih =>
    simp only [split]
    split
    · simp [ih]
    · simp only [tokens, List.flatMap_cons, List.nil_append, List.cons_append] at ih ⊢
      rw [ih]

end Lexeme

/-- What reading needs to know of the whole text: where it ends, and the offsets
of the opening brackets that nothing closes. -/
structure Surroundings where
  stop : Nat
  unclosed : List Nat
deriving DecidableEq, Repr

/-- The offsets of the brackets that are still open after the tokens, the
innermost first, when brackets are matched by nesting alone. -/
def openBrackets (openOffsets : List Nat) : List Token → List Nat
  | [] => openOffsets
  | t :: ts =>
    match t.kind with
    | .lParen | .lBracket | .lBrace => openBrackets (t.offset :: openOffsets) ts
    | .rParen | .rBracket | .rBrace => openBrackets (openOffsets.drop 1) ts
    | _ => openBrackets openOffsets ts

/-- What reading needs to know of a program's tokens. -/
def Surroundings.ofTokens (ts : List Token) : Surroundings :=
  ⟨(ts.getLast?.map Token.stop).getD 0, openBrackets [] ts⟩

/-- How far reading has come. -/
structure Progress where
  /-- The parts of the open node, or of the present run in it, the last first. -/
  built : List Tree
  /-- Trivia that belongs to no node yet. -/
  pending : List Token
  /-- What is still to read. -/
  rest : List Lexeme
  /-- The faults recorded, the last first. -/
  faults : List Fault
deriving Repr

namespace Progress

/-- The kind of the next token. -/
def current (s : Progress) : Kind :=
  match s.rest with
  | l :: _ => l.token.kind
  | [] => .endOfFile

/-- The kind of the token after the next. -/
def following (s : Progress) : Kind :=
  match s.rest with
  | _ :: l :: _ => l.token.kind
  | _ => .endOfFile

/-- The offset of the next token, or of the end. -/
def offset (env : Surroundings) (s : Progress) : Nat :=
  match s.rest with
  | l :: _ => l.token.offset
  | [] => env.stop

/-- Gives the waiting trivia to the open node. -/
def flush (s : Progress) : Progress :=
  { s with built := (s.pending.map Tree.leaf).reverse ++ s.built, pending := [] }

/-- Takes the next token, with the waiting trivia, into the open node. -/
def take (s : Progress) : Progress :=
  let s := s.flush
  match s.rest with
  | l :: ls => { s with built := .leaf l.token :: s.built, pending := l.trail, rest := ls }
  | [] => s

/-- Records a fault, unless the last one recorded begins at the same place. -/
def record (s : Progress) (f : Fault) : Progress :=
  if (s.faults.head?.map Fault.start) = some f.start then s
  else { s with faults := f :: s.faults }

/-- Records a fault about the next token, or about the end. -/
def complain (env : Surroundings) (cause : Fault.Cause) (s : Progress) : Progress :=
  match s.rest with
  | l :: _ => s.record (Fault.ofToken cause l.token)
  | [] => s.record ⟨cause, env.stop, env.stop⟩

/-- What is wrong with the next token, if it is an error token. -/
def errorCause (s : Progress) : Fault.Cause :=
  match s.rest with
  | l :: _ => Fault.ofErrorText l.token.text
  | [] => .invalidCharacter

/-- Takes the closing bracket of the one at `opened`. If another token is next,
complains: about the opening bracket if nothing closes it, and otherwise about
the next token. -/
def close (env : Surroundings) (bracket : Kind) (opened : Nat) (s : Progress) : Progress :=
  if s.current = bracket then s.take
  else if env.unclosed.contains opened then
    s.record ⟨.neverClosed bracket, opened, opened + 1⟩
  else s.complain env (.expected bracket)

end Progress

end SceneGate
