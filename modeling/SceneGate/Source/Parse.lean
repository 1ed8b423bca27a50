/-
From a text to its syntax tree. `Form.read` carries out the forms of the
grammar, and `parse` lays a text out and reads it as a program. Every text has
a tree, and all its tokens are in it; a text that is not a program has faults
besides.
-/
import SceneGate.Source.Grammar.Statements
import SceneGate.Source.Layout
import SceneGate.Source.Progress
import SceneGate.Text.Lines

namespace SceneGate

/-- Reads a form, with `fuel` to bound how deeply forms are read inside one
another: the form's answer and how far reading has come after it, or `none`
when the fuel is used up. -/
def Form.read (env : Surroundings) : (fuel : Nat) → Form → Progress → Option (Bool × Progress)
  | 0, _, _ => none
  | n + 1, form, s =>
    match form with
    | .answer yes => some (yes, s)
    | .next kinds => some (kinds.contains s.current, s)
    | .nextTwo first second => some (s.current == first && s.following == second, s)
    | .take => some (true, s.take)
    | .complain cause => some (false, s.complain env cause)
    | .complainOfToken => some (false, s.complain env s.errorCause)
    | .seq first second =>
      match read env n first s with
      | some (_, s) => read env n second s
      | none => none
    | .cond test yes no =>
      match read env n test s with
      | some (true, s) => read env n yes s
      | some (false, s) => read env n no s
      | none => none
    | .loop test body =>
      match read env n test s with
      | some (true, s) =>
        match read env n body s with
        | some (_, s) => read env n (.loop test body) s
        | none => none
      | some (false, s) => some (false, s)
      | none => none
    | .call phrase => read env n phrase.form s
    | .node kind body =>
      let s := s.flush
      match read env n body { s with built := [] } with
      | some (yes, s') =>
        some (yes, { s' with built := .node kind s'.built.reverse :: s.built })
      | none => none
    | .mark body =>
      let s := s.flush
      match read env n body { s with built := [] } with
      | some (yes, s') => some (yes, { s' with built := s'.built ++ s.built })
      | none => none
    | .wrap kind body =>
      match read env n body s with
      | some (yes, s') => some (yes, { s' with built := [.node kind s'.built.reverse] })
      | none => none
    | .enclosed bracket body =>
      match read env n body s.take with
      | some (yes, s') => some (yes, s'.close env bracket (s.offset env))
      | none => none

/-- Enough fuel to read a program of so many tokens. Between two tokens that are
taken, forms are read inside one another far less than 512 deep. -/
def fuelFor (tokenCount : Nat) : Nat := 512 * (tokenCount + 1)

/-- Where reading begins: nothing is built, and the faults of the layout are on
record. -/
def Progress.start (tokens : List Token) (faults : List Fault) : Progress :=
  let (pending, rest) := Lexeme.split tokens
  ⟨[], pending, rest, faults.reverse⟩

/-- Reads all tokens as a program. -/
def readProgram (tokens : List Token) (faults : List Fault) : Progress :=
  let s := Progress.start tokens faults
  match (Form.call .program).read (.ofTokens tokens) (fuelFor tokens.length) s with
  | some (_, s) => s
  | none => s

/-- The root: what has been built, and what is left, which is trivia. -/
def Progress.root (s : Progress) : Tree :=
  .node .sourceFile (s.built.reverse ++ (s.pending ++ Lexeme.tokens s.rest).map Tree.leaf)

/-- A text that has been read: its syntax tree, its faults in the order in which
they were recorded, and where its lines begin. -/
structure Parse where
  tree : Tree
  faults : List Fault
  lines : LineIndex
deriving Repr

/-- Reads a text as a program. -/
def parse (t : Text) : Parse :=
  let laid := layout t
  let s := readProgram laid.tokens laid.faults
  ⟨s.root, s.faults.reverse, .ofText t⟩

namespace Parse

/-- Whether the text is a program. -/
def ok (p : Parse) : Bool := p.faults.isEmpty

/-- The fault that begins first. -/
def firstFault? (p : Parse) : Option Fault := Fault.first? p.faults

/-- The line that an offset lies on. -/
def lineOf (p : Parse) (offset : Nat) : Nat := p.lines.lineOf offset

end Parse

end SceneGate
