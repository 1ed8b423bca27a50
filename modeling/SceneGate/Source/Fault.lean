/-
Faults: what is wrong with a text that does not read as a program, and where.
-/
import SceneGate.Source.Token

namespace SceneGate

/-- The ways in which a text fails to be a program. -/
inductive Fault.Cause where
  /-- A line is indented less than the block before it, but like none around it. -/
  | strayIndentation
  /-- A line is indented where no block opens. -/
  | unexpectedIndent
  /-- A block ends where none is open. -/
  | unexpectedDedent
  /-- A block is missing. -/
  | missingBlock
  /-- A `try` has neither an `except` nor a `finally`. -/
  | missingHandler
  /-- Decorators stand before something else than a function or a class. -/
  | nothingDecorated
  /-- A positional argument follows a keyword argument. -/
  | latePositional
  /-- A token of a certain kind is missing. -/
  | expected (kind : Kind)
  /-- The bracket that `close` would close is closed nowhere. -/
  | neverClosed (close : Kind)
  /-- A string literal has no end. -/
  | unterminatedString
  /-- A character has no place in a program. -/
  | invalidCharacter
  /-- Nothing fits here. -/
  | invalidSyntax
deriving DecidableEq, Repr

/-- The bracket that a closing bracket closes. -/
def openerOf : Kind → Char
  | .rBracket => '['
  | .rBrace => '\x7b'
  | _ => '('

/-- What a reader is told. -/
def Fault.Cause.message : Fault.Cause → Text
  | .strayIndentation => "unindent does not match any outer indentation level".toList
  | .unexpectedIndent => "unexpected indent".toList
  | .unexpectedDedent => "unexpected dedent".toList
  | .missingBlock => "expected an indented block".toList
  | .missingHandler => "expected 'except' or 'finally' block".toList
  | .nothingDecorated => "expected function or class after decorator".toList
  | .latePositional => "positional argument follows keyword argument".toList
  | .expected kind => "expected ".toList ++ kind.displayName.toList
  | .neverClosed close => '\'' :: openerOf close :: "' was never closed".toList
  | .unterminatedString => "unterminated string literal".toList
  | .invalidCharacter => "invalid character".toList
  | .invalidSyntax => "invalid syntax".toList

/-- One fault: its cause and the range of the text it is about. -/
structure Fault where
  cause : Fault.Cause
  start : Nat
  stop : Nat
deriving DecidableEq, Repr

namespace Fault

/-- A fault about one token. -/
def ofToken (cause : Cause) (t : Token) : Fault := ⟨cause, t.offset, t.stop⟩

/-- The fault that begins first; of several, the one recorded first. -/
def first? : List Fault → Option Fault
  | [] => none
  | f :: fs =>
    match first? fs with
    | some g => if g.start < f.start then some g else some f
    | none => some f

/-- Why a token that fits no rule of the lexer does not: an opening quote, after
any letters that may mark a string, was not closed; any other character is
invalid. -/
def ofErrorText (text : Text) : Cause :=
  match text.dropWhile fun c => "rRuUbBfF".toList.contains c with
  | '"' :: _ => .unterminatedString
  | '\'' :: _ => .unterminatedString
  | _ => .invalidCharacter

end Fault

end SceneGate
