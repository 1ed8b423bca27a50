/-
Tokens: the pieces a program text is cut into, each with its place.
-/
import SceneGate.Source.Kind

namespace SceneGate

/-- A piece of the text: its kind, its characters, and the offset where it
begins. Layout tokens have no characters. -/
structure Token where
  kind : Kind
  text : Text
  offset : Nat
deriving DecidableEq, Repr

namespace Token

/-- The offset just past the token. -/
def stop (t : Token) : Nat := t.offset + t.text.bytes

/-- Whether the token is a blank, a comment or a line continuation. -/
def isTrivia (t : Token) : Bool := t.kind.isTrivia

end Token

/-- The text that tokens spell. -/
def spelling (tokens : List Token) : Text := tokens.flatMap Token.text

end SceneGate
