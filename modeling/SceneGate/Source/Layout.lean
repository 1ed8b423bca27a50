/-
Layout: which line breaks end a logical line, and where blocks begin and end.

A line break inside brackets, or on a line that holds nothing but blanks and
comments, is whitespace. Every other line break ends a logical line. A line
indented more than the one before it opens a block (an INDENT before its first
token), and a line indented less closes the blocks that are indented more than
it (DEDENTs right after the line break that ended the line before, so blank
lines and comments between the two stay outside the block). The layout tokens
that are added have no characters.
-/
import SceneGate.Source.Fault
import SceneGate.Source.Lexer

namespace SceneGate

/-- Where the next tab stop lies; tab stops are eight columns apart. -/
def nextTabStop (column : Nat) : Nat := (column / 8 + 1) * 8

/-- The column reached by writing a text from a column on. A tab goes to the
next tab stop, and any other character is one column wide. -/
def columnAfter (column : Nat) : Text → Nat
  | [] => column
  | c :: cs => columnAfter (if c == '\t' then nextTabStop column else column + 1) cs

/-- The space between two logical lines: the trivia in it so far, and the
column reached on the present line of the text. -/
structure Gap where
  held : List Token
  column : Nat
deriving DecidableEq, Repr

/-- How far the layout has come. -/
structure Layout where
  /-- The indentation of the open blocks, the innermost first. -/
  levels : List Nat
  /-- How many brackets are open. -/
  depth : Nat
  /-- Where the last logical line ended. -/
  lineEnd : Nat
  /-- The gap, when no logical line has begun since the last one ended. -/
  gap : Option Gap
deriving DecidableEq, Repr

/-- What one token adds: tokens to the program, and faults. -/
structure Layout.Output where
  tokens : List Token
  faults : List Fault
deriving DecidableEq, Repr

namespace Layout

/-- The layout before the first token. -/
def start : Layout := ⟨[], 0, 0, some ⟨[], 0⟩⟩

/-- How many brackets are open after a token. -/
def depthAfter (depth : Nat) : Kind → Nat
  | .lParen | .lBracket | .lBrace => depth + 1
  | .rParen | .rBracket | .rBrace => depth - 1
  | _ => depth

/-- `n` ends of blocks at `offset`. -/
def dedents (n offset : Nat) : List Token := List.replicate n ⟨.dedent, [], offset⟩

/-- The first token of a logical line, with the layout tokens and the gap in
front of it. -/
def beginLine (s : Layout) (g : Gap) (t : Token) : Layout × Output :=
  let depth := depthAfter s.depth t.kind
  let outer := s.levels.dropWhile (g.column < ·)
  let closed := s.levels.length - outer.length
  if s.levels.headD 0 < g.column then
    (⟨g.column :: s.levels, depth, s.lineEnd, none⟩,
      ⟨g.held ++ [⟨.indent, [], t.offset⟩, t], []⟩)
  else if outer.headD 0 = g.column then
    (⟨outer, depth, s.lineEnd, none⟩, ⟨dedents closed s.lineEnd ++ g.held ++ [t], []⟩)
  else
    (⟨g.column :: outer, depth, s.lineEnd, none⟩,
      ⟨dedents closed s.lineEnd ++ g.held ++ [t], [Fault.ofToken .strayIndentation t]⟩)

/-- Lays out one token. -/
def step (s : Layout) (t : Token) : Layout × Output :=
  match s.gap, t.kind with
  | none, .newline =>
    if s.depth = 0 then (⟨s.levels, s.depth, t.stop, some ⟨[], 0⟩⟩, ⟨[t], []⟩)
    else (s, ⟨[⟨.whitespace, t.text, t.offset⟩], []⟩)
  | none, kind => (⟨s.levels, depthAfter s.depth kind, s.lineEnd, none⟩, ⟨[t], []⟩)
  | some g, .newline =>
    (⟨s.levels, s.depth, s.lineEnd, some ⟨g.held ++ [⟨.whitespace, t.text, t.offset⟩], 0⟩⟩,
      ⟨[], []⟩)
  | some g, .lineContinuation =>
    (⟨s.levels, s.depth, s.lineEnd, some ⟨g.held ++ [t], 0⟩⟩, ⟨[], []⟩)
  | some g, kind =>
    if kind.isTrivia then
      (⟨s.levels, s.depth, s.lineEnd, some ⟨g.held ++ [t], columnAfter g.column t.text⟩⟩, ⟨[], []⟩)
    else beginLine s g t

/-- What the end of the text adds: the end of an unfinished logical line, and
the ends of all open blocks. -/
def finish (s : Layout) (stop : Nat) : List Token :=
  match s.gap with
  | none => ⟨.newline, [], stop⟩ :: dedents s.levels.length stop
  | some g => dedents s.levels.length s.lineEnd ++ g.held

/-- Lays out the tokens that are left, up to the end of the text at `stop`. -/
def run (stop : Nat) (s : Layout) : List Token → Output
  | [] => ⟨s.finish stop, []⟩
  | t :: ts =>
    let (s', out) := s.step t
    let rest := run stop s' ts
    ⟨out.tokens ++ rest.tokens, out.faults ++ rest.faults⟩

end Layout

/-- The tokens of a program with its layout, and the faults of its
indentation. -/
def layout (t : Text) : Layout.Output := Layout.start.run t.bytes (tokenize t)

end SceneGate
