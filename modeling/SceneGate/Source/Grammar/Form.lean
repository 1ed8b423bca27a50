/-
Forms: the language the grammar is written in.

A form says how to read the tokens in front of it. Reading answers yes or no,
and the answer decides how `cond` and `loop` go on; it takes tokens, opens and
closes nodes, and records faults, and it never fails. A `Phrase` names a form
of the grammar, so forms can refer to one another.

Nodes can be opened late: `mark` begins a run of parts, and `wrap` in it puts
all parts of the run so far into one node, the way an operator after an
operand turns the operand into the left part of a larger expression.
-/
import SceneGate.Source.Fault

namespace SceneGate

/-- The named forms of the grammar. -/
inductive Phrase where
  -- A name or a path of names.
  | name | nameRef | dottedName
  -- Statements.
  | program | statement | unexpectedIndent | block | simpleStatements | smallStatement
  | expressionStatement | assignedValue | importAlias | importedName | importFrom
  | ifStatement | elseClause | whileStatement | forStatement | withStatement | withItem
  | tryStatement | exceptClause | finallyClause | decorated | function | parameters
  | parameter (annotated : Bool) | classParts
  -- Expressions.
  | expression | namedExpression | starExpressions | starExpression | starTargets | starTarget
  | starNamed | starred | yieldExpression | lambda | disjunction | conjunction | inversion
  | comparison | bitOr | bitXor | bitAnd | shift | sum | product | factor | power | primary
  | atom | parenthesized | list | braced | bracedItems | dictItem | setItem | forClause
  | arguments | argumentsFrom (afterKeyword : Bool) | slices | sliceItem
deriving DecidableEq, Repr

/-- How to read the tokens in front. -/
inductive Form where
  /-- Takes nothing and answers `yes`. -/
  | answer (yes : Bool)
  /-- Is the next token of one of these kinds? -/
  | next (kinds : List Kind)
  /-- Are the next two tokens of these kinds? -/
  | nextTwo (first second : Kind)
  /-- Takes the next token. -/
  | take
  /-- Records a fault at the next token and answers no. -/
  | complain (cause : Fault.Cause)
  /-- Records what is wrong with the next token, an error token, and answers no. -/
  | complainOfToken
  /-- One form after another; the answer is the second one's. -/
  | seq (first second : Form)
  /-- After a yes to `test` one form, after a no the other. -/
  | cond (test yes no : Form)
  /-- As long as `test` answers yes, `body`. -/
  | loop (test body : Form)
  /-- The form of a phrase. -/
  | call (phrase : Phrase)
  /-- The form's parts become one node. -/
  | node (kind : Kind) (body : Form)
  /-- Begins a run of parts. -/
  | mark (body : Form)
  /-- The parts of the present run, with those of the form, become one node. -/
  | wrap (kind : Kind) (body : Form)
  /-- The next token, an opening bracket, the form, and the bracket that closes
  it; the answer is the form's. -/
  | enclosed (close : Kind) (body : Form)
deriving DecidableEq, Repr

namespace Form

/-- Takes nothing. -/
def skip : Form := .answer true

/-- Is the next token of none of these kinds? -/
def nextNot (kinds : List Kind) : Form := .cond (.next kinds) (.answer false) (.answer true)

/-- Both forms' answers must be yes; the second is asked only after a yes. -/
def both (a b : Form) : Form := .cond a b (.answer false)

/-- The form, if the test answers yes. -/
def opt (test body : Form) : Form := .cond test body skip

/-- Takes a token of the kind, if it is next. -/
def eat (k : Kind) : Form := .cond (.next [k]) .take (.answer false)

/-- Takes a token of the kind, or complains that it is missing. -/
def expect (k : Kind) : Form := .cond (.next [k]) .take (.complain (.expected k))

/-- Forms one after another. -/
def seqs : List Form → Form
  | [] => skip
  | [f] => f
  | f :: fs => .seq f (seqs fs)

/-- The form after the first test that answers yes, or else `otherwise`. -/
def select (otherwise : Form) : List (Form × Form) → Form
  | [] => otherwise
  | (test, form) :: rest => .cond test form (select otherwise rest)

/-- Takes a token that a fault made useless. An identifier becomes a name even
here, so that no word of the text goes unseen. -/
def takeStray : Form := .cond (.next [.ident]) (.node .nameRef .take) .take

/-- Passes over tokens up to one of the given kinds, at least one token, and
puts them into an error node. -/
def skipTo (kinds : List Kind) : Form :=
  .node .error
    (.cond (.next (.endOfFile :: kinds))
      (opt (nextNot [.endOfFile]) takeStray)
      (.loop (nextNot (.endOfFile :: kinds)) takeStray))

/-- Complains and puts the next token into an error node. -/
def rejectToken (cause : Fault.Cause) : Form :=
  .seq (.complain cause) (.node .error takeStray)

/-- A word or sign that is a node by itself. -/
def single (k : Kind) : Form := .node k .take

/-- `item` once and then again after each comma that `again` says yes after. -/
def commaList (again item : Form) : Form := .seq item (.loop (both (eat .comma) again) item)

/-- Operands joined by operators of one strength, grouped to the left: each
operator puts what stands before it into a node. -/
def leftChain (k : Kind) (operators : List Kind) (operand : Phrase) : Form :=
  .mark (.seq (.call operand)
    (.loop (.next operators) (.wrap k (.seq .take (.call operand)))))

end Form

end SceneGate
