/-
What checks and rules want to know of a tree: its imports, classes, functions
and calls, and their names and arguments. Every view also answers for trees of
texts with faults, where parts may be missing.
-/
import SceneGate.Source.Tree

namespace SceneGate

/-- The last name of a name or of a chain of attributes: `f` of `f` and of
`x.f`. -/
def Tree.tailName? (t : Tree) : Option Text :=
  match t.kind with
  | .nameRef => some t.bareText
  | .attributeExpr => (t.child? .name).map Tree.bareText
  | _ => none

/-- The name that a definition, an argument or a parameter has. -/
def Tree.name? (t : Tree) : Option Text := (t.child? .name).map Tree.bareText

/-- An import statement. -/
inductive Import where
  /-- `import a.b, c`: the modules named. -/
  | plain (modules : List Text)
  /-- `from ..a.b import c`: the module, if one is named, and the number of dots
  in front of it. -/
  | fromModule (module : Option Text) (level : Nat)
deriving DecidableEq, Repr

namespace Import

/-- How many dots a token adds in front of a module. -/
def dots : Kind → Nat
  | .dot => 1
  | .ellipsis => 3
  | _ => 0

/-- The import that a statement is. -/
def ofTree? (t : Tree) : Option Import :=
  match t.kind with
  | .importStmt =>
    let aliases := t.children.filter fun c => c.kind == .importAlias
    some (.plain (aliases.filterMap fun a => (a.child? .dottedName).map Tree.bareText))
  | .importFromStmt =>
    some (.fromModule ((t.child? .dottedName).map Tree.bareText)
      (t.ownTokens.foldl (fun level token => level + dots token.kind) 0))
  | _ => none

/-- Whether `path` names the module or something inside it. -/
def isWithin (module path : Text) : Bool :=
  path == module ||
    (module.isPrefixOf path && (path.drop module.length).head? == some '.')

/-- Whether the statement imports the module or something inside it; an import
relative to the program never does. -/
def brings (module : Text) : Import → Bool
  | .plain modules => modules.any (isWithin module)
  | .fromModule (some path) level => level == 0 && isWithin module path
  | .fromModule none _ => false

end Import

/-- One argument of a call. -/
inductive Argument where
  | positional (tree : Tree)
  | keyword (tree : Tree)
  | starred (tree : Tree)
  | doubleStarred (tree : Tree)
deriving Repr

namespace Argument

/-- The argument that a node is. -/
def ofTree? (t : Tree) : Option Argument :=
  match t.kind with
  | .arg => some (.positional t)
  | .keywordArg => some (.keyword t)
  | .starredArg => some (.starred t)
  | .doubleStarredArg => some (.doubleStarred t)
  | _ => none

/-- The node that the argument is. -/
def tree : Argument → Tree
  | .positional t | .keyword t | .starred t | .doubleStarred t => t

/-- What is passed, for arguments that are not unpacked. -/
def value? : Argument → Option Tree
  | .positional t => t.children.head?
  | .keyword t => t.children.find? fun c => c.kind != .name
  | .starred _ | .doubleStarred _ => none

/-- Whether the argument stands by position. -/
def isPositional : Argument → Bool
  | .positional _ => true
  | _ => false

/-- Whether the argument is passed by a name. -/
def isKeyword : Argument → Bool
  | .keyword _ => true
  | _ => false

/-- Whether the argument is passed by the given name. -/
def isNamed (name : Text) : Argument → Bool
  | .keyword t => t.name? == some name
  | _ => false

/-- Whether the argument stands for several. -/
def isUnpacked : Argument → Bool
  | .starred _ | .doubleStarred _ => true
  | _ => false

end Argument

/-- The arguments in an argument list. -/
def Tree.arguments (list : Tree) : List Argument := list.children.filterMap Argument.ofTree?

namespace Call

/-- What is called. -/
def callee? (call : Tree) : Option Tree := call.children.head?

/-- The name of what is called: `f` of `f(x)` and of `y.f(x)`. -/
def calleeName? (call : Tree) : Option Text := (callee? call).bind Tree.tailName?

/-- The argument list of a call. -/
def argumentList? (call : Tree) : Option Tree := call.child? .argList

end Call

namespace ClassDef

/-- The argument list of a class. -/
def argumentList? (cls : Tree) : Option Tree := cls.child? .argList

/-- The names of the bases; the last name of `a.Base`. -/
def baseNames (cls : Tree) : List Text :=
  match argumentList? cls with
  | some list =>
    (list.arguments.filter Argument.isPositional).filterMap fun a => a.value?.bind Tree.tailName?
  | none => []

/-- The block of a class. -/
def body? (cls : Tree) : Option Tree := cls.child? .block

/-- The functions directly in the block of a class. -/
def methods (cls : Tree) : List Tree :=
  match body? cls with
  | some body => body.children.filter fun c => c.kind == .functionDef
  | none => []

end ClassDef

namespace FunctionDef

/-- Whether `async` stands before the function. -/
def isAsync (function : Tree) : Bool := function.ownTokens.any fun t => t.kind == .asyncKw

/-- The parameters of a function. -/
def parameters? (function : Tree) : Option (List Tree) :=
  (function.child? .paramList).map fun list => list.children.filter fun c => c.kind == .param

/-- The block of a function. -/
def body? (function : Tree) : Option Tree := function.child? .block

end FunctionDef

namespace Tree

/-- The imports among the statements of a program. -/
def imports (root : Tree) : List Import := root.children.filterMap Import.ofTree?

/-- The classes among the statements of a program. -/
def classes (root : Tree) : List Tree := root.children.filter fun c => c.kind == .classDef

end Tree

end SceneGate
