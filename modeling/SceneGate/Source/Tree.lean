/-
Syntax trees. A leaf is a token and a node has a kind and parts; nothing else
is kept, so the text of a tree is what its tokens spell. Where the parts of a
tree lie follows from the lengths of their texts (`Tree.locate`).
-/
import SceneGate.Source.Token

namespace SceneGate

/-- A syntax tree. -/
inductive Tree where
  | leaf (token : Token)
  | node (kind : Kind) (children : List Tree)
deriving Repr

namespace Tree

mutual

/-- The tokens of a tree, from left to right. -/
def tokens : Tree → List Token
  | .leaf t => [t]
  | .node _ children => tokensOf children

/-- The tokens of trees that stand side by side. -/
def tokensOf : List Tree → List Token
  | [] => []
  | t :: ts => tokens t ++ tokensOf ts

end

/-- The text of a tree, trivia inside it included. -/
def text (t : Tree) : Text := spelling t.tokens

/-- The length of a tree's text in bytes. -/
def bytes (t : Tree) : Nat := t.text.bytes

/-- The text of a tree without trivia. -/
def bareText (t : Tree) : Text := spelling (t.tokens.filter fun token => !token.isTrivia)

/-- The kind of a node or of a leaf's token. -/
def kind : Tree → Kind
  | .leaf t => t.kind
  | .node k _ => k

/-- The parts of a node. -/
def parts : Tree → List Tree
  | .leaf _ => []
  | .node _ children => children

/-- Whether the tree is a node. -/
def isNode : Tree → Bool
  | .leaf _ => false
  | .node _ _ => true

/-- The parts of a node that are nodes. -/
def children (t : Tree) : List Tree := t.parts.filter isNode

/-- The tokens directly under a node. -/
def ownTokens (t : Tree) : List Token :=
  t.parts.filterMap fun
    | .leaf token => some token
    | .node _ _ => none

/-- The first part that is a node of the given kind. -/
def child? (k : Kind) (t : Tree) : Option Tree := t.children.find? fun c => c.kind == k

end Tree

/-- A tree in its place: the offset where it begins, and how many nodes it lies
in. -/
structure Located where
  start : Nat
  depth : Nat
  tree : Tree
deriving Repr

/-- The offset just past a tree in its place. -/
def Located.stop (l : Located) : Nat := l.start + l.tree.bytes

namespace Tree

mutual

/-- A tree that begins at `start`, and all trees in it, each before its parts
and the parts from left to right. -/
def locate (start depth : Nat) : Tree → List Located
  | .leaf t => [⟨start, depth, .leaf t⟩]
  | .node k children => ⟨start, depth, .node k children⟩ :: locateAll start (depth + 1) children

/-- Trees that stand side by side from `start` on, with all trees in them. -/
def locateAll (start depth : Nat) : List Tree → List Located
  | [] => []
  | t :: ts => locate start depth t ++ locateAll (start + t.bytes) depth ts

end

/-- The trees of one kind in a tree that begins the text. -/
def findAll (k : Kind) (t : Tree) : List Located :=
  (t.locate 0 0).filter fun l => l.tree.isNode && l.tree.kind == k

end Tree

end SceneGate
