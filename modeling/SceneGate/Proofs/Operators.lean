/-
Expressions of operators, and how they are written. An expression stands in a
position that admits it up to a certain strength; one that binds looser is put in
brackets there, and no other is (`inPosition`). What is written has the operator
structure of the expression, once the brackets are taken away
(`Expr.unbracketed_tree`), and is words that can be told apart (`Expr.legible`). No
two expressions have the same structure (`Expr.shape_injective`).
-/
import SceneGate.Proofs.Written

namespace SceneGate

/-! ## Expressions -/

/-- A name that is no reserved word. -/
structure Identifier where
  first : Char
  others : Text
  starts : isIdentifierStart first = true
  goesOn : others.all isIdentifierContinue = true
  free : Kind.ofKeyword? (first :: others) = none

/-- Operators between two operands that group to the left. -/
inductive BinaryOp where
  | or | and | bitOr | bitXor | bitAnd | shiftLeft | shiftRight | plus | minus | times | divide
  | floor | modulo | matrix
deriving DecidableEq, Repr

/-- Signs before an operand. -/
inductive Sign where
  | plus | minus | invert
deriving DecidableEq, Repr

/-- Operators that compare. -/
inductive CompareOp where
  | equal | unequal | less | greater | atMost | atLeast | isIn | notIn | is | isNot
deriving DecidableEq, Repr

mutual

/-- An expression of operators over names. -/
inductive Expr where
  | name (x : Identifier)
  | binary (op : BinaryOp) (left right : Expr)
  | power (base exponent : Expr)
  | signed (sign : Sign) (operand : Expr)
  | not (operand : Expr)
  | compare (first : Expr) (others : Comparisons)
  | conditional (value condition otherwise : Expr)

/-- The further operands of a chain of comparisons, each behind its operator. -/
inductive Comparisons where
  | last (op : CompareOp) (operand : Expr)
  | more (op : CompareOp) (operand : Expr) (others : Comparisons)

end

/-! ## Strength -/

/-- How tightly expressions bind, from the tightest to the loosest. -/
inductive Level where
  | primary | power | factor | product | sum | shift | bitAnd | bitXor | bitOr | comparison
  | inversion | conjunction | disjunction | conditional
deriving DecidableEq, Repr

namespace Level

/-- The place of a level, counted from the tightest. -/
def rank : Level → Nat
  | primary => 0
  | power => 1
  | factor => 2
  | product => 3
  | sum => 4
  | shift => 5
  | bitAnd => 6
  | bitXor => 7
  | bitOr => 8
  | comparison => 9
  | inversion => 10
  | conjunction => 11
  | disjunction => 12
  | conditional => 13

/-- The next tighter level. -/
def below : Level → Level
  | primary | power => primary
  | factor => power
  | product => factor
  | sum => product
  | shift => sum
  | bitAnd => shift
  | bitXor => bitAnd
  | bitOr => bitXor
  | comparison => bitOr
  | inversion => comparison
  | conjunction => inversion
  | disjunction => conjunction
  | conditional => disjunction

theorem rank_injective {l m : Level} (h : l.rank = m.rank) : l = m := by
  cases l <;> cases m <;> first | rfl | cases h

theorem rank_below {l : Level} (h : l ≠ primary) : l.below.rank + 1 = l.rank := by
  cases l <;> simp_all [below, rank]

end Level

/-- How tightly an operator binds. -/
def BinaryOp.level : BinaryOp → Level
  | or => .disjunction
  | and => .conjunction
  | bitOr => .bitOr
  | bitXor => .bitXor
  | bitAnd => .bitAnd
  | shiftLeft | shiftRight => .shift
  | plus | minus => .sum
  | times | divide | floor | modulo | matrix => .product

/-- How tightly an expression binds. -/
def Expr.level : Expr → Level
  | name _ => .primary
  | binary op _ _ => op.level
  | power _ _ => .power
  | signed _ _ => .factor
  | not _ => .inversion
  | compare _ _ => .comparison
  | conditional _ _ _ => .conditional

/-! ## Words -/

/-- The word of a name. -/
def Identifier.word (x : Identifier) : Word := ⟨.ident, x.first :: x.others⟩

@[simp] theorem Identifier.kind_word (x : Identifier) : x.word.kind = .ident := rfl

/-- The word of an operator. -/
def BinaryOp.word : BinaryOp → Word
  | or => ⟨.orKw, "or".toList⟩
  | and => ⟨.andKw, "and".toList⟩
  | bitOr => ⟨.pipe, "|".toList⟩
  | bitXor => ⟨.caret, "^".toList⟩
  | bitAnd => ⟨.amp, "&".toList⟩
  | shiftLeft => ⟨.ltLt, "<<".toList⟩
  | shiftRight => ⟨.gtGt, ">>".toList⟩
  | plus => ⟨.plus, "+".toList⟩
  | minus => ⟨.minus, "-".toList⟩
  | times => ⟨.star, "*".toList⟩
  | divide => ⟨.slash, "/".toList⟩
  | floor => ⟨.slashSlash, "//".toList⟩
  | modulo => ⟨.percent, "%".toList⟩
  | matrix => ⟨.atSign, "@".toList⟩

/-- The word of a sign. -/
def Sign.word : Sign → Word
  | plus => ⟨.plus, "+".toList⟩
  | minus => ⟨.minus, "-".toList⟩
  | invert => ⟨.tilde, "~".toList⟩

namespace Word

def starStar : Word := ⟨.starStar, "**".toList⟩

def notWord : Word := ⟨.notKw, "not".toList⟩

def inWord : Word := ⟨.inKw, "in".toList⟩

def isWord : Word := ⟨.isKw, "is".toList⟩

def ifWord : Word := ⟨.ifKw, "if".toList⟩

def elseWord : Word := ⟨.elseKw, "else".toList⟩

@[simp] theorem kind_starStar : starStar.kind = .starStar := rfl

@[simp] theorem kind_notWord : notWord.kind = .notKw := rfl

@[simp] theorem kind_inWord : inWord.kind = .inKw := rfl

@[simp] theorem kind_isWord : isWord.kind = .isKw := rfl

@[simp] theorem kind_ifWord : ifWord.kind = .ifKw := rfl

@[simp] theorem kind_elseWord : elseWord.kind = .elseKw := rfl

end Word

/-- The words of an operator that compares, with a blank between two. -/
def CompareOp.written : CompareOp → List Word
  | equal => [⟨.eqEq, "==".toList⟩]
  | unequal => [⟨.bangEq, "!=".toList⟩]
  | less => [⟨.lt, "<".toList⟩]
  | greater => [⟨.gt, ">".toList⟩]
  | atMost => [⟨.ltEq, "<=".toList⟩]
  | atLeast => [⟨.gtEq, ">=".toList⟩]
  | isIn => [.inWord]
  | notIn => [.notWord, .blank, .inWord]
  | is => [.isWord]
  | isNot => [.isWord, .blank, .notWord]

/-- Where blanks stand that are a matter of taste: inside brackets, and behind
signs. -/
structure Spacing where
  inBrackets : Bool
  behindSigns : Bool
deriving DecidableEq, Repr

/-- A blank, or none. -/
def blankIf (yes : Bool) : List Word := if yes then [.blank] else []

/-- What binds at `level`, in a position that admits what binds at `position` or
tighter. -/
def inPosition (σ : Spacing) (position level : Level) (ws : List Word) : List Word :=
  if level.rank ≤ position.rank then ws
  else .leftParen :: (blankIf σ.inBrackets ++ ws ++ blankIf σ.inBrackets ++ [.rightParen])

mutual

/-- An expression as it is written, with single blanks between its words. -/
def Expr.written (σ : Spacing) : Expr → List Word
  | .name x => [x.word]
  | .binary op l r =>
    inPosition σ op.level l.level (l.written σ) ++ .blank :: op.word :: .blank ::
      inPosition σ op.level.below r.level (r.written σ)
  | .power b e =>
    inPosition σ .primary b.level (b.written σ) ++ .blank :: .starStar :: .blank ::
      inPosition σ .factor e.level (e.written σ)
  | .signed sign e =>
    sign.word :: (blankIf σ.behindSigns ++ inPosition σ .factor e.level (e.written σ))
  | .not e => .notWord :: .blank :: inPosition σ .inversion e.level (e.written σ)
  | .compare e others => inPosition σ .bitOr e.level (e.written σ) ++ others.written σ
  | .conditional v c o =>
    inPosition σ .disjunction v.level (v.written σ) ++ .blank :: .ifWord :: .blank ::
      (inPosition σ .disjunction c.level (c.written σ) ++ .blank :: .elseWord :: .blank ::
        inPosition σ .conditional o.level (o.written σ))

/-- Comparisons as they are written behind the first operand. -/
def Comparisons.written (σ : Spacing) : Comparisons → List Word
  | .last op e => .blank :: (op.written ++ .blank :: inPosition σ .bitOr e.level (e.written σ))
  | .more op e others =>
    .blank :: (op.written ++ .blank :: (inPosition σ .bitOr e.level (e.written σ) ++
      others.written σ))

end

/-! ## Structure -/

/-- The node of an operator with its operands. -/
def BinaryOp.node : BinaryOp → Kind
  | or | and => .boolExpr
  | _ => .binExpr

/-- The words of an operator that compares. -/
def CompareOp.parts (op : CompareOp) : List (Outline Word) :=
  (Word.unspaced op.written).map .word

mutual

/-- The operator structure of an expression: a node for each operator with its
operands, one for a whole chain of comparisons. -/
def Expr.shape : Expr → Outline Word
  | .name x => .node .nameRef [.word x.word]
  | .binary op l r => .node op.node [l.shape, .word op.word, r.shape]
  | .power b e => .node .binExpr [b.shape, .word .starStar, e.shape]
  | .signed sign e => .node .unaryExpr [.word sign.word, e.shape]
  | .not e => .node .unaryExpr [.word .notWord, e.shape]
  | .compare e others => .node .compareExpr (e.shape :: others.shapes)
  | .conditional v c o =>
    .node .condExpr [v.shape, .word .ifWord, c.shape, .word .elseWord, o.shape]

/-- The parts of a chain of comparisons behind its first operand. -/
def Comparisons.shapes : Comparisons → List (Outline Word)
  | .last op e => op.parts ++ [e.shape]
  | .more op e others => op.parts ++ e.shape :: others.shapes

end

/-- The outline of what binds at `level`, in a position. -/
def treeIn (position level : Level) (o : Outline Word) : Outline Word :=
  if level.rank ≤ position.rank then o
  else .node .parenExpr [.word .leftParen, o, .word .rightParen]

mutual

/-- The outline of an expression as it is written, brackets included. -/
def Expr.tree : Expr → Outline Word
  | .name x => .node .nameRef [.word x.word]
  | .binary op l r =>
    .node op.node [treeIn op.level l.level l.tree, .word op.word,
      treeIn op.level.below r.level r.tree]
  | .power b e =>
    .node .binExpr [treeIn .primary b.level b.tree, .word .starStar,
      treeIn .factor e.level e.tree]
  | .signed sign e => .node .unaryExpr [.word sign.word, treeIn .factor e.level e.tree]
  | .not e => .node .unaryExpr [.word .notWord, treeIn .inversion e.level e.tree]
  | .compare e others => .node .compareExpr (treeIn .bitOr e.level e.tree :: others.trees)
  | .conditional v c o =>
    .node .condExpr [treeIn .disjunction v.level v.tree, .word .ifWord,
      treeIn .disjunction c.level c.tree, .word .elseWord, treeIn .conditional o.level o.tree]

/-- The outlines of comparisons as they are written. -/
def Comparisons.trees : Comparisons → List (Outline Word)
  | .last op e => op.parts ++ [treeIn .bitOr e.level e.tree]
  | .more op e others => op.parts ++ treeIn .bitOr e.level e.tree :: others.trees

end

namespace Outline

/-- Whether an outline is that of a node. -/
def isNode {α : Type} : Outline α → Bool
  | .word _ => false
  | .node _ _ => true

@[simp] theorem isNode_word {α : Type} (w : α) : (word w).isNode = false := rfl

@[simp] theorem isNode_node {α : Type} (kind : Kind) (os : List (Outline α)) :
    (node kind os).isNode = true := rfl

mutual

/-- An outline without the nodes of brackets: what stands between the brackets takes
the place of the node. -/
def unbracketed {α : Type} : Outline α → List (Outline α)
  | .word w => [.word w]
  | .node kind os =>
    if kind = .parenExpr then (unbracketedAll os).filter isNode
    else [.node kind (unbracketedAll os)]

/-- Outlines without the nodes of brackets. -/
def unbracketedAll {α : Type} : List (Outline α) → List (Outline α)
  | [] => []
  | o :: os => o.unbracketed ++ unbracketedAll os

end

section Unbracketed

variable {α : Type} {kind : Kind} {o : Outline α} {os us : List (Outline α)}

@[simp] theorem unbracketed_word (w : α) : (word w).unbracketed = [word w] := by
  simp [unbracketed]

@[simp] theorem unbracketedAll_nil : unbracketedAll ([] : List (Outline α)) = [] := by
  simp [unbracketedAll]

@[simp] theorem unbracketedAll_cons :
    unbracketedAll (o :: os) = o.unbracketed ++ unbracketedAll os := by simp [unbracketedAll]

@[simp] theorem unbracketedAll_append :
    unbracketedAll (os ++ us) = unbracketedAll os ++ unbracketedAll us := by
  induction os with
  | nil => simp
  | cons o os ih => simp [ih]

theorem unbracketed_node (h : kind ≠ .parenExpr) :
    (node kind os).unbracketed = [node kind (unbracketedAll os)] := by simp [unbracketed, h]

end Unbracketed

end Outline

theorem Expr.isNode_shape (e : Expr) : e.shape.isNode = true := by
  cases e <;> simp [shape]

theorem Expr.unbracketed_treeIn {e : Expr} (h : e.tree.unbracketed = [e.shape]) (position : Level) :
    (treeIn position e.level e.tree).unbracketed = [e.shape] := by
  unfold treeIn
  split
  · exact h
  · simp [Outline.unbracketed, h, e.isNode_shape]

@[simp] theorem CompareOp.unbracketed_parts (op : CompareOp) :
    Outline.unbracketedAll op.parts = op.parts := by
  cases op <;> simp [parts, written, Word.unspaced, Word.blank, Word.notWord, Word.inWord,
    Word.isWord, Kind.isTrivia]

theorem BinaryOp.node_ne (op : BinaryOp) : op.node ≠ .parenExpr := by cases op <;> decide

open Outline in
mutual

/-- Without brackets, what is written has the structure of the expression. -/
theorem Expr.unbracketed_tree : ∀ e : Expr, e.tree.unbracketed = [e.shape]
  | .name x => by simp [Expr.tree, Expr.shape, unbracketed_node]
  | .binary op l r => by
    simp [Expr.tree, Expr.shape, unbracketed_node op.node_ne,
      Expr.unbracketed_treeIn l.unbracketed_tree, Expr.unbracketed_treeIn r.unbracketed_tree]
  | .power b e => by
    simp [Expr.tree, Expr.shape, unbracketed_node,
      Expr.unbracketed_treeIn b.unbracketed_tree, Expr.unbracketed_treeIn e.unbracketed_tree]
  | .signed sign e | .not e => by
    simp [Expr.tree, Expr.shape, unbracketed_node, Expr.unbracketed_treeIn e.unbracketed_tree]
  | .compare e others => by
    simp [Expr.tree, Expr.shape, unbracketed_node, Expr.unbracketed_treeIn e.unbracketed_tree,
      others.unbracketed_trees]
  | .conditional v c o => by
    simp [Expr.tree, Expr.shape, unbracketed_node, Expr.unbracketed_treeIn v.unbracketed_tree,
      Expr.unbracketed_treeIn c.unbracketed_tree, Expr.unbracketed_treeIn o.unbracketed_tree]

theorem Comparisons.unbracketed_trees : ∀ others : Comparisons,
    unbracketedAll others.trees = others.shapes
  | .last op e => by
    simp [Comparisons.trees, Comparisons.shapes, Expr.unbracketed_treeIn e.unbracketed_tree]
  | .more op e others => by
    simp [Comparisons.trees, Comparisons.shapes, Expr.unbracketed_treeIn e.unbracketed_tree,
      others.unbracketed_trees]

end

/-! ## Structure tells expressions apart -/

theorem Identifier.word_injective {x y : Identifier} (h : x.word = y.word) : x = y := by
  cases x
  cases y
  simpa [Identifier.word] using h

theorem BinaryOp.word_injective {op op' : BinaryOp} (h : op.word = op'.word) : op = op' := by
  have hkind := congrArg Word.kind h
  cases op <;> cases op' <;> first | rfl | cases hkind

theorem BinaryOp.word_ne (op : BinaryOp) : op.word ≠ .starStar := by
  cases op <;> decide

theorem Sign.word_injective {s s' : Sign} (h : s.word = s'.word) : s = s' := by
  have hkind := congrArg Word.kind h
  cases s <;> cases s' <;> first | rfl | cases hkind

theorem Sign.word_ne (s : Sign) : s.word ≠ .notWord := by
  cases s <;> decide

/-- Where the words of an operator end is seen by the node behind them. -/
theorem CompareOp.parts_append {op op' : CompareOp} {o o' : Outline Word}
    {os os' : List (Outline Word)} (ho : o.isNode = true) (ho' : o'.isNode = true)
    (h : op.parts ++ o :: os = op'.parts ++ o' :: os') : op = op' ∧ o = o' ∧ os = os' := by
  cases o with
  | word => cases ho
  | node =>
    cases o' with
    | word => cases ho'
    | node =>
      cases op <;> cases op' <;>
        simp_all [CompareOp.parts, CompareOp.written, Word.unspaced, Word.isWord, Word.notWord,
          Word.inWord, Word.blank, Kind.isTrivia]

theorem Comparisons.shapes_ne_nil (cs : Comparisons) : cs.shapes ≠ [] := by
  cases cs <;> simp [Comparisons.shapes]

mutual

/-- Expressions are told apart by their structure. -/
theorem Expr.shape_injective : ∀ {e e' : Expr}, e.shape = e'.shape → e = e'
  | .name x, e', h => by
    cases e' with
    | name y =>
      obtain rfl : x = y := Identifier.word_injective (by simpa [Expr.shape] using h)
      rfl
    | binary op l r => cases op <;> simp [Expr.shape, BinaryOp.node] at h
    | _ => simp [Expr.shape] at h
  | .binary op l r, e', h => by
    cases e' with
    | binary op' l' r' =>
      simp only [Expr.shape, Outline.node.injEq, List.cons.injEq, Outline.word.injEq] at h
      obtain ⟨-, hl, hop, hr, -⟩ := h
      rw [BinaryOp.word_injective hop, Expr.shape_injective hl, Expr.shape_injective hr]
    | power b e => simp [Expr.shape, op.word_ne] at h
    | _ => cases op <;> simp [Expr.shape, BinaryOp.node] at h
  | .power b e, e', h => by
    cases e' with
    | power b' e' =>
      simp only [Expr.shape, Outline.node.injEq, List.cons.injEq] at h
      obtain ⟨-, hb, -, he, -⟩ := h
      rw [Expr.shape_injective hb, Expr.shape_injective he]
    | binary op l r => simp [Expr.shape, op.word_ne.symm] at h
    | _ => simp [Expr.shape] at h
  | .signed s e, e', h => by
    cases e' with
    | signed s' e' =>
      simp only [Expr.shape, Outline.node.injEq, List.cons.injEq, Outline.word.injEq] at h
      obtain ⟨-, hs, he, -⟩ := h
      rw [Sign.word_injective hs, Expr.shape_injective he]
    | not e' => simp [Expr.shape, s.word_ne] at h
    | binary op l r => cases op <;> simp [Expr.shape, BinaryOp.node] at h
    | _ => simp [Expr.shape] at h
  | .not e, e', h => by
    cases e' with
    | not e' =>
      simp only [Expr.shape, Outline.node.injEq, List.cons.injEq] at h
      rw [Expr.shape_injective h.2.2.1]
    | signed s e' => simp [Expr.shape, s.word_ne.symm] at h
    | binary op l r => cases op <;> simp [Expr.shape, BinaryOp.node] at h
    | _ => simp [Expr.shape] at h
  | .compare e others, e', h => by
    cases e' with
    | compare e' others' =>
      simp only [Expr.shape, Outline.node.injEq, List.cons.injEq] at h
      rw [Expr.shape_injective h.2.1, Comparisons.shapes_injective h.2.2]
    | binary op l r => cases op <;> simp [Expr.shape, BinaryOp.node] at h
    | _ => simp [Expr.shape] at h
  | .conditional v c o, e', h => by
    cases e' with
    | conditional v' c' o' =>
      simp only [Expr.shape, Outline.node.injEq, List.cons.injEq] at h
      obtain ⟨-, hv, -, hc, -, ho, -⟩ := h
      rw [Expr.shape_injective hv, Expr.shape_injective hc, Expr.shape_injective ho]
    | binary op l r => cases op <;> simp [Expr.shape, BinaryOp.node] at h
    | _ => simp [Expr.shape] at h

theorem Comparisons.shapes_injective : ∀ {cs cs' : Comparisons}, cs.shapes = cs'.shapes → cs = cs'
  | .last op e, cs', h => by
    cases cs' with
    | last op' e' =>
      obtain ⟨rfl, he, -⟩ := CompareOp.parts_append e.isNode_shape e'.isNode_shape h
      rw [Expr.shape_injective he]
    | more op' e' others =>
      obtain ⟨-, -, hnil⟩ := CompareOp.parts_append e.isNode_shape e'.isNode_shape h
      exact absurd hnil.symm others.shapes_ne_nil
  | .more op e others, cs', h => by
    cases cs' with
    | last op' e' =>
      obtain ⟨-, -, hnil⟩ := CompareOp.parts_append e.isNode_shape e'.isNode_shape h
      exact absurd hnil others.shapes_ne_nil
    | more op' e' others' =>
      obtain ⟨rfl, he, hothers⟩ := CompareOp.parts_append e.isNode_shape e'.isNode_shape h
      rw [Expr.shape_injective he, Comparisons.shapes_injective hothers]

end

/-! ## What expressions begin with -/

/-- The words that an expression which binds at a level or tighter can begin with. -/
inductive Opener : Level → Word → Prop
  | name (x : Identifier) : Opener l x.word
  | bracket : Opener l .leftParen
  | sign (sign : Sign) : Level.factor.rank ≤ l.rank → Opener l sign.word
  | not : Level.inversion.rank ≤ l.rank → Opener l .notWord

theorem Opener.mono {l m : Level} {w : Word} (h : Opener l w) (hle : l.rank ≤ m.rank) :
    Opener m w := by
  cases h with
  | name x => exact .name x
  | bracket => exact .bracket
  | sign s h => exact .sign s (Nat.le_trans h hle)
  | not h => exact .not (Nat.le_trans h hle)

/-- No operator is made longer by such a word. -/
theorem Opener.not_lengthening {l : Level} {w : Word} (h : Opener l w) :
    ∀ x ∈ w.text.head?, x ∉ Word.lengthening := by
  cases h with
  | name x =>
    have hall : ∀ c ∈ Word.lengthening, isIdentifierContinue c = false := by decide
    intro c hc hmem
    obtain rfl : x.first = c := by simpa [Identifier.word] using hc
    have hletter := isIdentifierContinue_of_start x.starts
    rw [hall _ hmem] at hletter
    cases hletter
  | bracket => decide
  | sign s _ => cases s <;> decide
  | not _ => decide

section Written

variable {σ : Spacing} {ws : List Word} {p l : Level}

theorem opener_inPosition (h : ∃ w vs, ws = w :: vs ∧ Opener l w) :
    ∃ w vs, inPosition σ p l ws = w :: vs ∧ Opener p w := by
  unfold inPosition
  split
  · rename_i hle
    obtain ⟨w, vs, rfl, hw⟩ := h
    exact ⟨w, vs, rfl, hw.mono hle⟩
  · exact ⟨_, _, rfl, .bracket⟩

theorem Expr.opener : ∀ e : Expr, ∃ w vs, e.written σ = w :: vs ∧ Opener e.level w
  | .name x => ⟨x.word, [], by simp [Expr.written], .name x⟩
  | .binary op l r => by
    obtain ⟨w, vs, hws, hw⟩ := opener_inPosition (σ := σ) (p := op.level) l.opener
    exact ⟨w, _, by rw [Expr.written, hws]; rfl, hw⟩
  | .power b e => by
    obtain ⟨w, vs, hws, hw⟩ := opener_inPosition (σ := σ) (p := .primary) b.opener
    exact ⟨w, _, by rw [Expr.written, hws]; rfl, hw.mono (by simp [Expr.level, Level.rank])⟩
  | .signed s e => ⟨s.word, _, by rw [Expr.written], .sign s (by simp [Expr.level])⟩
  | .not e => ⟨.notWord, _, by rw [Expr.written], .not (by simp [Expr.level])⟩
  | .compare e others => by
    obtain ⟨w, vs, hws, hw⟩ := opener_inPosition (σ := σ) (p := .bitOr) e.opener
    exact ⟨w, _, by rw [Expr.written, hws]; rfl, hw.mono (by simp [Expr.level, Level.rank])⟩
  | .conditional v c o => by
    obtain ⟨w, vs, hws, hw⟩ := opener_inPosition (σ := σ) (p := .disjunction) v.opener
    exact ⟨w, _, by rw [Expr.written, hws]; rfl, hw.mono (by simp [Expr.level, Level.rank])⟩

theorem not_lengthening_of_opener (h : ∃ w vs, ws = w :: vs ∧ Opener l w) (hws : Legible ws) :
    ∀ x ∈ (Word.spell ws).head?, x ∉ Word.lengthening := by
  obtain ⟨w, vs, rfl, hw⟩ := h
  obtain ⟨w', vs', c, cs, heq, -, htext, -⟩ := hws.first
  obtain ⟨rfl, rfl⟩ := List.cons.inj heq
  have hfirst := hw.not_lengthening
  rw [htext] at hfirst
  rw [Word.spell_cons, htext]
  exact hfirst

/-! ## How expressions are cut off -/

theorem Identifier.legible (x : Identifier) : Legible [x.word] := by
  refine Legible.letters x.starts (List.all_eq_true.1 x.goesOn) ?_ ⟨rfl, by decide, fun _ => rfl⟩
  rw [x.free, Option.getD_none]

theorem BinaryOp.legible (op : BinaryOp) : Legible [op.word] := by
  cases op with
  | or | and => exact .keyword (by decide)
  | _ => exact .operator (by decide) (by decide)

theorem CompareOp.legible (op : CompareOp) : Legible op.written := by
  have hnot : Legible [.notWord] := .keyword (by decide)
  have hin : Legible [.inWord] := .keyword (by decide)
  have his : Legible [.isWord] := .keyword (by decide)
  cases op with
  | isIn => exact hin
  | is => exact his
  | notIn => exact hnot.spaced hin
  | isNot => exact his.spaced hnot
  | _ => exact .operator (by decide) (by decide)

theorem blankIf_eq (yes : Bool) : blankIf yes = [] ∨ blankIf yes = [.blank] := by
  cases yes <;> simp [blankIf]

theorem legible_inPosition (h : Legible ws) (hw : ∃ w vs, ws = w :: vs ∧ Opener l w) :
    Legible (inPosition σ p l ws) := by
  unfold inPosition
  split
  · exact h
  · exact .bracketed (blankIf_eq _) h (not_lengthening_of_opener hw h)

theorem legible_signed (s : Sign) (h : Legible ws) (hw : ∃ w vs, ws = w :: vs ∧ Opener l w) :
    Legible (s.word :: (blankIf σ.behindSigns ++ ws)) := by
  have hs : Legible [s.word] := by cases s <;> exact .operator (by decide) (by decide)
  cases σ.behindSigns with
  | true => exact hs.spaced h
  | false =>
    refine hs.append_of_cut h fun rest => ⟨?_, trivial⟩
    have hfirst : ∀ x ∈ (Word.spell ws ++ rest).head?, x ∉ Word.lengthening := by
      have hws := not_lengthening_of_opener hw h
      cases hspell : Word.spell ws with
      | nil => exact absurd hspell h.spell_ne_nil
      | cons c cs => rwa [hspell] at hws
    cases s <;> exact Word.cut_operator (by decide) (by decide) hfirst

mutual

/-- What is written of an expression are words that can be told apart. -/
theorem Expr.legible : ∀ e : Expr, Legible (e.written σ)
  | .name x => by rw [Expr.written]; exact x.legible
  | .binary op l r => by
    rw [Expr.written]
    exact (legible_inPosition l.legible l.opener).spaced
      (op.legible.spaced (legible_inPosition r.legible r.opener))
  | .power b e => by
    have hpower : Legible [.starStar] := .operator (by decide) (by decide)
    rw [Expr.written]
    exact (legible_inPosition b.legible b.opener).spaced
      (hpower.spaced (legible_inPosition e.legible e.opener))
  | .signed s e => by
    rw [Expr.written]
    exact legible_signed s (legible_inPosition e.legible e.opener) (opener_inPosition e.opener)
  | .not e => by
    have hnot : Legible [.notWord] := .keyword (by decide)
    rw [Expr.written]
    exact hnot.spaced (legible_inPosition e.legible e.opener)
  | .compare e others => by
    rw [Expr.written]
    exact others.legible (legible_inPosition e.legible e.opener)
  | .conditional v c o => by
    have hif : Legible [.ifWord] := .keyword (by decide)
    have helse : Legible [.elseWord] := .keyword (by decide)
    rw [Expr.written]
    exact (legible_inPosition v.legible v.opener).spaced
      (hif.spaced ((legible_inPosition c.legible c.opener).spaced
        (helse.spaced (legible_inPosition o.legible o.opener))))

theorem Comparisons.legible : ∀ (others : Comparisons) {ws : List Word}, Legible ws →
    Legible (ws ++ others.written σ)
  | .last op e, ws, h => by
    rw [Comparisons.written]
    exact h.spaced (op.legible.spaced (legible_inPosition e.legible e.opener))
  | .more op e others, ws, h => by
    have hfirst := h.spaced (op.legible.spaced
      (legible_inPosition (σ := σ) (p := .bitOr) e.legible e.opener))
    rw [Comparisons.written]
    simpa using others.legible hfirst

end

end Written

end SceneGate
