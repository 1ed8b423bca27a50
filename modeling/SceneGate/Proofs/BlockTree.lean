/-
Trees whose blocks follow the indentation of their lines. `InBlock` says of
a tree that it can stand in a block of a certain indentation: a word in it that
begins a line has that indentation, except in the blocks inside, which are
indented more. What a reader of the tree wants to know follows by looking at one
node at a time.
-/
import SceneGate.Proofs.LaidOut
import SceneGate.Proofs.TokensKept

namespace SceneGate

/-- Kinds of nodes that may have clauses, each with a keyword on a line of its
own. -/
def Kind.hasClauses (k : Kind) : Bool := [Kind.ifStmt, .forStmt, .whileStmt, .tryStmt].contains k

/-- The first word of a list of tokens, or a layout token before it. -/
def firstWord? (ts : List Token) : Option Token := ts.find? fun k => !k.isTrivia

/-- The first word of a tree. -/
def Tree.firstWord? (t : Tree) : Option Token := SceneGate.firstWord? t.tokens

/-- Ends of blocks match the beginnings. -/
inductive Balanced : List Token → Prop
  | nil : Balanced []
  | other : k.kind ≠ .indent → k.kind ≠ .dedent → Balanced [k]
  | append : Balanced ks → Balanced ls → Balanced (ks ++ ls)
  | block : i.kind = .indent → d.kind = .dedent → Balanced ks → Balanced (i :: (ks ++ [d]))

section InBlock

variable (begins : Token → Bool) (width : Token → Nat)

/-- A tree that stands in a block with lines of width `level`. A block that is
indented has INDENT before its statements and DEDENT after them; what stands before
INDENT belongs to no line. -/
inductive InBlock : (level : Nat) → Tree → Prop
  | leaf : k.kind ≠ .indent → k.kind ≠ .dedent →
      (k.isTrivia = false → begins k = true → width k = level) → InBlock level (.leaf k)
  | node : (∀ x ∈ parts, InBlock level x) →
      (kind.hasClauses = true → ∀ k, firstWord? (Tree.tokensOf parts) = some k →
        begins k = true) →
      InBlock level (.node kind parts)
  | block : i.kind = .indent → d.kind = .dedent → level < width i →
      (∀ x ∈ lead, x.isNode = false) → (∀ x ∈ lead, InBlock level x) →
      (firstWord? (Tree.tokensOf lead)).isSome = true →
      (∀ x ∈ body, InBlock (width i) x) →
      InBlock level (.node .block (lead ++ .leaf i :: (body ++ [.leaf d])))

/-- Where nodes stand in a tree: a node stands in a block of width `level` if the
nearest indented block around it has that width, or with width 0 if there is
none. -/
inductive Stands (root : Tree) : (level : Nat) → Tree → Prop
  | root : Stands root 0 root
  | inBlock : Stands root level (.node kind parts) → .leaf i ∈ parts → i.kind = .indent →
      c ∈ parts → c.isNode = true → Stands root (width i) c
  | inNode : Stands root level (.node kind parts) →
      (∀ i, .leaf i ∈ parts → i.kind ≠ .indent) → c ∈ parts → c.isNode = true →
      Stands root level c

end InBlock

section Facts

variable {begins : Token → Bool} {width : Token → Nat} {level : Nat}

theorem Balanced.tokensOf {ts : List Tree} (h : ∀ x ∈ ts, Balanced x.tokens) :
    Balanced (Tree.tokensOf ts) := by
  induction ts with
  | nil => simpa using Balanced.nil
  | cons t ts ih =>
    rw [Tree.tokensOf_cons]
    exact .append (h t (by simp)) (ih fun x hx => h x (List.mem_cons_of_mem t hx))

@[simp] theorem firstWord?_append (ks ls : List Token) :
    firstWord? (ks ++ ls) = (firstWord? ks).or (firstWord? ls) := List.find?_append

theorem firstWord?_tokensOf {ts : List Tree} {k : Token}
    (h : firstWord? (Tree.tokensOf ts) = some k) : ∃ x ∈ ts, x.firstWord? = some k := by
  induction ts with
  | nil => simp [firstWord?] at h
  | cons t ts ih =>
    rw [Tree.tokensOf_cons, firstWord?_append, Option.or_eq_some_iff] at h
    rcases h with h | ⟨-, h⟩
    · exact ⟨t, by simp, h⟩
    · obtain ⟨x, hx, hk⟩ := ih h
      exact ⟨x, List.mem_cons_of_mem t hx, hk⟩

theorem InBlock.balanced {t : Tree} (h : InBlock begins width level t) : Balanced t.tokens := by
  induction h with
  | leaf hi hd => simpa using Balanced.other hi hd
  | node _ _ ih => simpa using Balanced.tokensOf ih
  | block hi hd _ _ _ _ _ ihlead ihbody =>
    simp only [Tree.tokens_node, Tree.tokensOf_append, Tree.tokensOf_cons, Tree.tokens_leaf,
      Tree.tokensOf_nil, List.append_nil, List.singleton_append]
    exact .append (.tokensOf ihlead) (.block hi hd (.tokensOf ihbody))

/-- A tree that begins a line begins it at the width of the block. -/
theorem InBlock.width_eq {t : Tree} (h : InBlock begins width level t) {k : Token}
    (hk : t.firstWord? = some k) (hb : begins k = true) : width k = level := by
  induction h with
  | leaf hi hd hw =>
    rename_i j level
    simp only [Tree.firstWord?, firstWord?, Tree.tokens_leaf, List.find?_singleton] at hk
    split at hk
    · rename_i ht
      cases hk
      exact hw (by simpa using ht) hb
    · cases hk
  | node _ _ ih =>
    rw [Tree.firstWord?, Tree.tokens_node] at hk
    obtain ⟨x, hx, hk⟩ := firstWord?_tokensOf hk
    exact ih x hx hk
  | block hi hd hlt hleaves hlead hfirst hbody ihlead ihbody =>
    rw [Tree.firstWord?, Tree.tokens_node, Tree.tokensOf_append, firstWord?_append] at hk
    obtain ⟨j, hj⟩ := Option.isSome_iff_exists.1 hfirst
    rw [hj, Option.some_or] at hk
    cases hk
    obtain ⟨x, hx, hk⟩ := firstWord?_tokensOf hj
    exact ihlead x hx hk

theorem InBlock.kind_ne {i : Token} (h : InBlock begins width level (.leaf i)) :
    i.kind ≠ .indent ∧ i.kind ≠ .dedent := by
  cases h with
  | leaf hi hd => exact ⟨hi, hd⟩

variable {kind : Kind} {parts : List Tree} {i : Token}

/-- A node with INDENT in it is a block, with its DEDENT at the end. -/
theorem InBlock.of_indent (h : InBlock begins width level (.node kind parts))
    (hmem : .leaf i ∈ parts) (hi : i.kind = .indent) :
    kind = .block ∧ level < width i ∧ ∃ lead body d,
      parts = lead ++ .leaf i :: (body ++ [.leaf d]) ∧ d.kind = .dedent ∧
        (∀ x ∈ lead, x.isNode = false) ∧ ∀ x ∈ body, InBlock begins width (width i) x := by
  cases h with
  | node hparts => exact absurd hi (hparts _ hmem).kind_ne.1
  | block hj hd hlt hleaves hlead hfirst hbody =>
    simp only [List.mem_append, List.mem_cons, List.not_mem_nil, or_false] at hmem
    rcases hmem with hmem | hmem | hmem | hmem
    · exact absurd hi (hlead _ hmem).kind_ne.1
    · cases hmem
      exact ⟨rfl, hlt, _, _, _, rfl, hd, hleaves, hbody⟩
    · exact absurd hi (hbody _ hmem).kind_ne.1
    · cases hmem
      rw [hd] at hi
      cases hi

/-- A part of a node with INDENT in it, if it is a node, stands in the block that
INDENT opens. -/
theorem InBlock.part_of_indent {c : Tree} (h : InBlock begins width level (.node kind parts))
    (hmem : .leaf i ∈ parts) (hi : i.kind = .indent) (hc : c ∈ parts) (hn : c.isNode = true) :
    InBlock begins width (width i) c := by
  obtain ⟨-, -, lead, body, d, rfl, -, hleaves, hbody⟩ := h.of_indent hmem hi
  simp only [List.mem_append, List.mem_cons, List.not_mem_nil, or_false] at hc
  rcases hc with hc | rfl | hc | rfl
  · exact absurd hn (by simp [hleaves c hc])
  · cases hn
  · exact hbody c hc
  · cases hn

/-- A part of a node without INDENT in it stands in the block of the node. -/
theorem InBlock.part_of_not_indent {c : Tree} (h : InBlock begins width level (.node kind parts))
    (hno : ∀ i, .leaf i ∈ parts → i.kind ≠ .indent) (hc : c ∈ parts) :
    InBlock begins width level c := by
  cases h with
  | node hparts => exact hparts c hc
  | block hi => exact absurd hi (hno _ (by simp))

/-- A node that may have clauses begins a line. -/
theorem InBlock.begins_of_clauses {k : Token} (h : InBlock begins width level (.node kind parts))
    (hc : kind.hasClauses = true) (hk : (Tree.node kind parts).firstWord? = some k) :
    begins k = true := by
  rw [Tree.firstWord?, Tree.tokens_node] at hk
  cases h with
  | node _ hfirst => exact hfirst hc k hk
  | block => cases hc

/-- Every node of a tree stands in a block of the width of its lines. -/
theorem InBlock.of_stands {root t : Tree} (h : Stands width root level t)
    (hroot : InBlock begins width 0 root) : InBlock begins width level t := by
  induction h with
  | root => exact hroot
  | inBlock _ hmem hi hc hn ih => exact ih.part_of_indent hmem hi hc hn
  | inNode _ hno hc _ ih => exact ih.part_of_not_indent hno hc

/-- The parts of a node that stands somewhere stand somewhere. -/
theorem Stands.part {root c : Tree} (h : Stands width root level (.node kind parts))
    (hc : c ∈ parts) (hn : c.isNode = true) : ∃ w, Stands width root w c := by
  by_cases hi : ∃ i, .leaf i ∈ parts ∧ i.kind = .indent
  · obtain ⟨i, hmem, hk⟩ := hi
    exact ⟨width i, .inBlock h hmem hk hc hn⟩
  · exact ⟨level, .inNode h (fun i hmem hk => hi ⟨i, hmem, hk⟩) hc hn⟩

mutual

theorem Stands.of_mem_locate {root : Tree} {o d : Nat} : ∀ {t : Tree},
    (t.isNode = true → ∃ w, Stands width root w t) →
      ∀ l ∈ t.locate o d, l.tree.isNode = true → ∃ w, Stands width root w l.tree
  | .leaf k, _, l, hl, hn => by
    simp only [Tree.locate, List.mem_singleton] at hl
    subst hl
    cases hn
  | .node kind ts, h, l, hl, hn => by
    obtain ⟨w, hw⟩ := h rfl
    simp only [Tree.locate, List.mem_cons] at hl
    rcases hl with rfl | hl
    · exact ⟨w, hw⟩
    · exact Stands.of_mem_locateAll (fun c hc hn => hw.part hc hn) l hl hn

theorem Stands.of_mem_locateAll {root : Tree} {o d : Nat} : ∀ {ts : List Tree},
    (∀ c ∈ ts, c.isNode = true → ∃ w, Stands width root w c) →
      ∀ l ∈ Tree.locateAll o d ts, l.tree.isNode = true → ∃ w, Stands width root w l.tree
  | [], _, l, hl, _ => by simp [Tree.locateAll] at hl
  | t :: ts, h, l, hl, hn => by
    simp only [Tree.locateAll, List.mem_append] at hl
    rcases hl with hl | hl
    · exact Stands.of_mem_locate (h t (by simp)) l hl hn
    · exact Stands.of_mem_locateAll (fun c hc => h c (List.mem_cons_of_mem t hc)) l hl hn

end

end Facts

end SceneGate
