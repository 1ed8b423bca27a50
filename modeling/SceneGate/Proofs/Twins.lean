/-
Texts that differ in that some names of the one are strings in the other. Their
tokens go together one by one, and so do the trees that are built of them, if
a string stands in the second tree where a name stands in the first.
-/
import SceneGate.Proofs.Stranded
import Mathlib.Data.List.Forall2

namespace SceneGate

/-- The kinds of tokens that go together. -/
def Kind.Twin (a b : Kind) : Prop := a = b ∨ a = .ident ∧ b = .string

section Twin

/- Which tokens go together. -/
variable (M : Token → Token → Prop)

/-- A token that is not trivia with the trivia after it, and another one. -/
structure Lexeme.Twin (l m : Lexeme) : Prop where
  token : M l.token m.token
  trail : List.Forall₂ M l.trail m.trail

/-- Trees of the same shape, but that a name in the first may be a string in the
second. -/
inductive Tree.Twin : Tree → Tree → Prop
  | leaf {k l : Token} : M k l → Tree.Twin (.leaf k) (.leaf l)
  | node {kind : Kind} {ts us : List Tree} : List.Forall₂ Tree.Twin ts us →
      Tree.Twin (.node kind ts) (.node kind us)
  | word {k l : Token} : M k l → k.kind = .ident → l.kind = .string →
      Tree.Twin (.node .nameRef [.leaf k]) (.node .stringLiteral [.leaf l])

/-- Two readings that have come equally far. -/
structure Progress.Twin (s u : Progress) : Prop where
  built : List.Forall₂ (Tree.Twin M) s.built u.built
  pending : List.Forall₂ M s.pending u.pending
  rest : List.Forall₂ (Lexeme.Twin M) s.rest u.rest

end Twin

variable {M : Token → Token → Prop}

theorem Lexeme.Twin.split {ks ls : List Token} (htrivia : ∀ {k l}, M k l → k.isTrivia = l.isTrivia)
    (h : List.Forall₂ M ks ls) :
    List.Forall₂ M (Lexeme.split ks).1 (Lexeme.split ls).1 ∧
      List.Forall₂ (Lexeme.Twin M) (Lexeme.split ks).2 (Lexeme.split ls).2 := by
  induction h with
  | nil => exact ⟨.nil, .nil⟩
  | cons hkl _ ih =>
    obtain ⟨htrail, hrest⟩ := ih
    simp only [Lexeme.split, htrivia hkl]
    split
    · exact ⟨.cons hkl htrail, hrest⟩
    · exact ⟨.nil, .cons ⟨hkl, htrail⟩ hrest⟩

namespace Progress

variable {s u s' u' : Progress}

theorem Twin.current (hM : ∀ {k l}, M k l → k.kind.Twin l.kind) (h : s.Twin M u) :
    s.current.Twin u.current := by
  have hrest := h.rest
  unfold Progress.current
  generalize s.rest = ls at hrest
  generalize u.rest = ms at hrest
  cases hrest with
  | nil => exact .inl rfl
  | cons hl _ => exact hM hl.token

theorem Twin.following (hM : ∀ {k l}, M k l → k.kind.Twin l.kind) (h : s.Twin M u) :
    s.following.Twin u.following := by
  have hrest := h.rest
  unfold Progress.following
  generalize s.rest = ls at hrest
  generalize u.rest = ms at hrest
  cases hrest with
  | nil => exact .inl rfl
  | cons _ hls =>
    cases hls with
    | nil => exact .inl rfl
    | cons hl _ => exact hM hl.token

theorem Twin.flush (h : s.Twin M u) : s.flush.Twin M u.flush := by
  refine ⟨List.rel_append ?_ h.built, .nil, h.rest⟩
  exact List.rel_reverse (List.rel_map (fun _ _ hkl => .leaf hkl) h.pending)

theorem Twin.take (h : s.Twin M u) : s.take.Twin M u.take := by
  have hrest := h.rest
  cases hs : s.rest with
  | nil =>
    rw [hs] at hrest
    have hu : u.rest = [] := List.forall₂_nil_left_iff.1 hrest
    rw [take_of_nil hs, take_of_nil hu]
    exact h.flush
  | cons l ls =>
    rw [hs] at hrest
    obtain ⟨m, ms, hlm, hls, hu⟩ := List.forall₂_cons_left_iff.1 hrest
    rw [take_of_cons hs, take_of_cons hu]
    exact ⟨.cons (.leaf hlm.token) h.flush.built, hlm.trail, hls⟩

theorem Twin.inside (h : s.Twin M u) : s.inside.Twin M u.inside := ⟨.nil, .nil, h.rest⟩

theorem Twin.rejoin {ts us : List Tree} (h : s.Twin M u) (h' : s'.Twin M u')
    (hparts : List.Forall₂ (Tree.Twin M) ts us) :
    (s.rejoin s' ts).Twin M (u.rejoin u' us) :=
  ⟨List.rel_append hparts h.flush.built, h'.pending, h'.rest⟩

theorem Twin.node (h : s.Twin M u) (kind : Kind) :
    Tree.Twin M (.node kind s.built.reverse) (.node kind u.built.reverse) :=
  .node (List.rel_reverse h.built)

end Progress

end SceneGate
