/-
Trees of a text with the default names renamed. The tokens of the two texts go together one by one,
so their trees have the same shape (`twin_parse_respelled`). A name without the letters `A` and `E`
stands in both or in neither, so the same calls are to be grouped in the two (`nesting_eq`).
-/
import SceneGate.Proofs.GroupPasses
import SceneGate.Proofs.QuotedTrees
import SceneGate.Proofs.RenamedTokens

namespace SceneGate

/-! ## Texts without the two letters -/

namespace Text

variable {p t u : Text}

/-- One letter for both. -/
def blurred (c : Char) : Char := if c = 'A' then 'E' else c

theorem Respelled.map_blurred {behind : Bool} (h : Respelled behind t u) :
    t.map blurred = u.map blurred := by
  induction h with
  | nil => rfl
  | same c _ ih => simp [ih]
  | vowel _ ih => simp [ih, Text.blurred]

/-- A text without the two letters is not spelled otherwise. -/
theorem eq_of_map_blurred (hp : ∀ c ∈ p, c ≠ 'A' ∧ c ≠ 'E') (h : t.map blurred = p.map blurred) : t = p := by
  induction p generalizing t with
  | nil => simpa using h
  | cons c p ih =>
    obtain ⟨⟨hA, hE⟩, hp⟩ := List.forall_mem_cons.1 hp
    cases t with
    | nil => cases h
    | cons d t =>
      obtain ⟨hhead, htail⟩ := List.cons.inj h
      have hdc : d = c := by
        rw [blurred, blurred, if_neg hA] at hhead
        split at hhead
        · exact absurd hhead.symm hE
        · exact hhead
      rw [hdc, ih hp htail]

theorem isPrefixOf_eq_of_map (hp : ∀ c ∈ p, c ≠ 'A' ∧ c ≠ 'E') (h : t.map blurred = u.map blurred) :
    p.isPrefixOf t = p.isPrefixOf u := by
  have hone {t u : Text} (h : t.map blurred = u.map blurred) (ht : p.isPrefixOf t = true) :
      p.isPrefixOf u = true := by
    rw [List.isPrefixOf_iff_prefix] at ht ⊢
    obtain ⟨r, rfl⟩ := ht
    have htake : u.take p.length = p := by
      refine eq_of_map_blurred hp ?_
      rw [List.map_take, ← h, List.map_append, List.take_left' (by simp)]
    rw [← htake]
    exact List.take_prefix ..
  exact Bool.eq_iff_iff.2 ⟨hone h, hone h.symm⟩

end Text

open Text

/-! ## Trees of the same shape -/

theorem optionRel_bind {α β γ : Type} {R : α → β → Prop} {f : α → Option γ} {g : β → Option γ}
    (hfg : ∀ a b, R a b → f a = g b) {a : Option α} {b : Option β} (h : Option.Rel R a b) :
    a.bind f = b.bind g := by
  cases h with
  | none => rfl
  | some h => exact hfg _ _ h

theorem optionRel_any {α β : Type} {R : α → β → Prop} {p : α → Bool} {q : β → Bool}
    (hpq : ∀ a b, R a b → p a = q b) {a : Option α} {b : Option β} (h : Option.Rel R a b) :
    a.any p = b.any q := by
  cases h with
  | none => rfl
  | some h => exact hpq _ _ h

/-- The first members of related lists that satisfy a test are related. -/
theorem forall₂_find? {α β : Type} {R : α → β → Prop} {p : α → Bool} {q : β → Bool}
    (hpq : ∀ a b, R a b → p a = q b) {as : List α} {bs : List β} (h : List.Forall₂ R as bs) :
    Option.Rel R (as.find? p) (bs.find? q) := by
  induction h with
  | nil => exact .none
  | @cons a b as bs hab _ ih =>
    rw [List.find?_cons, List.find?_cons, hpq a b hab]
    split
    · exact .some hab
    · exact ih

theorem forall₂_head? {α β : Type} {R : α → β → Prop} {as : List α} {bs : List β}
    (h : List.Forall₂ R as bs) : Option.Rel R as.head? bs.head? := by
  cases h with
  | nil => exact .none
  | cons hab => exact .some hab

theorem forall₂_any {α β : Type} {R : α → β → Prop} {p : α → Bool} {q : β → Bool}
    (hpq : ∀ a b, R a b → p a = q b) {as : List α} {bs : List β} (h : List.Forall₂ R as bs) :
    as.any p = bs.any q := by
  induction h with
  | nil => rfl
  | cons hab _ ih => rw [List.any_cons, List.any_cons, hpq _ _ hab, ih]

namespace Tree

mutual

theorem Twin.tokens {M : Token → Token → Prop} : ∀ {t u : Tree}, t.Twin M u →
    List.Forall₂ M t.tokens u.tokens
  | .leaf k, u, h => by
    cases h with
    | leaf hkl => simpa using hkl
  | .node kind ts, u, h => by
    cases h with
    | node hparts => simpa using Twin.tokensOf hparts
    | word hkl => simpa using hkl

theorem Twin.tokensOf {M : Token → Token → Prop} : ∀ {ts us : List Tree},
    List.Forall₂ (Twin M) ts us → List.Forall₂ M (Tree.tokensOf ts) (Tree.tokensOf us)
  | [], us, h => by
    cases h
    simp
  | t :: ts, us, h => by
    cases h with
    | cons htu h =>
      rw [tokensOf_cons, tokensOf_cons]
      exact List.rel_append (Twin.tokens htu) (Twin.tokensOf h)

end

/-- Trees of the same shape, whose tokens are respelled. -/
abbrev Respelled (t u : Tree) : Prop := t.Twin Token.Respelled u

namespace Respelled

variable {t u : Tree} (h : t.Respelled u)

include h

theorem kind_eq : t.kind = u.kind := by
  cases h with
  | leaf hkl => exact hkl.kind
  | node => rfl
  | word hkl hk hl => rw [hkl.kind, hl] at hk; cases hk

theorem isNode_eq : t.isNode = u.isNode := by cases h <;> rfl

theorem parts : List.Forall₂ Respelled t.parts u.parts := by
  cases h with
  | leaf => exact .nil
  | node hparts => exact hparts
  | word hkl => exact .cons (.leaf hkl) .nil

theorem children : List.Forall₂ Respelled t.children u.children :=
  List.rel_filter (fun _ _ h => by simp only [isNode_eq h]) h.parts

theorem child? (kind : Kind) : Option.Rel Respelled (t.child? kind) (u.child? kind) :=
  forall₂_find? (fun _ _ h => by rw [kind_eq h]) h.children

omit h in
theorem map_spelling {ks ls : List Token} (h : List.Forall₂ Token.Respelled ks ls) :
    (spelling ks).map blurred = (spelling ls).map blurred := by
  induction h with
  | nil => rfl
  | cons hkl _ ih =>
    obtain ⟨_, htext⟩ := hkl.text
    rw [spelling_cons, spelling_cons, List.map_append, List.map_append, htext.map_blurred, ih]

theorem map_text : t.text.map blurred = u.text.map blurred := map_spelling h.tokens

theorem map_bareText : t.bareText.map blurred = u.bareText.map blurred :=
  map_spelling (List.rel_filter (fun _ _ hkl => by simp only [Token.isTrivia, hkl.kind]) h.tokens)

theorem map_tailName? : t.tailName?.map (List.map blurred) = u.tailName?.map (List.map blurred) := by
  unfold tailName?
  rw [h.kind_eq]
  split
  · exact congrArg some h.map_bareText
  · rw [Option.map_map, Option.map_map, Option.map_eq_bind, Option.map_eq_bind]
    exact optionRel_bind (fun _ _ h => congrArg some (map_bareText h)) (h.child? .name)
  · rfl

end Respelled

end Tree

/-! ## Calls to be grouped -/

namespace GroupTargets

open Tree

variable {v : Vocabulary} {t u : Tree} {ts us : List Tree}

theorem respelled_argumentsOf (kind : Kind) (h : List.Forall₂ Tree.Respelled ts us) :
    List.Forall₂ Tree.Respelled (argumentsOf kind ts) (argumentsOf kind us) :=
  List.rel_filter (fun _ _ h => by simp only [Tree.Respelled.isNode_eq h, Tree.Respelled.kind_eq h]) h

section

variable (heffects : ∀ name ∈ v.singleTargetEffects, ∀ c ∈ name, c ≠ 'A' ∧ c ≠ 'E')
  (hgroup : ∀ c ∈ v.groupConstructor, c ≠ 'A' ∧ c ≠ 'E')

include heffects in
theorem isSingleTargetEffect_eq {a b : Option Text} (h : a.map (List.map blurred) = b.map (List.map blurred)) :
    a.any v.isSingleTargetEffect = b.any v.isSingleTargetEffect := by
  have hone {s s' : Text} (h : s.map blurred = s'.map blurred) (hs : v.isSingleTargetEffect s = true) :
      v.isSingleTargetEffect s' = true := by
    have hmem := List.contains_iff_mem.1 hs
    rw [eq_of_map_blurred (heffects s hmem) h.symm]
    exact hs
  cases a with
  | none =>
    cases b with
    | none => rfl
    | some => cases h
  | some s =>
    cases b with
    | none => cases h
    | some s' =>
      have h := Option.some.inj h
      exact Bool.eq_iff_iff.2 ⟨hone h, hone h.symm⟩

include heffects hgroup

/-- The same calls are to be grouped in respelled trees. -/
theorem isEligible_eq (h : t.Respelled u) : isEligible v t = isEligible v u := by
  have hname : (Call.calleeName? t).map (List.map blurred) = (Call.calleeName? u).map (List.map blurred) := by
    rw [Call.calleeName?, Call.calleeName?, Option.map_bind, Option.map_bind]
    exact optionRel_bind (fun _ _ h => Respelled.map_tailName? h) (forall₂_head? h.children)
  have hopening : ∀ c ∈ v.groupConstructor ++ ['('], c ≠ 'A' ∧ c ≠ 'E' :=
    List.forall_mem_append.2 ⟨hgroup, by decide⟩
  rw [isEligible, isEligible, h.isNode_eq, h.kind_eq, isSingleTargetEffect_eq heffects hname,
    Call.argumentList?, Call.argumentList?]
  refine congrArg _ (optionRel_any (fun list list' h => ?_) (h.child? .argList))
  have hparts := Respelled.parts h
  have hpositional := respelled_argumentsOf .arg hparts
  have hunpacked := forall₂_any (p := isUnpacked) (q := isUnpacked)
    (fun _ _ h => by rw [isUnpacked, isUnpacked, Respelled.isNode_eq h, Respelled.kind_eq h]) hparts
  have hfirst := optionRel_any
    (fun _ _ h => isPrefixOf_eq_of_map hopening (Respelled.map_text h)) (forall₂_head? hpositional)
  rw [any_isUnpacked_eq, any_isUnpacked_eq, positional_eq, positional_eq, hunpacked,
    hpositional.length_eq, hfirst]

end

mutual

/-- They lie in one another equally deep. -/
theorem nesting_eq (he : ∀ {t u : Tree}, t.Respelled u → isEligible v t = isEligible v u) :
    ∀ {t u : Tree}, t.Respelled u → nesting v t = nesting v u
  | .leaf k, u, h => by
    cases h
    rw [nesting, nesting]
  | .node kind ts, u, h => by
    have hself := he h
    cases h with
    | node hparts => rw [nesting, nesting, hself, nestingAll_eq he hparts]
    | word hkl hk hl => rw [hkl.kind, hl] at hk; cases hk

theorem nestingAll_eq (he : ∀ {t u : Tree}, t.Respelled u → isEligible v t = isEligible v u) :
    ∀ {ts us : List Tree}, List.Forall₂ Tree.Respelled ts us → nestingAll v ts = nestingAll v us
  | [], us, h => by
    cases h
    rfl
  | t :: ts, us, h => by
    cases h with
    | cons htu h => rw [nestingAll, nestingAll, nesting_eq he htu, nestingAll_eq he h]

end

end GroupTargets

/-! ## Programs -/

theorem blind_respelled : Layout.Blind Token.Respelled where
  of_eq hkind htext := ⟨hkind, false, htext ▸ .refl ..⟩
  kind h := .inl h.kind
  joined h _ := ⟨rfl, h.text⟩
  column h _ _ column := by
    obtain ⟨_, htext⟩ := h.text
    exact htext.columnAfter_eq column

/-- The trees of a program and of the respelled one have the same shape. -/
theorem twin_parse_respelled {t u : Text} {behind : Bool} (h : Text.Respelled behind t u)
    (ht : (parse t).ok = true) : (parse t).tree.Respelled (parse u).tree := by
  have hu : (parse u).ok = true := (outline_parse_respelled h).2 ▸ ht
  exact twin_parse_of_layout (fun h => .inl h.kind)
    (forall₂_layout blind_respelled (tokenizeFrom_respelled 0 h) hu) ht hu

namespace DeprecatedNames

open GroupTargets

/-- Renaming the default names brings no call to be grouped. -/
theorem nesting_rename {t : Text} (h : (parse t).ok = true) :
    nesting {} (parse (rename defaults t)).tree = nesting {} (parse t).tree :=
  (nesting_eq (isEligible_eq (by decide) (by decide))
    (twin_parse_respelled (respelled_rename t) h)).symm

end DeprecatedNames

end SceneGate
