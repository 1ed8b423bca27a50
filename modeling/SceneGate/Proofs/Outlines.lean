/-
The outline of a tree is the tree without its trivia. Reading looks at the kinds
of words only: trivia is taken along and never asked for, and of the faults on
record nothing is asked at all. So two readings of the same words go the same
way, however much trivia stands between them, and build trees of the same
outline (`Phrase.Reads.alike`, `outline_parse_congr`).
-/
import SceneGate.Proofs.Determined
import SceneGate.Proofs.LaidOut
import SceneGate.Proofs.Lossless

namespace SceneGate

/-- A tree without trivia; of a word only what `α` tells is kept. -/
inductive Outline (α : Type) where
  | word (content : α)
  | node (kind : Kind) (parts : List (Outline α))
deriving Repr

section Outlines

variable {α : Type} (content : Token → α)

mutual

/-- The outline of a tree, or nothing, if the tree is a piece of trivia. -/
def Tree.outline : Tree → List (Outline α)
  | .leaf k => if k.isTrivia then [] else [.word (content k)]
  | .node kind ts => [.node kind (outlines ts)]

/-- The outlines of trees that stand side by side. -/
def Tree.outlines : List Tree → List (Outline α)
  | [] => []
  | t :: ts => t.outline ++ outlines ts

end

namespace Tree

@[simp] theorem outlines_nil : outlines content [] = [] := by simp [outlines]

@[simp] theorem outlines_cons (t : Tree) (ts : List Tree) :
    outlines content (t :: ts) = t.outline content ++ outlines content ts := by simp [outlines]

@[simp] theorem outline_node (kind : Kind) (ts : List Tree) :
    (node kind ts).outline content = [.node kind (outlines content ts)] := by simp [outline]

theorem outline_leaf {k : Token} (h : k.isTrivia = false) :
    (leaf k).outline content = [.word (content k)] := by simp [outline, h]

@[simp] theorem outlines_append (ts us : List Tree) :
    outlines content (ts ++ us) = outlines content ts ++ outlines content us := by
  induction ts with
  | nil => simp
  | cons t ts ih => simp [ih]

theorem outlines_trivia {ks : List Token} (h : ∀ k ∈ ks, k.isTrivia = true) :
    outlines content (ks.map leaf) = [] := by
  induction ks with
  | nil => simp
  | cons k ks ih =>
    obtain ⟨hk, hks⟩ := List.forall_mem_cons.1 h
    simp [outline, hk, ih hks]

end Tree

end Outlines

/-! ## Readings of the same words -/

namespace Progress

/-- Two readings have built the same outlines, have the same words to read, and
both or none of them has found a fault. -/
structure Alike {α : Type} (content : Token → α) (s u : Progress) : Prop where
  built : Tree.outlines content s.built.reverse = Tree.outlines content u.built.reverse
  words : s.rest.map (content ·.token) = u.rest.map (content ·.token)
  faultless : s.faults = [] ↔ u.faults = []
  sorted : s.Sorted
  sorted' : u.Sorted

variable {α : Type} {content : Token → α} {env env' : Surroundings} {s u s' u' : Progress}

theorem words_start {α : Type} (content : Token → α) (tokens : List Token)
    (faults : List Fault) :
    (start tokens faults).rest.map (content ·.token) = (significant tokens).map content := by
  rw [significant, ← Lexeme.map_token_split, List.map_map]
  rfl

theorem current_eq_head (s : Progress) :
    s.current = (s.rest.map (·.token.kind)).headD .endOfFile := by
  unfold current
  cases s.rest <;> rfl

theorem following_eq_head (s : Progress) :
    s.following = (s.rest.map (·.token.kind)).tail.headD .endOfFile := by
  unfold following
  rcases s.rest with _ | ⟨l, _ | ⟨m, ls⟩⟩ <;> rfl

namespace Alike

theorem refl (h : s.Sorted) : s.Alike content s := ⟨rfl, rfl, Iff.rfl, h, h⟩

theorem kinds (hc : ∀ {k l}, content k = content l → k.kind = l.kind) (h : s.Alike content u) :
    s.rest.map (·.token.kind) = u.rest.map (·.token.kind) := by
  have hwords := h.words
  generalize s.rest = ls at hwords ⊢
  generalize u.rest = ms at hwords ⊢
  induction ls generalizing ms with
  | nil => simpa using hwords
  | cons l ls ih =>
    obtain ⟨m, ms, rfl⟩ := List.exists_cons_of_ne_nil (l := ms) (by rintro rfl; simp at hwords)
    simp only [List.map_cons, List.cons.injEq] at hwords ⊢
    exact ⟨hc hwords.1, ih _ hwords.2⟩

theorem current (hc : ∀ {k l}, content k = content l → k.kind = l.kind) (h : s.Alike content u) :
    s.current = u.current := by
  rw [current_eq_head, current_eq_head, h.kinds hc]

theorem following (hc : ∀ {k l}, content k = content l → k.kind = l.kind)
    (h : s.Alike content u) : s.following = u.following := by
  rw [following_eq_head, following_eq_head, h.kinds hc]

theorem flush (h : s.Alike content u) : s.flush.Alike content u.flush where
  built := by
    simp only [Progress.flush, List.reverse_append, List.reverse_reverse, Tree.outlines_append,
      Tree.outlines_trivia content h.sorted.pending, Tree.outlines_trivia content h.sorted'.pending,
      h.built]
  words := h.words
  faultless := h.faultless
  sorted := ⟨by simp [Progress.flush], h.sorted.rest⟩
  sorted' := ⟨by simp [Progress.flush], h.sorted'.rest⟩

theorem inside (h : s.Alike content u) : s.inside.Alike content u.inside where
  built := rfl
  words := h.words
  faultless := h.faultless
  sorted := ⟨by simp [Progress.inside, Progress.flush], h.sorted.rest⟩
  sorted' := ⟨by simp [Progress.inside, Progress.flush], h.sorted'.rest⟩

theorem take (h : s.Alike content u) : s.take.Alike content u.take := by
  have hwords := h.words
  cases hs : s.rest with
  | nil =>
    have hu : u.rest = [] := by simpa [hs] using hwords
    rw [take_of_nil hs, take_of_nil hu]
    exact h.flush
  | cons l ls =>
    obtain ⟨m, ms, hu⟩ := List.exists_cons_of_ne_nil (l := u.rest)
      (by intro hu; simp [hs, hu] at hwords)
    rw [hs, hu, List.map_cons, List.map_cons, List.cons.injEq] at hwords
    obtain ⟨hword, hwords⟩ := hwords
    have hl := (h.sorted.rest l (by simp [hs])).1
    have hm := (h.sorted'.rest m (by simp [hu])).1
    have hsorted := h.sorted.take
    have hsorted' := h.sorted'.take
    rw [take_of_cons hs] at hsorted ⊢
    rw [take_of_cons hu] at hsorted' ⊢
    refine ⟨?_, hwords, h.faultless, hsorted, hsorted'⟩
    simp only [List.reverse_cons, Tree.outlines_append, Tree.outlines_cons, Tree.outlines_nil,
      h.flush.built, Tree.outline_leaf content hl, Tree.outline_leaf content hm, hword]

/-- A fault is on record in both readings then, each at a place of its own. -/
theorem record (h : s.Alike content u) (f g : Fault) :
    (s.record f).Alike content (u.record g) := by
  have hs : (s.record f).Sorted := ⟨by unfold Progress.record; split <;> exact h.sorted.pending,
    by rw [rest_record]; exact h.sorted.rest⟩
  have hu : (u.record g).Sorted := ⟨by unfold Progress.record; split <;> exact h.sorted'.pending,
    by rw [rest_record]; exact h.sorted'.rest⟩
  refine ⟨?_, by rw [rest_record, rest_record, h.words], ?_, hs, hu⟩
  · rw [built_record, built_record, h.built]
  · simp [faults_record_ne]

theorem complain (h : s.Alike content u) (c d : Fault.Cause) :
    (s.complain env c).Alike content (u.complain env' d) := by
  obtain ⟨f, hf⟩ := exists_complain_eq env c s
  obtain ⟨g, hg⟩ := exists_complain_eq env' d u
  rw [hf, hg]
  exact h.record f g

theorem close (hc : ∀ {k l}, content k = content l → k.kind = l.kind) (h : s.Alike content u)
    (bracket : Kind) (o o' : Nat) :
    (s.close env bracket o).Alike content (u.close env' bracket o') := by
  have hcurrent := h.current hc
  by_cases hb : s.current = bracket
  · rw [Progress.close, if_pos hb, Progress.close, if_pos (hcurrent ▸ hb)]
    exact h.take
  · obtain ⟨f, hf⟩ := exists_close_eq env o hb
    obtain ⟨g, hg⟩ := exists_close_eq env' o' (hcurrent ▸ hb)
    rw [hf, hg]
    exact h.record f g

theorem rejoin (h : s.Alike content u) (h' : s'.Alike content u') {ts us : List Tree}
    (hparts : Tree.outlines content ts.reverse = Tree.outlines content us.reverse) :
    (s.rejoin s' ts).Alike content (u.rejoin u' us) := by
  refine ⟨?_, h'.words, h'.faultless, ⟨h'.sorted.pending, h'.sorted.rest⟩,
    ⟨h'.sorted'.pending, h'.sorted'.rest⟩⟩
  simp only [Progress.rejoin, List.reverse_append, Tree.outlines_append, h.flush.built, hparts]

theorem node (h : s.Alike content u) (kind : Kind) :
    Tree.outlines content [Tree.node kind s.built.reverse].reverse =
      Tree.outlines content [Tree.node kind u.built.reverse].reverse := by
  simp [h.built]

theorem wrap (h : s.Alike content u) (kind : Kind) :
    Alike content { s with built := [Tree.node kind s.built.reverse] }
      { u with built := [Tree.node kind u.built.reverse] } :=
  ⟨h.node kind, h.words, h.faultless, ⟨h.sorted.pending, h.sorted.rest⟩,
    ⟨h.sorted'.pending, h.sorted'.rest⟩⟩

end Alike

end Progress

open Progress

section Simulation

variable {α : Type} {content : Token → α} {env env' : Surroundings} {b : Bool}
  {s s' u : Progress}

/-- What it means that a phrase reads the same words in the same way. -/
def Phrase.ReadsAlike (content : Token → α) (env' : Surroundings) (p : Phrase) (s : Progress)
    (b : Bool) (s' : Progress) : Prop :=
  ∀ {u}, s.Alike content u → ∃ u', Phrase.Reads env' p u b u' ∧ s'.Alike content u'

/-- A form reads the same words in the same way, if the phrases in it do. -/
theorem Form.Reads.alike (hc : ∀ {k l}, content k = content l → k.kind = l.kind) {f : Form}
    (h : Form.Reads env (Phrase.ReadsAlike content env') f s b s') (hu : s.Alike content u) :
    ∃ u', Form.Reads env' (Phrase.Reads env') f u b u' ∧ s'.Alike content u' := by
  induction h generalizing u with
  | answer => exact ⟨u, .answer, hu⟩
  | next => exact ⟨u, by rw [hu.current hc]; exact .next, hu⟩
  | nextTwo => exact ⟨u, by rw [hu.current hc, hu.following hc]; exact .nextTwo, hu⟩
  | take => exact ⟨u.take, .take, hu.take⟩
  | complain | complainOfToken =>
    exact ⟨_, by first | exact .complain | exact .complainOfToken, hu.complain _ _⟩
  | seq _ _ ih₁ ih₂ =>
    obtain ⟨u₁, h₁, hu₁⟩ := ih₁ hu
    obtain ⟨u₂, h₂, hu₂⟩ := ih₂ hu₁
    exact ⟨u₂, .seq h₁ h₂, hu₂⟩
  | condYes _ _ ih₁ ih₂ =>
    obtain ⟨u₁, h₁, hu₁⟩ := ih₁ hu
    obtain ⟨u₂, h₂, hu₂⟩ := ih₂ hu₁
    exact ⟨u₂, .condYes h₁ h₂, hu₂⟩
  | condNo _ _ ih₁ ih₂ =>
    obtain ⟨u₁, h₁, hu₁⟩ := ih₁ hu
    obtain ⟨u₂, h₂, hu₂⟩ := ih₂ hu₁
    exact ⟨u₂, .condNo h₁ h₂, hu₂⟩
  | loopEnd _ ih =>
    obtain ⟨u₁, h₁, hu₁⟩ := ih hu
    exact ⟨u₁, .loopEnd h₁, hu₁⟩
  | loopAgain _ _ _ ih₁ ih₂ ih₃ =>
    obtain ⟨u₁, h₁, hu₁⟩ := ih₁ hu
    obtain ⟨u₂, h₂, hu₂⟩ := ih₂ hu₁
    obtain ⟨u₃, h₃, hu₃⟩ := ih₃ hu₂
    exact ⟨u₃, .loopAgain h₁ h₂ h₃, hu₃⟩
  | call h =>
    obtain ⟨u', h', hu'⟩ := h hu
    exact ⟨u', .call h', hu'⟩
  | node _ ih =>
    obtain ⟨u', h', hu'⟩ := ih hu.inside
    exact ⟨_, .node h', hu.rejoin hu' (hu'.node _)⟩
  | mark _ ih =>
    obtain ⟨u', h', hu'⟩ := ih hu.inside
    exact ⟨_, .mark h', hu.rejoin hu' hu'.built⟩
  | wrap _ ih =>
    obtain ⟨u', h', hu'⟩ := ih hu
    exact ⟨_, .wrap h', hu'.wrap _⟩
  | enclosed _ ih =>
    obtain ⟨u', h', hu'⟩ := ih hu.take
    exact ⟨_, .enclosed h', hu'.close hc _ _ _⟩

/-- A phrase reads the same words in the same way, whatever trivia stands between
them. -/
theorem Phrase.Reads.alike (hc : ∀ {k l}, content k = content l → k.kind = l.kind) {p : Phrase}
    (h : Phrase.Reads env p s b s') (hu : s.Alike content u) :
    ∃ u', Phrase.Reads env' p u b u' ∧ s'.Alike content u' := by
  refine h.induct (Phrase.ReadsAlike content env') (fun p s b s' h u hu => ?_) hu
  obtain ⟨u', h', hu'⟩ := (h.imp fun _ _ _ _ hq => hq.2).alike hc hu
  exact ⟨u', Phrase.reads_iff.2 h', hu'⟩

end Simulation

/-! ## Texts of the same words -/

section Texts

variable {α : Type} {content : Token → α} {t : Text} {env : Surroundings} {b : Bool}
  {u u' : Progress}

/-- The outline of a text's tree is that of any reading of the same words. -/
theorem outline_parse (hc : ∀ {k l}, content k = content l → k.kind = l.kind)
    (hu : (Progress.start (layout t).tokens (layout t).faults).Alike content u)
    (h : Phrase.Reads env .program u b u') :
    (parse t).tree.outline content =
        [.node .sourceFile (Tree.outlines content u'.built.reverse)] ∧
      ((parse t).ok = true ↔ u'.faults = []) := by
  obtain ⟨a, s, hreads, hrest, -, htree, hfaults⟩ := exists_reading t
  obtain ⟨v, hv, halike⟩ := hreads.alike hc hu
  obtain ⟨-, rfl⟩ := h.unique hv
  refine ⟨?_, ?_⟩
  · rw [htree, Progress.root, hrest, Lexeme.tokens_nil, List.append_nil, Tree.outline_node,
      Tree.outlines_append, Tree.outlines_trivia content halike.sorted.pending, List.append_nil,
      halike.built]
  · rw [Parse.ok, hfaults, List.isEmpty_iff, List.reverse_eq_nil_iff, halike.faultless]

/-- Trivia is never looked at: two texts whose words are of the same kinds have trees
of the same outline, and both are programs or neither, if the layout finds faults in
both or in neither. -/
theorem outline_parse_congr (t u : Text)
    (hwords : (significant (layout t).tokens).map Token.kind =
      (significant (layout u).tokens).map Token.kind)
    (hfaults : (layout t).faults = [] ↔ (layout u).faults = []) :
    (parse t).tree.outline Token.kind = (parse u).tree.outline Token.kind ∧
      (parse t).ok = (parse u).ok := by
  obtain ⟨b, s, hreads, -⟩ := exists_reading u
  have hself : (Progress.start (layout u).tokens (layout u).faults).Alike Token.kind
      (Progress.start (layout u).tokens (layout u).faults) := .refl (sorted_start ..)
  have hstart : (Progress.start (layout t).tokens (layout t).faults).Alike Token.kind
      (Progress.start (layout u).tokens (layout u).faults) :=
    { built := rfl
      words := by rw [words_start, words_start, hwords]
      faultless := by simpa [Progress.start] using hfaults
      sorted := sorted_start ..
      sorted' := sorted_start .. }
  obtain ⟨houtline, hok⟩ := outline_parse id hstart hreads
  obtain ⟨houtline', hok'⟩ := outline_parse id hself hreads
  exact ⟨houtline.trans houtline'.symm, Bool.eq_iff_iff.2 (hok.trans hok'.symm)⟩

/-- A program with no more blanks than it needs. -/
def terse : Text := "f(x,y)\nif a:\n  b\n".toList

/-- The words of `terse` with blanks, comments and line breaks inside its lines, inside
its brackets and between its lines. -/
def airy : Text :=
  "\n# f\nf ( x,\n\n  y ) # xy\n\nif \\\n a :\n\t# b\n\tb\n".toList

theorem outline_parse_congr_airy :
    (significant (layout terse).tokens).map Token.kind =
        (significant (layout airy).tokens).map Token.kind ∧
      (parse terse).tree.outline Token.kind = (parse airy).tree.outline Token.kind ∧
      (parse terse).ok = (parse airy).ok := by
  have hwords : (significant (layout terse).tokens).map Token.kind =
      (significant (layout airy).tokens).map Token.kind := by decide +kernel
  have hfaults : (layout terse).faults = [] ↔ (layout airy).faults = [] := by decide +kernel
  exact ⟨hwords, outline_parse_congr terse airy hwords hfaults⟩

end Texts

end SceneGate
