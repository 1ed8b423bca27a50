/-
Readings put together by hand. As trivia is never looked at, what a text is read as
can be found by reading its words alone (`parse_of_words`). For such readings there
is one rule a form: what it makes of the words in front, and what it leaves
(`Form.Answers`, `Form.Makes`).
-/
import SceneGate.Proofs.Outlines

namespace SceneGate

/-- A word as it is written. -/
structure Word where
  kind : Kind
  text : Text
deriving DecidableEq, Repr

/-- The token of a word; where the word stands is left open. -/
def Word.token (w : Word) : Token := ⟨w.kind, w.text, 0⟩

/-- What is written of a token. -/
def Token.word (k : Token) : Word := ⟨k.kind, k.text⟩

@[simp] theorem Word.word_token (w : Word) : w.token.word = w := rfl

/-- The kind of the first of some words. -/
def nextKind : List Word → Kind
  | [] => .endOfFile
  | w :: _ => w.kind

@[simp] theorem nextKind_cons (w : Word) (ws : List Word) : nextKind (w :: ws) = w.kind := rfl

/-- The kind of the second of some words. -/
def secondKind (ws : List Word) : Kind := nextKind ws.tail

@[simp] theorem secondKind_cons (w : Word) (ws : List Word) :
    secondKind (w :: ws) = nextKind ws := rfl

namespace Outline

mutual

/-- A tree of an outline. -/
def tree : Outline Word → Tree
  | .word w => .leaf w.token
  | .node kind os => .node kind (trees os)

/-- Trees of outlines. -/
def trees : List (Outline Word) → List Tree
  | [] => []
  | o :: os => o.tree :: trees os

end

theorem trees_eq_map (os : List (Outline Word)) : trees os = os.map tree := by
  induction os with
  | nil => simp [trees]
  | cons o os ih => simp [trees, ih]

mutual

/-- A tree of an outline has this outline, if its words are no trivia. -/
theorem outline_tree : ∀ {o : Outline Word}, (∀ k ∈ o.tree.tokens, k.isTrivia = false) →
    o.tree.outline Token.word = [o]
  | .word w, h => by
    have hw : w.token.isTrivia = false := h _ (by simp [tree])
    simp [tree, Tree.outline_leaf _ hw]
  | .node kind os, h => by
    rw [tree, Tree.outline_node, outlines_trees fun k hk => h k (by simpa [tree] using hk)]

theorem outlines_trees : ∀ {os : List (Outline Word)},
    (∀ k ∈ Tree.tokensOf (trees os), k.isTrivia = false) →
    Tree.outlines Token.word (trees os) = os
  | [], _ => by simp [trees]
  | o :: os, h => by
    rw [trees, Tree.tokensOf_cons, List.forall_mem_append] at h
    rw [trees, Tree.outlines_cons, outline_tree h.1, outlines_trees h.2, List.singleton_append]

end

end Outline

namespace Progress

/-- Where only words are read: what has been built, the last first, and the words
that are left. -/
def bare (built : List (Outline Word)) (words : List Word) : Progress :=
  ⟨built.map Outline.tree, [], words.map fun w => ⟨w.token, []⟩, []⟩

variable {b : List (Outline Word)} {w : Word} {ws : List Word}

@[simp] theorem current_bare : (bare b ws).current = nextKind ws := by cases ws <;> rfl

@[simp] theorem following_bare : (bare b ws).following = secondKind ws := by
  rcases ws with _ | ⟨w, _ | ⟨v, ws⟩⟩ <;> rfl

@[simp] theorem flush_bare : (bare b ws).flush = bare b ws := rfl

@[simp] theorem take_bare : (bare b (w :: ws)).take = bare (.word w :: b) ws := rfl

@[simp] theorem inside_bare : (bare b ws).inside = bare [] ws := rfl

theorem node_bare {os : List (Outline Word)} {kind : Kind} {ws' : List Word} :
    (bare b ws).rejoin (bare os.reverse ws') [.node kind (bare os.reverse ws').built.reverse] =
      bare (.node kind os :: b) ws' := by
  simp [bare, rejoin, Outline.tree, Outline.trees_eq_map, flush]

theorem wrap_bare {os : List (Outline Word)} {kind : Kind} :
    { bare os.reverse ws with built := [.node kind (bare os.reverse ws).built.reverse] } =
      bare [.node kind os] ws := by
  simp [bare, Outline.tree, Outline.trees_eq_map]

end Progress

open Progress

/-- Words say nothing of where they stand in a text. -/
def nowhere : Surroundings := ⟨0, []⟩

/-- Reading words, a form answers, makes some outlines of them and leaves others. -/
def Form.Answers (f : Form) (b : List (Outline Word)) (ws : List Word) (a : Bool)
    (b' : List (Outline Word)) (ws' : List Word) : Prop :=
  Form.Reads nowhere (Phrase.Reads nowhere) f (bare b ws) a (bare b' ws')

/-- Reading words, a form makes some outlines of them and leaves others. -/
def Form.Makes (f : Form) (b : List (Outline Word)) (ws : List Word) (b' : List (Outline Word))
    (ws' : List Word) : Prop :=
  ∃ a, f.Answers b ws a b' ws'

/-- Of the words in front a phrase makes one outline. -/
def Phrase.Takes (p : Phrase) (ws : List Word) (o : Outline Word) (ws' : List Word) : Prop :=
  ∀ b, p.form.Makes b ws (o :: b) ws'

/-! ## Rules -/

namespace Form

variable {b b₁ b' : List (Outline Word)} {w v : Word} {ws ws₁ ws' : List Word} {a c : Bool}
  {f g h body : Form} {p : Phrase} {k : Kind} {o : Outline Word} {kinds : List Kind}

theorem Answers.makes (hf : f.Answers b ws a b' ws') : f.Makes b ws b' ws' := ⟨a, hf⟩

theorem answers_answer : (Form.answer a).Answers b ws a b ws := .answer

theorem answers_next : (Form.next kinds).Answers b ws (kinds.contains (nextKind ws)) b ws := by
  rw [← current_bare (b := b)]
  exact Form.Reads.next

theorem answers_next_yes (h : nextKind ws ∈ kinds) : (Form.next kinds).Answers b ws true b ws := by
  rw [← List.contains_iff_mem] at h
  exact h ▸ answers_next

theorem answers_next_no (h : nextKind ws ∉ kinds) : (Form.next kinds).Answers b ws false b ws := by
  rw [← List.contains_iff_mem, Bool.not_eq_true] at h
  exact h ▸ answers_next

theorem answers_nextTwo {l : Kind} : (Form.nextTwo k l).Answers b ws
    (nextKind ws == k && secondKind ws == l) b ws := by
  rw [← current_bare (b := b), ← following_bare (b := b)]
  exact Form.Reads.nextTwo

theorem answers_nextTwo_no {l : Kind} (h : nextKind ws ≠ k ∨ secondKind ws ≠ l) :
    (Form.nextTwo k l).Answers b ws false b ws := by
  have hno : (nextKind ws == k && secondKind ws == l) = false := by
    rw [Bool.and_eq_false_iff, beq_eq_false_iff_ne, beq_eq_false_iff_ne]
    exact h
  exact hno ▸ answers_nextTwo

theorem answers_take : Form.take.Answers b (w :: ws) true (.word w :: b) ws := .take

theorem Answers.seq (hf : f.Makes b ws b₁ ws₁) (hg : g.Answers b₁ ws₁ a b' ws') :
    (Form.seq f g).Answers b ws a b' ws' := by
  obtain ⟨_, hf⟩ := hf
  exact Form.Reads.seq hf hg

theorem Makes.seq (hf : f.Makes b ws b₁ ws₁) (hg : g.Makes b₁ ws₁ b' ws') :
    (Form.seq f g).Makes b ws b' ws' := by
  obtain ⟨a, hg⟩ := hg
  exact ⟨a, .seq hf hg⟩

theorem Answers.cond (hf : f.Answers b ws c b₁ ws₁)
    (hg : (bif c then g else h).Answers b₁ ws₁ a b' ws') :
    (Form.cond f g h).Answers b ws a b' ws' := by
  cases c with
  | true => exact .condYes hf hg
  | false => exact .condNo hf hg

theorem Makes.cond (hf : f.Answers b ws c b₁ ws₁)
    (hg : (bif c then g else h).Makes b₁ ws₁ b' ws') : (Form.cond f g h).Makes b ws b' ws' := by
  obtain ⟨a, hg⟩ := hg
  exact ⟨a, .cond hf hg⟩

theorem Makes.loopEnd (hf : f.Answers b ws false b' ws') :
    (Form.loop f body).Makes b ws b' ws' :=
  ⟨false, Form.Reads.loopEnd hf⟩

theorem Makes.loopAgain {b₂ : List (Outline Word)} {ws₂ : List Word}
    (hf : f.Answers b ws true b₁ ws₁) (hbody : body.Makes b₁ ws₁ b₂ ws₂)
    (hloop : (Form.loop f body).Makes b₂ ws₂ b' ws') : (Form.loop f body).Makes b ws b' ws' := by
  obtain ⟨_, hbody⟩ := hbody
  obtain ⟨a, hloop⟩ := hloop
  exact ⟨a, Form.Reads.loopAgain hf hbody hloop⟩

theorem Makes.loopAgainSeq {b₂ : List (Outline Word)} {ws₂ : List Word}
    (hf : f.Answers b ws true b₁ ws₁) (hbody : body.Makes b₁ ws₁ b₂ ws₂)
    (h : (Form.seq (.loop f body) g).Makes b₂ ws₂ b' ws') :
    (Form.seq (.loop f body) g).Makes b ws b' ws' := by
  obtain ⟨_, hbody⟩ := hbody
  obtain ⟨a, h⟩ := h
  obtain ⟨_, _, hloop, hg⟩ := h.of_seq
  exact ⟨a, Form.Reads.seq (Form.Reads.loopAgain hf hbody hloop) hg⟩

theorem Answers.call (h : p.form.Answers b ws a b' ws') : (Form.call p).Answers b ws a b' ws' :=
  Form.Reads.call (Phrase.reads_iff.2 h)

theorem Makes.call (h : p.form.Makes b ws b' ws') : (Form.call p).Makes b ws b' ws' := by
  obtain ⟨a, h⟩ := h
  exact ⟨a, .call h⟩

theorem Makes.callThen (h : p.Takes ws o ws₁) (hg : g.Makes (o :: b) ws₁ b' ws') :
    (Form.seq (.call p) g).Makes b ws b' ws' :=
  .seq (.call (h b)) hg

/-- The parts of a node are listed in their order. -/
theorem Makes.node (os : List (Outline Word)) (h : body.Makes [] ws os.reverse ws') :
    (Form.node k body).Makes b ws (.node k os :: b) ws' := by
  obtain ⟨a, h⟩ := h
  refine ⟨a, ?_⟩
  rw [Answers, ← node_bare]
  exact Form.Reads.node h

theorem Answers.mark (h : body.Answers [] ws a [o] ws') :
    (Form.mark body).Answers b ws a (o :: b) ws' :=
  Form.Reads.mark (s := bare b ws) h

theorem Makes.mark (h : body.Makes [] ws [o] ws') : (Form.mark body).Makes b ws (o :: b) ws' := by
  obtain ⟨a, h⟩ := h
  exact ⟨a, .mark h⟩

theorem Makes.wrap (os : List (Outline Word)) (h : body.Makes b ws os.reverse ws') :
    (Form.wrap k body).Makes b ws [.node k os] ws' := by
  obtain ⟨a, h⟩ := h
  refine ⟨a, ?_⟩
  rw [Answers, ← wrap_bare]
  exact Form.Reads.wrap h

theorem Answers.enclosed (hw : w.kind = k) (h : body.Answers (.word v :: b) ws a b₁ (w :: ws')) :
    (Form.enclosed k body).Answers b (v :: ws) a (.word w :: b₁) ws' := by
  have hclose (o : Nat) : bare (.word w :: b₁) ws' = (bare b₁ (w :: ws')).close nowhere k o := by
    rw [close, if_pos (by rw [current_bare]; exact hw)]
    rfl
  rw [Answers, hclose]
  exact Form.Reads.enclosed h

theorem Makes.enclosed (hw : w.kind = k) (h : body.Makes (.word v :: b) ws b₁ (w :: ws')) :
    (Form.enclosed k body).Makes b (v :: ws) (.word w :: b₁) ws' := by
  obtain ⟨a, h⟩ := h
  exact ⟨a, .enclosed hw h⟩

theorem answers_nextNot_yes (h : nextKind ws ∉ kinds) :
    (nextNot kinds).Answers b ws true b ws :=
  .cond (answers_next_no h) answers_answer

theorem answers_nextNot_no (h : nextKind ws ∈ kinds) : (nextNot kinds).Answers b ws false b ws :=
  .cond (answers_next_yes h) answers_answer

theorem answers_eat (hw : w.kind = k) : (eat k).Answers b (w :: ws) true (.word w :: b) ws :=
  .cond (answers_next_yes (by simp [hw])) answers_take

theorem makes_eat (hw : w.kind = k) : (eat k).Makes b (w :: ws) (.word w :: b) ws :=
  (answers_eat hw).makes

theorem answers_eat_no (h : nextKind ws ≠ k) : (eat k).Answers b ws false b ws :=
  .cond (answers_next_no (by simpa using h)) answers_answer

theorem makes_take : Form.take.Makes b (w :: ws) (.word w :: b) ws := answers_take.makes

theorem makes_skip : skip.Makes b ws b ws := ⟨true, answers_answer⟩

theorem makes_opt_no {body : Form} (h : nextKind ws ∉ kinds) :
    (opt (.next kinds) body).Makes b ws b ws :=
  .cond (answers_next_no h) makes_skip

/-! ### Choices -/

/-- Whether a test of the next words answers no, given the kind of the first. -/
def misses (k : Kind) : Form → Bool
  | .next ks => !ks.contains k
  | .nextTwo j _ => k != j
  | _ => false

/-- The form that the first test of the next word chooses, given its kind. -/
def chosen? (k : Kind) : List (Form × Form) → Option Form
  | [] => none
  | (.next ks, form) :: rest => if ks.contains k then some form else chosen? k rest
  | (test, _) :: rest => if test.misses k then chosen? k rest else none

theorem answers_of_misses (h : f.misses (nextKind ws) = true) : f.Answers b ws false b ws := by
  cases f with
  | next ks => exact answers_next_no (by simpa [misses] using h)
  | nextTwo j l => exact answers_nextTwo_no (.inl (by simpa [misses] using h))
  | _ => cases h

section Select

variable {otherwise form : Form} {branches : List (Form × Form)}

/-- Where all tests answer no, the form for all other cases is read. -/
theorem makes_otherwise (h : ∀ branch ∈ branches, branch.1.misses (nextKind ws) = true)
    (ho : otherwise.Makes b ws b' ws') : (select otherwise branches).Makes b ws b' ws' := by
  induction branches with
  | nil => exact ho
  | cons branch branches ih =>
    obtain ⟨hmiss, hrest⟩ := List.forall_mem_cons.1 h
    exact .cond (answers_of_misses hmiss) (ih hrest)

/-- The chosen form is read. -/
theorem answers_chosen (hform : form.Answers b ws a b' ws')
    (h : chosen? (nextKind ws) branches = some form) :
    (select otherwise branches).Answers b ws a b' ws' := by
  induction branches with
  | nil => cases h
  | cons branch branches ih =>
    obtain ⟨test, first⟩ := branch
    by_cases hmiss : test.misses (nextKind ws) = true
    · refine .cond (answers_of_misses hmiss) (ih ?_)
      cases test <;> simp_all [chosen?, misses]
    · cases test with
      | next ks =>
        have hmem : nextKind ws ∈ ks := by simpa [misses] using hmiss
        obtain rfl : first = form := by simpa [chosen?, hmem] using h
        exact .cond (answers_next_yes hmem) hform
      | _ => simp [chosen?, hmiss] at h

theorem makes_chosen (hform : form.Makes b ws b' ws')
    (h : chosen? (nextKind ws) branches = some form) :
    (select otherwise branches).Makes b ws b' ws' := by
  obtain ⟨a, hform⟩ := hform
  exact (answers_chosen hform h).makes

end Select

theorem makes_seq_skip : (Form.seq f skip).Makes b ws b' ws' ↔ f.Makes b ws b' ws' := by
  refine ⟨fun ⟨_, h⟩ => ?_, fun h => .seq h makes_skip⟩
  obtain ⟨a, _, hf, hskip⟩ := h.of_seq
  cases hskip
  exact ⟨a, hf⟩

end Form

/-! ## What a text is read as -/

theorem Progress.tokens_bare (b : List (Outline Word)) (ws : List Word) :
    (bare b ws).tokens = Tree.tokensOf (Outline.trees b.reverse) ++ ws.map Word.token := by
  have hrest : Lexeme.tokens (ws.map fun w => ⟨w.token, []⟩) = ws.map Word.token := by
    induction ws with
    | nil => rfl
    | cons w ws ih => simp [ih]
  simp [Progress.tokens, bare, hrest, Outline.trees_eq_map]

/-- A text that is laid out without a fault is a program of the outline that can be
made of its words. -/
theorem parse_of_words {t : Text} {ws : List Word} {os : List (Outline Word)}
    (hwords : (significant (layout t).tokens).map Token.word = ws)
    (hfaults : (layout t).faults = [])
    (h : Phrase.program.form.Makes [] ws os.reverse []) :
    (parse t).ok = true ∧ (parse t).tree.outline Token.word = [.node .sourceFile os] := by
  obtain ⟨a, h⟩ := h
  have hread := Phrase.reads_iff.2 h
  have hwordly : ∀ w ∈ ws, w.token.isTrivia = false := by
    rw [← hwords]
    intro w hw
    obtain ⟨k, hk, rfl⟩ := List.mem_map.1 hw
    have hk := (List.mem_filter.1 hk).2
    rwa [Bool.not_eq_true'] at hk
  have hmap : ws.map (fun w => w.token.word) = ws := List.map_id ws
  have hstart : (Progress.start (layout t).tokens (layout t).faults).Alike Token.word
      (bare [] ws) :=
    { built := rfl
      words := by rw [words_start, hwords, bare, List.map_map]; exact hmap.symm
      faultless := by simp [Progress.start, hfaults, bare]
      sorted := sorted_start ..
      sorted' := ⟨by simp [bare], by simpa [bare] using hwordly⟩ }
  have htokens : Tree.tokensOf (Outline.trees os) = ws.map Word.token := by
    have heq := hread.tokens_eq
    simpa [tokens_bare, Outline.trees] using heq
  have houtlines : Tree.outlines Token.word (Outline.trees os) = os := by
    refine Outline.outlines_trees fun k hk => ?_
    rw [htokens] at hk
    obtain ⟨w, hw, rfl⟩ := List.mem_map.1 hk
    exact hwordly w hw
  obtain ⟨houtline, hok⟩ := outline_parse (congrArg Word.kind) hstart hread
  refine ⟨hok.2 rfl, ?_⟩
  rw [houtline, bare, ← List.map_reverse, List.reverse_reverse, ← Outline.trees_eq_map, houtlines]

end SceneGate
