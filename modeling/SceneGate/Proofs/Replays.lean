/-
Reading again what was read, with other words in some places. Where a list of
arguments is exchanged for another one (`Outline.Swap`), all that stands around it is
read as before: a form looks at the next two words only, and behind an opening bracket
at one. So from what is to be built and the words that are to be left, the words can be
found that are read in this way (`Phrase.Reads.replays`): the induction goes from the
end of a reading back to its beginning.

An argument ends before a comma or before the bracket that closes the list, and
whatever ends an argument does not tell one from the other (`Form.blunt`).
-/
import SceneGate.Proofs.Headway
import SceneGate.Proofs.WordReading
import Mathlib.Data.List.Forall2

namespace SceneGate

/-! ## What has been built, and what is left -/

namespace Outline

mutual

/-- The words of an outline, from left to right. -/
def words : Outline Word → List Word
  | .word w => [w]
  | .node _ os => wordsOf os

/-- The words of outlines that stand side by side. -/
def wordsOf : List (Outline Word) → List Word
  | [] => []
  | o :: os => o.words ++ wordsOf os

end

@[simp] theorem words_word (w : Word) : (word w : Outline Word).words = [w] := by simp [words]

@[simp] theorem words_node (kind : Kind) (os : List (Outline Word)) :
    (node kind os).words = wordsOf os := by simp [words]

@[simp] theorem wordsOf_nil : wordsOf [] = [] := by simp [wordsOf]

@[simp] theorem wordsOf_cons (o : Outline Word) (os : List (Outline Word)) :
    wordsOf (o :: os) = o.words ++ wordsOf os := by simp [wordsOf]

@[simp] theorem wordsOf_append (os ps : List (Outline Word)) :
    wordsOf (os ++ ps) = wordsOf os ++ wordsOf ps := by
  induction os with
  | nil => simp
  | cons o os ih => simp [ih]

end Outline

mutual

/-- The words of a tree's outline are its tokens without the trivia. -/
theorem Tree.words_outline : ∀ t : Tree,
    Outline.wordsOf (t.outline Token.word) = (significant t.tokens).map Token.word
  | .leaf k => by
    cases hk : k.isTrivia <;> simp [outline, significant, hk]
  | .node kind ts => by
    rw [Tree.outline_node, tokens_node, ← Tree.words_outlines ts]
    simp

theorem Tree.words_outlines : ∀ ts : List Tree,
    Outline.wordsOf (Tree.outlines Token.word ts) = (significant (Tree.tokensOf ts)).map Token.word
  | [] => by simp [significant]
  | t :: ts => by
    rw [Tree.outlines_cons, Outline.wordsOf_append, Tree.words_outline t, Tree.words_outlines ts,
      tokensOf_cons, significant_append, List.map_append]

end

namespace Progress

/-- The outlines of what has been built, the last first. -/
def outlines (s : Progress) : List (Outline Word) :=
  (Tree.outlines Token.word s.built.reverse).reverse

/-- The words that are left. -/
def words (s : Progress) : List Word := s.rest.map (·.token.word)

variable {s s' : Progress}

theorem current_eq_words (s : Progress) : s.current = nextKind s.words := by
  unfold current words
  cases s.rest <;> rfl

theorem following_eq_words (s : Progress) : s.following = secondKind s.words := by
  unfold following words
  rcases s.rest with _ | ⟨l, _ | ⟨m, ls⟩⟩ <;> rfl

theorem words_eq_nil : s.words = [] ↔ s.rest = [] := by simp [words]

@[simp] theorem words_flush : s.flush.words = s.words := rfl

@[simp] theorem words_inside : s.inside.words = s.words := rfl

@[simp] theorem outlines_inside : s.inside.outlines = [] := by simp [outlines, inside]

theorem outlines_flush (h : s.Sorted) : s.flush.outlines = s.outlines := by
  simp [outlines, Progress.flush, Tree.outlines_trivia _ h.pending]

theorem outlines_take {l : Lexeme} {ls : List Lexeme} (h : s.Sorted) (hs : s.rest = l :: ls) :
    s.take.outlines = .word l.token.word :: s.outlines ∧ s.words = l.token.word :: s.take.words := by
  have hl := (h.rest l (by simp [hs])).1
  have hflush := outlines_flush h
  rw [take_of_cons hs]
  refine ⟨?_, by simp [words, hs]⟩
  rw [← hflush]
  simp [outlines, Tree.outline_leaf _ hl]

theorem take_of_end (h : s.Sorted) (hs : s.rest = []) :
    s.take.outlines = s.outlines ∧ s.take.rest = [] := by
  rw [take_of_nil hs]
  exact ⟨outlines_flush h, hs⟩

theorem outlines_rejoin (h : s.Sorted) (parts : List Tree) :
    (s.rejoin s' parts).outlines =
      (Tree.outlines Token.word parts.reverse).reverse ++ s.outlines := by
  rw [← outlines_flush h]
  simp [outlines, rejoin]

theorem outlines_node (h : s.Sorted) (kind : Kind) :
    (s.rejoin s' [.node kind s'.built.reverse]).outlines =
      .node kind s'.outlines.reverse :: s.outlines := by
  rw [outlines_rejoin h]
  simp [outlines]

theorem outlines_mark (h : s.Sorted) :
    (s.rejoin s' s'.built).outlines = s'.outlines ++ s.outlines := outlines_rejoin h _

theorem outlines_wrap (kind : Kind) :
    { s with built := [Tree.node kind s.built.reverse] }.outlines =
      [.node kind s.outlines.reverse] := by
  simp [outlines]

end Progress

open Progress

/-- The words in sight are kept: those built into outlines, and those that are left. -/
theorem Form.Reads.words_eq {env : Surroundings} {f : Form} {s s' : Progress} {b : Bool}
    (h : Form.Reads env (Phrase.Reads env) f s b s') (hs : s.Sorted) :
    Outline.wordsOf s'.outlines.reverse ++ s'.words =
      Outline.wordsOf s.outlines.reverse ++ s.words := by
  have inSight {s : Progress} (hs : s.Sorted) :
      Outline.wordsOf s.outlines.reverse ++ s.words = (significant s.tokens).map Token.word := by
    have hrest : significant (Lexeme.tokens s.rest) = s.rest.map (·.token) := by
      have hall := hs.rest
      generalize s.rest = ls at hall
      induction ls with
      | nil => rfl
      | cons l ls ih =>
        obtain ⟨hl, hls⟩ := List.forall_mem_cons.1 hall
        have htrail := significant_of_trivia hl.2
        have hsplit : Lexeme.tokens (l :: ls) = [l.token] ++ (l.trail ++ Lexeme.tokens ls) := by simp
        rw [hsplit, significant_append, significant_append, htrail, ih hls]
        simp [significant, hl.1]
    rw [Progress.tokens, significant_append, significant_append, significant_of_trivia hs.pending,
      List.append_nil, hrest, outlines, List.reverse_reverse, Tree.words_outlines, List.map_append,
      List.map_map, words]
    rfl
  have hkept := (h.imp fun _ _ _ _ hq => hq.tokens_eq).tokens_eq
  have hs' := (h.imp fun _ _ _ _ hq => hq.sorted).sorted hs
  rw [inSight hs', inSight hs, hkept]

/-! ## Exchanging parts -/

/-- Outlines that are the same, but that some in the one are exchanged in the other; words need
only be of the same kind. -/
inductive Outline.Swap (E : Outline Word → Outline Word → Prop) : Outline Word → Outline Word → Prop
  | word {w v : Word} : w.kind = v.kind → Swap E (.word w) (.word v)
  | node {kind : Kind} {os ps : List (Outline Word)} : List.Forall₂ (Swap E) os ps →
      Swap E (.node kind os) (.node kind ps)
  | here {o p : Outline Word} : E o p → Swap E o p

/-- Whether an argument can end before a word of the kind. -/
def Kind.endsArgument (k : Kind) : Bool := k == .comma || k == .rParen

/-- Words that a form cannot tell apart by looking at two of them: the kinds are the
same, but that nothing is known behind an opening bracket, and of the second word it
may be known only that an argument ends before it. -/
structure Leads (ws vs : List Word) : Prop where
  nil : ws = [] ↔ vs = []
  first : nextKind ws = nextKind vs
  second : nextKind ws = .lParen ∨ secondKind ws = secondKind vs ∨
    (secondKind ws).endsArgument = true ∧ (secondKind vs).endsArgument = true

/-- Words that lead on alike, or (unless `sharp` rules that out) an argument ends before
both. -/
def Meets (sharp : Bool) (ws vs : List Word) : Prop :=
  Leads ws vs ∨
    sharp = false ∧ (nextKind ws).endsArgument = true ∧ (nextKind vs).endsArgument = true

theorem Leads.refl (ws : List Word) : Leads ws ws := ⟨Iff.rfl, rfl, .inr (.inl rfl)⟩

theorem Leads.cons {sharp : Bool} {w v : Word} (hkind : w.kind = v.kind) {ws vs : List Word}
    (h : Meets sharp ws vs) : Leads (w :: ws) (v :: vs) := by
  refine ⟨by simp, hkind, .inr ?_⟩
  rcases h with h | ⟨-, hws, hvs⟩
  · exact .inl h.first
  · exact .inr ⟨hws, hvs⟩

theorem Meets.of_nil {sharp : Bool} {vs : List Word} (h : Meets sharp [] vs) : vs = [] := by
  rcases h with h | ⟨-, h, -⟩
  · exact h.nil.1 rfl
  · cases h

theorem Meets.leads {ws vs : List Word} (h : Meets true ws vs) : Leads ws vs := by
  rcases h with h | ⟨h, -⟩
  · exact h
  · cases h

/-- The phrases that an argument can end with. -/
def Phrase.endsArgument : Phrase → Bool
  | .name | .nameRef | .namedExpression | .expression | .lambda | .disjunction | .conjunction
  | .inversion | .comparison | .bitOr | .bitXor | .bitAnd | .shift | .sum | .product | .factor
  | .power | .primary | .atom | .parenthesized | .list | .braced | .forClause | .arguments => true
  | _ => false

namespace Form

/-- Whether a form does the same in front of any words before which an argument can end.
Behind a form that takes a token, what stands before it may tell such words apart. -/
def blunt : Form → Bool
  | .next kinds => kinds.contains .comma == kinds.contains .rParen
  | .nextTwo first _ => !first.endsArgument
  | .seq first second => second.blunt && (first.blunt || second.movesOn .all)
  | .cond test yes no => test.blunt && yes.blunt && no.blunt
  | .loop test body => test.blunt && body.blunt
  | .call p => p.endsArgument
  | .node _ body | .mark body | .wrap _ body => body.blunt
  | .answer _ | .take | .complain _ | .complainOfToken | .enclosed _ _ => true

/-- Whether a form looks at second words no closer than `Leads` allows, and makes no
list of arguments but by the phrase for them. -/
def shortSighted : Form → Bool
  | .nextTwo first second => first != .lParen && !second.endsArgument
  | .seq first second => first.shortSighted && second.shortSighted
  | .cond test yes no => test.shortSighted && yes.shortSighted && no.shortSighted
  | .loop test body => test.shortSighted && body.shortSighted
  | .node kind body =>
    (kind != .argList || body == .enclosed .rParen (.call (.argumentsFrom false))) &&
      body.shortSighted
  | .wrap kind body => kind != .argList && body.shortSighted
  | .mark body | .enclosed _ body => body.shortSighted
  | .answer _ | .next _ | .take | .complain _ | .complainOfToken | .call _ => true

/-- Whether a form answers yes, if phrases that read arguments do. -/
def saysYes : Form → Bool
  | .answer yes => yes
  | .take => true
  | .seq _ second => second.saysYes
  | .cond _ yes no => yes.saysYes && no.saysYes
  | .call (.argumentsFrom _) => true
  | .node _ body | .mark body | .wrap _ body | .enclosed _ body => body.saysYes
  | _ => false

end Form

theorem Phrase.shortSighted (p : Phrase) : p.form.shortSighted = true := by
  revert p
  decide +kernel

theorem Phrase.blunt_form (p : Phrase) : (!p.endsArgument || p.form.blunt) = true := by
  revert p
  decide +kernel

section Replays

variable {E : Outline Word → Outline Word → Prop} {env : Surroundings} {f : Form} {p : Phrase}
  {a : Bool} {s s' : Progress}

/-- A form that reads arguments answers yes. -/
theorem Form.Reads.yes
    (h : Form.Reads env (fun p _ b _ => ∀ k, p = .argumentsFrom k → b = true) f s a s')
    (hf : f.saysYes = true) : a = true := by
  induction h with
  | answer => exact hf
  | next | nextTwo | complain | complainOfToken => cases hf
  | take => rfl
  | seq _ _ _ ih₂ => exact ih₂ hf
  | condYes _ _ _ ih₂ =>
    simp only [saysYes, Bool.and_eq_true] at hf
    exact ih₂ hf.1
  | condNo _ _ _ ih₂ =>
    simp only [saysYes, Bool.and_eq_true] at hf
    exact ih₂ hf.2
  | loopEnd | loopAgain => cases hf
  | @call p _ _ _ h =>
    cases p with
    | argumentsFrom k => exact h k rfl
    | _ => cases hf
  | node _ ih | mark _ ih | wrap _ ih | enclosed _ ih => exact ih hf

theorem Phrase.Reads.argumentsFrom_yes (h : Phrase.Reads env p s a s') :
    ∀ k, p = .argumentsFrom k → a = true := by
  refine h.induct (fun p _ b _ => ∀ k, p = .argumentsFrom k → b = true) ?_
  rintro _ s b s' h k rfl
  refine (h.imp fun _ _ _ _ hq => hq.2).yes ?_
  cases k <;> decide +kernel

/-- What may be exchanged: lists of arguments for words that are read as one. -/
def ArgumentSwaps (E : Outline Word → Outline Word → Prop) : Prop :=
  ∀ o p, E o p →
    (∃ w os, o = .node .argList (.word w :: os) ∧ w.kind = .lParen) ∧
      ∃ w ws, w.kind = .lParen ∧
        ∀ b vs, Form.arguments.Answers b (w :: ws ++ vs) true (p :: b) vs

/-- Whatever is to be built instead of what a form built and left instead of what it
left, if only some lists of arguments are exchanged, can be made by the form of some
words that lead on as those before it did. -/
def Form.ReplaysAs (E : Outline Word → Outline Word → Prop) (f : Form) (blunt : Bool)
    (s : Progress) (a : Bool) (s' : Progress) : Prop :=
  ∀ sharp b' ws', (sharp = true ∨ blunt = true) → List.Forall₂ (Outline.Swap E) s'.outlines b' →
    Meets sharp s'.words ws' →
      ∃ b ws, List.Forall₂ (Outline.Swap E) s.outlines b ∧ Meets sharp s.words ws ∧
        (s.rest ≠ s'.rest → Leads s.words ws) ∧ f.Answers b ws a b' ws'

/-- What it means that a phrase can be read again with other words. -/
def Phrase.ReplaysAs (E : Outline Word → Outline Word → Prop) (p : Phrase) (s : Progress)
    (a : Bool) (s' : Progress) : Prop :=
  s.Sorted → s'.faults = [] → p.form.ReplaysAs E p.endsArgument s a s'

theorem swap_word (hE : ArgumentSwaps E) {w : Word} {o : Outline Word}
    (h : Outline.Swap E (.word w) o) : ∃ v, o = .word v ∧ w.kind = v.kind := by
  cases h with
  | @word _ v hkind => exact ⟨v, rfl, hkind⟩
  | here h =>
    obtain ⟨⟨_, _, heq, -⟩, -⟩ := hE _ _ h
    cases heq

/-- Taking a word back. -/
theorem Progress.replay_take (hE : ArgumentSwaps E) (hs : s.Sorted) {sharp : Bool}
    {b' : List (Outline Word)} {ws' : List Word}
    (hb : List.Forall₂ (Outline.Swap E) s.take.outlines b') (hws : Meets sharp s.take.words ws') :
    ∃ b ws, List.Forall₂ (Outline.Swap E) s.outlines b ∧ Leads s.words ws ∧
      (bare b ws).take = bare b' ws' := by
  cases hr : s.rest with
  | nil =>
    obtain ⟨hbuilt, hrest⟩ := take_of_end hs hr
    rw [words_eq_nil.2 hrest] at hws
    obtain rfl := hws.of_nil
    exact ⟨b', [], hbuilt ▸ hb, by rw [words_eq_nil.2 hr]; exact .refl [], rfl⟩
  | cons l ls =>
    obtain ⟨hbuilt, hwords⟩ := outlines_take hs hr
    rw [hbuilt] at hb
    obtain ⟨o, b, ho, hbs, rfl⟩ := List.forall₂_cons_left_iff.1 hb
    obtain ⟨v, rfl, hkind⟩ := swap_word hE ho
    refine ⟨b, v :: ws', hbs, ?_, take_bare⟩
    rw [hwords]
    exact .cons hkind hws

/-- What stands side by side with parts that are exchanged can be told apart again. -/
theorem forall₂_append {α β : Type} {R : α → β → Prop} {xs ys : List α} {zs : List β}
    (h : List.Forall₂ R (xs ++ ys) zs) :
    ∃ us vs, zs = us ++ vs ∧ List.Forall₂ R xs us ∧ List.Forall₂ R ys vs := by
  induction xs generalizing zs with
  | nil => exact ⟨[], zs, rfl, .nil, h⟩
  | cons x xs ih =>
    obtain ⟨u, zs, hu, hzs, rfl⟩ := List.forall₂_cons_left_iff.1 h
    obtain ⟨us, vs, rfl, hus, hvs⟩ := ih hzs
    exact ⟨u :: us, vs, rfl, .cons hu hus, hvs⟩

theorem mark_bare (b b' : List (Outline Word)) (ws ws' : List Word) :
    (bare b ws).rejoin (bare b' ws') (bare b' ws').built = bare (b' ++ b) ws' := by
  simp [bare, rejoin, flush]

/-- Behind what is read again, a form is read again that stands before it. -/
theorem Form.ReplaysAs.before {blunt : Bool} {s₁ s₂ : Progress}
    (hf : f.ReplaysAs E blunt s a s₁) {sharp : Bool} {b : List (Outline Word)} {ws : List Word}
    (hb : List.Forall₂ (Outline.Swap E) s₁.outlines b) (hws : Meets sharp s₁.words ws)
    (hmoved : s₁.rest ≠ s₂.rest → Leads s₁.words ws)
    (hblunt : sharp = true ∨ blunt = true ∨ s₁.rest ≠ s₂.rest) :
    ∃ b₀ ws₀, List.Forall₂ (Outline.Swap E) s.outlines b₀ ∧ Meets sharp s.words ws₀ ∧
      (s.rest ≠ s₂.rest → Leads s.words ws₀) ∧ f.Answers b₀ ws₀ a b ws := by
  by_cases hlead : Leads s₁.words ws
  · obtain ⟨b₀, ws₀, hb₀, hws₀, -, hf⟩ := hf true b ws (.inl rfl) hb (.inl hlead)
    exact ⟨b₀, ws₀, hb₀, .inl hws₀.leads, fun _ => hws₀.leads, hf⟩
  · have hstill : s₁.rest = s₂.rest := by
      by_contra hne
      exact hlead (hmoved hne)
    have hblunt : sharp = true ∨ blunt = true := by
      rcases hblunt with h | h | h
      · exact .inl h
      · exact .inr h
      · exact absurd hstill h
    obtain ⟨b₀, ws₀, hb₀, hws₀, hmoved₀, hf⟩ := hf sharp b ws hblunt hb hws
    exact ⟨b₀, ws₀, hb₀, hws₀, hstill ▸ hmoved₀, hf⟩

/-- A test of the next word answers alike. -/
theorem Form.answers_next_of_meets {sharp : Bool} {kinds : List Kind} {b : List (Outline Word)}
    {ws : List Word} (h : Meets sharp s.words ws)
    (hblunt : sharp = true ∨ (Form.next kinds).blunt = true) :
    (Form.next kinds).Answers b ws (kinds.contains s.current) b ws := by
  have hsame : kinds.contains s.current = kinds.contains (nextKind ws) := by
    rw [current_eq_words]
    rcases h with hlead | ⟨rfl, h, h'⟩
    · rw [hlead.first]
    · have hblunt : kinds.contains .comma = kinds.contains .rParen := by
        simpa [blunt] using hblunt
      simp only [Kind.endsArgument, Bool.or_eq_true, beq_iff_eq] at h h'
      rcases h with h | h <;> rcases h' with h' | h' <;> rw [h, h']
      · exact hblunt
      · exact hblunt.symm
  rw [hsame]
  exact answers_next

/-- A test of the next two words answers alike. -/
theorem Form.answers_nextTwo_of_meets {sharp : Bool} {first second : Kind}
    {b : List (Outline Word)} {ws : List Word} (h : Meets sharp s.words ws)
    (hf : (Form.nextTwo first second).shortSighted = true)
    (hblunt : sharp = true ∨ (Form.nextTwo first second).blunt = true) :
    (Form.nextTwo first second).Answers b ws (s.current == first && s.following == second) b ws := by
  have hother {k j : Kind} (hk : k.endsArgument = true) (hj : j.endsArgument = false) :
      (k == j) = false := beq_eq_false_iff_ne.2 fun heq => by simp [heq, hj] at hk
  have hsame : (s.current == first && s.following == second) =
      (nextKind ws == first && secondKind ws == second) := by
    rw [current_eq_words, following_eq_words]
    simp only [shortSighted, Bool.and_eq_true, bne_iff_ne, Bool.not_eq_true'] at hf
    rcases h with hlead | ⟨rfl, h, h'⟩
    · rw [← hlead.first]
      by_cases hfirst : nextKind s.words = first
      · rcases hlead.second.resolve_left (hfirst ▸ hf.1) with hsecond | ⟨h, h'⟩
        · rw [hsecond]
        · rw [hother h hf.2, hother h' hf.2]
      · rw [beq_eq_false_iff_ne.2 hfirst, Bool.false_and, Bool.false_and]
    · have hfirst : first.endsArgument = false := by simpa [blunt] using hblunt
      rw [hother h hfirst, hother h' hfirst, Bool.false_and, Bool.false_and]
  rw [hsame]
  exact answers_nextTwo

theorem Form.answers_next_of_leads {kinds : List Kind} {b : List (Outline Word)} {ws : List Word}
    (h : Leads s.words ws) : (Form.next kinds).Answers b ws (kinds.contains s.current) b ws :=
  answers_next_of_meets (.inl h) (.inl rfl)

theorem Form.answers_nextTwo_of_leads {first second : Kind} {b : List (Outline Word)}
    {ws : List Word} (h : Leads s.words ws) (hf : (Form.nextTwo first second).shortSighted = true) :
    (Form.nextTwo first second).Answers b ws (s.current == first && s.following == second) b ws :=
  answers_nextTwo_of_meets (.inl h) hf (.inl rfl)

/-- The parts of a node are listed in their order. -/
theorem Form.Answers.node {k : Kind} {body : Form} {b : List (Outline Word)} {ws ws' : List Word}
    (os : List (Outline Word)) (h : body.Answers [] ws a os.reverse ws') :
    (Form.node k body).Answers b ws a (.node k os :: b) ws' := by
  rw [Answers, ← node_bare]
  exact Form.Reads.node h

theorem Form.Answers.wrap {k : Kind} {body : Form} {b : List (Outline Word)} {ws ws' : List Word}
    (os : List (Outline Word)) (h : body.Answers b ws a os.reverse ws') :
    (Form.wrap k body).Answers b ws a [.node k os] ws' := by
  rw [Answers, ← wrap_bare]
  exact Form.Reads.wrap h

/-- What a form read can be read again, if that is so of the phrases in it. -/
theorem Form.Reads.replays (hE : ArgumentSwaps E)
    (h : Form.Reads env (fun q s b s' => Phrase.Reads env q s b s' ∧ q.ReplaysAs E s b s') f s a s')
    (hs : s.Sorted) (hg : s'.faults = []) (hf : f.shortSighted = true) :
    f.ReplaysAs E f.blunt s a s' := by
  have alone {f s b s'}
      (h : Form.Reads env (fun q s b s' => Phrase.Reads env q s b s' ∧ q.ReplaysAs E s b s')
        f s b s') : Form.Reads env (Phrase.Reads env) f s b s' :=
    h.imp fun _ _ _ _ hq => hq.1
  have sorted {f s b s'}
      (h : Form.Reads env (fun q s b s' => Phrase.Reads env q s b s' ∧ q.ReplaysAs E s b s')
        f s b s') (hs : s.Sorted) : s'.Sorted :=
    (h.imp fun _ _ _ _ hq => hq.1.sorted).sorted hs
  induction h with
  | answer =>
    intro sharp b' ws' _ hb hws
    exact ⟨b', ws', hb, hws, fun hne => absurd rfl hne, answers_answer⟩
  | next =>
    intro sharp b' ws' hblunt hb hws
    exact ⟨b', ws', hb, hws, fun hne => absurd rfl hne, answers_next_of_meets hws hblunt⟩
  | nextTwo =>
    intro sharp b' ws' hblunt hb hws
    exact ⟨b', ws', hb, hws, fun hne => absurd rfl hne, answers_nextTwo_of_meets hws hf hblunt⟩
  | take =>
    intro sharp b' ws' _ hb hws
    obtain ⟨b, ws, hb, hlead, htake⟩ := replay_take hE hs hb hws
    refine ⟨b, ws, hb, .inl hlead, fun _ => hlead, ?_⟩
    rw [Answers, ← htake]
    exact Form.Reads.take
  | complain | complainOfToken => exact absurd hg (faults_complain_ne _ _ _)
  | seq h₁ h₂ ih₁ ih₂ =>
    intro sharp b' ws' hblunt hb hws
    simp only [shortSighted, Bool.and_eq_true] at hf
    simp only [blunt, Bool.and_eq_true, Bool.or_eq_true] at hblunt
    have hg₁ := (alone h₂).faults_eq hg
    obtain ⟨b₁, ws₁, hb₁, hws₁, hmoved, hread₂⟩ := ih₂ (sorted h₁ hs) hg hf.2 sharp b' ws'
      (hblunt.imp_right And.left) hb hws
    obtain ⟨b₀, ws₀, hb₀, hws₀, hmoved₀, hread₁⟩ :=
      (ih₁ hs hg₁ hf.1).before hb₁ hws₁ hmoved (hblunt.imp_right fun h => h.2.imp_right fun hm heq => by
        have := (alone h₂).moves hg hm rfl
        rw [heq] at this
        exact absurd this (Nat.lt_irrefl _))
    exact ⟨b₀, ws₀, hb₀, hws₀, hmoved₀, .seq ⟨_, hread₁⟩ hread₂⟩
  | condYes h₁ h₂ ih₁ ih₂ =>
    intro sharp b' ws' hblunt hb hws
    simp only [shortSighted, Bool.and_eq_true] at hf
    simp only [blunt, Bool.and_eq_true] at hblunt
    have hg₁ := (alone h₂).faults_eq hg
    obtain ⟨b₁, ws₁, hb₁, hws₁, hmoved, hread₂⟩ := ih₂ (sorted h₁ hs) hg hf.1.2 sharp b' ws'
      (hblunt.imp_right fun h => h.1.2) hb hws
    obtain ⟨b₀, ws₀, hb₀, hws₀, hmoved₀, hread₁⟩ := (ih₁ hs hg₁ hf.1.1).before hb₁ hws₁ hmoved
      (hblunt.imp_right fun h => .inl h.1.1)
    exact ⟨b₀, ws₀, hb₀, hws₀, hmoved₀, .cond hread₁ hread₂⟩
  | condNo h₁ h₂ ih₁ ih₂ =>
    intro sharp b' ws' hblunt hb hws
    simp only [shortSighted, Bool.and_eq_true] at hf
    simp only [blunt, Bool.and_eq_true] at hblunt
    have hg₁ := (alone h₂).faults_eq hg
    obtain ⟨b₁, ws₁, hb₁, hws₁, hmoved, hread₂⟩ := ih₂ (sorted h₁ hs) hg hf.2 sharp b' ws'
      (hblunt.imp_right fun h => h.2) hb hws
    obtain ⟨b₀, ws₀, hb₀, hws₀, hmoved₀, hread₁⟩ := (ih₁ hs hg₁ hf.1.1).before hb₁ hws₁ hmoved
      (hblunt.imp_right fun h => .inl h.1.1)
    exact ⟨b₀, ws₀, hb₀, hws₀, hmoved₀, .cond hread₁ hread₂⟩
  | loopEnd h ih =>
    intro sharp b' ws' hblunt hb hws
    simp only [shortSighted, Bool.and_eq_true] at hf
    simp only [blunt, Bool.and_eq_true] at hblunt
    obtain ⟨b₀, ws₀, hb₀, hws₀, hmoved₀, hread⟩ := ih hs hg hf.1 sharp b' ws'
      (hblunt.imp_right And.left) hb hws
    exact ⟨b₀, ws₀, hb₀, hws₀, hmoved₀, Form.Reads.loopEnd hread⟩
  | loopAgain h₁ h₂ h₃ ih₁ ih₂ ih₃ =>
    intro sharp b' ws' hblunt hb hws
    have hf' := hf
    have hblunt' := hblunt
    simp only [shortSighted, Bool.and_eq_true] at hf
    simp only [blunt, Bool.and_eq_true] at hblunt
    have hg₂ := (alone h₃).faults_eq hg
    have hg₁ := (alone h₂).faults_eq hg₂
    have hs₁ := sorted h₁ hs
    obtain ⟨b₂, ws₂, hb₂, hws₂, hmoved₂, hread₃⟩ := ih₃ (sorted h₂ hs₁) hg hf' sharp b' ws'
      hblunt' hb hws
    obtain ⟨b₁, ws₁, hb₁, hws₁, hmoved₁, hread₂⟩ := (ih₂ hs₁ hg₂ hf.2).before hb₂ hws₂ hmoved₂
      (hblunt.imp_right fun h => .inl h.2)
    obtain ⟨b₀, ws₀, hb₀, hws₀, hmoved₀, hread₁⟩ := (ih₁ hs hg₁ hf.1).before hb₁ hws₁ hmoved₁
      (hblunt.imp_right fun h => .inl h.1)
    exact ⟨b₀, ws₀, hb₀, hws₀, hmoved₀, Form.Reads.loopAgain hread₁ hread₂ hread₃⟩
  | call h =>
    intro sharp b' ws' hblunt hb hws
    obtain ⟨b₀, ws₀, hb₀, hws₀, hmoved₀, hread⟩ := h.2 hs hg sharp b' ws' hblunt hb hws
    exact ⟨b₀, ws₀, hb₀, hws₀, hmoved₀, .call hread⟩
  | @node body b s₁ kind s h ih =>
    intro sharp b' ws' hblunt hb hws
    simp only [shortSighted, Bool.and_eq_true, Bool.or_eq_true, bne_iff_ne, beq_iff_eq] at hf
    rw [outlines_node hs] at hb
    obtain ⟨o, outer, ho, houter, rfl⟩ := List.forall₂_cons_left_iff.1 hb
    cases ho with
    | node hparts =>
      have hparts := List.rel_reverse hparts
      rw [List.reverse_reverse] at hparts
      obtain ⟨b₀, ws₀, hb₀, hws₀, hmoved₀, hread⟩ := ih hs.inside hg hf.2 sharp _ ws' hblunt hparts hws
      rw [outlines_inside, List.forall₂_nil_left_iff] at hb₀
      subst hb₀
      exact ⟨outer, ws₀, houter, hws₀, hmoved₀, .node _ hread⟩
    | here h =>
      obtain ⟨⟨v, os, heq, hv⟩, w, ws, hw, hread⟩ := hE _ _ ‹E _ _›
      obtain ⟨rfl, hparts⟩ := Outline.node.inj heq
      obtain rfl := hf.1.resolve_left fun hne => hne rfl
      have hyes : b = true := ((alone h).imp fun _ _ _ _ hq => hq.argumentsFrom_yes).yes rfl
      have hwords := (alone h).words_eq hs.inside
      simp only [hparts, outlines_inside, List.reverse_nil, Outline.wordsOf_nil, words_inside,
        Outline.wordsOf_cons, Outline.words_word, List.cons_append, List.nil_append] at hwords
      have hlead : Leads s.words (w :: ws ++ ws') := by
        rw [← hwords]
        exact ⟨by simp, by rw [List.cons_append, nextKind_cons, nextKind_cons, hv, hw], .inl hv⟩
      exact ⟨outer, w :: ws ++ ws', houter, .inl hlead, fun _ => hlead, hyes ▸ hread outer ws'⟩
  | mark h ih =>
    intro sharp b' ws' hblunt hb hws
    rw [outlines_mark hs] at hb
    obtain ⟨inner, outer, rfl, hinner, houter⟩ := forall₂_append hb
    obtain ⟨b₀, ws₀, hb₀, hws₀, hmoved₀, hread⟩ := ih hs.inside hg hf sharp inner ws' hblunt hinner hws
    rw [outlines_inside, List.forall₂_nil_left_iff] at hb₀
    subst hb₀
    refine ⟨outer, ws₀, houter, hws₀, hmoved₀, ?_⟩
    rw [Answers, ← mark_bare outer inner ws₀ ws']
    exact Form.Reads.mark hread
  | wrap h ih =>
    intro sharp b' ws' hblunt hb hws
    simp only [shortSighted, Bool.and_eq_true, bne_iff_ne] at hf
    rw [outlines_wrap] at hb
    obtain ⟨o, _, ho, hnil, rfl⟩ := List.forall₂_cons_left_iff.1 hb
    obtain rfl := List.forall₂_nil_left_iff.1 hnil
    cases ho with
    | node hparts =>
      have hparts := List.rel_reverse hparts
      rw [List.reverse_reverse] at hparts
      obtain ⟨b₀, ws₀, hb₀, hws₀, hmoved₀, hread⟩ := ih hs hg hf.2 sharp _ ws' hblunt hparts hws
      exact ⟨b₀, ws₀, hb₀, hws₀, hmoved₀, .wrap _ hread⟩
    | here h =>
      obtain ⟨⟨_, _, heq, -⟩, -⟩ := hE _ _ h
      exact absurd (Outline.node.inj heq).1 hf.1
  | @enclosed body b s₁ bracket s h ih =>
    intro sharp b' ws' hblunt hb hws
    obtain ⟨hcurrent, hclose⟩ := close_of_faults hg
    have hs₁ := sorted h hs.take
    have hg₁ : s₁.faults = [] := List.suffix_nil.1 (hg ▸ (follows_close ..).faults)
    rw [hclose] at hb hws
    obtain ⟨b₁, ws₁, hb₁, hlead₁, htake₁⟩ := replay_take hE hs₁ hb hws
    obtain ⟨b₂, ws₂, hb₂, hws₂, -, hread⟩ := ih hs.take hg₁ hf true b₁ ws₁ (.inl rfl) hb₁ (.inl hlead₁)
    obtain ⟨b₀, ws₀, hb₀, hlead₀, htake₀⟩ := replay_take hE hs hb₂ hws₂
    refine ⟨b₀, ws₀, hb₀, .inl hlead₀, fun _ => hlead₀, ?_⟩
    have hsame : (bare b₁ ws₁).current = bracket := by
      rw [current_bare, ← hlead₁.first, ← current_eq_words, hcurrent]
    have hclosed (o : Nat) : (bare b₁ ws₁).close nowhere bracket o = bare b' ws' := by
      rw [Progress.close, if_pos hsame, htake₁]
    rw [Answers, ← hclosed ((bare b₀ ws₀).offset nowhere)]
    exact Form.Reads.enclosed (htake₀ ▸ hread)

/-- What a phrase read without a fault can be read again with other lists of arguments. -/
theorem Phrase.Reads.replays (hE : ArgumentSwaps E) (h : Phrase.Reads env p s a s') :
    p.ReplaysAs E s a s' := by
  refine h.induct (Phrase.ReplaysAs E) fun p s a s' h hs hg sharp b' ws' hblunt hb hws => ?_
  refine h.replays hE hs hg p.shortSighted sharp b' ws' (hblunt.imp_right fun hp => ?_) hb hws
  simpa [hp] using p.blunt_form

end Replays

end SceneGate
