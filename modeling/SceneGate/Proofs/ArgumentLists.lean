/-
Lists of arguments. Between the brackets stand arguments with commas between them
(`Outline.AreArguments`), and each of them can be read again wherever an argument can
stand and end (`Outline.StandsIn`). So the arguments that were read in one list can be
read in another one, in front of other words (`Outline.AreArguments.answers`).
-/
import SceneGate.Proofs.Precedence
import SceneGate.Proofs.Replays
import SceneGate.Proofs.StatementLines

namespace SceneGate

open Form Progress

/-! ## Words of what is read -/

namespace Outline

mutual

theorem words_tokens : ∀ o : Outline Word, o.tree.tokens.map Token.word = o.words
  | .word w => by simp [tree]
  | .node kind os => by rw [tree, Tree.tokens_node, wordsOf_tokens os, words_node]

theorem wordsOf_tokens : ∀ os : List (Outline Word),
    (Tree.tokensOf (trees os)).map Token.word = wordsOf os
  | [] => by simp [trees]
  | o :: os => by
    rw [trees, Tree.tokensOf_cons, List.map_append, words_tokens o, wordsOf_tokens os, wordsOf_cons]

end

variable {E : Outline Word → Outline Word → Prop}

mutual

theorem swap_refl : ∀ o : Outline Word, Swap E o o
  | .word _ => .word rfl
  | .node _ os => .node (forall₂_swap_refl os)

theorem forall₂_swap_refl : ∀ os : List (Outline Word), List.Forall₂ (Swap E) os os
  | [] => .nil
  | o :: os => .cons (swap_refl o) (forall₂_swap_refl os)

end

end Outline

theorem Form.Answers.words_eq {f : Form} {b b' : List (Outline Word)} {ws ws' : List Word} {a : Bool}
    (h : f.Answers b ws a b' ws') :
    Outline.wordsOf b'.reverse ++ ws' = Outline.wordsOf b.reverse ++ ws := by
  have heq := (h.imp fun _ _ _ _ hq => hq.tokens_eq).tokens_eq
  rw [tokens_bare, tokens_bare] at heq
  have hmap := congrArg (List.map Token.word) heq
  simpa [Outline.wordsOf_tokens, Function.comp_def] using hmap

/-! ## Arguments -/

namespace Form

/-- What follows an argument: perhaps a comma and further arguments. -/
def moreArguments (after : Bool) : Form := opt (eat .comma) (.call (.argumentsFrom after))

end Form

/-- Wherever arguments are read and an argument can end behind its words, an outline is
built of them. What comes before and behind differs in whether a keyword was given. -/
def Outline.StandsIn (o : Outline Word) (after next : Bool) : Prop :=
  ∀ b ws b' ws', (nextKind ws).endsArgument = true →
    (moreArguments next).Makes (o :: b) ws b' ws' →
      (Form.argumentsFrom after).Makes b (o.words ++ ws) b' ws'

/-- An argument, with whether a keyword was given before it, and is behind it. -/
inductive Outline.IsArgument : Bool → Outline Word → Bool → Prop
  | positional {os : List (Outline Word)} : StandsIn (.node .arg os) false false →
      IsArgument false (.node .arg os) false
  | keyword {os : List (Outline Word)} (after : Bool) :
      (∀ after, StandsIn (.node .keywordArg os) after true) →
      IsArgument after (.node .keywordArg os) true
  | starred {os : List (Outline Word)} (after : Bool) :
      (∀ after, StandsIn (.node .starredArg os) after after) →
      IsArgument after (.node .starredArg os) after
  | doubleStarred {os : List (Outline Word)} (after : Bool) :
      (∀ after, StandsIn (.node .doubleStarredArg os) after true) →
      IsArgument after (.node .doubleStarredArg os) true

/-- Arguments with commas between them, and perhaps one behind the last. -/
inductive Outline.AreArguments : Bool → List (Outline Word) → Prop
  | none {after : Bool} : AreArguments after []
  | last {after next : Bool} {o : Outline Word} : IsArgument after o next → AreArguments after [o]
  | more {after next : Bool} {o : Outline Word} {w : Word} {os : List (Outline Word)} :
      IsArgument after o next → w.kind = .comma → AreArguments next os →
      AreArguments after (o :: .word w :: os)

namespace Outline

variable {after next : Bool} {o : Outline Word} {os : List (Outline Word)}

theorem IsArgument.stands (h : IsArgument after o next) : o.StandsIn after next := by
  cases h with
  | positional h => exact h
  | keyword _ h | starred _ h | doubleStarred _ h => exact h after

/-- Arguments are read again from their words, in front of any closing bracket. -/
theorem AreArguments.makes (h : AreArguments after os) {w : Word} (hw : w.kind = .rParen)
    (b : List (Outline Word)) (ws : List Word) :
    (Form.argumentsFrom after).Makes b (wordsOf os ++ w :: ws) (os.reverse ++ b) (w :: ws) := by
  induction h generalizing b with
  | none => exact .cond (answers_nextNot_no (by simp [hw])) makes_skip
  | @last _ next o ho =>
    have hend : (moreArguments next).Makes (o :: b) (w :: ws) (o :: b) (w :: ws) :=
      .cond (answers_eat_no (by simp [hw])) makes_skip
    simpa using ho.stands b (w :: ws) _ _ (by simp [hw, Kind.endsArgument]) hend
  | @more _ _ o v os ho hv _ ih =>
    have hmore : (moreArguments _).Makes (o :: b) (v :: (wordsOf os ++ w :: ws)) _ (w :: ws) :=
      .cond (answers_eat hv) (.call (ih (.word v :: o :: b)))
    simpa using ho.stands b _ _ _ (by simp [hv, Kind.endsArgument]) hmore

/-- A list of arguments is read from its words. -/
theorem AreArguments.answers (h : AreArguments false os) {v w : Word} (hw : w.kind = .rParen)
    (b : List (Outline Word)) (ws : List Word) :
    Form.arguments.Answers b (v :: (wordsOf os ++ w :: ws)) true
      (.node .argList (.word v :: (os ++ [.word w])) :: b) ws := by
  have hmakes : (Form.enclosed .rParen (.call (.argumentsFrom false))).Makes []
      (v :: (wordsOf os ++ w :: ws)) (.word v :: (os ++ [.word w])).reverse ws := by
    have := Makes.enclosed (v := v) hw (.call (p := .argumentsFrom false) (h.makes hw [.word v] ws))
    simpa using this
  obtain ⟨a, hanswers⟩ := hmakes
  have hread : Form.arguments.Answers b (v :: (wordsOf os ++ w :: ws)) a
      (.node .argList (.word v :: (os ++ [.word w])) :: b) ws := .node _ hanswers
  have hyes : a = true := (hread.imp fun _ _ _ _ hq => hq.argumentsFrom_yes).yes rfl
  exact hyes ▸ hread

end Outline

/-! ## What is read between brackets -/

section Reading

variable {env : Surroundings} {after next a c : Bool} {s s₁ s' : Progress} {kind : Kind}
  {body : Form} {K : KindSet} {o : Outline Word} {os : List (Outline Word)}

/-- An outline that a form makes of its words, in front of any word that ends an argument;
its words lead on as those that were read. -/
def Outline.MadeBy (o : Outline Word) (f : Form) (s : Progress) : Prop :=
  ∀ ws, (nextKind ws).endsArgument = true → Leads s.words (o.words ++ ws) ∧
    ∀ b, f.Makes b (o.words ++ ws) (o :: b) ws

/-- A node that a blunt form made in front of the end of an argument can be made again
where another word ends the argument, also with other lists of arguments in it. -/
theorem Form.Reads.replays_node (h : Form.Reads env (Phrase.Reads env) (.node kind body) s c s₁)
    (hs : s.Sorted) (hg : s₁.faults = []) (hsight : body.shortSighted = true)
    (hblunt : body.blunt = true) (hmoves : body.movesOn K = true) (hk : K.has s.current = true)
    (hend : s₁.current.endsArgument = true) :
    ∃ os, s₁.outlines = .node kind os :: s.outlines ∧ ∀ E, ArgumentSwaps E → ∀ ps,
      List.Forall₂ (Outline.Swap E) os ps → (Outline.node kind ps).MadeBy (.node kind body) s := by
  cases h with
  | @node _ _ s₂ _ _ h =>
    refine ⟨s₂.outlines.reverse, outlines_node hs kind, fun E hE ps hps ws hws => ?_⟩
    have hreplay := (h.imp fun _ _ _ _ hq => And.intro hq (hq.replays hE)).replays hE hs.inside hg hsight
    have hmeets : Meets false s₂.words ws := .inr ⟨rfl, by rwa [← current_eq_words], hws⟩
    have hswap := List.rel_reverse hps
    rw [List.reverse_reverse] at hswap
    obtain ⟨b, ws₀, hb, -, hlead, hread⟩ := hreplay false ps.reverse ws (.inr hblunt) hswap hmeets
    rw [outlines_inside, List.forall₂_nil_left_iff] at hb
    subst hb
    have hwords : ws₀ = Outline.wordsOf ps ++ ws := by
      simpa using hread.words_eq.symm
    have hmoved : s.inside.rest ≠ s₂.rest := fun heq => by
      have hlt := h.moves hg hmoves hk
      rw [heq] at hlt
      exact Nat.lt_irrefl _ hlt
    rw [Outline.words_node]
    exact ⟨hwords ▸ hlead hmoved, fun b => ⟨c, .node _ (hwords ▸ hread)⟩⟩

/-- An argument that remains one with other lists of arguments in it. -/
def Outline.RemainsArgument (after : Bool) (o : Outline Word) (next : Bool) : Prop :=
  ∀ E, ArgumentSwaps E → ∀ p, Swap E o p → IsArgument after p next

/-- Arguments that remain arguments with other lists of arguments in them. -/
def Outline.RemainArguments (after : Bool) (os : List (Outline Word)) : Prop :=
  ∀ E, ArgumentSwaps E → ∀ ps, List.Forall₂ (Swap E) os ps → AreArguments after ps

namespace Outline

theorem RemainArguments.are (h : RemainArguments after os) : AreArguments after os :=
  h (fun _ _ => False) (fun _ _ h => h.elim) os (forall₂_swap_refl os)

theorem RemainArguments.none : RemainArguments after [] := fun _ _ _ hps =>
  (List.forall₂_nil_left_iff.1 hps) ▸ .none

theorem RemainArguments.last (h : RemainsArgument after o next) : RemainArguments after [o] := by
  intro E hE ps hps
  obtain ⟨p, _, hp, hnil, rfl⟩ := List.forall₂_cons_left_iff.1 hps
  obtain rfl := List.forall₂_nil_left_iff.1 hnil
  exact .last (h E hE p hp)

theorem RemainArguments.more {w : Word} (h : RemainsArgument after o next) (hw : w.kind = .comma)
    (hos : RemainArguments next os) : RemainArguments after (o :: .word w :: os) := by
  intro E hE ps hps
  obtain ⟨p, qs, hp, hqs, rfl⟩ := List.forall₂_cons_left_iff.1 hps
  obtain ⟨q, rs, hq, hrs, rfl⟩ := List.forall₂_cons_left_iff.1 hqs
  obtain ⟨v, rfl, hkind⟩ := swap_word hE hq
  exact .more (h E hE p hp) (hkind ▸ hw) (hos E hE rs hrs)

end Outline

/-- What is between the brackets, as it was read. -/
def Phrase.ReadsArguments (p : Phrase) (s : Progress) (_ : Bool) (s' : Progress) : Prop :=
  ∀ after, p = .argumentsFrom after → s.Sorted → s'.faults = [] → s'.current = .rParen →
    ∃ os, Outline.RemainArguments after os ∧ s'.outlines = os.reverse ++ s.outlines

/-- Behind an argument comes the end of the list or a comma and further arguments. -/
theorem Form.Reads.of_moreArguments
    (h : Form.Reads env (fun q s b s' => Phrase.Reads env q s b s' ∧ q.ReadsArguments s b s')
      (moreArguments next) s₁ a s') (hs : s₁.Sorted) (hg : s'.faults = [])
    (hclose : s'.current = .rParen) :
    s₁.current.endsArgument = true ∧
      (s' = s₁ ∨ ∃ w os, w.kind = .comma ∧ Outline.RemainArguments next os ∧
        s'.outlines = os.reverse ++ .word w :: s₁.outlines) := by
  rcases h.of_cond_eat with ⟨hcomma, hmore⟩ | ⟨-, hskip⟩
  · cases hmore with
    | call h =>
      obtain ⟨l, ls, hl, hlk⟩ := exists_of_current hcomma (by decide)
      obtain ⟨os, hos, hout⟩ := h.2 next rfl hs.take hg hclose
      rw [(outlines_take hs hl).1] at hout
      exact ⟨by rw [hcomma]; rfl, .inr ⟨l.token.word, os, hlk, hos, hout⟩⟩
  · cases hskip
    exact ⟨by rw [hclose]; rfl, .inl rfl⟩

/-- An argument and what follows it. -/
theorem Outline.RemainsArgument.with_more (ho : o.RemainsArgument after next)
    (hout : s₁.outlines = o :: s.outlines)
    (hmore : s' = s₁ ∨ ∃ w os, w.kind = .comma ∧ Outline.RemainArguments next os ∧
      s'.outlines = os.reverse ++ .word w :: s₁.outlines) :
    ∃ os, Outline.RemainArguments after os ∧ s'.outlines = os.reverse ++ s.outlines := by
  rcases hmore with rfl | ⟨w, os, hw, hos, hout'⟩
  · exact ⟨[o], .last ho, by simp [hout]⟩
  · exact ⟨o :: .word w :: os, .more ho hw hos, by simp [hout', hout]⟩

/-- An argument of one sort, with what follows it. -/
theorem Form.Reads.argument
    (h : Form.Reads env (fun q s b s' => Phrase.Reads env q s b s' ∧ q.ReadsArguments s b s')
      (.seq (.node kind body) (moreArguments next)) s a s')
    (hs : s.Sorted) (hg : s'.faults = []) (hclose : s'.current = .rParen)
    (hkind : kind ≠ .argList) (hsight : body.shortSighted = true) (hblunt : body.blunt = true)
    (hmoves : body.movesOn K = true) (hk : K.has s.current = true)
    (hmade : ∀ os, (Outline.node kind os).MadeBy (.node kind body) s →
      Outline.IsArgument after (.node kind os) next) :
    ∃ os, Outline.RemainArguments after os ∧ s'.outlines = os.reverse ++ s.outlines := by
  have alone {f s b s'}
      (h : Form.Reads env (fun q s b s' => Phrase.Reads env q s b s' ∧ q.ReadsArguments s b s') f s b s') :
      Form.Reads env (Phrase.Reads env) f s b s' :=
    h.imp fun _ _ _ _ hq => hq.1
  obtain ⟨_, s₂, hitem, hmore⟩ := h.of_seq
  have hs₂ := ((alone hitem).imp fun _ _ _ _ hq => hq.sorted).sorted hs
  have hg₂ := (alone hmore).faults_eq hg
  obtain ⟨hend, hmore⟩ := hmore.of_moreArguments hs₂ hg hclose
  obtain ⟨os, hout, hmakes⟩ :=
    (alone hitem).replays_node hs hg₂ hsight hblunt hmoves hk hend
  have hremains : (Outline.node kind os).RemainsArgument after next := by
    intro E hE p hp
    cases hp with
    | node hps => exact hmade _ (hmakes E hE _ hps)
    | here h =>
      obtain ⟨⟨_, _, heq, -⟩, -⟩ := hE _ _ h
      exact absurd (Outline.node.inj heq).1 hkind
  exact hremains.with_more hout hmore

/-- What is read between brackets are arguments with commas between them. Each is of the
sort that the first two words tell, and they tell it wherever it is read again. -/
theorem Phrase.Reads.readsArguments {p : Phrase} (h : Phrase.Reads env p s a s') :
    p.ReadsArguments s a s' := by
  refine h.induct Phrase.ReadsArguments ?_
  rintro _ s a s' h after rfl hs hg hclose
  obtain ⟨c, s₀, htest, h₁⟩ := h.of_cond
  clear h
  obtain ⟨rfl, rfl⟩ := htest.of_nextNot
  cases hempty : [Kind.rParen, .newline, .endOfFile].contains s₀.current with
  | true =>
    rw [hempty] at h₁
    cases h₁
    exact ⟨[], Outline.RemainArguments.none, rfl⟩
  | false =>
    rw [hempty] at h₁
    -- the tests that choose the sort of the argument, in their order
    obtain ⟨c₁, s₁, hstar, h₂⟩ := h₁.of_cond
    obtain ⟨rfl, rfl⟩ := hstar.of_next
    have hfull {b : List (Outline Word)} {ws : List Word} (h : Leads s₁.words ws) :
        (nextNot [.rParen, .newline, .endOfFile]).Answers b ws true b ws :=
      answers_nextNot_yes (by rw [← h.first, ← current_eq_words]; simpa using hempty)
    have hnext {kinds : List Kind} {yes : Bool} (hyes : kinds.contains s₁.current = yes)
        {b : List (Outline Word)} {ws : List Word} (h : Leads s₁.words ws) :
        (Form.next kinds).Answers b ws yes b ws :=
      hyes ▸ answers_next_of_leads h
    cases hc₁ : [Kind.star].contains s₁.current with
    | true =>
      rw [hc₁] at h₂
      refine h₂.argument hs hg hclose (by decide) rfl (by decide +kernel) (K := .only [.star])
        (by decide +kernel) hc₁ fun os hmade => .starred after fun after b ws b' ws' hws hmore => ?_
      obtain ⟨hlead, hmakes⟩ := hmade ws hws
      exact .cond (hfull hlead) (.cond (hnext hc₁ hlead) (.seq (hmakes b) hmore))
    | false =>
    rw [hc₁] at h₂
    obtain ⟨c₂, s₂, hstarStar, h₃⟩ := h₂.of_cond
    obtain ⟨rfl, rfl⟩ := hstarStar.of_next
    cases hc₂ : [Kind.starStar].contains s₂.current with
    | true =>
      rw [hc₂] at h₃
      refine h₃.argument hs hg hclose (by decide) rfl (by decide +kernel) (K := .only [.starStar])
        (by decide +kernel) hc₂ fun os hmade => .doubleStarred after fun after b ws b' ws' hws hmore => ?_
      obtain ⟨hlead, hmakes⟩ := hmade ws hws
      exact .cond (hfull hlead) (.cond (hnext hc₁ hlead) (.cond (hnext hc₂ hlead)
        (.seq (hmakes b) hmore)))
    | false =>
    rw [hc₂] at h₃
    obtain ⟨c₃, s₃, hnamed, h₄⟩ := h₃.of_cond
    cases hnamed
    have hnextTwo {yes : Bool} (hyes : (s₂.current == .ident && s₂.following == .eq) = yes)
        {b : List (Outline Word)} {ws : List Word} (h : Leads s₂.words ws) :
        (Form.nextTwo .ident .eq).Answers b ws yes b ws :=
      hyes ▸ answers_nextTwo_of_leads h rfl
    cases hc₃ : s₂.current == .ident && s₂.following == .eq with
    | true =>
      rw [hc₃] at h₄
      refine h₄.argument hs hg hclose (by decide) rfl (by decide +kernel) (K := .all)
        (by decide +kernel) rfl fun os hmade => .keyword after fun after b ws b' ws' hws hmore => ?_
      obtain ⟨hlead, hmakes⟩ := hmade ws hws
      exact .cond (hfull hlead) (.cond (hnext hc₁ hlead) (.cond (hnext hc₂ hlead)
        (.cond (hnextTwo hc₃ hlead) (.seq (hmakes b) hmore))))
    | false =>
    rw [hc₃] at h₄
    obtain ⟨c₄, s₄, hlate, h₅⟩ := h₄.of_seq
    cases after with
    | true =>
      cases hlate
      have hfaults := (h₅.imp fun _ _ _ _ hq => hq.1).faults_eq hg
      exact absurd hfaults (faults_complain_ne _ _ _)
    | false =>
    cases hlate
    refine h₅.argument hs hg hclose (by decide) rfl (by decide +kernel) (K := .all)
      (by decide +kernel) rfl fun os hmade => .positional fun b ws b' ws' hws hmore => ?_
    obtain ⟨hlead, hmakes⟩ := hmade ws hws
    exact .cond (hfull hlead) (.cond (hnext hc₁ hlead) (.cond (hnext hc₂ hlead)
      (.cond (hnextTwo hc₃ hlead) (.seq makes_skip (.seq (hmakes b) hmore)))))

end Reading

/-! ## Grouping -/

namespace Outline

/-- Outlines with commas between them. -/
def commas (os : List (Outline Word)) : List (Outline Word) := os.intersperse (.word .comma)

/-- A list of arguments. -/
def argumentList (os : List (Outline Word)) : Outline Word :=
  .node .argList (.word .leftParen :: (os ++ [.word .rightParen]))

/-- An argument that is a call of a name. -/
def callOf (G : Identifier) (os : List (Outline Word)) : Outline Word :=
  .node .arg [.node .callExpr [G.ref, argumentList os]]

/-- Whether an outline is a node of the kind. -/
def isOf (kind : Kind) : Outline Word → Bool
  | .word _ => false
  | .node k _ => k == kind

/-- Arguments with the positional ones grouped in a call. -/
def grouped (G : Identifier) (os : List (Outline Word)) : List (Outline Word) :=
  commas (callOf G (commas (os.filter (isOf .arg))) :: os.filter (isOf .keywordArg))

variable {after : Bool} {os ps : List (Outline Word)} {G : Identifier}

theorem AreArguments.stands_arg (h : AreArguments after os) (hp : .node .arg ps ∈ os) :
    StandsIn (.node .arg ps) false false := by
  induction h with
  | none => cases hp
  | last ho =>
    obtain rfl := List.mem_singleton.1 hp
    cases ho with
    | positional h => exact h
  | more ho _ _ ih =>
    rcases List.mem_cons.1 hp with rfl | hp
    · cases ho with
      | positional h => exact h
    · rcases List.mem_cons.1 hp with h | hp
      · cases h
      · exact ih hp

theorem AreArguments.stands_keywordArg (h : AreArguments after os) (hp : .node .keywordArg ps ∈ os) :
    ∀ after, StandsIn (.node .keywordArg ps) after true := by
  induction h with
  | none => cases hp
  | last ho =>
    obtain rfl := List.mem_singleton.1 hp
    cases ho with
    | keyword _ h => exact h
  | more ho _ _ ih =>
    rcases List.mem_cons.1 hp with rfl | hp
    · cases ho with
      | keyword _ h => exact h
    · rcases List.mem_cons.1 hp with h | hp
      · cases h
      · exact ih hp

/-- Arguments that can follow one another, with commas between them. -/
theorem areArguments_commas {A : Bool → Prop}
    (h : ∀ o ∈ os, ∀ after, A after → ∃ next, A next ∧ IsArgument after o next) (ha : A after) :
    AreArguments after (commas os) := by
  induction os generalizing after with
  | nil => exact .none
  | cons o os ih =>
    obtain ⟨ho, hos⟩ := List.forall_mem_cons.1 h
    obtain ⟨next, hnext, ho⟩ := ho after ha
    cases os with
    | nil => exact .last ho
    | cons p os => exact .more ho rfl (ih hos hnext)

/-- A call of a name is read as a primary. -/
theorem takes_callOf (h : AreArguments false os) {ws : List Word}
    (he : nextKind ws ∉ Level.primary.operators) :
    Phrase.primary.Takes (G.word :: .leftParen :: (wordsOf os ++ .rightParen :: ws))
      (.node .callExpr [G.ref, argumentList os]) ws := fun b => by
  have hname : Form.atom.Answers [] (G.word :: .leftParen :: (wordsOf os ++ .rightParen :: ws)) true
      [G.ref] (.leftParen :: (wordsOf os ++ .rightParen :: ws)) :=
    answers_chosen (.seq (.call (p := .nameRef) makes_single) answers_answer) rfl
  have hcall : (Form.wrap .callExpr (.call .arguments)).Makes [G.ref]
      (.leftParen :: (wordsOf os ++ .rightParen :: ws)) [.node .callExpr [G.ref, argumentList os]] ws :=
    .wrap [G.ref, argumentList os] (.call (h.answers rfl [G.ref] ws).makes)
  exact .mark (.cond (.call hname) (.loopAgain (answers_next_yes (by simp))
    (makes_chosen hcall rfl) (.loopEnd (answers_next_no he))))

/-- A call of a name is read wherever an argument that is given by position is. -/
theorem standsIn_callOf (h : AreArguments false os) : (callOf G os).StandsIn false false := by
  intro b ws b' ws' hws hmore
  have hkind : nextKind ws = .comma ∨ nextKind ws = .rParen := by
    simpa [Kind.endsArgument] using hws
  have hends : Level.conditional.Ends (nextKind ws) := by
    rcases hkind with hk | hk <;> rw [hk] <;> decide
  have hnoFor : nextKind ws ∉ forStart := by
    rcases hkind with hk | hk <;> rw [hk] <;> decide
  have hbegins : Level.primary.Begins G.word.kind := ⟨G.word, .name G, rfl⟩
  have hnamed : Phrase.namedExpression.Takes
      (G.word :: .leftParen :: (wordsOf os ++ .rightParen :: ws))
      (.node .callExpr [G.ref, argumentList os]) ws :=
    takes_named (takes_of_le (l := .primary) (Nat.zero_le _)
      (takes_callOf h (hends .primary (Nat.zero_le _))) hbegins.notMem_prefixes hends) (by simp)
  have hitem : (Form.node .arg (.mark (.seq (.call .namedExpression)
      (opt (.next forStart) comprehension)))).Makes b
        (G.word :: .leftParen :: (wordsOf os ++ .rightParen :: ws)) (callOf G os :: b) ws :=
    .node [_] (.mark (.callThen hnamed (makes_opt_no hnoFor)))
  have hwords : (callOf G os).words ++ ws =
      G.word :: .leftParen :: (wordsOf os ++ .rightParen :: ws) := by
    simp [callOf, argumentList, Identifier.ref]
  rw [hwords]
  exact .cond (answers_nextNot_yes (by simp)) (.cond (answers_next_no (by simp))
    (.cond (answers_next_no (by simp)) (.cond (answers_nextTwo_no (.inr (by simp)))
      (.seq makes_skip (.seq hitem hmore)))))

/-- Grouped arguments are arguments. -/
theorem AreArguments.grouped (h : AreArguments false os) (G : Identifier) :
    AreArguments false (grouped G os) := by
  have hpositional : ∀ o ∈ os.filter (isOf .arg), ∀ after, after = false →
      ∃ next, next = false ∧ IsArgument after o next := by
    rintro o ho _ rfl
    obtain ⟨ho, hkind⟩ := List.mem_filter.1 ho
    cases o with
    | word => cases hkind
    | node kind ps =>
      obtain rfl : kind = .arg := by simpa [isOf] using hkind
      exact ⟨false, rfl, .positional (h.stands_arg ho)⟩
  have hgroup := IsArgument.positional (standsIn_callOf (G := G) (areArguments_commas hpositional rfl))
  have hkeywords : AreArguments false (commas (os.filter (isOf .keywordArg))) := by
    refine areArguments_commas (A := fun _ => True) (fun o ho after _ => ?_) trivial
    obtain ⟨ho, hkind⟩ := List.mem_filter.1 ho
    cases o with
    | word => cases hkind
    | node kind ps =>
      obtain rfl : kind = .keywordArg := by simpa [isOf] using hkind
      exact ⟨true, trivial, .keyword after (h.stands_keywordArg ho)⟩
  rw [Outline.grouped]
  cases hks : os.filter (isOf .keywordArg) with
  | nil => exact .last hgroup
  | cons k ks => exact .more hgroup rfl (hks ▸ hkeywords)

end Outline

/-! ## One more argument -/

namespace Outline

variable {after : Bool} {os ps : List (Outline Word)} {first : Outline Word} {w : Word}

/-- Arguments of which none is given by position may stand behind a keyword. -/
theorem AreArguments.behindKeyword (h : AreArguments after os)
    (hno : ∀ o ∈ os, isOf .arg o = false) : AreArguments true os := by
  have hone {after next : Bool} {o : Outline Word} (ho : IsArgument after o next)
      (harg : isOf .arg o = false) : IsArgument true o true := by
    cases ho with
    | positional => cases harg
    | keyword _ h => exact .keyword true h
    | starred _ h => exact .starred true h
    | doubleStarred _ h => exact .doubleStarred true h
  induction h with
  | none => exact .none
  | last ho => exact .last (hone ho (hno _ (by simp)))
  | more ho hw _ ih =>
    exact .more (hone ho (hno _ (by simp))) hw (ih fun o ho => hno o (by simp [ho]))

/-- Behind the first argument another one may be passed by a name, if no further ones are given
by position. -/
theorem AreArguments.insertKeyword (h : AreArguments false (first :: os))
    (hno : ∀ o ∈ os, isOf .arg o = false) (hw : w.kind = .comma)
    (hk : ∀ after, StandsIn (.node .keywordArg ps) after true) :
    AreArguments false (first :: .word w :: .node .keywordArg ps :: os) := by
  cases h with
  | last ho => exact .more ho hw (.last (.keyword _ hk))
  | more ho hv hos =>
    exact .more ho hw (.more (.keyword _ hk) hv (hos.behindKeyword fun o ho => hno o (by simp [ho])))

/-- A string that is passed by a name. -/
def keywordString (x : Identifier) (w : Word) : Outline Word :=
  .node .keywordArg [.node .name [.word x.word], .word .equals, .node .stringLiteral [.word w]]

/-- A string that is passed by a name is read wherever an argument is. -/
theorem standsIn_keywordString (x : Identifier) (text : Text) (after : Bool) :
    (keywordString x ⟨.string, text⟩).StandsIn after true := by
  intro b ws b' ws' hws hmore
  have hkind : nextKind ws = .comma ∨ nextKind ws = .rParen := by
    simpa [Kind.endsArgument] using hws
  have hends : Level.conditional.Ends (nextKind ws) := by
    rcases hkind with hk | hk <;> rw [hk] <;> decide
  have hlast : nextKind ws ∉ [Kind.string] := by
    rcases hkind with hk | hk <;> rw [hk] <;> decide
  have hliteral : (Form.node .stringLiteral (.loop (.next [.string]) .take)).Makes []
      (⟨.string, text⟩ :: ws) [.node .stringLiteral [.word ⟨.string, text⟩]] ws :=
    .node [_] (.loopAgain (answers_next_yes (by simp)) makes_take (.loopEnd (answers_next_no hlast)))
  have hatom : Form.atom.Answers [] (⟨.string, text⟩ :: ws) true
      [.node .stringLiteral [.word ⟨.string, text⟩]] ws :=
    answers_chosen (.seq hliteral answers_answer) rfl
  have hvalue : Phrase.expression.Takes (⟨.string, text⟩ :: ws)
      (.node .stringLiteral [.word ⟨.string, text⟩]) ws :=
    takes_of_le (l := .primary) (m := .conditional) (Nat.zero_le _)
      (takes_atom hatom (hends .primary (Nat.zero_le _)))
      (fun n _ => by cases n <;> simp [Level.prefixes]) hends
  have hname : Phrase.name.Takes (x.word :: .equals :: ⟨.string, text⟩ :: ws)
      (.node .name [.word x.word]) (.equals :: ⟨.string, text⟩ :: ws) :=
    fun _ => .cond (answers_next_yes (by simp)) makes_single
  have hitem : (Form.node .keywordArg (seqs [.call .name, eat .eq, .call .expression])).Makes b
      (x.word :: .equals :: ⟨.string, text⟩ :: ws) (keywordString x ⟨.string, text⟩ :: b) ws :=
    .node [_, _, _] (.callThen hname (.seq (makes_eat rfl) (.call (hvalue _))))
  have hwords : (keywordString x ⟨.string, text⟩).words ++ ws =
      x.word :: .equals :: ⟨.string, text⟩ :: ws := by simp [keywordString]
  rw [hwords]
  exact .cond (answers_nextNot_yes (by simp)) (.cond (answers_next_no (by simp))
    (.cond (answers_next_no (by simp)) (.cond answers_nextTwo (.seq hitem hmore))))

end Outline

/-! ## The argument lists of a program -/

/-- Between the brackets of an argument list stand arguments. -/
def HoldsArguments (kind : Kind) (ts : List Tree) : Prop :=
  kind = .argList → ∃ v os w, Tree.outlines Token.word ts = .word v :: (os ++ [.word w]) ∧
    w.kind = .rParen ∧ Outline.RemainArguments false os

section Lists

variable {env : Surroundings} {s s' : Progress} {a : Bool}

/-- What stands between brackets was read as arguments. -/
theorem Form.Reads.holdsArguments
    (h : Form.Reads env (Phrase.Reads env) (.enclosed .rParen (.call (.argumentsFrom false)))
      s.inside a s')
    (hs : s.Sorted) (hg : s'.faults = []) : HoldsArguments .argList s'.built.reverse := by
  intro _
  cases h with
  | enclosed h =>
    rename_i s₁
    obtain ⟨hclose, heq⟩ := close_of_faults hg
    have hg₁ : s₁.faults = [] := List.suffix_nil.1 (hg ▸ (follows_close ..).faults)
    obtain ⟨m, ms, hm, hmk⟩ := exists_of_current hclose (by decide)
    cases h with
    | call h =>
      cases hl : s.inside.rest with
      | nil =>
        have hnone : s₁.rest <:+ s.inside.take.rest := h.follows.rest
        rw [(take_of_end hs.inside hl).2, List.suffix_nil, hm] at hnone
        cases hnone
      | cons l ls =>
        obtain ⟨os, hos, hout⟩ := h.readsArguments false rfl hs.inside.take hg₁ hclose
        have hout' : (s₁.close env .rParen (s.inside.offset env)).outlines =
            .word m.token.word :: (os.reverse ++ [.word l.token.word]) := by
          rw [heq, (outlines_take (h.sorted hs.inside.take) hm).1, hout,
            (outlines_take hs.inside hl).1, outlines_inside]
        refine ⟨l.token.word, os, m.token.word, ?_, hmk, hos⟩
        rw [Progress.outlines, List.reverse_eq_iff] at hout'
        simpa using hout'

theorem Phrase.Reads.each_holdsArguments {p : Phrase} (h : Phrase.Reads env p s a s') :
    p.Keeps HoldsArguments s a s' := by
  have hother : ∀ kind ts, kind ∉ [Kind.argList] → HoldsArguments kind ts :=
    fun kind ts hkind heq => absurd (by simp [heq]) hkind
  have hmaker : ∀ p : Phrase, p.form.makesNone [.argList] = false → p = .arguments := by
    decide +kernel
  refine h.each_but hother fun {p s b s'} hmakes h hs hg he => ?_
  obtain rfl := hmaker p hmakes
  cases h with
  | node h =>
    have hin := h.each_but hother rfl hs.inside hg (by simp [Progress.Each, Progress.inside])
    exact he.rejoin (hin.node ((h.imp fun _ _ _ _ hq => hq.1).holdsArguments hs hg))

end Lists

/-- The argument lists of a program hold arguments. -/
theorem holdsArguments_parse {t : Text} (h : (parse t).ok = true) :
    (parse t).tree.Each HoldsArguments := by
  obtain ⟨b, s, hreads, -, -, htree, hfaults⟩ := exists_reading t
  have hs : s.faults = [] := by simpa [Parse.ok, hfaults] using h
  have he := hreads.each_holdsArguments (sorted_start ..) hs (by simp [Progress.Each, Progress.start])
  rw [htree]
  exact ⟨(by rintro ⟨⟩), he.root⟩

end SceneGate
