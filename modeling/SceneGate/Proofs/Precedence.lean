/-
How expressions of operators are read. An expression that is read at one level is
read alike at each looser one, as long as no word behind it goes on with it there
(`takes_of_le`), and in brackets at every level (`takes_bracketed`). A chain of
operators that group to the left is read from its first operand on, and what is
said of its rest holds however it began (`Expr.Read.opens`). So what is written of
an expression is read as its structure (`parse_expression`).
-/
import SceneGate.Proofs.Operators

namespace SceneGate

open Form

variable {b b' : List (Outline Word)} {w : Word} {ws ws' ws'' : List Word} {o o' r : Outline Word}
  {k : Kind} {l m : Level}

/-! ## Levels -/

namespace Level

/-- The phrase that reads expressions of a level. -/
def phrase : Level → Phrase
  | primary => .primary
  | power => .power
  | factor => .factor
  | product => .product
  | sum => .sum
  | shift => .shift
  | bitAnd => .bitAnd
  | bitXor => .bitXor
  | bitOr => .bitOr
  | comparison => .comparison
  | inversion => .inversion
  | conjunction => .conjunction
  | disjunction => .disjunction
  | conditional => .expression

/-- The kinds of words that go on with an expression at a level. -/
def operators : Level → List Kind
  | primary => [.dot, .lParen, .lBracket]
  | power => [.starStar]
  | factor | inversion => []
  | product => [.star, .slash, .slashSlash, .percent, .atSign]
  | sum => [.plus, .minus]
  | shift => [.ltLt, .gtGt]
  | bitAnd => [.amp]
  | bitXor => [.caret]
  | bitOr => [.pipe]
  | comparison => .notKw :: comparisonStart
  | conjunction => [.andKw]
  | disjunction => [.orKw]
  | conditional => [.ifKw]

/-- A word of the kind goes on with no expression that binds at the level or
tighter. -/
def Ends (l : Level) (k : Kind) : Prop := ∀ m : Level, m.rank ≤ l.rank → k ∉ m.operators

/-- All levels. -/
def all : List Level := [
  primary, power, factor, product, sum, shift, bitAnd, bitXor, bitOr, comparison, inversion,
  conjunction, disjunction, conditional]

instance : Decidable (l.Ends k) :=
  decidable_of_iff (∀ m ∈ all, m.rank ≤ l.rank → k ∉ m.operators)
    ⟨fun h m => h m (by cases m <;> decide), fun h m _ => h m⟩

theorem Ends.mono (h : m.Ends k) (hle : l.rank ≤ m.rank) : l.Ends k :=
  fun _ hn => h _ (Nat.le_trans hn hle)

/-- An expression that binds at the level or tighter can begin with a word of the
kind. -/
def Begins (l : Level) (k : Kind) : Prop := ∃ w, Opener l w ∧ w.kind = k

/-- The kinds of words that expressions begin with. -/
def openers : List Kind := [.ident, .lParen, .plus, .minus, .tilde, .notKw]

theorem Begins.mem (h : l.Begins k) : k ∈ openers := by
  obtain ⟨w, hw, rfl⟩ := h
  cases hw with
  | name x => simp [openers]
  | bracket => decide
  | sign s _ => cases s <;> decide
  | not _ => decide

/-- The kinds of words that an expression of the level can begin with, and no tighter one. -/
def prefixes : Level → List Kind
  | power => [.awaitKw]
  | factor => [.plus, .minus, .tilde]
  | inversion => [.notKw]
  | conditional => [.lambdaKw]
  | _ => []

/-- What an expression begins with is no prefix of a looser level. -/
theorem Begins.notMem_prefixes (h : l.Begins k) : ∀ n : Level, l.rank < n.rank → k ∉ n.prefixes := by
  intro n hn
  obtain ⟨w, hw, rfl⟩ := h
  cases hw with
  | name x => cases n <;> simp [prefixes]
  | bracket => cases n <;> decide
  | sign s hs =>
    -- a sign is a prefix of factors only
    have hne : n ≠ factor := by
      rintro rfl
      exact absurd hs (Nat.not_le.2 hn)
    cases n <;> first | exact absurd rfl hne | (cases s <;> decide)
  | not hs =>
    have hne : n ≠ inversion := by
      rintro rfl
      exact absurd hs (Nat.not_le.2 hn)
    cases n <;> first | exact absurd rfl hne | decide

/-- A word of another kind is not what an expression begins with. -/
theorem Begins.not_mem {ks : List Kind} (h : l.Begins k)
    (hks : ∀ j ∈ openers, j ∉ ks) : k ∉ ks :=
  hks k h.mem

end Level

/-! ## Reading at looser levels -/

/-- The operators of a level behind a first operand. -/
def Level.chain (l : Level) (kind : Kind) : Form :=
  .loop (.next l.operators) (.wrap kind (.seq .take (.call l.below.phrase)))

theorem chain_end {kind : Kind} (h : nextKind ws ∉ l.operators) :
    (l.chain kind).Makes [o] ws [o] ws :=
  .loopEnd (answers_next_no h)

theorem chain_again {kind : Kind} (hw : w.kind ∈ l.operators)
    (h : l.below.phrase.Takes ws r ws')
    (hloop : (l.chain kind).Makes [.node kind [o, .word w, r]] ws' [o'] ws'') :
    (l.chain kind).Makes [o] (w :: ws) [o'] ws'' := by
  have hbody : (Form.wrap kind (.seq .take (.call l.below.phrase))).Makes [o] (w :: ws)
      [.node kind [o, .word w, r]] ws' :=
    .wrap [o, .word w, r] (.seq makes_take (.call (h _)))
  exact .loopAgain (answers_next_yes hw) hbody hloop

/-- Without an operator of its own, a chain is its first operand. -/
theorem takes_leftChain {p q : Phrase} {kind : Kind} {ops : List Kind}
    (hp : p.form = .leftChain kind ops q) (h : q.Takes ws o ws') (he : nextKind ws' ∉ ops) :
    p.Takes ws o ws' := fun b => by
  rw [hp]
  exact .mark (.callThen h (.loopEnd (answers_next_no he)))

/-- What is read at a level is read alike at the next looser one. -/
theorem takes_step (hm : m ≠ .primary) (h : m.below.phrase.Takes ws o ws')
    (hb : nextKind ws ∉ m.prefixes) (he : nextKind ws' ∉ m.operators) :
    m.phrase.Takes ws o ws' := by
  cases m with
  | primary => exact absurd rfl hm
  | power =>
    exact fun b => .mark (.seq (.cond (answers_next_no hb) (.call (h _))) (makes_opt_no he))
  | factor => exact fun b => .cond (answers_next_no hb) (.call (h b))
  | comparison =>
    have hnot : nextKind ws' ≠ .notKw := fun hk => he (by simp [Level.operators, hk])
    have hcompare : nextKind ws' ∉ comparisonStart :=
      fun hk => he (List.mem_cons_of_mem _ hk)
    have hnext : comparisonNext.Answers [o] ws' false [o] ws' := by
      refine .cond (answers_next_no hcompare) ?_
      exact answers_nextTwo_no (.inl hnot)
    exact fun b => .mark (.callThen h (.cond hnext makes_skip))
  | inversion => exact fun b => .cond (answers_next_no hb) (.call (h b))
  | conditional =>
    exact fun b => .cond (answers_next_no hb) (.mark (.callThen h (makes_opt_no he)))
  | _ => exact takes_leftChain rfl h he

/-- What is read at a level is read alike at every looser one. -/
theorem takes_of_le (hle : l.rank ≤ m.rank) (h : l.phrase.Takes ws o ws')
    (hb : ∀ n : Level, l.rank < n.rank → nextKind ws ∉ n.prefixes) (he : m.Ends (nextKind ws')) :
    m.phrase.Takes ws o ws' := by
  induction hn : m.rank - l.rank generalizing m with
  | zero =>
    obtain rfl : l = m := Level.rank_injective (by omega)
    exact h
  | succ n ih =>
    have hm : m ≠ .primary := by
      rintro rfl
      simp [Level.rank] at hn
    have hbelow := Level.rank_below hm
    exact takes_step hm (ih (by omega) (he.mono (by omega)) (by omega)) (hb m (by omega))
      (he m (Nat.le_refl _))

/-! ## Names and brackets -/

theorem takes_atom (h : Form.atom.Answers [] ws true [o] ws')
    (he : nextKind ws' ∉ Level.primary.operators) : Phrase.primary.Takes ws o ws' :=
  fun _ => .mark (.cond (.call h) (.loopEnd (answers_next_no he)))

theorem makes_single : (single k).Makes b (w :: ws) (.node k [.word w] :: b) ws :=
  .node [.word w] makes_take

theorem takes_name (x : Identifier) (he : nextKind ws ∉ Level.primary.operators) :
    Phrase.primary.Takes (x.word :: ws) (.node .nameRef [.word x.word]) ws := by
  have href : Phrase.nameRef.Takes (x.word :: ws) (.node .nameRef [.word x.word]) ws :=
    fun _ => makes_single
  exact takes_atom (answers_chosen (.seq (.call (href [])) answers_answer) rfl) he

theorem secondKind_ne {v : Word} {vs : List Word} (hne : ws ≠ []) (h : ∀ w ∈ ws, w.kind ≠ k)
    (hv : v.kind ≠ k) : secondKind (ws ++ v :: vs) ≠ k := by
  match ws, hne with
  | [_], _ => exact hv
  | _ :: w' :: _, _ => exact h w' (by simp)

theorem takes_named (h : Level.conditional.phrase.Takes ws o ws')
    (hsecond : secondKind ws ≠ .colonEq) : Phrase.namedExpression.Takes ws o ws' :=
  fun _ => .cond (answers_nextTwo_no (.inr hsecond)) (.call (h _))

/-- An expression in brackets is read at the tightest level. -/
theorem takes_bracketed (h : Level.conditional.phrase.Takes (ws ++ .rightParen :: ws') o
      (.rightParen :: ws'))
    (hb : Level.conditional.Begins (nextKind (ws ++ .rightParen :: ws')))
    (hsecond : secondKind (ws ++ .rightParen :: ws') ≠ .colonEq)
    (he : nextKind ws' ∉ Level.primary.operators) :
    Phrase.primary.Takes (.leftParen :: (ws ++ .rightParen :: ws'))
      (.node .parenExpr [.word .leftParen, o, .word .rightParen]) ws' := by
  have hnamed : Phrase.starNamed.Takes (ws ++ .rightParen :: ws') o (.rightParen :: ws') :=
    fun b => .cond (answers_next_no (hb.not_mem (by decide))) (.call (takes_named h hsecond b))
  -- what stands in the brackets is no tuple
  have hinside : (Form.enclosed .rParen
      (.cond (.next [.rParen]) (.answer true)
        (.cond (.next [.yieldKw]) (.seq (.call .yieldExpression) (.answer false))
          (.mark (.seq (.call .starNamed)
            (.cond (.next forStart) (.seq comprehension (.answer false))
              (.cond (.next [.comma]) (.seq moreElements (.answer true))
                (.answer false)))))))).Answers [] (.leftParen :: (ws ++ .rightParen :: ws')) false
      [.word .rightParen, o, .word .leftParen] ws' :=
    .enclosed rfl (.cond (answers_next_no (hb.not_mem (by decide)))
      (.cond (answers_next_no (hb.not_mem (by decide)))
        (.mark (.seq (.call (hnamed [])) (.cond (answers_next_no (by simp [forStart]))
          (.cond (answers_next_no (by simp)) answers_answer))))))
  have hparens : Phrase.parenthesized.Takes (.leftParen :: (ws ++ .rightParen :: ws'))
      (.node .parenExpr [.word .leftParen, o, .word .rightParen]) ws' :=
    fun b => .mark (.cond hinside (.wrap [.word .leftParen, o, .word .rightParen]
      makes_skip))
  exact takes_atom (answers_chosen (.seq (.call (hparens [])) answers_answer) rfl) he

/-! ## Expressions -/

namespace Word

@[simp] theorem unspaced_blankIf (yes : Bool) : unspaced (blankIf yes) = [] := by
  cases yes <;> rfl

end Word

open Word

section Reading

variable {σ : Spacing} {e : Expr} {p : Level}

@[simp] theorem BinaryOp.isTrivia_word (op : BinaryOp) : op.word.kind.isTrivia = false := by
  cases op <;> rfl

/-- The words of an expression in a position. -/
def Expr.wordsAt (σ : Spacing) (p : Level) (e : Expr) : List Word :=
  unspaced (inPosition σ p e.level (e.written σ))

/-- The outline of an expression in a position. -/
def Expr.treeAt (p : Level) (e : Expr) : Outline Word := treeIn p e.level e.tree

theorem Expr.at_of_le (h : e.level.rank ≤ p.rank) :
    e.wordsAt σ p = unspaced (e.written σ) ∧ e.treeAt p = e.tree := by
  simp [Expr.wordsAt, Expr.treeAt, inPosition, treeIn, h]

theorem Expr.at_of_lt (h : p.rank < e.level.rank) :
    e.wordsAt σ p = .leftParen :: (unspaced (e.written σ) ++ [.rightParen]) ∧
      e.treeAt p = .node .parenExpr [.word .leftParen, e.tree, .word .rightParen] := by
  have hnot : ¬ e.level.rank ≤ p.rank := by omega
  have hclose : unspaced [Word.rightParen] = [.rightParen] := rfl
  rw [Expr.wordsAt, Expr.treeAt, inPosition, treeIn, if_neg hnot, if_neg hnot, unspaced_cons rfl]
  simp [hclose]

theorem Expr.wordsAt_level (e : Expr) (σ : Spacing) : e.wordsAt σ e.level = unspaced (e.written σ) :=
  (Expr.at_of_le (Nat.le_refl _)).1

theorem Expr.begins_wordsAt (e : Expr) (σ : Spacing) (p : Level) (ws : List Word) :
    p.Begins (nextKind (e.wordsAt σ p ++ ws)) := by
  obtain ⟨w, vs, hws, hw⟩ := opener_inPosition (σ := σ) (p := p) (e.opener (σ := σ))
  obtain ⟨w', vs', c, cs, heq, htrivia, -⟩ := (legible_inPosition (p := p) e.legible e.opener).first
  rw [hws] at heq
  obtain ⟨rfl, rfl⟩ := List.cons.inj heq
  exact ⟨w, hw, by rw [Expr.wordsAt, hws, unspaced_cons htrivia]; rfl⟩

/-- What is written of an expression is read as it stands, in every position and
as the beginning of a chain of operators. -/
structure Expr.Read (σ : Spacing) (e : Expr) : Prop where
  takes : ∀ {p : Level} {ws : List Word}, p.Ends (nextKind ws) →
    p.phrase.Takes (e.wordsAt σ p ++ ws) (e.treeAt p) ws
  opens : ∀ {op : BinaryOp} {ws ws' : List Word} {o : Outline Word},
    op.level.below.Ends (nextKind ws) → (op.level.chain op.node).Makes [e.treeAt op.level] ws [o] ws' →
      (Form.seq (.call op.level.below.phrase) (op.level.chain op.node)).Makes []
        (e.wordsAt σ op.level ++ ws) [o] ws'

namespace Expr.Read

/-- An expression that is read at its own level is read in every position. -/
theorem takes_of_own (h : ∀ {ws : List Word}, e.level.Ends (nextKind ws) →
      e.level.phrase.Takes (unspaced (e.written σ) ++ ws) e.tree ws)
    {ws : List Word} (he : p.Ends (nextKind ws)) :
    p.phrase.Takes (e.wordsAt σ p ++ ws) (e.treeAt p) ws := by
  rcases Nat.lt_or_ge p.rank e.level.rank with hlt | hle
  · have hclose : Level.conditional.Ends .rParen := by decide
    have hloose : e.level.rank ≤ Level.conditional.rank := by
      cases e.level <;> decide
    have hb (p : Level) := e.begins_wordsAt σ p (.rightParen :: ws)
    have hlevel : e.level.phrase.Takes (unspaced (e.written σ) ++ .rightParen :: ws) e.tree
        (.rightParen :: ws) := h (hclose.mono hloose)
    have hown := takes_of_le hloose hlevel (e.wordsAt_level σ ▸ (hb e.level).notMem_prefixes) hclose
    have hsecond : secondKind (unspaced (e.written σ) ++ .rightParen :: ws) ≠ .colonEq := by
      refine secondKind_ne ?_ (fun w hw => ?_) (by decide)
      · obtain ⟨w, vs, c, cs, hws, htrivia, -⟩ := (e.legible (σ := σ)).first
        rw [hws, unspaced_cons htrivia]
        exact List.cons_ne_nil _ _
      · have hkinds := e.legible.kinds w (List.mem_filter.1 hw).1
        simp_all
    obtain ⟨hwords, htree⟩ := Expr.at_of_lt (σ := σ) hlt
    have hbracketed := takes_bracketed hown ((Expr.at_of_le (σ := σ) hloose).1 ▸ hb .conditional)
      hsecond (he .primary (Nat.zero_le _))
    rw [hwords, htree, List.cons_append, List.append_assoc]
    have hbegins : Level.primary.Begins .lParen := ⟨.leftParen, .bracket, rfl⟩
    exact takes_of_le (l := .primary) (Nat.zero_le _) hbracketed hbegins.notMem_prefixes he
  · obtain ⟨hwords, htree⟩ := Expr.at_of_le (σ := σ) hle
    rw [hwords, htree]
    exact takes_of_le hle (h (he.mono hle))
      (e.wordsAt_level σ ▸ (e.begins_wordsAt σ e.level ws).notMem_prefixes) he

/-- An expression begins a chain of operators of another level as its first operand. -/
theorem opens_of_own (h : ∀ {ws : List Word}, e.level.Ends (nextKind ws) →
      e.level.phrase.Takes (unspaced (e.written σ) ++ ws) e.tree ws)
    {op : BinaryOp} {ws ws' : List Word} {o : Outline Word} (hlevel : op.level ≠ e.level)
    (he : op.level.below.Ends (nextKind ws))
    (hchain : (op.level.chain op.node).Makes [e.treeAt op.level] ws [o] ws') :
    (Form.seq (.call op.level.below.phrase) (op.level.chain op.node)).Makes []
      (e.wordsAt σ op.level ++ ws) [o] ws' := by
  have hbelow : op.level.below.rank + 1 = op.level.rank :=
    Level.rank_below (by cases op <;> decide)
  have hrank : op.level.rank ≠ e.level.rank := fun hr => hlevel (Level.rank_injective hr)
  have hsame : e.wordsAt σ op.level.below = e.wordsAt σ op.level ∧
      e.treeAt op.level.below = e.treeAt op.level := by
    have hiff : e.level.rank ≤ op.level.below.rank ↔ e.level.rank ≤ op.level.rank := by omega
    simp only [Expr.wordsAt, Expr.treeAt, inPosition, treeIn, hiff, and_self]
  rw [← hsame.1]
  rw [← hsame.2] at hchain
  exact .callThen (takes_of_own h he) hchain

theorem of_own (hlevel : e.level ∈ [.primary, .power, .factor, .comparison, .inversion, .conditional])
    (h : ∀ {ws : List Word}, e.level.Ends (nextKind ws) →
      e.level.phrase.Takes (unspaced (e.written σ) ++ ws) e.tree ws) : e.Read σ :=
  ⟨takes_of_own h, fun {op} => opens_of_own h fun hop => by
    rw [← hop] at hlevel
    cases op <;> exact absurd hlevel (by decide)⟩

theorem name (x : Identifier) : (Expr.name x).Read σ := by
  refine of_own (by simp [Expr.level]) fun {ws} he => ?_
  rw [Expr.written, Expr.tree, unspaced_cons rfl]
  exact takes_name x (he .primary (Nat.le_refl _))

theorem binary {op : BinaryOp} {l r : Expr} (hl : l.Read σ) (hr : r.Read σ) :
    (Expr.binary op l r).Read σ := by
  have hwords : unspaced ((Expr.binary op l r).written σ) =
      l.wordsAt σ op.level ++ op.word :: r.wordsAt σ op.level.below := by
    rw [Expr.written, unspaced_append, unspaced_blank, unspaced_cons op.isTrivia_word, unspaced_blank]
    rfl
  have hkind : op.word.kind ∈ op.level.operators ∧ op.level.below.Ends op.word.kind := by
    cases op <;> decide
  have hform : op.level.phrase.form =
      .leftChain op.node op.level.operators op.level.below.phrase := by
    cases op <;> rfl
  have hopens {ws ws' : List Word} {o : Outline Word} (he : op.level.below.Ends (nextKind ws))
      (hchain : (op.level.chain op.node).Makes [(Expr.binary op l r).tree] ws [o] ws') :
      (Form.seq (.call op.level.below.phrase) (op.level.chain op.node)).Makes []
        (unspaced ((Expr.binary op l r).written σ) ++ ws) [o] ws' := by
    rw [hwords, List.append_assoc, List.cons_append]
    rw [Expr.tree] at hchain
    exact hl.opens hkind.2 (chain_again hkind.1 (hr.takes he) hchain)
  have hown {ws : List Word} (he : op.level.Ends (nextKind ws)) :
      op.level.phrase.Takes (unspaced ((Expr.binary op l r).written σ) ++ ws)
        (Expr.binary op l r).tree ws := by
    have hbelow : op.level.below.rank ≤ op.level.rank := by cases op <;> decide
    intro b
    rw [hform]
    exact .mark (hopens (he.mono hbelow) (chain_end (he op.level (Nat.le_refl _))))
  refine ⟨takes_of_own (e := .binary op l r) hown, fun {op' ws ws' o} he hchain => ?_⟩
  by_cases hlevel : op'.level = op.level
  · have hnode : op'.node = op.node := by
      cases op <;> cases op' <;> first | rfl | cases hlevel
    obtain ⟨hat, htree⟩ := Expr.at_of_le (e := .binary op l r) (p := op'.level) (σ := σ)
      (by rw [hlevel]; exact Nat.le_refl _)
    rw [htree, hnode, hlevel] at hchain
    rw [hat, hnode, hlevel]
    exact hopens (hlevel ▸ he) hchain
  · exact opens_of_own (e := .binary op l r) hown hlevel he hchain

theorem power {b e : Expr} (hb : b.Read σ) (he : e.Read σ) : (Expr.power b e).Read σ := by
  refine of_own (by simp [Expr.level]) fun {ws} hends => ?_
  have hwords : unspaced ((Expr.power b e).written σ) =
      b.wordsAt σ .primary ++ .starStar :: e.wordsAt σ .factor := by
    rw [Expr.written, unspaced_append, unspaced_blank, unspaced_cons rfl, unspaced_blank]
    rfl
  have hfactor : Level.factor.Ends (nextKind ws) := by
    intro m hm
    rcases Nat.lt_or_ge Level.power.rank m.rank with hlt | hle
    · obtain rfl : m = .factor := Level.rank_injective (Nat.le_antisymm hm hlt)
      simp [Level.operators]
    · exact hends m hle
  rw [hwords, Expr.tree, List.append_assoc, List.cons_append]
  have hpower : Level.primary.Ends .starStar := by decide
  have hbase : Level.primary.phrase.Takes (b.wordsAt σ .primary ++ .starStar ::
      (e.wordsAt σ .factor ++ ws)) _ _ := hb.takes hpower
  have hawait : nextKind (b.wordsAt σ .primary ++ .starStar :: (e.wordsAt σ .factor ++ ws)) ∉
      [.awaitKw] := (b.begins_wordsAt ..).not_mem (by decide)
  exact fun _ => .mark (.seq (.cond (answers_next_no hawait) (.call (hbase _)))
    (.cond (answers_next_yes (by simp)) (.wrap [_, .word .starStar, _]
      (.seq makes_take (.call (he.takes hfactor _))))))

theorem signed {s : Sign} {e : Expr} (he : e.Read σ) : (Expr.signed s e).Read σ := by
  refine of_own (by simp [Expr.level]) fun {ws} hends => ?_
  have hwords : unspaced ((Expr.signed s e).written σ) = s.word :: e.wordsAt σ .factor := by
    rw [Expr.written, unspaced_cons (by cases s <;> rfl), unspaced_append, unspaced_blankIf]
    rfl
  have hsign : s.word.kind ∈ [.plus, .minus, .tilde] := by cases s <;> decide
  rw [hwords, Expr.tree, List.cons_append]
  exact fun _ => .cond (answers_next_yes hsign) (.node [.word s.word, _]
    (.seq makes_take (.call (he.takes hends _))))

theorem not {e : Expr} (he : e.Read σ) : (Expr.not e).Read σ := by
  refine of_own (by simp [Expr.level]) fun {ws} hends => ?_
  have hwords : unspaced ((Expr.not e).written σ) = .notWord :: e.wordsAt σ .inversion := by
    rw [Expr.written, unspaced_cons rfl, unspaced_blank]
    rfl
  rw [hwords, Expr.tree, List.cons_append]
  exact fun _ => .cond (answers_next_yes (by simp)) (.node [.word .notWord, _]
    (.seq makes_take (.call (he.takes hends _))))

theorem conditional {v c e : Expr} (hv : v.Read σ) (hc : c.Read σ) (he : e.Read σ) :
    (Expr.conditional v c e).Read σ := by
  refine of_own (by simp [Expr.level]) fun {ws} hends => ?_
  have hwords : unspaced ((Expr.conditional v c e).written σ) =
      v.wordsAt σ .disjunction ++ .ifWord :: (c.wordsAt σ .disjunction ++
        .elseWord :: e.wordsAt σ .conditional) := by
    rw [Expr.written, unspaced_append, unspaced_blank, unspaced_cons rfl, unspaced_blank,
      unspaced_append, unspaced_blank, unspaced_cons rfl, unspaced_blank]
    rfl
  rw [hwords, Expr.tree]
  simp only [List.append_assoc, List.cons_append]
  have hif : Level.disjunction.Ends .ifKw := by decide
  have helse : Level.disjunction.Ends .elseKw := by decide
  have hcondition : Level.disjunction.phrase.Takes (c.wordsAt σ .disjunction ++ .elseWord ::
      (e.wordsAt σ .conditional ++ ws)) _ _ := hc.takes helse
  have hvalue : Level.disjunction.phrase.Takes (v.wordsAt σ .disjunction ++ .ifWord ::
      (c.wordsAt σ .disjunction ++ .elseWord :: (e.wordsAt σ .conditional ++ ws))) _ _ :=
    hv.takes hif
  have hlambda : nextKind (v.wordsAt σ .disjunction ++ .ifWord :: (c.wordsAt σ .disjunction ++
      .elseWord :: (e.wordsAt σ .conditional ++ ws))) ∉ [.lambdaKw] :=
    (v.begins_wordsAt ..).not_mem (by decide)
  exact fun _ => .cond (answers_next_no hlambda) (.mark (.callThen hvalue
    (.cond (answers_next_yes (by simp)) (.wrap [_, .word .ifWord, _, .word .elseWord, _]
      (.seq makes_take (.callThen hcondition
        (.cond (.cond (answers_next_yes (by simp)) answers_take)
          (.call (he.takes hends _)))))))))

end Expr.Read

/-! ### Comparisons -/

theorem nextKind_written (op : CompareOp) (ws : List Word) :
    nextKind (unspaced op.written ++ ws) = nextKind op.written := by
  cases op <;> rfl

theorem CompareOp.ends_written (op : CompareOp) (ws : List Word) :
    Level.bitOr.Ends (nextKind (unspaced op.written ++ ws)) := by
  rw [nextKind_written]
  cases op <;> decide

theorem answers_next_op (op : CompareOp) (ks : List Kind) :
    (Form.next ks).Answers b (unspaced op.written ++ ws) (ks.contains (nextKind op.written)) b
      (unspaced op.written ++ ws) := by
  rw [← nextKind_written op ws]
  exact answers_next

/-- Every operator is seen to compare. -/
theorem answers_comparisonNext (op : CompareOp) :
    comparisonNext.Answers b (unspaced op.written ++ ws) true b (unspaced op.written ++ ws) := by
  refine .cond (answers_next_op op _) ?_
  cases op with
  | notIn => exact answers_nextTwo
  | _ => exact answers_answer

/-- An operator of one or two words is taken whole. -/
theorem makes_comparisonOperator (op : CompareOp) (h : nextKind ws ≠ .notKw) :
    comparisonOperator.Makes b (unspaced op.written ++ ws) (op.parts.reverse ++ b) ws := by
  refine .cond (answers_next_op op _) ?_
  cases op with
  | notIn => exact .seq makes_take (makes_eat rfl)
  | is => exact .cond (answers_next_op .is _) (.seq makes_take (answers_eat_no h).makes)
  | isNot => exact .cond (answers_next_op .isNot _) (.seq makes_take (makes_eat rfl))
  | _ => exact .cond (answers_next_op _ _) makes_take

/-- The rest of a chain of comparisons. -/
def furtherComparisons : Form :=
  .loop comparisonNext (.seq comparisonOperator (.call .bitOr))

/-- An operator and its operand, and then the rest of the chain. -/
theorem makes_further {op : CompareOp} (he : e.Read σ) (hends : Level.bitOr.Ends (nextKind ws))
    (h : furtherComparisons.Makes (e.treeAt .bitOr :: (op.parts.reverse ++ b)) ws b' ws') :
    furtherComparisons.Makes b (unspaced op.written ++ (e.wordsAt σ .bitOr ++ ws)) b' ws' := by
  have hnot : nextKind (e.wordsAt σ .bitOr ++ ws) ≠ .notKw := fun heq =>
    (e.begins_wordsAt σ .bitOr ws).notMem_prefixes .inversion (by decide) (by simp [heq, Level.prefixes])
  exact .loopAgain (answers_comparisonNext op)
    (.seq (makes_comparisonOperator op hnot) (.call (he.takes hends _))) h

/-- A chain of comparisons goes on with an operator. -/
theorem Comparisons.exists_op (σ : Spacing) (others : Comparisons) (ws : List Word) :
    ∃ (op : CompareOp) (vs : List Word),
      unspaced (others.written σ) ++ ws = unspaced op.written ++ vs := by
  cases others with
  | last op e | more op e others =>
    rw [Comparisons.written, unspaced_blank, unspaced_append, List.append_assoc]
    exact ⟨op, _, rfl⟩

/-- Comparisons are read as they stand behind the first operand. -/
def Comparisons.Read (σ : Spacing) (others : Comparisons) : Prop :=
  ∀ {b : List (Outline Word)} {ws : List Word}, Level.comparison.Ends (nextKind ws) →
    furtherComparisons.Makes b (unspaced (others.written σ) ++ ws) (others.trees.reverse ++ b) ws

namespace Comparisons.Read

theorem furtherComparisons_end (he : Level.comparison.Ends (nextKind ws)) :
    furtherComparisons.Makes b ws b ws := by
  have hno := he .comparison (Nat.le_refl _)
  have hnot : nextKind ws ≠ .notKw := fun hk => hno (by simp [Level.operators, hk])
  refine .loopEnd (.cond (answers_next_no fun hk => hno (List.mem_cons_of_mem _ hk)) ?_)
  exact answers_nextTwo_no (.inl hnot)

theorem last {op : CompareOp} {e : Expr} (he : e.Read σ) : (Comparisons.last op e).Read σ := by
  intro b ws hends
  have hwords : unspaced ((Comparisons.last op e).written σ) =
      unspaced op.written ++ e.wordsAt σ .bitOr := by
    rw [Comparisons.written, unspaced_blank, unspaced_append, unspaced_blank]
    rfl
  rw [hwords, List.append_assoc, Comparisons.trees, List.reverse_append, List.append_assoc]
  exact makes_further he (hends.mono (by decide)) (furtherComparisons_end hends)

theorem more {op : CompareOp} {e : Expr} {others : Comparisons} (he : e.Read σ)
    (hothers : others.Read σ) : (Comparisons.more op e others).Read σ := by
  intro b ws hends
  have hwords : unspaced ((Comparisons.more op e others).written σ) =
      unspaced op.written ++ (e.wordsAt σ .bitOr ++ unspaced (others.written σ)) := by
    rw [Comparisons.written, unspaced_blank, unspaced_append, unspaced_blank, unspaced_append]
    rfl
  have hnext : Level.bitOr.Ends (nextKind (unspaced (others.written σ) ++ ws)) := by
    obtain ⟨op, vs, hop⟩ := others.exists_op σ ws
    rw [hop]
    exact op.ends_written vs
  rw [hwords, Comparisons.trees]
  simp only [List.append_assoc, List.reverse_append, List.reverse_cons, List.cons_append,
    List.nil_append]
  exact makes_further he hnext (hothers hends)

end Comparisons.Read

theorem Expr.Read.compare {e : Expr} {others : Comparisons} (he : e.Read σ)
    (hothers : others.Read σ) : (Expr.compare e others).Read σ := by
  refine of_own (by simp [Expr.level]) fun {ws} hends => ?_
  have hwords : unspaced ((Expr.compare e others).written σ) =
      e.wordsAt σ .bitOr ++ unspaced (others.written σ) := by
    rw [Expr.written, unspaced_append]
    rfl
  obtain ⟨op, vs, hop⟩ := others.exists_op σ ws
  have hfirst : Level.bitOr.phrase.Takes (e.wordsAt σ .bitOr ++
      (unspaced (others.written σ) ++ ws)) _ _ :=
    he.takes (by rw [hop]; exact op.ends_written vs)
  have hnext {b : List (Outline Word)} : comparisonNext.Answers b
      (unspaced (others.written σ) ++ ws) true b (unspaced (others.written σ) ++ ws) := by
    rw [hop]
    exact answers_comparisonNext op
  rw [hwords, Expr.tree, List.append_assoc]
  refine fun _ => .mark (.callThen hfirst (.cond hnext (.wrap (_ :: others.trees) ?_)))
  rw [List.reverse_cons]
  exact hothers hends

mutual

theorem Expr.read : ∀ e : Expr, e.Read σ
  | .name x => .name x
  | .binary _ l r => .binary l.read r.read
  | .power b e => .power b.read e.read
  | .signed _ e => .signed e.read
  | .not e => .not e.read
  | .compare e others => .compare e.read others.read
  | .conditional v c e => .conditional v.read c.read e.read

theorem Comparisons.read : ∀ others : Comparisons, others.Read σ
  | .last _ e => Comparisons.Read.last e.read
  | .more _ e others => Comparisons.Read.more e.read others.read

end

end Reading

end SceneGate
