/-
Reading as a relation. `Form.Reads` says how a form reads, given how the phrases
called in it read, and `Phrase.Reads` how phrases read in fact.

No property of reading is proved of the fuelled reader itself. What holds of
every phrase's form, if it holds of the phrases called in the form, holds of
every phrase (`Phrase.Reads.induct`): the induction on fuel is done once, here. What
is computed of a form can be decided of the forms of all phrases (`Phrase.all`).
-/
import SceneGate.Source.Parse

namespace SceneGate

namespace Progress

/-- Where reading goes on in a node or in a run of parts that begins here. -/
def inside (s : Progress) : Progress := { s.flush with built := [] }

/-- Where reading goes on after what began at `s` has come to `s'`: the parts
made of it stand behind those that were there. -/
def rejoin (s s' : Progress) (parts : List Tree) : Progress :=
  { s' with built := parts ++ s.flush.built }

@[simp] theorem rest_flush (s : Progress) : s.flush.rest = s.rest := rfl

theorem take_of_cons {s : Progress} {l : Lexeme} {ls : List Lexeme} (h : s.rest = l :: ls) :
    s.take =
      { s.flush with built := .leaf l.token :: s.flush.built, pending := l.trail, rest := ls } := by
  simp only [take, rest_flush, h]

theorem exists_of_current {s : Progress} {k : Kind} (h : s.current = k) (hk : k ≠ .endOfFile) :
    ∃ l ls, s.rest = l :: ls ∧ l.token.kind = k := by
  cases hr : s.rest with
  | nil => simp [current, hr] at h; exact absurd h.symm hk
  | cons l ls => exact ⟨l, ls, rfl, by simpa [current, hr] using h⟩

theorem take_of_nil {s : Progress} (h : s.rest = []) : s.take = s.flush := by
  simp only [take, rest_flush, h]

end Progress

namespace Phrase

/-- All phrases. -/
def all : List Phrase := [
  .name, .nameRef, .dottedName,
  .program, .statement, .unexpectedIndent, .block, .simpleStatements, .smallStatement,
  .expressionStatement, .assignedValue, .importAlias, .importedName, .importFrom,
  .ifStatement, .elseClause, .whileStatement, .forStatement, .withStatement, .withItem,
  .tryStatement, .exceptClause, .finallyClause, .decorated, .function, .parameters,
  .parameter true, .parameter false, .classParts,
  .expression, .namedExpression, .starExpressions, .starExpression, .starTargets, .starTarget,
  .starNamed, .starred, .yieldExpression, .lambda, .disjunction, .conjunction, .inversion,
  .comparison, .bitOr, .bitXor, .bitAnd, .shift, .sum, .product, .factor, .power, .primary,
  .atom, .parenthesized, .list, .braced, .bracedItems, .dictItem, .setItem, .forClause,
  .arguments, .argumentsFrom true, .argumentsFrom false, .slices, .sliceItem]

theorem mem_all (p : Phrase) : p ∈ all := by
  cases p with
  | parameter annotated => cases annotated <;> decide
  | argumentsFrom afterKeyword => cases afterKeyword <;> decide
  | _ => decide

/-- What can be decided of each phrase can be decided of all: a fact about the whole grammar
is computed. -/
instance {P : Phrase → Prop} [DecidablePred P] : Decidable (∀ p, P p) :=
  decidable_of_iff (∀ p ∈ all, P p) ⟨fun h p => h p p.mem_all, fun h p _ => h p⟩

end Phrase

/-- How a form reads, given how the phrases in it do: from where, with which
answer, and to where. -/
inductive Form.Reads (env : Surroundings) (calls : Phrase → Progress → Bool → Progress → Prop) :
    Form → Progress → Bool → Progress → Prop
  | answer : Reads env calls (.answer yes) s yes s
  | next : Reads env calls (.next kinds) s (kinds.contains s.current) s
  | nextTwo : Reads env calls (.nextTwo first second) s
      (s.current == first && s.following == second) s
  | take : Reads env calls .take s true s.take
  | complain : Reads env calls (.complain cause) s false (s.complain env cause)
  | complainOfToken : Reads env calls .complainOfToken s false (s.complain env s.errorCause)
  | seq : Reads env calls first s a s₁ → Reads env calls second s₁ b s₂ →
      Reads env calls (.seq first second) s b s₂
  | condYes : Reads env calls test s true s₁ → Reads env calls yes s₁ b s₂ →
      Reads env calls (.cond test yes no) s b s₂
  | condNo : Reads env calls test s false s₁ → Reads env calls no s₁ b s₂ →
      Reads env calls (.cond test yes no) s b s₂
  | loopEnd : Reads env calls test s false s₁ → Reads env calls (.loop test body) s false s₁
  | loopAgain : Reads env calls test s true s₁ → Reads env calls body s₁ a s₂ →
      Reads env calls (.loop test body) s₂ b s₃ → Reads env calls (.loop test body) s b s₃
  | call : calls p s b s' → Reads env calls (.call p) s b s'
  | node : Reads env calls body s.inside b s' →
      Reads env calls (.node kind body) s b (s.rejoin s' [.node kind s'.built.reverse])
  | mark : Reads env calls body s.inside b s' →
      Reads env calls (.mark body) s b (s.rejoin s' s'.built)
  | wrap : Reads env calls body s b s' →
      Reads env calls (.wrap kind body) s b { s' with built := [.node kind s'.built.reverse] }
  | enclosed : Reads env calls body s.take b s' →
      Reads env calls (.enclosed bracket body) s b (s'.close env bracket (s.offset env))

/-- How a phrase reads: its form does, with some amount of fuel. -/
def Phrase.Reads (env : Surroundings) (p : Phrase) (s : Progress) (b : Bool) (s' : Progress) :
    Prop :=
  ∃ n, p.form.read env n s = some (b, s')

variable {env : Surroundings} {calls calls' : Phrase → Progress → Bool → Progress → Prop}

/-- Less can be asked of the phrases. -/
theorem Form.Reads.imp (hc : ∀ p s b s', calls p s b s' → calls' p s b s') {f s b s'}
    (h : Reads env calls f s b s') : Reads env calls' f s b s' := by
  induction h with
  | answer => exact .answer
  | next => exact .next
  | nextTwo => exact .nextTwo
  | take => exact .take
  | complain => exact .complain
  | complainOfToken => exact .complainOfToken
  | seq _ _ ih₁ ih₂ => exact .seq ih₁ ih₂
  | condYes _ _ ih₁ ih₂ => exact .condYes ih₁ ih₂
  | condNo _ _ ih₁ ih₂ => exact .condNo ih₁ ih₂
  | loopEnd _ ih => exact .loopEnd ih
  | loopAgain _ _ _ ih₁ ih₂ ih₃ => exact .loopAgain ih₁ ih₂ ih₃
  | call h => exact .call (hc _ _ _ _ h)
  | node _ ih => exact .node ih
  | mark _ ih => exact .mark ih
  | wrap _ ih => exact .wrap ih
  | enclosed _ ih => exact .enclosed ih

/-- What the reader does with fuel `n`, the relation allows, if `calls` allows
what it does with phrases on less fuel. -/
theorem Form.reads_of_read {n : Nat}
    (hc : ∀ m < n, ∀ p s b s', p.form.read env m s = some (b, s') → calls p s b s') {f s b s'}
    (h : f.read env n s = some (b, s')) : Reads env calls f s b s' := by
  induction n generalizing f s b s' with
  | zero => simp [read] at h
  | succ n ih =>
    have ih {f s b s'} : f.read env n s = some (b, s') → Reads env calls f s b s' :=
      ih fun m hm => hc m (by omega)
    cases f with
    | answer => simp only [read] at h; cases h; exact .answer
    | next => simp only [read] at h; cases h; exact .next
    | nextTwo => simp only [read] at h; cases h; exact .nextTwo
    | take => simp only [read] at h; cases h; exact .take
    | complain => simp only [read] at h; cases h; exact .complain
    | complainOfToken => simp only [read] at h; cases h; exact .complainOfToken
    | seq first second =>
      simp only [read] at h
      split at h
      · rename_i h₁; exact .seq (ih h₁) (ih h)
      · cases h
    | cond test yes no =>
      simp only [read] at h
      split at h
      · rename_i h₁; exact .condYes (ih h₁) (ih h)
      · rename_i h₁; exact .condNo (ih h₁) (ih h)
      · cases h
    | loop test body =>
      simp only [read] at h
      split at h
      · rename_i h₁
        split at h
        · rename_i h₂; exact .loopAgain (ih h₁) (ih h₂) (ih h)
        · cases h
      · rename_i h₁; cases h; exact .loopEnd (ih h₁)
      · cases h
    | call p => exact .call (hc n (by omega) _ _ _ _ h)
    | node kind body =>
      simp only [read] at h
      split at h
      · rename_i h₁; cases h; exact .node (ih h₁)
      · cases h
    | mark body =>
      simp only [read] at h
      split at h
      · rename_i h₁; cases h; exact .mark (ih h₁)
      · cases h
    | wrap kind body =>
      simp only [read] at h
      split at h
      · rename_i h₁; cases h; exact .wrap (ih h₁)
      · cases h
    | enclosed bracket body =>
      simp only [read] at h
      split at h
      · rename_i h₁; cases h; exact .enclosed (ih h₁)
      · cases h

/-- What the reader does, the relation allows. -/
theorem Form.Reads.of_read {n f s b s'} (h : Form.read env n f s = some (b, s')) :
    Form.Reads env (Phrase.Reads env) f s b s' :=
  reads_of_read (fun m _ _ _ _ _ h => ⟨m, h⟩) h

/-- A property of how phrases read holds of all phrases, if the form of each
phrase gives it, given the property of the phrases called in the form. -/
theorem Phrase.Reads.induct (Spec : Phrase → Progress → Bool → Progress → Prop)
    (step : ∀ p s b s',
      Form.Reads env (fun q s b s' => Phrase.Reads env q s b s' ∧ Spec q s b s') p.form s b s' →
        Spec p s b s')
    {p s b s'} (h : Phrase.Reads env p s b s') : Spec p s b s' := by
  obtain ⟨n, h⟩ := h
  induction n using Nat.strongRecOn generalizing p s b s' with
  | _ n ih =>
    exact step p s b s' (Form.reads_of_read (fun m hm _ _ _ _ h => ⟨⟨m, h⟩, ih m hm h⟩) h)

/-! ## Reading goes forward -/

namespace Progress

/-- Where reading can come to from a point: what is left then was left before,
and the faults on record stay there. -/
structure Follows (s s' : Progress) : Prop where
  rest : s'.rest <:+ s.rest
  faults : s.faults <:+ s'.faults

theorem Follows.refl (s : Progress) : Follows s s := ⟨List.suffix_rfl, List.suffix_rfl⟩

theorem Follows.trans {s₁ s₂ s₃ : Progress} (h : Follows s₁ s₂) (h' : Follows s₂ s₃) :
    Follows s₁ s₃ :=
  ⟨h'.rest.trans h.rest, h.faults.trans h'.faults⟩

theorem follows_take (s : Progress) : Follows s s.take := by
  cases h : s.rest with
  | nil => exact ⟨by simp [take, flush, h], by simp [take, flush, h]⟩
  | cons l ls => exact ⟨by simp [take, flush, h], by simp [take, flush, h]⟩

theorem follows_record (s : Progress) (f : Fault) : Follows s (s.record f) := by
  unfold record
  split
  · exact .refl s
  · exact ⟨List.suffix_rfl, List.suffix_cons ..⟩

theorem faults_record_ne (s : Progress) (f : Fault) : (s.record f).faults ≠ [] := by
  unfold record
  split
  · rename_i h
    intro he
    rw [he] at h
    cases h
  · simp

theorem built_record (s : Progress) (f : Fault) : (s.record f).built = s.built := by
  unfold record; split <;> rfl

@[simp] theorem rest_record (s : Progress) (f : Fault) : (s.record f).rest = s.rest := by
  unfold record; split <;> rfl

theorem exists_complain_eq (env : Surroundings) (cause : Fault.Cause) (s : Progress) :
    ∃ f, s.complain env cause = s.record f := by
  unfold complain
  split <;> exact ⟨_, rfl⟩

theorem exists_close_eq {bracket : Kind} {s : Progress} (env : Surroundings) (opened : Nat)
    (h : s.current ≠ bracket) : ∃ f, s.close env bracket opened = s.record f := by
  unfold close
  rw [if_neg h]
  split
  · exact ⟨_, rfl⟩
  · exact exists_complain_eq ..

theorem faults_complain_ne (env : Surroundings) (cause : Fault.Cause) (s : Progress) :
    (s.complain env cause).faults ≠ [] := by
  obtain ⟨f, hf⟩ := exists_complain_eq env cause s
  rw [hf]
  exact faults_record_ne s f

/-- Without a fault the closing bracket was there. -/
theorem close_of_faults {bracket : Kind} {opened : Nat} {s : Progress}
    (h : (s.close env bracket opened).faults = []) :
    s.current = bracket ∧ s.close env bracket opened = s.take := by
  by_cases hb : s.current = bracket
  · exact ⟨hb, by rw [close, if_pos hb]⟩
  · obtain ⟨f, hf⟩ := exists_close_eq env opened hb
    rw [hf] at h
    exact absurd h (faults_record_ne s f)

theorem follows_complain (s : Progress) (cause : Fault.Cause) : Follows s (s.complain env cause) := by
  unfold complain
  split <;> exact follows_record ..

theorem follows_close (s : Progress) (bracket : Kind) (opened : Nat) :
    Follows s (s.close env bracket opened) := by
  unfold close
  split
  · exact follows_take s
  · split
    · exact follows_record ..
    · exact follows_complain ..

theorem follows_built (s : Progress) (parts : List Tree) :
    Follows s { s with built := parts } :=
  ⟨List.suffix_rfl, List.suffix_rfl⟩

theorem follows_rejoin (s s' : Progress) (parts : List Tree) : Follows s' (s.rejoin s' parts) :=
  ⟨List.suffix_rfl, List.suffix_rfl⟩

end Progress

/-- A form leads forward, if the phrases in it do. -/
theorem Form.Reads.follows {f s b s'}
    (h : Form.Reads env (fun _ s _ s' => Progress.Follows s s') f s b s') :
    Progress.Follows s s' := by
  induction h with
  | answer | next | nextTwo => exact .refl _
  | take => exact Progress.follows_take _
  | complain | complainOfToken => exact Progress.follows_complain ..
  | seq _ _ ih₁ ih₂ | condYes _ _ ih₁ ih₂ | condNo _ _ ih₁ ih₂ => exact ih₁.trans ih₂
  | loopEnd _ ih => exact ih
  | loopAgain _ _ _ ih₁ ih₂ ih₃ => exact (ih₁.trans ih₂).trans ih₃
  | call h => exact h
  | node _ ih | mark _ ih | wrap _ ih => exact ⟨ih.rest, ih.faults⟩
  | enclosed _ ih =>
    exact ((Progress.follows_take _).trans ih).trans (Progress.follows_close ..)

/-- A phrase leads forward. -/
theorem Phrase.Reads.follows {p s b s'} (h : Phrase.Reads env p s b s') :
    Progress.Follows s s' :=
  h.induct (fun _ s _ s' => Progress.Follows s s')
    fun _ _ _ _ h => (h.imp fun _ _ _ _ hq => hq.2).follows

/-- Faults stay on record, so without one at the end there was none before. -/
theorem Form.Reads.faults_eq {f : Form} {s b s'} (h : Form.Reads env (Phrase.Reads env) f s b s')
    (hg : s'.faults = []) : s.faults = [] :=
  List.suffix_nil.1 (hg ▸ (h.imp fun _ _ _ _ hq => hq.follows).follows.faults)

theorem Form.Reads.of_next {kinds s b s'} (h : Form.Reads env calls (.next kinds) s b s') :
    s' = s ∧ b = kinds.contains s.current := by
  cases h
  exact ⟨rfl, rfl⟩

theorem Form.Reads.of_nextNot {kinds s b s'} (h : Form.Reads env calls (.nextNot kinds) s b s') :
    s' = s ∧ b = !kinds.contains s.current := by
  cases h with
  | condYes ht hy =>
    obtain ⟨rfl, ht⟩ := ht.of_next
    cases hy
    exact ⟨rfl, by rw [← ht]; rfl⟩
  | condNo ht hn =>
    obtain ⟨rfl, ht⟩ := ht.of_next
    cases hn
    exact ⟨rfl, by rw [← ht]; rfl⟩

theorem Form.Reads.of_nextTwo {first second : Kind} {s b s'}
    (h : Form.Reads env calls (.nextTwo first second) s b s') :
    s' = s ∧ b = (s.current == first && s.following == second) := by
  cases h
  exact ⟨rfl, rfl⟩

theorem Form.Reads.of_eat_yes {k : Kind} {s s'} (h : Form.Reads env calls (.eat k) s true s') :
    s.current = k ∧ s' = s.take := by
  cases h with
  | condYes ht hy =>
    obtain ⟨rfl, ht⟩ := ht.of_next
    cases hy
    exact ⟨by simpa using ht.symm, rfl⟩
  | condNo _ hn => cases hn

theorem Form.Reads.of_eat_no {k : Kind} {s s'} (h : Form.Reads env calls (.eat k) s false s') :
    s.current ≠ k ∧ s' = s := by
  cases h with
  | condYes _ hy => cases hy
  | condNo ht hn =>
    obtain ⟨rfl, ht⟩ := ht.of_next
    cases hn
    exact ⟨by simpa using ht.symm, rfl⟩

theorem Form.Reads.of_seq {f g : Form} {s b s'} (h : Form.Reads env calls (.seq f g) s b s') :
    ∃ c s₀, Form.Reads env calls f s c s₀ ∧ Form.Reads env calls g s₀ b s' := by
  cases h with
  | seq hf hg => exact ⟨_, _, hf, hg⟩

theorem Form.Reads.of_cond {test f g : Form} {s b s'}
    (h : Form.Reads env calls (.cond test f g) s b s') :
    ∃ c s₀, Form.Reads env calls test s c s₀ ∧
      Form.Reads env calls (bif c then f else g) s₀ b s' := by
  cases h with
  | condYes ht hf => exact ⟨true, _, ht, hf⟩
  | condNo ht hg => exact ⟨false, _, ht, hg⟩

theorem Form.Reads.of_cond_next {kinds : List Kind} {f g : Form} {s b s'}
    (h : Form.Reads env calls (.cond (.next kinds) f g) s b s') :
    Form.Reads env calls (bif kinds.contains s.current then f else g) s b s' := by
  obtain ⟨c, s₀, ht, hf⟩ := h.of_cond
  obtain ⟨rfl, rfl⟩ := ht.of_next
  exact hf

/-- A choice between a token of a kind and all others. -/
theorem Form.Reads.of_cond_kind {k : Kind} {f g : Form} {s b s'}
    (h : Form.Reads env calls (.cond (.next [k]) f g) s b s') :
    s.current = k ∧ Form.Reads env calls f s b s' ∨
      s.current ≠ k ∧ Form.Reads env calls g s b s' := by
  have hform := h.of_cond_next
  by_cases hk : s.current = k
  · exact .inl ⟨hk, by simpa [hk] using hform⟩
  · exact .inr ⟨hk, by simpa [hk] using hform⟩

/-- A choice by whether a token can be taken. -/
theorem Form.Reads.of_cond_eat {k : Kind} {f g : Form} {s b s'}
    (h : Form.Reads env calls (.cond (.eat k) f g) s b s') :
    s.current = k ∧ Form.Reads env calls f s.take b s' ∨
      s.current ≠ k ∧ Form.Reads env calls g s b s' := by
  obtain ⟨c, s₀, heat, hform⟩ := h.of_cond
  cases c with
  | true =>
    obtain ⟨hk, rfl⟩ := heat.of_eat_yes
    exact .inl ⟨hk, hform⟩
  | false =>
    obtain ⟨hk, rfl⟩ := heat.of_eat_no
    exact .inr ⟨hk, hform⟩

/-- Without a fault the token that was expected was there. -/
theorem Form.Reads.of_expect {k : Kind} {s b s'} (h : Form.Reads env calls (.expect k) s b s')
    (hg : s'.faults = []) : b = true ∧ s.current = k ∧ s' = s.take := by
  rcases h.of_cond_kind with ⟨hk, htake⟩ | ⟨-, hcomplain⟩
  · cases htake
    exact ⟨rfl, hk, rfl⟩
  · cases hcomplain
    exact absurd hg (Progress.faults_complain_ne _ _ _)

theorem Form.Reads.of_node {kind : Kind} {f : Form} {s b s'}
    (h : Form.Reads env calls (.node kind f) s b s') :
    ∃ s₀, Form.Reads env calls f s.inside b s₀ ∧
      s' = s.rejoin s₀ [.node kind s₀.built.reverse] := by
  cases h with
  | node hf => exact ⟨_, hf, rfl⟩

theorem Phrase.Reads.form {p : Phrase} {s b s'} (h : Phrase.Reads env p s b s') :
    Form.Reads env (Phrase.Reads env) p.form s b s' := by
  obtain ⟨n, h⟩ := h
  exact .of_read h

/-- What holds before a loop and is kept by a step of it holds before the test
that ends it. -/
theorem Form.Reads.of_loop {P : Progress → Prop} {test body s b s'}
    (h : Form.Reads env calls (.loop test body) s b s') (hs : P s)
    (step : ∀ {s s₁ a s₂}, P s → Form.Reads env calls test s true s₁ →
      Form.Reads env calls body s₁ a s₂ → Form.Reads env calls (.loop test body) s₂ b s' → P s₂) :
    b = false ∧ ∃ s₀, P s₀ ∧ Form.Reads env calls test s₀ false s' := by
  generalize hf : Form.loop test body = f at h
  induction h with
  | loopEnd h =>
    cases hf
    exact ⟨rfl, _, hs, h⟩
  | loopAgain h₁ h₂ h₃ _ _ ih =>
    cases hf
    exact ih (step hs h₁ h₂ h₃) step rfl
  | _ => cases hf

/-- What holds before the test that ends a loop, and before a step of it if it holds behind the
step, holds before the loop. -/
theorem Form.Reads.loop_back {P : Progress → Prop} {test body s b s'}
    (h : Form.Reads env calls (.loop test body) s b s')
    (last : ∀ {s}, Form.Reads env calls test s false s' → P s)
    (step : ∀ {s s₁ a s₂}, Form.Reads env calls test s true s₁ →
      Form.Reads env calls body s₁ a s₂ → Form.Reads env calls (.loop test body) s₂ b s' →
      P s₂ → P s) : P s := by
  generalize hf : Form.loop test body = f at h
  induction h with
  | loopEnd h =>
    cases hf
    exact last h
  | loopAgain h₁ h₂ h₃ _ _ ih =>
    cases hf
    exact step h₁ h₂ h₃ (ih last step rfl)
  | _ => cases hf

end SceneGate
