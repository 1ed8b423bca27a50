/-
Reading never stalls, whatever the tokens are. A statement takes a token unless no token
is left, and so does each pass through a loop of the grammar; an argument that is read
after another one begins with fewer tokens left. Where an expression takes nothing, its
last fault is about the token that it was to begin with.
-/
import SceneGate.Proofs.Determined
import SceneGate.Proofs.Fuel
import SceneGate.Proofs.TokensKept

namespace SceneGate

open Progress

/-- While a form is read from a point on, the phrase `q` is called at `s'`. -/
inductive Form.Calls (env : Surroundings) (q : Phrase) (s' : Progress) : Form → Progress → Prop
  | call : Calls env q s' (.call q) s'
  | first : Calls env q s' first s → Calls env q s' (.seq first second) s
  | second : Form.Reads env (Phrase.Reads env) first s a s₁ → Calls env q s' second s₁ →
      Calls env q s' (.seq first second) s
  | test : Calls env q s' test s → Calls env q s' (.cond test yes no) s
  | yes : Form.Reads env (Phrase.Reads env) test s true s₁ → Calls env q s' yes s₁ →
      Calls env q s' (.cond test yes no) s
  | no : Form.Reads env (Phrase.Reads env) test s false s₁ → Calls env q s' no s₁ →
      Calls env q s' (.cond test yes no) s
  | loopTest : Calls env q s' test s → Calls env q s' (.loop test body) s
  | loopBody : Form.Reads env (Phrase.Reads env) test s true s₁ → Calls env q s' body s₁ →
      Calls env q s' (.loop test body) s
  | loopAgain : Form.Reads env (Phrase.Reads env) test s true s₁ →
      Form.Reads env (Phrase.Reads env) body s₁ a s₂ → Calls env q s' (.loop test body) s₂ →
      Calls env q s' (.loop test body) s
  | node : Calls env q s' body s.inside → Calls env q s' (.node kind body) s
  | mark : Calls env q s' body s.inside → Calls env q s' (.mark body) s
  | wrap : Calls env q s' body s → Calls env q s' (.wrap kind body) s
  | enclosed : Calls env q s' body s.take → Calls env q s' (.enclosed bracket body) s

variable {env : Surroundings} {p q : Phrase} {s s' s₁ s₂ : Progress} {a b : Bool}

/-! ## Statements -/

/-- Every phrase can be read where it begins. -/
theorem Phrase.exists_reads (env : Surroundings) (p : Phrase)
    (h : p.startsOn.has s.current = true) : ∃ b s', Phrase.Reads env p s b s' := by
  have hm : Moved s.rest false s := rfl
  have hk : Sight.has ⟨p.startsOn, .none⟩ false s.current = true := h
  obtain ⟨b, s', h⟩ := Form.read_of_fits hm (Watch.has_entering hk) p.idle_fits.1 p.loopsMove
    Nat.le.refl
  exact ⟨b, s', _, h⟩

/-- A statement takes a token, unless no token is left. -/
theorem Phrase.Reads.statement_moves (h : Phrase.Reads env .statement s b s')
    (hs : s.current ≠ .endOfFile) : s'.rest.length < s.rest.length := by
  refine h.follows.moved fun hrest => hs ?_
  simpa [Phrase.idleOn] using h.idleOn rfl hrest

/-- Reading a statement with a way out: if it took nothing although a token is left, that
token is rejected. -/
def Progress.Guarded (env : Surroundings) (s s' : Progress) : Prop :=
  ∃ b s₁, Phrase.Reads env .statement s b s₁ ∧
    if s₁.rest = s.rest ∧ s₁.current ≠ .endOfFile then
      ∃ a, Form.Reads env (Phrase.Reads env) (.rejectToken .invalidSyntax) s₁ a s'
    else s' = s₁

/-- The way out is never needed. -/
theorem Progress.guarded_iff : Guarded env s s' ↔ ∃ b, Phrase.Reads env .statement s b s' := by
  have never {b s₁} (h : Phrase.Reads env .statement s b s₁) :
      ¬(s₁.rest = s.rest ∧ s₁.current ≠ .endOfFile) := fun ⟨hrest, hs⟩ => by
    rw [current_eq hrest] at hs
    have := h.statement_moves hs
    rw [hrest] at this
    exact Nat.lt_irrefl _ this
  constructor
  · rintro ⟨b, s₁, h, hguard⟩
    rw [if_neg (never h)] at hguard
    exact ⟨b, hguard ▸ h⟩
  · rintro ⟨b, h⟩
    exact ⟨b, s', h, by rw [if_neg (never h)]⟩

/-! ## Loops -/

namespace Form

/-- The loops of a form, each with its test and its body. -/
def loops : Form → List (Form × Form)
  | .seq first second => first.loops ++ second.loops
  | .cond test yes no => test.loops ++ yes.loops ++ no.loops
  | .loop test body => (test, body) :: (test.loops ++ body.loops)
  | .node _ body | .mark body | .wrap _ body | .enclosed _ body => body.loops
  | .answer _ | .next _ | .nextTwo _ _ | .take | .complain _ | .complainOfToken | .call _ => []

theorem loopsMove_of_mem {f test body : Form} (h : f.loopsMove = true)
    (hmem : (test, body) ∈ f.loops) : (Form.loop test body).loopsMove = true := by
  induction f with
  | seq first second ih₁ ih₂ =>
    simp only [loopsMove, Bool.and_eq_true] at h
    rcases List.mem_append.1 hmem with hmem | hmem
    · exact ih₁ h.1 hmem
    · exact ih₂ h.2 hmem
  | cond t y n iht ihy ihn =>
    simp only [loopsMove, Bool.and_eq_true] at h
    rcases List.mem_append.1 hmem with hmem | hmem
    · rcases List.mem_append.1 hmem with hmem | hmem
      · exact iht h.1.1 hmem
      · exact ihy h.1.2 hmem
    · exact ihn h.2 hmem
  | loop t b iht ihb =>
    rcases List.mem_cons.1 hmem with heq | hmem
    · cases heq
      exact h
    · simp only [loopsMove, Bool.and_eq_true] at h
      rcases List.mem_append.1 hmem with hmem | hmem
      · exact iht h.1.1.1.1 hmem
      · exact ihb h.1.1.1.2 hmem
  | node _ _ ih | mark _ ih | wrap _ _ ih | enclosed _ _ ih => exact ih h hmem
  | answer | next | nextTwo | take | complain | complainOfToken | call => cases hmem

end Form

/-- From a step of a loop to the test for another step a token is taken as well. -/
theorem Form.Reads.pass_moves {test body : Form} (h : (Form.loop test body).loopsMove = true)
    (h₁ : Form.Reads env (Phrase.Reads env) body s a s₁)
    (h₂ : Form.Reads env (Phrase.Reads env) test s₁ true s₂) :
    s₂.rest.length < s.rest.length := by
  simp only [loopsMove, Bool.and_eq_true] at h
  obtain ⟨⟨⟨-, ht⟩, hb⟩, hagain⟩ := h
  have hw := Watch.idle_sound env 24
  have hcalls {f s b s'} (h : Form.Reads env (Phrase.Reads env) f s b s') :=
    h.imp fun _ _ _ _ hq => And.intro hq hq.idleOn
  have hfollows {f s b s'} (h : Form.Reads env (Phrase.Reads env) f s b s') : Follows s s' :=
    (h.imp fun _ _ _ _ hq => hq.follows).follows
  by_cases hrest : s₂.rest = s.rest
  · -- The test said yes where the step had begun, so the step took a token.
    have hrest₁ : s₁.rest = s.rest :=
      List.IsSuffix.eq_of_length_le (hfollows h₁).rest
        (hrest ▸ (hfollows h₂).rest.length_le)
    have hs₁ : Holds Moved s.rest ⟨.all, .none⟩ s₁ := ⟨false, hrest₁, rfl⟩
    obtain ⟨flag, hm, hk⟩ := hw.holds (hcalls h₂) trivial (fun _ => ⟨s.rest, rfl⟩) ht hs₁
    cases flag with
    | true => exact hm
    | false =>
      rw [current_eq hrest] at hk
      obtain ⟨flag, hm', hk'⟩ :=
        (hw.holds (hcalls h₁) trivial (fun _ => ⟨s.rest, rfl⟩) hb ⟨false, rfl, hk⟩).either
      cases flag with
      | true => exact absurd (show s₁.rest.length < s.rest.length from hm') (by simp [hrest₁])
      | false =>
        have : ((Watch.idle 24).again test body ⟨.all, .none⟩).down.has s₁.current = false :=
          KindSet.not_has_of_isEmpty hagain
        exact absurd (this.symm.trans hk') (by simp)
  · exact ((hfollows h₁).trans (hfollows h₂)).moved hrest

/-! ## Arguments -/

/-- A call in a loop is made in a test or in a step, after some steps. -/
theorem Form.Calls.of_loop {P : Progress → Prop} {test body : Form}
    (h : Form.Calls env q s' (.loop test body) s) (hs : P s)
    (step : ∀ {s s₁ a s₂}, P s → Form.Reads env (Phrase.Reads env) test s true s₁ →
      Form.Reads env (Phrase.Reads env) body s₁ a s₂ → P s₂) :
    ∃ s₀, P s₀ ∧ (Form.Calls env q s' test s₀ ∨
      ∃ s₁, Form.Reads env (Phrase.Reads env) test s₀ true s₁ ∧ Form.Calls env q s' body s₁) := by
  generalize hf : Form.loop test body = f at h
  induction h with
  | loopTest h =>
    cases hf
    exact ⟨_, hs, .inl h⟩
  | loopBody h₁ h =>
    cases hf
    exact ⟨_, hs, .inr ⟨_, h₁, h⟩⟩
  | loopAgain h₁ h₂ _ ih =>
    cases hf
    exact ih (step hs h₁ h₂) rfl
  | _ => cases hf

/-- Where a phrase is called, what a watch computes for the call holds. -/
theorem Watch.Sound.calls {w : Watch} {Spec : Phrase → Progress → Bool → Progress → Prop}
    {Ctx : Type} {Inv : Ctx → Bool → Progress → Prop}
    (hw : w.Sound env Spec (fun _ => True) Inv id)
    (hspec : ∀ {p s b s'}, Phrase.Reads env p s b s' → Spec p s b s') {f : Form}
    (h : Form.Calls env q s' f s) {c : Ctx} {S : Sight} {inRun : Bool}
    (hf : w.fits inRun f S = true) (hs : Holds Inv c S s) :
    ∃ T, w.mayCall q T = true ∧ Holds Inv c T s' := by
  have read {f s b s' S inRun} (h : Form.Reads env (Phrase.Reads env) f s b s')
      (hf : w.fits inRun f S = true) (hs : Holds Inv c S s) :
      Holds Inv c ((w.after f S).of b) s' :=
    hw.holds (h.imp fun _ _ _ _ hq => ⟨hq, hspec hq⟩) trivial (fun _ => ⟨c, rfl⟩) hf hs
  have inside {S s} : Holds Inv c S s → Holds Inv c S s.inside := fun ⟨flag, hi, hk⟩ =>
    ⟨flag, hw.inside hi, hk⟩
  induction f generalizing s S inRun with
  | seq first second ih₁ ih₂ =>
    simp only [fits, Bool.and_eq_true] at hf
    cases h with
    | first h => exact ih₁ h hf.1 hs
    | second h₁ h => exact ih₂ h hf.2 (read h₁ hf.1 hs).either
  | cond test yes no ih iy ino =>
    simp only [fits, Bool.and_eq_true] at hf
    obtain ⟨⟨ht, hy⟩, hn⟩ := hf
    cases h with
    | test h => exact ih h ht hs
    | yes h₁ h => exact iy h hy (read h₁ ht hs)
    | no h₁ h => exact ino h hn (read h₁ ht hs)
  | loop test body iht ihb =>
    simp only [fits, Bool.and_eq_true] at hf
    obtain ⟨⟨ht, hb⟩, hback⟩ := hf
    obtain ⟨s₀, hs₀, h | ⟨s₁, h₁, h⟩⟩ := h.of_loop (P := Holds Inv c (w.round test body S)) hs.left
      fun hP h₁ h₂ => (read h₂ hb (read h₁ ht hP)).either.within hback
    · exact iht h ht hs₀
    · exact ihb h hb (read h₁ ht hs₀)
  | call p =>
    cases h with
    | call => exact ⟨S, hf, hs⟩
  | node kind body ih =>
    simp only [fits, Bool.and_eq_true] at hf
    cases h with
    | node h => exact ih h hf.2 (inside hs)
  | mark body ih =>
    cases h with
    | mark h => exact ih h hf (inside hs)
  | wrap kind body ih =>
    simp only [fits, Bool.and_eq_true] at hf
    cases h with
    | wrap h => exact ih h hf.2 hs
  | enclosed bracket body ih =>
    simp only [fits, Bool.and_eq_true] at hf
    cases h with
    | enclosed h => exact ih h hf.1.2 (hw.take hf.1.1 hs)
  | answer | next | nextTwo | take | complain | complainOfToken => cases h

/-- A phrase that is called before a token was taken is of lower rank than the phrase that
calls it. -/
theorem Form.Calls.moved_or_rank_lt (h : Form.Calls env q s' p.form s)
    (hs : p.startsOn.has s.current = true) :
    s'.rest.length < s.rest.length ∨ s'.rest = s.rest ∧ q.rank < p.rank := by
  obtain ⟨T, hcall, flag, hm, hk⟩ := (Watch.idle_sound env p.rank).calls Phrase.Reads.idleOn h
    p.idle_fits.1 (c := s.rest) ⟨false, rfl, hs⟩
  cases flag with
  | true => exact .inl hm
  | false =>
    have hdown : T.down.isEmpty = false := KindSet.isEmpty_of_has (show T.down.has _ = true from hk)
    simp only [Watch.idle, Bool.and_eq_true, hdown, Bool.false_or, decide_eq_true_eq] at hcall
    exact .inr ⟨hm, hcall.2⟩

/-- The arguments behind an argument begin with fewer tokens left. -/
theorem Form.Calls.argument_moves (h : Form.Calls env (.argumentsFrom b) s'
    (Phrase.argumentsFrom a).form s) : s'.rest.length < s.rest.length :=
  (h.moved_or_rank_lt rfl).resolve_right fun ⟨_, hlt⟩ => Nat.lt_irrefl _ hlt

/-! ## Expressions that take nothing -/

namespace Progress

/-- The last fault on record begins where reading stands. -/
def FaultHere (env : Surroundings) (s : Progress) : Prop :=
  s.faults.head?.map Fault.start = some (s.offset env)

theorem FaultHere.congr (h : s.FaultHere env) (hrest : s'.rest = s.rest)
    (hfaults : s'.faults = s.faults) : s'.FaultHere env := by
  simpa [FaultHere, offset, hrest, hfaults] using h

theorem faultHere_record {f : Fault} (hf : f.start = s.offset env) :
    (s.record f).FaultHere env := by
  unfold record
  split
  · rename_i h
    exact h.trans (congrArg some hf)
  · exact congrArg some hf

theorem faultHere_complain (env : Surroundings) (cause : Fault.Cause) (s : Progress) :
    (s.complain env cause).FaultHere env := by
  unfold complain
  split
  · rename_i h
    exact faultHere_record (by simp [offset, h, Fault.ofToken])
  · rename_i h
    exact faultHere_record (by simp [offset, h])

/-- Where reading comes to goes forward, and what is recorded before a token is taken is
about that token. -/
structure Reports (env : Surroundings) (s s' : Progress) : Prop extends Follows s s' where
  here : s'.rest = s.rest → s'.faults = s.faults ∨ s'.FaultHere env

namespace Reports

theorem of_eq (hrest : s'.rest = s.rest) (hfaults : s'.faults = s.faults) : Reports env s s' :=
  ⟨⟨hrest ▸ List.suffix_rfl, hfaults ▸ List.suffix_rfl⟩, fun _ => .inl hfaults⟩

theorem trans (h : Reports env s s₁) (h' : Reports env s₁ s₂) : Reports env s s₂ := by
  refine ⟨h.toFollows.trans h'.toFollows, fun hrest => ?_⟩
  have hrest₁ : s₁.rest = s.rest := h.rest.eq_of_length_le (hrest ▸ h'.rest.length_le)
  have hrest₂ : s₂.rest = s₁.rest := hrest.trans hrest₁.symm
  rcases h'.here hrest₂ with heq | hhere
  · exact (h.here hrest₁).imp heq.trans fun hhere => hhere.congr hrest₂ heq
  · exact .inr hhere

theorem take (s : Progress) : Reports env s s.take := by
  refine ⟨follows_take s, fun _ => .inl ?_⟩
  cases hr : s.rest with
  | nil => rw [take_of_nil hr]; rfl
  | cons l ls => rw [take_of_cons hr]; rfl

theorem complain (cause : Fault.Cause) (s : Progress) : Reports env s (s.complain env cause) :=
  ⟨follows_complain .., fun _ => .inr (faultHere_complain ..)⟩

/-- What is said about a bracket that was to open here is about this place. -/
theorem close {bracket : Kind} {opened : Nat} (h : opened = s.offset env) :
    Reports env s (s.close env bracket opened) := by
  refine ⟨follows_close .., fun hrest => ?_⟩
  unfold Progress.close at hrest ⊢
  split
  · rename_i hb
    rw [if_pos hb] at hrest
    exact (take s).here hrest
  · split
    · exact .inr (faultHere_record h)
    · exact .inr (faultHere_complain ..)

end Reports

end Progress

theorem Form.Reads.reports {f : Form}
    (h : Form.Reads env (fun _ s _ s' => Reports env s s') f s b s') : Reports env s s' := by
  induction h with
  | answer | next | nextTwo => exact .of_eq rfl rfl
  | take => exact .take _
  | complain | complainOfToken => exact .complain ..
  | seq _ _ ih₁ ih₂ | condYes _ _ ih₁ ih₂ | condNo _ _ ih₁ ih₂ => exact ih₁.trans ih₂
  | loopEnd _ ih => exact ih
  | loopAgain _ _ _ ih₁ ih₂ ih₃ => exact (ih₁.trans ih₂).trans ih₃
  | call h => exact h
  | node _ ih | mark _ ih | wrap _ ih => exact ⟨⟨ih.rest, ih.faults⟩, ih.here⟩
  | @enclosed _ _ s' bracket s _ ih =>
    have hin : Reports env s s' := (Reports.take s).trans ih
    cases hr : s.rest with
    | nil =>
      -- Nothing is left, so the bracket was to open where reading stands.
      have hr' : s'.rest = [] := List.suffix_nil.1 (hr ▸ hin.rest)
      exact hin.trans (.close (by simp [offset, hr, hr']))
    | cons l ls =>
      have hlt : s'.rest.length < s.rest.length := by
        have := ih.rest.length_le
        simp only [take_of_cons hr] at this
        simp only [hr, List.length_cons]
        omega
      have hfollows : Follows s' (s'.close env bracket (s.offset env)) := follows_close ..
      refine ⟨hin.toFollows.trans hfollows, fun hrest => ?_⟩
      have := hfollows.rest.length_le
      rw [hrest] at this
      omega

theorem Phrase.Reads.reports (h : Phrase.Reads env p s b s') : Reports env s s' :=
  h.induct (fun _ s _ s' => Reports env s s')
    fun _ _ _ _ h => (h.imp fun _ _ _ _ hq => hq.2).reports

namespace Form

/-- The kinds among `K` on which a test may say yes. -/
def onYes (K : KindSet) : Form → KindSet
  | .next kinds => K.inter (.only kinds)
  | _ => K

/-- The kinds among `K` on which a test may say no. -/
def onNo (K : KindSet) : Form → KindSet
  | .next kinds => K.inter (.allBut kinds)
  | _ => K

end Form

/-- The kinds of tokens on which a phrase takes a token or complains. -/
def Phrase.speaksOn (p : Phrase) : KindSet :=
  match p with
  | .starExpressions | .starExpression | .expression | .disjunction | .conjunction | .inversion
  | .comparison | .bitOr | .bitXor | .bitAnd | .shift | .sum | .product | .factor | .power
  | .primary | .atom => .all
  | .nameRef | .starred | .lambda | .parenthesized | .list | .braced => p.startsOn
  | _ => .none

/-- Whether a form that is read on a kind in `K` is seen to take a token or to complain. -/
def Form.speaks : Form → KindSet → Bool
  | .take, K => !K.has .endOfFile
  | .complain _, _ | .complainOfToken, _ => true
  | .seq first second, K => first.speaks K || second.speaks K
  | .cond test yes no, K =>
    test.speaks K ||
      ((test.onYes K).isEmpty || yes.speaks (test.onYes K)) &&
        ((test.onNo K).isEmpty || no.speaks (test.onNo K))
  | .loop test body, K =>
    test.speaks K || (test.onNo K).isEmpty && body.speaks (test.onYes K)
  | .call p, K => K.within p.speaksOn
  | .node _ body, K | .mark body, K | .wrap _ body, K => body.speaks K
  | .enclosed _ _, K => !K.has .endOfFile
  | .answer _, _ | .next _, _ | .nextTwo _ _, _ => false

theorem Phrase.speaks_fits (p : Phrase) :
    (p.speaksOn.isEmpty || p.form.speaks p.speaksOn) = true := by
  revert p
  decide +kernel

/-- What it means that a phrase takes a token or complains on certain kinds. -/
def Phrase.Speaks (env : Surroundings) (p : Phrase) (s : Progress) (_ : Bool) (s' : Progress) :
    Prop :=
  p.speaksOn.has s.current = true → s'.rest = s.rest → s'.FaultHere env

namespace Form.Reads

variable {calls : Phrase → Progress → Bool → Progress → Prop} {test : Form} {K : KindSet}

theorem has_onYes (h : Form.Reads env calls test s true s₁) (hk : K.has s.current = true) :
    (test.onYes K).has s.current = true := by
  cases test with
  | next kinds =>
    have hb := h.of_next.2
    simp only [onYes, KindSet.has_inter, KindSet.has_only, hk, ← hb, Bool.and_self]
  | _ => exact hk

theorem has_onNo (h : Form.Reads env calls test s false s₁) (hk : K.has s.current = true) :
    (test.onNo K).has s.current = true := by
  cases test with
  | next kinds =>
    have hb := h.of_next.2
    simp only [onNo, KindSet.has_inter, KindSet.has_allBut, hk, ← hb, Bool.not_false, Bool.and_self]
  | _ => exact hk

end Form.Reads

/-- What is seen of a form holds of its readings. -/
theorem Form.Reads.speaks {f : Form} {K : KindSet}
    (h : Form.Reads env (fun p s b s' => Phrase.Reads env p s b s' ∧ p.Speaks env s b s') f s b s')
    (hf : f.speaks K = true) (hk : K.has s.current = true) (hrest : s'.rest = s.rest) :
    s'.FaultHere env := by
  have reports {f s b s'} (h : Form.Reads env
      (fun p s b s' => Phrase.Reads env p s b s' ∧ p.Speaks env s b s') f s b s') :
      Reports env s s' := (h.imp fun _ _ _ _ hq => hq.1.reports).reports
  have moves {K : KindSet} (hend : (!K.has .endOfFile) = true) {s s' : Progress}
      (hk : K.has s.current = true) (h : Follows s.take s') (hrest : s'.rest = s.rest) : False := by
    cases hr : s.rest with
    | nil => simp [current, hr] at hk; simp [hk] at hend
    | cons l ls =>
      have := h.rest.length_le
      simp only [take_of_cons hr, hrest, hr, List.length_cons] at this
      omega
  -- A form that spoke did so where the next form begins, and the next one keeps it.
  have keep {f s₁ b s₂} (hhere : s₁.FaultHere env) (h : Form.Reads env
      (fun p s b s' => Phrase.Reads env p s b s' ∧ p.Speaks env s b s') f s₁ b s₂)
      (hrest : s₂.rest = s₁.rest) : s₂.FaultHere env :=
    ((reports h).here hrest).elim (hhere.congr hrest) id
  have between {s s₁ s₂ : Progress} (h : Follows s s₁) (h' : Follows s₁ s₂)
      (hrest : s₂.rest = s.rest) : s₁.rest = s.rest ∧ s₂.rest = s₁.rest := by
    have := h.rest.eq_of_length_le (hrest ▸ h'.rest.length_le)
    exact ⟨this, hrest.trans this.symm⟩
  induction f generalizing s b s' K with
  | answer | next | nextTwo => cases hf
  | take =>
    cases h
    exact (moves hf hk (.refl _) hrest).elim
  | complain | complainOfToken =>
    cases h
    exact faultHere_complain ..
  | seq first second ih₁ ih₂ =>
    cases h with
    | seq h₁ h₂ =>
      obtain ⟨hrest₁, hrest₂⟩ := between (reports h₁).toFollows (reports h₂).toFollows hrest
      simp only [Form.speaks, Bool.or_eq_true] at hf
      rcases hf with hf | hf
      · exact keep (ih₁ h₁ hf hk hrest₁) h₂ hrest₂
      · exact ih₂ h₂ hf (current_eq hrest₁ ▸ hk) hrest₂
  | cond test yes no ih iy ino =>
    simp only [Form.speaks, Bool.or_eq_true, Bool.and_eq_true] at hf
    cases h with
    | condYes h₁ h₂ =>
      obtain ⟨hrest₁, hrest₂⟩ := between (reports h₁).toFollows (reports h₂).toFollows hrest
      have hk₁ := h₁.has_onYes hk
      rcases hf with hf | ⟨hempty | hf, -⟩
      · exact keep (ih h₁ hf hk hrest₁) h₂ hrest₂
      · simp [KindSet.isEmpty_of_has hk₁] at hempty
      · exact iy h₂ hf (current_eq hrest₁ ▸ hk₁) hrest₂
    | condNo h₁ h₂ =>
      obtain ⟨hrest₁, hrest₂⟩ := between (reports h₁).toFollows (reports h₂).toFollows hrest
      have hk₁ := h₁.has_onNo hk
      rcases hf with hf | ⟨-, hempty | hf⟩
      · exact keep (ih h₁ hf hk hrest₁) h₂ hrest₂
      · simp [KindSet.isEmpty_of_has hk₁] at hempty
      · exact ino h₂ hf (current_eq hrest₁ ▸ hk₁) hrest₂
  | loop test body iht ihb =>
    simp only [Form.speaks, Bool.or_eq_true, Bool.and_eq_true] at hf
    cases h with
    | loopEnd h₁ =>
      rcases hf with hf | ⟨hempty, -⟩
      · exact iht h₁ hf hk hrest
      · simp [KindSet.isEmpty_of_has (h₁.has_onNo hk)] at hempty
    | loopAgain h₁ h₂ h₃ =>
      have hfollows := (reports h₂).toFollows.trans (reports h₃).toFollows
      obtain ⟨hrest₁, hrest'⟩ := between (reports h₁).toFollows hfollows hrest
      obtain ⟨hrest₂, hrest₃⟩ := between (reports h₂).toFollows (reports h₃).toFollows hrest'
      rcases hf with hf | ⟨-, hf⟩
      · exact keep (keep (iht h₁ hf hk hrest₁) h₂ hrest₂) h₃ hrest₃
      · exact keep (ihb h₂ hf (current_eq hrest₁ ▸ h₁.has_onYes hk) hrest₂) h₃ hrest₃
  | call p =>
    cases h with
    | call h => exact h.2 (KindSet.has_of_within hf hk) hrest
  | node kind body ih =>
    cases h with
    | node h =>
      have hhere := ih h hf hk hrest
      exact hhere
  | mark body ih =>
    cases h with
    | mark h =>
      have hhere := ih h hf hk hrest
      exact hhere
  | wrap kind body ih =>
    cases h with
    | wrap h =>
      have hhere := ih h hf hk hrest
      exact hhere
  | enclosed bracket body _ =>
    cases h with
    | enclosed h =>
      exact (moves hf hk ((reports h).toFollows.trans (follows_close ..)) hrest).elim

/-- A phrase that takes nothing complains of the token that it stands at, on the kinds that
`speaksOn` tells. -/
theorem Phrase.Reads.speaks (h : Phrase.Reads env p s b s') : p.Speaks env s b s' := by
  refine h.induct (Phrase.Speaks env) fun p s b s' h hk hrest => ?_
  have hfits := p.speaks_fits
  rw [KindSet.isEmpty_of_has hk, Bool.false_or] at hfits
  exact Form.Reads.speaks h hfits hk hrest

/-! ## Whatever the tokens are -/

/-- Reading never stalls on tokens of any kinds, in any order. It comes to an end, with only
trivia left. Each statement takes a token unless none is left, so no way out of a statement
that took nothing is needed. Each pass through a loop of the grammar takes a token, counted
from test to test or from step to step, and so does each argument that another one follows.
An expression that takes nothing has complained of the token that it was to begin with. -/
theorem reading_never_stalls {tokens : List Token} (h : ∀ k ∈ tokens, k.kind ≠ .endOfFile)
    (faults : List Fault) :
    (∃ b, (Form.call .program).read (.ofTokens tokens) (fuelFor tokens.length)
        (.start tokens faults) = some (b, readProgram tokens faults)) ∧
      (readProgram tokens faults).rest = [] ∧
      (∀ k ∈ (readProgram tokens faults).pending, k.isTrivia = true) ∧
    (∀ env s, s.current ≠ .endOfFile → ∃ b s', Phrase.Reads env .statement s b s' ∧
      s'.rest.length < s.rest.length) ∧
    (∀ env s s', Guarded env s s' ↔ ∃ b, Phrase.Reads env .statement s b s') ∧
    (∀ env p test body, (test, body) ∈ (Phrase.form p).loops → ∀ s a s₁ s₂,
      (Form.Reads env (Phrase.Reads env) test s true s₁ →
        Form.Reads env (Phrase.Reads env) body s₁ a s₂ → s₂.rest.length < s.rest.length) ∧
      (Form.Reads env (Phrase.Reads env) body s a s₁ →
        Form.Reads env (Phrase.Reads env) test s₁ true s₂ → s₂.rest.length < s.rest.length)) ∧
    (∀ env a b s s', Form.Calls env (.argumentsFrom b) s' (Phrase.argumentsFrom a).form s →
      s'.rest.length < s.rest.length) ∧
    (∀ env p, p ∈ [Phrase.expression, .starExpressions] → ∀ s, ∃ b s', Phrase.Reads env p s b s' ∧
      (s'.rest = s.rest → s'.FaultHere env)) := by
  obtain ⟨b, hread⟩ := readProgram_reads tokens faults
  refine ⟨read_readProgram tokens faults, rest_readProgram h faults,
    (hread.sorted (sorted_start tokens faults)).pending, fun env s hs => ?_, fun _ _ _ =>
    guarded_iff, fun env p test body hmem s a s₁ s₂ => ?_, fun _ _ _ _ _ => (·.argument_moves),
    fun env p hp s => ?_⟩
  · obtain ⟨b, s', h⟩ := Phrase.exists_reads (s := s) env .statement rfl
    exact ⟨b, s', h, h.statement_moves hs⟩
  · have hloop := Form.loopsMove_of_mem p.loopsMove hmem
    exact ⟨fun h₁ h₂ => h₁.step_moves hloop h₂, fun h₁ h₂ => h₁.pass_moves hloop h₂⟩
  · have hstarts : p.startsOn = .all ∧ p.speaksOn = .all := by
      simp only [List.mem_cons, List.not_mem_nil, or_false] at hp
      rcases hp with rfl | rfl <;> exact ⟨rfl, rfl⟩
    obtain ⟨b, s', h⟩ := p.exists_reads (s := s) env (by rw [hstarts.1]; rfl)
    exact ⟨b, s', h, h.speaks (by rw [hstarts.2]; rfl)⟩

/-- Layout that no text has: `INDENT DEDENT DEDENT ) # NEWLINE } INDENT`. -/
def strayTokens : List Token := [
  ⟨.indent, [], 0⟩, ⟨.dedent, [], 0⟩, ⟨.dedent, [], 0⟩, ⟨.rParen, [')'], 0⟩, ⟨.comment, ['#'], 1⟩,
  ⟨.newline, ['\n'], 2⟩, ⟨.rBrace, ['}'], 3⟩, ⟨.indent, [], 4⟩]

theorem reading_never_stalls_stray :
    (∀ k ∈ strayTokens, k.kind ≠ .endOfFile) ∧ (readProgram strayTokens []).rest = [] ∧
      (readProgram strayTokens []).faults.reverse.map Fault.start = [0, 3] ∧
      ∃ b s', Phrase.Reads (.ofTokens strayTokens) .statement (.start strayTokens []) b s' ∧
        s'.rest.length < 7 := by
  have hkinds : ∀ k ∈ strayTokens, k.kind ≠ .endOfFile := by decide
  obtain ⟨-, hrest, -, hstatement, -⟩ := reading_never_stalls hkinds []
  exact ⟨hkinds, hrest, by decide +kernel,
    hstatement (.ofTokens strayTokens) (.start strayTokens []) (by decide)⟩

end SceneGate
