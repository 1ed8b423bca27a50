/-
Reading never runs out of fuel. Forms are read inside one another at most as
deeply as the ranks and heights of the grammar allow before the next token is
taken, so `fuelFor` is enough for every program, and a program is read to its
end.
-/
import SceneGate.Proofs.Idle

namespace SceneGate

/-- How deeply the forms that a form is made of lie in one another. -/
def Form.height : Form → Nat
  | .seq first second => max first.height second.height + 1
  | .cond test yes no => max test.height (max yes.height no.height) + 1
  | .loop test body => max test.height body.height + 1
  | .node _ body | .mark body | .wrap _ body | .enclosed _ body => body.height + 1
  | .answer _ | .next _ | .nextTwo _ _ | .take | .complain _ | .complainOfToken | .call _ => 1

namespace Phrase

theorem height_form_le (p : Phrase) : p.form.height ≤ 20 := by
  revert p
  decide +kernel

theorem rank_lt (p : Phrase) : p.rank < 24 := by
  cases p <;> exact Nat.le_of_ble_eq_true rfl

end Phrase

/-- The fuel for everything but the form itself: for the tokens that are left, and
for the ranks that phrases may still have before the next one is taken. -/
def Progress.cost (rank : Nat) (flag : Bool) (s : Progress) : Nat :=
  512 * s.rest.length + 20 * bif flag then 24 else rank

open Progress

variable {env : Surroundings} {rank n : Nat} {f : Form} {S : Sight} {start : List Lexeme}
  {flag : Bool} {s : Progress}

/-- Where fewer tokens are left, reading on costs less: a token that was taken pays
for all ranks. -/
theorem Moved.cost_lt {flag' : Bool} {s' : Progress} (hm : Moved start flag s)
    (hm' : Moved start flag' s') (hlt : s'.rest.length < s.rest.length) :
    s'.cost rank flag' < s.cost rank flag := by
  simp only [cost]
  cases flag' with
  | true => cases flag <;> simp only [cond_true, cond_false] <;> omega
  | false =>
    -- A flag that is down says that nothing was taken yet.
    obtain rfl : s'.rest = start := hm'
    cases flag with
    | true => exact absurd (show s.rest.length < s'.rest.length from hm) (by omega)
    | false => rw [show s.rest = s'.rest from hm] at hlt; omega

theorem Moved.cost_le {flag' : Bool} {s' : Progress} (hm : Moved start flag s)
    (hm' : Moved start flag' s') (h : Follows s s') : s'.cost rank flag' ≤ s.cost rank flag := by
  by_cases hs : s'.rest = s.rest
  · cases flag <;> cases flag' <;> simp only [Moved, cond_true, cond_false] at hm hm' <;>
      simp only [cost, hs, cond_true, cond_false] <;> simp_all
  · exact Nat.le_of_lt (hm.cost_lt hm' (h.moved hs))

/-- What is known where a form is read, a loop perhaps after some steps. -/
def Watch.entering (w : Watch) : Form → Sight → Sight
  | .loop test body, S => w.round test body S
  | _, S => S

theorem Watch.has_entering {w : Watch} {k : Kind} (h : S.has flag k = true) :
    (w.entering f S).has flag k = true := by
  cases f <;> simp [entering, round, h]

/-- After a form that was read: where the flag is, and what reading on costs. -/
theorem Form.after_read (hm : Moved start flag s) (hk : S.has flag s.current = true)
    (hf : (Watch.idle rank).fits true f S = true) {a s'} (h : f.read env n s = some (a, s')) :
    ∃ flag', Moved start flag' s' ∧
      (((Watch.idle rank).after f S).of a).has flag' s'.current = true ∧
      s'.cost rank flag' ≤ s.cost rank flag := by
  have hr : Form.Reads env (Phrase.Reads env) f s a s' := .of_read h
  obtain ⟨flag', hm', hk'⟩ := (Watch.idle_sound env rank).holds
    (hr.imp fun _ _ _ _ hq => ⟨hq, hq.idleOn⟩) trivial (fun _ => ⟨start, rfl⟩) hf ⟨flag, hm, hk⟩
  have hfollows : Follows s s' := (hr.imp fun _ _ _ _ hq => hq.follows).follows
  exact ⟨flag', hm', hk', hm.cost_le hm' hfollows⟩

/-- With enough fuel a form can be read. The induction is on the fuel; a phrase
that is called is of lower rank, or a token was taken. -/
theorem Form.read_of_fits (hm : Moved start flag s)
    (hk : ((Watch.idle rank).entering f S).has flag s.current = true)
    (hf : (Watch.idle rank).fits true f S = true) (hl : f.loopsMove = true)
    (hn : s.cost rank flag + f.height ≤ n) : ∃ b s', f.read env n s = some (b, s') := by
  induction n generalizing rank f S start flag s with
  | zero => cases f <;> simp [height] at hn
  | succ n ih =>
    have hin {rank f S start flag s} (hm : Moved start flag s) (hk : S.has flag s.current = true)
        (hf : (Watch.idle rank).fits true f S = true) (hl : f.loopsMove = true)
        (hn : s.cost rank flag + f.height ≤ n) : ∃ b s', f.read env n s = some (b, s') :=
      ih hm (Watch.has_entering hk) hf hl hn
    cases f with
    | answer | next | nextTwo | take | complain | complainOfToken => exact ⟨_, _, rfl⟩
    | seq first second =>
      simp only [Watch.fits, loopsMove, Bool.and_eq_true, height] at hf hl hn
      obtain ⟨a, s₁, h₁⟩ := hin hm hk hf.1 hl.1 (by omega)
      obtain ⟨flag₁, hm₁, hk₁, hc₁⟩ := after_read hm hk hf.1 h₁
      obtain ⟨b, s₂, h₂⟩ := hin hm₁ (Outlook.has_either hk₁) hf.2 hl.2 (by omega)
      exact ⟨b, s₂, by simp [read, h₁, h₂]⟩
    | cond test yes no =>
      simp only [Watch.fits, loopsMove, Bool.and_eq_true, height] at hf hl hn
      obtain ⟨a, s₁, h₁⟩ := hin hm hk hf.1.1 hl.1.1 (by omega)
      obtain ⟨flag₁, hm₁, hk₁, hc₁⟩ := after_read hm hk hf.1.1 h₁
      cases a with
      | true =>
        obtain ⟨b, s₂, h₂⟩ := hin hm₁ hk₁ hf.1.2 hl.1.2 (by omega)
        exact ⟨b, s₂, by simp [read, h₁, h₂]⟩
      | false =>
        obtain ⟨b, s₂, h₂⟩ := hin hm₁ hk₁ hf.2 hl.2 (by omega)
        exact ⟨b, s₂, by simp [read, h₁, h₂]⟩
    | loop test body =>
      have hloop := hf
      simp only [Watch.fits, Bool.and_eq_true] at hf
      obtain ⟨⟨ht, hb⟩, hback⟩ := hf
      have hmove := hl
      simp only [loopsMove, Bool.and_eq_true] at hl
      obtain ⟨⟨⟨⟨hlt, hlb⟩, -⟩, -⟩, -⟩ := hl
      simp only [height] at hn
      obtain ⟨a, s₁, h₁⟩ := hin hm hk ht hlt (by omega)
      obtain ⟨flag₁, hm₁, hk₁, hc₁⟩ := after_read hm hk ht h₁
      cases a with
      | false => exact ⟨false, s₁, by simp [read, h₁]⟩
      | true =>
        obtain ⟨b, s₂, h₂⟩ := hin hm₁ hk₁ hb hlb (by omega)
        obtain ⟨flag₂, hm₂, hk₂, hc₂⟩ := after_read hm₁ hk₁ hb h₂
        have hless := Reads.step_moves hmove (.of_read h₁) (.of_read h₂)
        have hpaid : s₂.cost rank flag₂ < s.cost rank flag := hm.cost_lt hm₂ hless
        obtain ⟨c, s₃, h₃⟩ := ih hm₂ (Sight.has_of_within hback (Outlook.has_either hk₂)) hloop
          hmove (by simp only [height]; omega)
        exact ⟨c, s₃, by simp [read, h₁, h₂, h₃]⟩
    | call p =>
      simp only [Watch.fits, Watch.idle, Bool.and_eq_true, Bool.or_eq_true,
        decide_eq_true_eq] at hf
      obtain ⟨hstarts, hrank⟩ := hf
      have hstart : p.startsOn.has s.current = true := by
        have := Sight.has_of_within hstarts hk
        cases flag <;> exact this
      have hheight := p.height_form_le
      have hless : p.rank < bif flag then 24 else rank := by
        cases flag with
        | true => exact p.rank_lt
        | false =>
          refine hrank.resolve_left fun hempty => ?_
          exact absurd ((KindSet.not_has_of_isEmpty hempty).symm.trans hk) (by simp)
      simp only [cost, height] at hn
      have hk : Sight.has ⟨p.startsOn, .none⟩ false s.current = true := hstart
      have hm : Moved s.rest false s := rfl
      obtain ⟨b, s', h⟩ := hin hm hk p.idle_fits.1 p.loopsMove
        (by simp only [cost, cond_false]; omega)
      exact ⟨b, s', by simpa [read] using h⟩
    | node kind body =>
      simp only [Watch.fits, loopsMove, Bool.and_eq_true, height] at hf hl hn
      have hc : s.inside.cost rank flag = s.cost rank flag := rfl
      obtain ⟨b, s', h⟩ := hin (s := s.inside) hm hk hf.2 hl (by omega)
      have h : body.read env n { s.flush with built := [] } = some (b, s') := h
      exact ⟨b, s.rejoin s' [.node kind s'.built.reverse], by simp only [read, h]; rfl⟩
    | mark body =>
      simp only [Watch.fits, loopsMove, height] at hf hl hn
      have hc : s.inside.cost rank flag = s.cost rank flag := rfl
      obtain ⟨b, s', h⟩ := hin (s := s.inside) hm hk hf hl (by omega)
      have h : body.read env n { s.flush with built := [] } = some (b, s') := h
      exact ⟨b, s.rejoin s' s'.built, by simp only [read, h]; rfl⟩
    | wrap kind body =>
      simp only [Watch.fits, loopsMove, Bool.and_eq_true, height] at hf hl hn
      obtain ⟨b, s', h⟩ := hin hm hk hf.2 hl (by omega)
      exact ⟨b, { s' with built := [.node kind s'.built.reverse] }, by simp only [read, h]⟩
    | enclosed bracket body =>
      simp only [Watch.fits, loopsMove, Bool.and_eq_true, height] at hf hl hn
      obtain ⟨flag', hm', hk'⟩ := (Watch.idle_sound env rank).take hf.1.1 ⟨flag, hm, hk⟩
      have hc : s.take.cost rank flag' ≤ s.cost rank flag := hm.cost_le hm' (follows_take s)
      obtain ⟨b, s', h⟩ := hin hm' hk' hf.1.2 hl (by omega)
      exact ⟨b, s'.close env bracket (s.offset env), by simp only [read, h]⟩

/-! ## Programs are read to their end -/

namespace Lexeme

theorem length_split_le (ts : List Token) : (split ts).2.length ≤ ts.length := by
  induction ts with
  | nil => simp [split]
  | cons t ts ih =>
    simp only [split]
    split
    · simp; omega
    · simp; omega

/-- The words among the tokens: those that are not trivia. -/
theorem map_token_split (ts : List Token) :
    (split ts).2.map Lexeme.token = ts.filter (!·.isTrivia) := by
  induction ts with
  | nil => rfl
  | cons t ts ih =>
    simp only [split]
    split
    · rename_i ht; simp [ht, ih]
    · rename_i ht; simp [ht, ih]

end Lexeme

/-- The fuel for a program is never used up. -/
theorem read_readProgram (tokens : List Token) (faults : List Fault) :
    ∃ b, (Form.call .program).read (.ofTokens tokens) (fuelFor tokens.length)
      (Progress.start tokens faults) = some (b, readProgram tokens faults) := by
  have hk : Sight.has ⟨.all, .none⟩ false (Progress.start tokens faults).current = true := rfl
  have hm : Moved (Progress.start tokens faults).rest false (Progress.start tokens faults) := rfl
  have hn : (Progress.start tokens faults).cost 24 false + (Form.call .program).height ≤
      fuelFor tokens.length := by
    have hlength := Lexeme.length_split_le tokens
    simp only [Progress.start, cost, cond_false, Form.height, fuelFor]
    omega
  obtain ⟨b, s, h⟩ : ∃ b s, (Form.call .program).read (.ofTokens tokens)
      (fuelFor tokens.length) (Progress.start tokens faults) = some (b, s) :=
    Form.read_of_fits hm hk (by decide) rfl hn
  exact ⟨b, by rw [readProgram, h]⟩

/-- Reading a program is reading the phrase of a program. -/
theorem readProgram_reads (tokens : List Token) (faults : List Fault) :
    ∃ b, Phrase.Reads (.ofTokens tokens) .program (Progress.start tokens faults) b
      (readProgram tokens faults) := by
  obtain ⟨b, h⟩ := read_readProgram tokens faults
  refine ⟨b, ?_⟩
  cases Form.Reads.of_read h with
  | call h => exact h

/-- Reading the phrase of a program stops only where no token is left. -/
theorem Phrase.Reads.program_current {b s'} (h : Phrase.Reads env .program s b s') :
    s'.current = .endOfFile := by
  obtain ⟨n, h⟩ := h
  obtain ⟨-, s₀, -, h⟩ := (Form.Reads.of_read h).of_loop (P := fun _ => True) trivial
    fun _ _ _ _ => trivial
  obtain ⟨rfl, hk⟩ := h.of_nextNot
  simpa using hk

/-- A program is read to its end. -/
theorem rest_readProgram {tokens : List Token} (h : ∀ k ∈ tokens, k.kind ≠ .endOfFile)
    (faults : List Fault) : (readProgram tokens faults).rest = [] := by
  obtain ⟨b, hr⟩ := readProgram_reads tokens faults
  have hcurrent := hr.program_current
  have hsuffix : (readProgram tokens faults).rest <:+ (Lexeme.split tokens).2 := hr.follows.rest
  cases hrest : (readProgram tokens faults).rest with
  | nil => rfl
  | cons l ls =>
    have hl : l ∈ (Lexeme.split tokens).2 := hsuffix.subset (by simp [hrest])
    have hmem : l.token ∈ tokens.filter (!·.isTrivia) := by
      rw [← Lexeme.map_token_split]
      exact List.mem_map_of_mem hl
    exact absurd (by simpa [current, hrest] using hcurrent) (h _ (List.mem_filter.1 hmem).1)

end SceneGate
