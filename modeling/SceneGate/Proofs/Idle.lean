/-
Reading gets ahead. A phrase may be read without taking a token, so it has to be
shown that reading comes to an end: a phrase that is read at the point where
another one began is of lower rank, and each step of a loop takes a token.

The flag that is watched here is up once a token was taken since a phrase began.
-/
import SceneGate.Proofs.Watch

namespace SceneGate

namespace Phrase

/-- The kinds of tokens that a phrase is called on. -/
def startsOn : Phrase → KindSet
  | .nameRef => .only [.ident]
  | .unexpectedIndent => .only [.indent]
  | .importFrom => .only [.fromKw]
  | .ifStatement => .only [.ifKw]
  | .whileStatement => .only [.whileKw]
  | .forStatement => .only [.forKw, .asyncKw]
  | .withStatement => .only [.withKw, .asyncKw]
  | .tryStatement => .only [.tryKw]
  | .exceptClause => .only [.exceptKw]
  | .finallyClause => .only [.finallyKw]
  | .decorated => .only [.atSign]
  | .function => .only [.defKw, .asyncKw]
  | .classParts => .only [.classKw]
  | .parameters | .parenthesized | .arguments => .only [.lParen]
  | .list => .only [.lBracket]
  | .braced => .only [.lBrace]
  | .starred => .only [.star]
  | .yieldExpression => .only [.yieldKw]
  | .lambda => .only [.lambdaKw]
  | .forClause => .only [.forKw, .asyncKw]
  | _ => .all

/-- The kinds of tokens on which a phrase may take nothing. -/
def idleOn : Phrase → KindSet
  | .program | .statement | .simpleStatements => .only [.endOfFile]
  | .unexpectedIndent | .importFrom | .ifStatement | .whileStatement | .forStatement
  | .withStatement | .tryStatement | .exceptClause | .finallyClause | .decorated | .function
  | .classParts | .arguments | .forClause => .none
  | _ => .all

/-- How early a phrase stands among those that can begin at one token. -/
def rank : Phrase → Nat
  | .program => 23
  | .statement | .block => 22
  | .simpleStatements => 21
  | .smallStatement => 20
  | .expressionStatement | .bracedItems | .slices => 19
  | .assignedValue | .dictItem | .setItem | .sliceItem => 18
  | .starExpressions | .starTargets | .starNamed | .argumentsFrom _ => 17
  | .namedExpression | .starExpression | .starTarget | .withItem | .parameter _ => 16
  | .expression => 15
  | .disjunction => 14
  | .conjunction => 13
  | .inversion => 12
  | .comparison => 11
  | .bitOr => 10
  | .bitXor => 9
  | .bitAnd => 8
  | .shift => 7
  | .sum => 6
  | .product => 5
  | .factor => 4
  | .power => 3
  | .primary => 2
  | .atom | .importAlias | .importedName => 1
  | _ => 0

end Phrase

/-- Watches whether a token was taken. A phrase can be called before that only
if its rank is below `rank`. -/
def Watch.idle (rank : Nat) : Watch where
  taken S := ⟨S.down.inter (.only [.endOfFile]), if S.isEmpty then .none else .all⟩
  faulted S := S
  left p S := ⟨S.down.inter p.idleOn, if S.isEmpty then .none else .all⟩
  mayTake _ := true
  mayCall p S := S.within ⟨p.startsOn, p.startsOn⟩ && (S.down.isEmpty || p.rank < rank)
  mayOpen _ _ _ := true
  mayWrap _ := true

/-- Whether each step of each loop takes a token, as far as a watch that begins
with the step can see. Phrases of any rank may be called in the step. -/
def Form.loopsMove : Form → Bool
  | .seq first second => first.loopsMove && second.loopsMove
  | .cond test yes no => test.loopsMove && yes.loopsMove && no.loopsMove
  | .loop test body =>
    let w := Watch.idle 24
    test.loopsMove && body.loopsMove &&
      w.fits true test ⟨.all, .none⟩ && w.fits true body (w.after test ⟨.all, .none⟩).yes &&
      (w.again test body ⟨.all, .none⟩).down.isEmpty
  | .node _ body | .mark body | .wrap _ body | .enclosed _ body => body.loopsMove
  | _ => true

namespace Phrase

/-- A phrase is idle only on the kinds of tokens that `idleOn` allows, and what is
idle in it is of lower rank. -/
theorem idle_fits (p : Phrase) :
    (Watch.idle p.rank).fits true p.form ⟨p.startsOn, .none⟩ = true ∧
      ((Watch.idle p.rank).after p.form ⟨p.startsOn, .none⟩).either.within
        ⟨p.idleOn, .all⟩ = true := by
  revert p
  decide +kernel

/-- Each step of each loop of the grammar takes a token. -/
theorem loopsMove (p : Phrase) : p.form.loopsMove = true := by
  revert p
  decide +kernel

end Phrase

/-! ## What the watch sees -/

/-- The flag: since `start` was to be read, a token was taken, or none was. -/
def Moved (start : List Lexeme) (flag : Bool) (s : Progress) : Prop :=
  bif flag then s.rest.length < start.length else s.rest = start

/-- What it means that a phrase is idle only on certain kinds. -/
def Phrase.IdleOn (p : Phrase) (s : Progress) (_ : Bool) (s' : Progress) : Prop :=
  p.startsOn.has s.current = true → s'.rest = s.rest → p.idleOn.has s.current = true

namespace Progress

theorem current_eq {s s' : Progress} (h : s'.rest = s.rest) : s'.current = s.current := by
  simp [current, h]

/-- If what is left is not what was left, it is shorter. -/
theorem Follows.moved {s s' : Progress} (h : Follows s s') (hne : s'.rest ≠ s.rest) :
    s'.rest.length < s.rest.length :=
  Nat.lt_of_le_of_ne h.rest.length_le fun heq => hne (h.rest.eq_of_length heq)

end Progress

open Progress

variable {env : Surroundings}

/-- After a token is taken the flag is up, wherever it was before. -/
theorem Moved.up {start : List Lexeme} {flag : Bool} {s s' : Progress} (h : Moved start flag s)
    (hlt : s'.rest.length < s.rest.length) : Moved start true s' := by
  cases flag with
  | false =>
    obtain rfl : s.rest = start := h
    exact hlt
  | true =>
    have hs : s.rest.length < start.length := h
    exact Nat.lt_trans hlt hs

theorem Watch.idle_sound (env : Surroundings) (rank : Nat) :
    (Watch.idle rank).Sound env Phrase.IdleOn (fun _ => True) Moved id where
  back _ _ := trivial
  take := by
    intro start S s _ ⟨flag, hm, hk⟩
    cases hr : s.rest with
    | nil =>
      have hs : s.take.rest = s.rest := by simp [Progress.take, flush, hr]
      have hc : s.current = .endOfFile := by simp [current, hr]
      refine ⟨flag, by simpa [Moved, hs] using hm, ?_⟩
      rw [current_eq hs]
      cases flag with
      | false => simpa [idle, Sight.has, hc] using hk
      | true => simp [idle, Sight.has, Sight.isEmpty_of_has hk]
    | cons l ls =>
      have hs : s.take.rest.length < s.rest.length := by simp [Progress.take, flush, hr]
      exact ⟨true, hm.up hs, by simp [idle, Sight.has, Sight.isEmpty_of_has hk]⟩
  fault := by
    intro start S s f _ ⟨flag, hm, hk⟩
    exact ⟨flag, by simpa [Moved] using hm, by rw [current_record]; exact hk⟩
  call := by
    intro start S p s b s' hcall hreads hidle _ ⟨flag, hm, hk⟩
    have hstart : p.startsOn.has s.current = true := by
      have := Sight.has_of_within (Bool.and_eq_true_iff.1 hcall).1 hk
      cases flag <;> exact this
    have hup : (if S.isEmpty = true then KindSet.none else .all).has s'.current = true := by
      simp [Sight.isEmpty_of_has hk]
    by_cases hs : s'.rest = s.rest
    · refine ⟨flag, by simpa [Moved, hs] using hm, ?_⟩
      cases flag with
      | false =>
        rw [current_eq hs]
        simpa [idle, Sight.has, hidle hstart hs] using hk
      | true => exact hup
    · exact ⟨true, hm.up (hreads.follows.moved hs), hup⟩
  inside h := h
  node _ _ _ h := h
  mark _ h := h
  wrap _ h := h

/-- A phrase that is called on a token that it can begin with takes a token,
except on the kinds that `idleOn` allows. -/
theorem Phrase.Reads.idleOn {p s b s'} (h : Phrase.Reads env p s b s') : p.IdleOn s b s' := by
  refine h.induct Phrase.IdleOn fun p s b s' h hstart hs => ?_
  obtain ⟨flag, hm, hk⟩ := ((Watch.idle_sound env p.rank).holds h trivial (fun _ => ⟨s.rest, rfl⟩)
    p.idle_fits.1 ⟨false, rfl, hstart⟩).either.within p.idle_fits.2
  cases flag with
  | false => rw [current_eq hs] at hk; exact hk
  | true =>
    have hlt : s'.rest.length < s.rest.length := hm
    exact absurd (congrArg List.length hs) (by omega)

/-- A step of a loop takes a token. -/
theorem Form.Reads.step_moves {test body s s₁ a s₂}
    (h : (Form.loop test body).loopsMove = true)
    (h₁ : Form.Reads env (Phrase.Reads env) test s true s₁)
    (h₂ : Form.Reads env (Phrase.Reads env) body s₁ a s₂) :
    s₂.rest.length < s.rest.length := by
  simp only [loopsMove, Bool.and_eq_true] at h
  obtain ⟨⟨⟨-, ht⟩, hb⟩, hagain⟩ := h
  have hw : (Watch.idle 24).Sound env Phrase.IdleOn (fun _ => True) Moved id :=
    Watch.idle_sound env 24
  have hs : Holds Moved s.rest ⟨.all, .none⟩ s := ⟨false, rfl, rfl⟩
  have hcalls {f s b s'} (h : Form.Reads env (Phrase.Reads env) f s b s') :=
    h.imp fun _ _ _ _ hq => And.intro hq hq.idleOn
  have hs₁ := hw.holds (hcalls h₁) trivial (fun _ => ⟨s.rest, rfl⟩) ht hs
  obtain ⟨flag, hm, hk⟩ :=
    (hw.holds (hcalls h₂) trivial (fun _ => ⟨s.rest, rfl⟩) hb hs₁).either
  cases flag with
  | false =>
    have : ((Watch.idle 24).again test body ⟨.all, .none⟩).down.has s₂.current = false :=
      KindSet.not_has_of_isEmpty hagain
    exact absurd (this.symm.trans hk) (by simp)
  | true => exact hm

end SceneGate
