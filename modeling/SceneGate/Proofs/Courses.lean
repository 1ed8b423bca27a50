/-
The course of reading, as far as tokens and faults go: what a form leaves to read and what
it records come of taking tokens, of complaints about the token that is next, and of opening
brackets that nothing closes (`Progress.Course`). That each bracket which is missed was
opened where the form began is seen of the grammar (`Form.tidy`), whether or not the text
is a program.
-/
import SceneGate.Proofs.Accounts

namespace SceneGate

namespace Fault.Cause

/-- Whether it is about an opening bracket. -/
def isUnclosed : Cause → Bool
  | .neverClosed _ => true
  | _ => false

/-- Whether it is a complaint about what is next: neither about the layout nor about an
opening bracket. -/
def isComplaint (c : Cause) : Bool := c != .strayIndentation && !c.isUnclosed

end Fault.Cause

theorem Fault.isComplaint_ofErrorText (t : Text) : (Fault.ofErrorText t).isComplaint = true := by
  unfold Fault.ofErrorText
  split <;> rfl

/-- Whether a form complains only of what is next, and reads what stands in brackets only
where an opening bracket is next that the closing one closes. -/
def Form.tidy : Form → Sight → Bool
  | .complain cause, _ => cause.isComplaint
  | .seq first second, S => first.tidy S && second.tidy (Watch.lenient.after first S).either
  | .cond test yes no, S =>
    test.tidy S && yes.tidy (Watch.lenient.after test S).yes &&
      no.tidy (Watch.lenient.after test S).no
  | .loop test body, S =>
    let T := Watch.lenient.round test body S
    test.tidy T && body.tidy (Watch.lenient.after test T).yes
  | .node _ body, S | .mark body, S | .wrap _ body, S => body.tidy S
  | .enclosed bracket body, S =>
    S.within ⟨.closedBy bracket, .closedBy bracket⟩ && body.tidy S.onward
  | .answer _, _ | .next _, _ | .nextTwo _ _, _ | .take, _ | .complainOfToken, _ | .call _, _ => true

/-- The grammar is tidy. -/
theorem Phrase.tidy (p : Phrase) : p.form.tidy ⟨p.startsOn, .none⟩ = true := by
  revert p
  decide +kernel

section

variable {env : Surroundings} {s s' s₁ s₂ : Progress} {f : Form} {p : Phrase} {b : Bool} {S : Sight}

namespace Progress

theorem isComplaint_errorCause (s : Progress) : s.errorCause.isComplaint = true := by
  unfold errorCause
  split
  · exact Fault.isComplaint_ofErrorText _
  · rfl

/-- How reading can go on: by what steps it comes from one point to another. What has been
built does not matter for it. -/
inductive Course (env : Surroundings) : Progress → Progress → Prop
  | stay {s s' : Progress} : s'.rest = s.rest → s'.faults = s.faults → Course env s s'
  | take (s : Progress) : Course env s s.take
  | complain (s : Progress) {cause : Fault.Cause} : cause.isComplaint = true →
      Course env s (s.complain env cause)
  | unclosed {s s' : Progress} {l : Lexeme} {ls : List Lexeme} {bracket : Kind} : s.rest = l :: ls →
      l.token.kind.closer? = some bracket → l.token.offset ∈ env.unclosed → Course env s.take s' →
      Course env s (s'.record ⟨.neverClosed bracket, l.token.offset, l.token.offset + 1⟩)
  | trans {s s₁ s₂ : Progress} : Course env s s₁ → Course env s₁ s₂ → Course env s s₂

theorem exists_of_closedBy {bracket : Kind} (h : (KindSet.closedBy bracket).has s.current = true) :
    ∃ l ls, s.rest = l :: ls ∧ l.token.kind.closer? = some bracket := by
  simp only [KindSet.closedBy, KindSet.has_only, List.contains_iff_mem, List.mem_filter,
    beq_iff_eq] at h
  obtain ⟨l, ls, hl, hlk⟩ := exists_of_current (s := s) rfl fun he => by simp [he] at h
  exact ⟨l, ls, hl, hlk ▸ h.2⟩

namespace Course

/-- What a node or a run of parts is made of. -/
theorem inside (h : Course env s.inside s') (parts : List Tree) :
    Course env s (s.rejoin s' parts) := by
  have hopen : Course env s s.inside := .stay rfl rfl
  have hclose : Course env s' (s.rejoin s' parts) := .stay rfl rfl
  exact (hopen.trans h).trans hclose

/-- What stands in brackets, with the brackets. -/
theorem enclosed {bracket : Kind} (hk : (KindSet.closedBy bracket).has s.current = true)
    (h : Course env s.take s') : Course env s (s'.close env bracket (s.offset env)) := by
  obtain ⟨l, ls, hl, hcloser⟩ := exists_of_closedBy hk
  have hin : Course env s s' := (Course.take s).trans h
  have hoffset : s.offset env = l.token.offset := by rw [offset, hl]
  rw [hoffset]
  unfold Progress.close
  split
  · exact hin.trans (.take s')
  · split
    · rename_i hunclosed
      exact .unclosed hl hcloser (List.contains_iff_mem.1 hunclosed) h
    · exact hin.trans (.complain s' rfl)

theorem follows (h : Course env s s') : Follows s s' := by
  induction h with
  | stay hrest hfaults => exact ⟨hrest ▸ List.suffix_rfl, hfaults ▸ List.suffix_rfl⟩
  | take s => exact follows_take s
  | complain s => exact follows_complain ..
  | unclosed _ _ _ _ ih => exact ((follows_take _).trans ih).trans (follows_record ..)
  | trans _ _ ih₁ ih₂ => exact ih₁.trans ih₂

end Course

end Progress

open Progress

/-- What it means that a phrase takes a course. -/
def Phrase.TakesCourse (env : Surroundings) (p : Phrase) (s : Progress) (_ : Bool) (s' : Progress) :
    Prop :=
  p.startsOn.has s.current = true → Course env s s'

/-- A tidy form takes a course, if the phrases in it do. The induction is on the form, and
what is known of the next token is carried through it. -/
theorem Form.Reads.course
    (h : Form.Reads env (fun q s b s' => Phrase.Reads env q s b s' ∧ q.TakesCourse env s b s') f s b s')
    (hf : Watch.lenient.fits true f S = true) (ht : f.tidy S = true)
    (hk : S.has false s.current = true) : Course env s s' := by
  have sighted {f s b s' S}
      (h : Form.Reads env (fun q s b s' => Phrase.Reads env q s b s' ∧ q.TakesCourse env s b s')
        f s b s') (hf : Watch.lenient.fits true f S = true) (hk : S.has false s.current = true) :
      ((Watch.lenient.after f S).of b).has false s'.current = true :=
    (Watch.lenient_sees env).sighted (h.imp fun _ _ _ _ hq => hq.1) trivial hf hk
  induction f generalizing s b s' S with
  | answer | next | nextTwo =>
    cases h
    exact .stay rfl rfl
  | take =>
    cases h
    exact .take s
  | complain cause =>
    cases h
    exact .complain s ht
  | complainOfToken =>
    cases h
    exact .complain s (isComplaint_errorCause s)
  | seq first second ih₁ ih₂ =>
    simp only [Watch.fits, Form.tidy, Bool.and_eq_true] at hf ht
    cases h with
    | seq h₁ h₂ =>
      have hk₁ := Outlook.has_either (sighted h₁ hf.1 hk)
      exact (ih₁ h₁ hf.1 ht.1 hk).trans (ih₂ h₂ hf.2 ht.2 hk₁)
  | cond test yes no ih iy ino =>
    simp only [Watch.fits, Form.tidy, Bool.and_eq_true] at hf ht
    cases h with
    | condYes h₁ h₂ =>
      exact (ih h₁ hf.1.1 ht.1.1 hk).trans (iy h₂ hf.1.2 ht.1.2 (sighted h₁ hf.1.1 hk))
    | condNo h₁ h₂ =>
      exact (ih h₁ hf.1.1 ht.1.1 hk).trans (ino h₂ hf.2 ht.2 (sighted h₁ hf.1.1 hk))
  | loop test body iht ihb =>
    simp only [Watch.fits, Form.tidy, Bool.and_eq_true] at hf ht
    obtain ⟨⟨hft, hfb⟩, hback⟩ := hf
    have hfirst : (Watch.lenient.round test body S).has false s.current = true := by
      simp [Watch.round, hk]
    obtain ⟨rfl, s₀, ⟨hs₀, hk₀⟩, h₀⟩ := h.of_loop
      (P := fun s₀ => Course env s s₀ ∧
        (Watch.lenient.round test body S).has false s₀.current = true)
      ⟨.stay rfl rfl, hfirst⟩ fun hP h₁ h₂ _ => by
        have hk₁ := sighted h₁ hft hP.2
        have hk₂ := sighted h₂ hfb hk₁
        exact ⟨hP.1.trans ((iht h₁ hft ht.1 hP.2).trans (ihb h₂ hfb ht.2 hk₁)),
          Sight.has_of_within hback (Outlook.has_either hk₂)⟩
    exact hs₀.trans (iht h₀ hft ht.1 hk₀)
  | call p =>
    cases h with
    | call h => exact h.2 (Sight.has_of_within ((Watch.lenient_sees env).call hf) hk)
  | node kind body ih =>
    simp only [Watch.fits, Bool.and_eq_true] at hf
    cases h with
    | node h => exact .inside (ih h hf.2 ht hk) _
  | mark body ih =>
    cases h with
    | mark h => exact .inside (ih h hf ht hk) _
  | wrap kind body ih =>
    simp only [Watch.fits, Bool.and_eq_true] at hf
    cases h with
    | wrap h => exact (ih h hf.2 ht hk).trans (.stay rfl rfl)
  | enclosed bracket body ih =>
    simp only [Watch.fits, Form.tidy, Bool.and_eq_true] at hf ht
    cases h with
    | enclosed h =>
      exact .enclosed (Sight.has_of_within ht.1 hk)
        (ih h hf.1.2 ht.2 ((Watch.lenient_sees env).taken hk))

/-- A phrase takes a course. -/
theorem Phrase.Reads.course (h : Phrase.Reads env p s b s') (hp : p.startsOn.has s.current = true) :
    Course env s s' :=
  h.induct (Phrase.TakesCourse env)
    (fun p _ _ _ h hk => Form.Reads.course h p.lenient_fits p.tidy hk) hp

end

/-- The course that a text is read in, to its end. -/
theorem exists_course (t : Text) :
    ∃ s, Progress.Course (.ofTokens (layout t).tokens)
        (.start (layout t).tokens (layout t).faults) s ∧
      s.rest = [] ∧ (parse t).faults = s.faults.reverse := by
  obtain ⟨b, s, hreads, hrest, -, -, hfaults⟩ := exists_reading t
  exact ⟨s, hreads.course rfl, hrest, hfaults⟩

end SceneGate
