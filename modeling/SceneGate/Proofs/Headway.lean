/-
Headway of readings without faults. A phrase that has to find something complains
if it does not, so without a fault it takes a token; the few phrases that may take
nothing do so only in front of certain tokens (`Phrase.restsOn`).

The flag that is watched is up once a token was taken, as in the proof that reading
comes to an end, but readings with faults are left out here.
-/
import SceneGate.Proofs.Brackets

namespace SceneGate

/-- The kinds of tokens on which a phrase may take nothing and find no fault. -/
def Phrase.restsOn : Phrase → KindSet
  | .program => .only [.endOfFile]
  | .elseClause => .allBut [.elseKw]
  | .argumentsFrom _ => .only [.rParen, .newline, .endOfFile]
  | _ => .none

/-- Watches whether a token was taken, in readings without a fault. -/
def Watch.headway : Watch where
  taken S := ⟨S.down.inter (.only [.endOfFile]), if S.isEmpty then .none else .all⟩
  faulted _ := .nothing
  left p S := ⟨S.down.inter p.restsOn, if S.isEmpty then .none else .all⟩
  mayTake _ := true
  mayCall p S := S.within ⟨p.startsOn, p.startsOn⟩
  mayOpen _ _ _ := true
  mayWrap _ := true

/-- Whether a form takes a token wherever it is read in front of one of these kinds. -/
def Form.movesOn (f : Form) (K : KindSet) : Bool :=
  Watch.headway.fits true f ⟨K, .none⟩ && (Watch.headway.after f ⟨K, .none⟩).either.down.isEmpty

theorem Phrase.headway_fits (p : Phrase) :
    Watch.headway.fits true p.form ⟨p.startsOn, .none⟩ = true ∧
      (Watch.headway.after p.form ⟨p.startsOn, .none⟩).either.within ⟨p.restsOn, .all⟩ = true := by
  revert p
  decide +kernel

section Headway

open Progress

variable {env : Surroundings} {f : Form} {K : KindSet} {p : Phrase} {b : Bool} {s s' : Progress}

/-- What it means that a phrase rests only on certain kinds. -/
def Phrase.RestsOn (p : Phrase) (s : Progress) (_ : Bool) (s' : Progress) : Prop :=
  p.startsOn.has s.current = true → s'.faults = [] → s'.rest = s.rest →
    p.restsOn.has s.current = true

theorem Watch.headway_sound (env : Surroundings) :
    Watch.headway.Sound env Phrase.RestsOn (fun s => s.faults = []) Moved id where
  back h hg := List.suffix_nil.1 (hg ▸ h.faults)
  take := by
    intro start S s _ ⟨flag, hm, hk⟩
    cases hr : s.rest with
    | nil =>
      have hs : s.take.rest = s.rest := by simp [Progress.take, flush, hr]
      have hc : s.current = .endOfFile := by simp [current, hr]
      refine ⟨flag, by simpa [Moved, hs] using hm, ?_⟩
      rw [current_eq hs]
      cases flag with
      | false => simpa [headway, Sight.has, hc] using hk
      | true => simp [headway, Sight.has, Sight.isEmpty_of_has hk]
    | cons l ls =>
      have hs : s.take.rest.length < s.rest.length := by simp [Progress.take, flush, hr]
      exact ⟨true, hm.up hs, by simp [headway, Sight.has, Sight.isEmpty_of_has hk]⟩
  fault hg := absurd hg (faults_record_ne _ _)
  call := by
    intro start S p s b s' hcall hreads hrests hg ⟨flag, hm, hk⟩
    have hstart : p.startsOn.has s.current = true := by
      have := Sight.has_of_within hcall hk
      cases flag <;> exact this
    have hup : (if S.isEmpty = true then KindSet.none else .all).has s'.current = true := by
      simp [Sight.isEmpty_of_has hk]
    by_cases hs : s'.rest = s.rest
    · refine ⟨flag, by simpa [Moved, hs] using hm, ?_⟩
      cases flag with
      | false =>
        rw [current_eq hs]
        simpa [headway, Sight.has, hrests hstart hg hs] using hk
      | true => exact hup
    · exact ⟨true, hm.up (hreads.follows.moved hs), hup⟩
  inside h := h
  node _ _ _ h := h
  mark _ h := h
  wrap _ h := h

/-- A phrase that is read without a fault takes a token, except on the kinds that
`restsOn` allows. -/
theorem Phrase.Reads.restsOn (h : Phrase.Reads env p s b s') : p.RestsOn s b s' := by
  refine h.induct Phrase.RestsOn fun p s b s' h hstart hg hs => ?_
  obtain ⟨flag, hm, hk⟩ := ((Watch.headway_sound env).holds h hg (fun _ => ⟨s.rest, rfl⟩)
    p.headway_fits.1 ⟨false, rfl, hstart⟩).either.within p.headway_fits.2
  cases flag with
  | false => rw [current_eq hs] at hk; exact hk
  | true =>
    have hlt : s'.rest.length < s.rest.length := hm
    exact absurd (congrArg List.length hs) (by omega)

/-- A form that takes a token wherever it finds no fault. -/
theorem Form.Reads.moves (h : Form.Reads env (Phrase.Reads env) f s b s') (hg : s'.faults = [])
    (hf : f.movesOn K = true) (hk : K.has s.current = true) :
    s'.rest.length < s.rest.length := by
  simp only [movesOn, Bool.and_eq_true] at hf
  obtain ⟨flag, hm, hk'⟩ := ((Watch.headway_sound env).holds
    (h.imp fun _ _ _ _ hq => And.intro hq hq.restsOn) hg (fun _ => ⟨s.rest, rfl⟩) hf.1
    ⟨false, rfl, hk⟩).either
  cases flag with
  | false => exact absurd (hk'.symm.trans (KindSet.not_has_of_isEmpty hf.2)) (by simp)
  | true => exact hm

end Headway

end SceneGate
