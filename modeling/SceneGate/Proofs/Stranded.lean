/-
Readings that cannot end well. A token is in the way of a reading if no form that
is still to be read takes it: sooner or later there is a complaint about it. The
watch here follows one such token until it is shown never to be passed.

It also follows a string up to the token behind it, for a string alone is an
operand, and an operand ends before a token that does not belong to it.
-/
import SceneGate.Proofs.Idle

namespace SceneGate

/-- Phrases that read a string alone as all of an operand. -/
def Phrase.isOperand : Phrase → Bool
  | .namedExpression | .expression | .disjunction | .conjunction | .inversion | .comparison
  | .bitOr | .bitXor | .bitAnd | .shift | .sum | .product | .factor | .power | .primary
  | .atom => true
  | _ => false

/-- The flag is up before a token that must not be passed. While it is down, one
token may still be taken, if it is known what stands `behind` it. -/
def Watch.stranded (behind : Option Kind) : Watch where
  taken S := ⟨.none, if S.down.isEmpty then .none else .only behind.toList⟩
  faulted _ := .nothing
  left _ S := ⟨.none, if S.down.isEmpty then .none else .only behind.toList⟩
  mayTake S := S.up.isEmpty && (S.down.isEmpty || behind.isSome)
  mayCall p S := S.up.isEmpty && (S.down.isEmpty ||
    (behind == some .eq || behind == some .colonEq) && p.isOperand && S.down.within (.only [.string]))
  mayOpen _ _ _ := true
  mayWrap _ := true

namespace Progress

theorem current_take (s : Progress) : s.take.current = s.following := by
  cases hr : s.rest with
  | nil => rw [take_of_nil hr]; simp [current, following, hr]
  | cons l ls => rw [take_of_cons hr]; cases ls <;> simp [current, following, hr]

@[simp] theorem following_rejoin (s s' : Progress) (parts : List Tree) :
    (s.rejoin s' parts).following = s'.following := rfl

@[simp] theorem following_inside (s : Progress) : s.inside.following = s.following := rfl

end Progress

open Progress

variable {env : Surroundings} {behind : Option Kind}

/-- While the flag is down, what is behind the next token is known. -/
def Known (behind : Option Kind) (_ : Unit) (passed : Bool) (s : Progress) : Prop :=
  passed = false → ∀ k ∈ behind, s.following = k

/-- An operand that is a string ends before `=` and `:=`. -/
def Phrase.EndsBefore (p : Phrase) (s : Progress) (_ : Bool) (s' : Progress) : Prop :=
  p.isOperand = true → s.current = .string → s.following = .eq ∨ s.following = .colonEq →
    s'.faults = [] → s'.current = s.following

theorem Watch.stranded_sound (env : Surroundings) (behind : Option Kind) :
    (Watch.stranded behind).Sound env Phrase.EndsBefore (fun s => s.faults = [])
      (Known behind) id where
  back h hg := List.suffix_nil.1 (hg ▸ h.faults)
  take := by
    intro _ S s hmay hs
    obtain ⟨passed, hknown, hk⟩ := hs
    simp only [stranded, Bool.and_eq_true, Bool.or_eq_true] at hmay
    obtain ⟨hup, hdown⟩ := hmay
    cases passed with
    | true => exact absurd ((KindSet.not_has_of_isEmpty hup).symm.trans hk) (by simp)
    | false =>
      have hne : S.down.isEmpty = false := KindSet.isEmpty_of_has (a := S.down) hk
      obtain ⟨k, rfl⟩ := Option.isSome_iff_exists.1 (hdown.resolve_left (by simp [hne]))
      refine ⟨true, fun h => absurd h (by simp), ?_⟩
      have hnext : s.take.current = k := by rw [current_take, hknown rfl k rfl]
      simp [stranded, Sight.has, hne, hnext]
  fault h := absurd h (faults_record_ne _ _)
  call := by
    intro _ S p s b s' hmay _ hends hg hs
    obtain ⟨passed, hknown, hk⟩ := hs
    simp only [stranded, Bool.and_eq_true, Bool.or_eq_true] at hmay
    obtain ⟨hup, hdown⟩ := hmay
    cases passed with
    | true => exact absurd ((KindSet.not_has_of_isEmpty hup).symm.trans hk) (by simp)
    | false =>
      have hne : S.down.isEmpty = false := KindSet.isEmpty_of_has (a := S.down) hk
      obtain ⟨⟨hsome, hp⟩, hwithin⟩ := hdown.resolve_left (by simp [hne])
      have hstring : s.current = .string := by
        simpa using KindSet.has_of_within hwithin (show S.down.has s.current = true from hk)
      obtain ⟨k, rfl, hbehind⟩ : ∃ k, behind = some k ∧ (k = .eq ∨ k = .colonEq) := by
        rcases hsome with h | h
        · exact ⟨_, by simpa using h, .inl rfl⟩
        · exact ⟨_, by simpa using h, .inr rfl⟩
      have hfollows : s.following = k := hknown rfl k rfl
      refine ⟨true, fun h => absurd h (by simp), ?_⟩
      have hnext : s'.current = k :=
        (hends hp hstring (by rw [hfollows]; exact hbehind) hg).trans hfollows
      simp [stranded, Sight.has, hne, hnext]
  inside h := h
  node _ _ _ h := h
  mark _ h := h
  wrap _ h := h

/-- A string alone is passed by an operand, which then ends before `=` and `:=`. -/
theorem Phrase.stranded_fits (p : Phrase) (hp : p.isOperand = true) {k : Kind}
    (hk : k = .eq ∨ k = .colonEq) :
    (Watch.stranded (some k)).fits true p.form ⟨.only [.string], .none⟩ = true ∧
      ((Watch.stranded (some k)).after p.form ⟨.only [.string], .none⟩).either.within
        ⟨.none, .only [k]⟩ = true := by
  rcases hk with rfl | rfl <;> cases p <;> first | (simp [isOperand] at hp; done) | decide +kernel

theorem Phrase.Reads.endsBefore {p s b s'} (h : Phrase.Reads env p s b s') :
    p.EndsBefore s b s' := by
  refine h.induct Phrase.EndsBefore fun p s b s' h hp hstring hbehind hg => ?_
  obtain ⟨hfits, hafter⟩ := p.stranded_fits hp hbehind
  have hstart : Holds (Known (some s.following)) () ⟨.only [.string], .none⟩ s :=
    ⟨false, fun _ _ hj => Option.some.inj hj, by simp [Sight.has, hstring]⟩
  obtain ⟨passed, -, hend⟩ := ((Watch.stranded_sound env (some s.following)).holds h hg
    (fun _ => ⟨(), rfl⟩) hfits hstart).either.within hafter
  cases passed with
  | false => simp [Sight.has] at hend
  | true => simpa [Sight.has] using hend

/-! ## Forms that get stuck -/

namespace Form

/-- Whether the next token, seen as `S` says, is never passed in a form. -/
def isStranded (behind : Option Kind) (S : Sight) (f : Form) : Bool :=
  (Watch.stranded behind).fits true f S

/-- The kinds of the next token after a form that did not pass it. -/
def strands (behind : Option Kind) (S : Sight) (f : Form) : KindSet :=
  let S' := ((Watch.stranded behind).after f S).either
  S'.down.union S'.up

theorem Reads.strands {f s b s'} {S : Sight} (h : Form.Reads env (Phrase.Reads env) f s b s')
    (hg : s'.faults = []) (hf : f.isStranded behind S = true)
    (hs : Holds (Known behind) () S s) : (f.strands behind S).has s'.current = true := by
  have hcalls := h.imp fun _ _ _ _ hq => And.intro hq hq.endsBefore
  obtain ⟨passed, -, hend⟩ := ((Watch.stranded_sound env behind).holds hcalls hg
    (fun _ => ⟨(), rfl⟩) hf hs).either
  unfold Form.strands
  cases passed <;> simp_all [Sight.has]

end Form

end SceneGate
