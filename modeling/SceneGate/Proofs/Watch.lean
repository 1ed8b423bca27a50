/-
Watching a reading without carrying it out.

A watch follows a flag, some yes-or-no fact about how far reading has come, from
form to form, together with the kinds that the next token may be of while the
flag is down and while it is up (`Sight`). What comes out of a form, and whether
all that is done in it is allowed, can be computed (`Watch.after`,
`Watch.fits`). What is computed holds of every reading (`Watch.Sound.holds`), as
soon as it is known what taking a token, recording a fault, opening a node and
calling a phrase do to the flag (`Watch.Sound`).
-/
import SceneGate.Proofs.KindSet
import SceneGate.Proofs.Reading

namespace SceneGate

/-- What is known at a point of a form: the kinds that the next token may be of
while the flag is down, and while it is up. -/
structure Sight where
  down : KindSet
  up : KindSet
deriving DecidableEq, Repr

namespace Sight

/-- Whether a token of kind `k` may be next while the flag is `flag`. -/
def has (S : Sight) (flag : Bool) (k : Kind) : Bool :=
  bif flag then S.up.has k else S.down.has k

/-- A point that is never reached. -/
def nothing : Sight := ⟨.none, .none⟩

/-- A point of which nothing is known. -/
def anything : Sight := ⟨.all, .all⟩

/-- What is known when the kind of the next token lies in `K` besides. -/
def inter (S : Sight) (K : KindSet) : Sight := ⟨S.down.inter K, S.up.inter K⟩

/-- What is known at a point that is reached in two ways. -/
def union (S T : Sight) : Sight := ⟨S.down.union T.down, S.up.union T.up⟩

/-- Whether the first sight is seen to allow no more than the second. -/
def within (S T : Sight) : Bool := S.down.within T.down && S.up.within T.up

/-- Whether the point is seen never to be reached. -/
def isEmpty (S : Sight) : Bool := S.down.isEmpty && S.up.isEmpty

variable {S T : Sight} {flag : Bool} {k : Kind}

@[simp] theorem has_nothing : nothing.has flag k = false := by cases flag <;> rfl

@[simp] theorem has_anything : anything.has flag k = true := by cases flag <;> rfl

@[simp] theorem has_inter (K : KindSet) :
    (S.inter K).has flag k = (S.has flag k && K.has k) := by
  cases flag <;> simp [has, inter]

@[simp] theorem has_union : (S.union T).has flag k = (S.has flag k || T.has flag k) := by
  cases flag <;> simp [has, union]

theorem has_of_within (h : S.within T = true) (hk : S.has flag k = true) :
    T.has flag k = true := by
  obtain ⟨hd, hu⟩ := Bool.and_eq_true_iff.1 h
  cases flag with
  | false => exact KindSet.has_of_within hd hk
  | true => exact KindSet.has_of_within hu hk

theorem isEmpty_of_has (h : S.has flag k = true) : S.isEmpty = false := by
  cases flag with
  | false => simp [isEmpty, KindSet.isEmpty_of_has (a := S.down) h]
  | true => simp [isEmpty, KindSet.isEmpty_of_has (a := S.up) h]

end Sight

/-- What is known after a form, for each of its answers. -/
structure Outlook where
  yes : Sight
  no : Sight
deriving DecidableEq, Repr

namespace Outlook

/-- What is known after an answer. -/
def of (o : Outlook) (answer : Bool) : Sight := bif answer then o.yes else o.no

/-- What is known whatever the answer was. -/
def either (o : Outlook) : Sight := o.yes.union o.no

/-- What is known after one of two forms. -/
def join (o o' : Outlook) : Outlook := ⟨o.yes.union o'.yes, o.no.union o'.no⟩

@[simp] theorem of_true (o : Outlook) : o.of true = o.yes := rfl

@[simp] theorem of_false (o : Outlook) : o.of false = o.no := rfl

variable {o o' : Outlook} {a flag : Bool} {k : Kind}

theorem has_either (h : (o.of a).has flag k = true) : o.either.has flag k = true := by
  cases a <;> simp_all [either]

@[simp] theorem has_join :
    ((o.join o').of a).has flag k = ((o.of a).has flag k || (o'.of a).has flag k) := by
  cases a <;> simp [join]

end Outlook

/-- How a flag is followed, and what is allowed where. -/
structure Watch where
  /-- What is known after a token is taken. -/
  taken : Sight → Sight
  /-- What is known after a fault is recorded. -/
  faulted : Sight → Sight
  /-- What is known after a phrase that was called. -/
  left : Phrase → Sight → Sight
  /-- Whether the next token may be taken. -/
  mayTake : Sight → Bool
  /-- Whether a phrase may be called. -/
  mayCall : Phrase → Sight → Bool
  /-- Whether a form may become a node of a kind. -/
  mayOpen : Kind → Form → Sight → Bool
  /-- Whether what was read may become a node of a kind. -/
  mayWrap : Kind → Bool

namespace Watch

variable (w : Watch)

/-- What is known after the closing bracket was taken or missed. -/
def closed (bracket : Kind) (S : Sight) : Sight :=
  (w.taken (S.inter (.only [bracket]))).union (w.faulted (S.inter (.allBut [bracket])))

/-- What is known after a form that was read where `S` is known. Before a step of
a loop that is reached, what was known before the loop or what a step ends with is
known. -/
def after : Form → Sight → Outlook
  | .answer true, S => ⟨S, .nothing⟩
  | .answer false, S => ⟨.nothing, S⟩
  | .next kinds, S => ⟨S.inter (.only kinds), S.inter (.allBut kinds)⟩
  | .nextTwo first _, S => ⟨S.inter (.only [first]), S⟩
  | .take, S => ⟨w.taken S, .nothing⟩
  | .complain _, S | .complainOfToken, S => ⟨.nothing, w.faulted S⟩
  | .seq first second, S => after second (after first S).either
  | .cond test yes no, S => (after yes (after test S).yes).join (after no (after test S).no)
  | .loop test body, S =>
    let T := if S.isEmpty then .nothing else (after body (after test .anything).yes).either
    ⟨.nothing, (after test (S.union T)).no⟩
  | .call p, S => ⟨w.left p S, w.left p S⟩
  | .node _ body, S | .mark body, S | .wrap _ body, S => after body S
  | .enclosed bracket body, S =>
    let T := w.closed bracket (after body (w.taken S)).either
    ⟨T, T⟩

/-- What is known before each step of a loop. -/
def round (test body : Form) (S : Sight) : Sight :=
  S.union (if S.isEmpty then .nothing else (w.after body (w.after test .anything).yes).either)

/-- What is known after one step of a loop. -/
def again (test body : Form) (S : Sight) : Sight :=
  (w.after body (w.after test S).yes).either

/-- Whether all that is done in a form is allowed where `S` is known. A node may
be made of the parts read so far only where `inRun` says that the run of parts
began in the form. -/
def fits (inRun : Bool) : Form → Sight → Bool
  | .take, S => w.mayTake S
  | .seq first second, S => fits inRun first S && fits inRun second (w.after first S).either
  | .cond test yes no, S =>
    fits inRun test S && fits inRun yes (w.after test S).yes && fits inRun no (w.after test S).no
  | .loop test body, S =>
    let T := w.round test body S
    fits inRun test T && fits inRun body (w.after test T).yes &&
      (w.again test body T).within T
  | .call p, S => w.mayCall p S
  | .node kind body, S => w.mayOpen kind body S && fits true body S
  | .mark body, S => fits true body S
  | .wrap kind body, S => inRun && w.mayWrap kind && fits true body S
  | .enclosed bracket body, S =>
    w.mayTake S && fits inRun body (w.taken S) &&
      w.mayTake ((w.after body (w.taken S)).either.inter (.only [bracket]))
  | .answer _, _ | .next _, _ | .nextTwo _ _, _ | .complain _, _ | .complainOfToken, _ => true

end Watch

/-! ## What is computed holds -/

section Sound

variable {env : Surroundings} {Spec : Phrase → Progress → Bool → Progress → Prop}
  {good : Progress → Prop} {Ctx : Type} {Inv : Ctx → Bool → Progress → Prop} {inner : Ctx → Ctx}

namespace Progress

@[simp] theorem current_flush (s : Progress) : s.flush.current = s.current := rfl

@[simp] theorem current_inside (s : Progress) : s.inside.current = s.current := rfl

@[simp] theorem current_rejoin (s s' : Progress) (parts : List Tree) :
    (s.rejoin s' parts).current = s'.current := rfl

theorem current_record (s : Progress) (f : Fault) : (s.record f).current = s.current := by
  unfold record; split <;> rfl

/-- With some flag, the invariant holds and the next token is of a kind that the
sight allows. -/
def Holds (Inv : Ctx → Bool → Progress → Prop) (c : Ctx) (S : Sight) (s : Progress) : Prop :=
  ∃ flag, Inv c flag s ∧ S.has flag s.current = true

variable {c : Ctx} {S T : Sight} {s : Progress}

theorem Holds.imp (h : Holds Inv c S s)
    (hST : ∀ flag k, S.has flag k = true → T.has flag k = true) : Holds Inv c T s := by
  obtain ⟨flag, hi, hk⟩ := h
  exact ⟨flag, hi, hST _ _ hk⟩

theorem Holds.within (h : Holds Inv c S s) (hST : S.within T = true) : Holds Inv c T s :=
  h.imp fun _ _ => Sight.has_of_within hST

theorem Holds.inter (h : Holds Inv c S s) {K : KindSet} (hK : K.has s.current = true) :
    Holds Inv c (S.inter K) s := by
  obtain ⟨flag, hi, hk⟩ := h
  exact ⟨flag, hi, by simp [hk, hK]⟩

theorem Holds.left (h : Holds Inv c S s) : Holds Inv c (S.union T) s :=
  h.imp fun _ _ hk => by simp [hk]

theorem Holds.right (h : Holds Inv c T s) : Holds Inv c (S.union T) s :=
  h.imp fun _ _ hk => by simp [hk]

theorem Holds.either {o : Outlook} {a : Bool} (h : Holds Inv c (o.of a) s) :
    Holds Inv c o.either s :=
  h.imp fun _ _ => Outlook.has_either

end Progress

open Progress

/-- What has to be known of a flag so that it can be watched. `Inv c flag s` says
that the flag is `flag` at `s`, when reading began as `c` tells; `inner c` is the
beginning of a node or a run inside. Only readings that end in a `good` point
are watched. -/
structure Watch.Sound (w : Watch) (env : Surroundings)
    (Spec : Phrase → Progress → Bool → Progress → Prop) (good : Progress → Prop)
    (Inv : Ctx → Bool → Progress → Prop) (inner : Ctx → Ctx) : Prop where
  back : ∀ {s s'}, Follows s s' → good s' → good s
  take : ∀ {c S s}, w.mayTake S = true → Holds Inv c S s → Holds Inv c (w.taken S) s.take
  fault : ∀ {c S s f}, good (s.record f) → Holds Inv c S s →
    Holds Inv c (w.faulted S) (s.record f)
  call : ∀ {c S p s b s'}, w.mayCall p S = true → Phrase.Reads env p s b s' → Spec p s b s' →
    good s' → Holds Inv c S s → Holds Inv c (w.left p S) s'
  inside : ∀ {c flag s}, Inv c flag s → Inv (inner c) flag s.inside
  node : ∀ {c S s b flag s' kind body}, w.mayOpen kind body S = true → Holds Inv c S s →
    Form.Reads env (fun q s b s' => Phrase.Reads env q s b s' ∧ Spec q s b s') body s.inside b s' →
    Inv (inner c) flag s' → Inv c flag (s.rejoin s' [.node kind s'.built.reverse])
  mark : ∀ {c flag s flag' s'}, Inv c flag s → Inv (inner c) flag' s' →
    Inv c flag' (s.rejoin s' s'.built)
  wrap : ∀ {c flag s kind}, w.mayWrap kind = true → Inv (inner c) flag s →
    Inv (inner c) flag { s with built := [.node kind s.built.reverse] }

namespace Watch.Sound

variable {w : Watch} (hw : w.Sound env Spec good Inv inner)

include hw

theorem complain {c S s cause} (hg : good (s.complain env cause)) (hs : Holds Inv c S s) :
    Holds Inv c (w.faulted S) (s.complain env cause) := by
  unfold Progress.complain at hg ⊢
  split <;> exact hw.fault (by simpa [*] using hg) hs

theorem close {c S s bracket opened} (hg : good (s.close env bracket opened))
    (ht : w.mayTake (S.inter (.only [bracket])) = true) (hs : Holds Inv c S s) :
    Holds Inv c (w.closed bracket S) (s.close env bracket opened) := by
  unfold Progress.close at hg ⊢
  split
  · rename_i hk
    exact (hw.take ht (hs.inter (by simp [hk]))).left
  · rename_i hk
    have hs : Holds Inv c (S.inter (.allBut [bracket])) s := hs.inter (by simpa using hk)
    rw [if_neg hk] at hg
    split
    · rename_i hu
      rw [if_pos hu] at hg
      exact (hw.fault hg hs).right
    · rename_i hu
      rw [if_neg hu] at hg
      exact (hw.complain hg hs).right

/-- What a watch computes holds of every reading that ends well. The induction is
on the form; a loop has an invariant of its own, what is known before each of
its steps. -/
theorem holds {f s b s'}
    (h : Form.Reads env (fun q s b s' => Phrase.Reads env q s b s' ∧ Spec q s b s') f s b s')
    (hg : good s') {c S inRun} (hrun : inRun = true → ∃ d, c = inner d)
    (hf : w.fits inRun f S = true) (hs : Holds Inv c S s) :
    Holds Inv c ((w.after f S).of b) s' := by
  have back {f s b s'}
      (h : Form.Reads env (fun q s b s' => Phrase.Reads env q s b s' ∧ Spec q s b s') f s b s')
      (hg : good s') : good s :=
    hw.back (h.imp fun _ _ _ _ hq => hq.1.follows).follows hg
  induction f generalizing s b s' c S inRun with
  | answer yes =>
    cases h
    cases yes <;> exact hs
  | next kinds =>
    cases h
    cases hk : kinds.contains s.current with
    | true => exact hs.inter (by simpa using hk)
    | false => exact hs.inter (by simpa using hk)
  | nextTwo first second =>
    cases h
    cases hk : s.current == first && s.following == second with
    | true => exact hs.inter (by simp_all)
    | false => exact hs
  | take =>
    cases h
    exact hw.take hf hs
  | complain cause =>
    cases h
    exact hw.complain hg hs
  | complainOfToken =>
    cases h
    exact hw.complain hg hs
  | seq first second ih₁ ih₂ =>
    cases h with
    | seq h₁ h₂ =>
      simp only [fits, Bool.and_eq_true] at hf
      exact ih₂ h₂ hg hrun hf.2 (ih₁ h₁ (back h₂ hg) hrun hf.1 hs).either
  | cond test yes no ih iy ino =>
    simp only [fits, Bool.and_eq_true] at hf
    obtain ⟨⟨ht, hy⟩, hn⟩ := hf
    cases h with
    | condYes h₁ h₂ =>
      have := iy h₂ hg hrun hy (ih h₁ (back h₂ hg) hrun ht hs)
      exact this.imp fun _ _ hk => by simp [after, hk]
    | condNo h₁ h₂ =>
      have := ino h₂ hg hrun hn (ih h₁ (back h₂ hg) hrun ht hs)
      exact this.imp fun _ _ hk => by simp [after, hk]
  | loop test body iht ihb =>
    simp only [fits, Bool.and_eq_true] at hf
    obtain ⟨⟨ht, hb⟩, hback⟩ := hf
    obtain ⟨rfl, s₀, hs₀, h₀⟩ := h.of_loop (P := Holds Inv c (w.round test body S)) hs.left
      fun hP h₁ h₂ h₃ =>
        have hg₂ := back h₃ hg
        (ihb h₂ hg₂ hrun hb (iht h₁ (back h₂ hg₂) hrun ht hP)).either.within hback
    exact iht h₀ hg hrun ht hs₀
  | call p =>
    cases h with
    | call h =>
      have := hw.call hf h.1 h.2 hg hs
      cases b <;> exact this
  | node kind body ih =>
    cases h with
    | node h =>
      simp only [fits, Bool.and_eq_true] at hf
      obtain ⟨flag, hi, hk⟩ := hs
      obtain ⟨flag', hi', hk'⟩ := ih h (hw.back (follows_rejoin ..) hg)
        (fun _ => ⟨c, rfl⟩) hf.2 ⟨flag, hw.inside hi, hk⟩
      exact ⟨flag', hw.node hf.1 ⟨flag, hi, hk⟩ h hi', hk'⟩
  | mark body ih =>
    cases h with
    | mark h =>
      simp only [fits] at hf
      obtain ⟨flag, hi, hk⟩ := hs
      obtain ⟨flag', hi', hk'⟩ := ih h (hw.back (follows_rejoin ..) hg)
        (fun _ => ⟨c, rfl⟩) hf ⟨flag, hw.inside hi, hk⟩
      exact ⟨flag', hw.mark hi hi', hk'⟩
  | wrap kind body ih =>
    cases h with
    | wrap h =>
      simp only [fits, Bool.and_eq_true] at hf
      obtain ⟨⟨hin, hk⟩, hf⟩ := hf
      obtain ⟨d, rfl⟩ := hrun hin
      obtain ⟨flag, hi, hcur⟩ := ih h (hw.back (follows_built ..) hg)
        (fun _ => ⟨d, rfl⟩) hf hs
      exact ⟨flag, hw.wrap hk hi, hcur⟩
  | enclosed bracket body ih =>
    cases h with
    | enclosed h =>
      simp only [fits, Bool.and_eq_true] at hf
      obtain ⟨⟨htake, hbody⟩, hclose⟩ := hf
      have hin := ih h (hw.back (follows_close ..) hg) hrun hbody (hw.take htake hs)
      have hout := hw.close hg hclose hin.either
      cases b <;> exact hout

end Watch.Sound

end Sound

end SceneGate
