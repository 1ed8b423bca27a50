/-
Accounts of what is built. An account tells something of parts that stand side by
side; it is put together from form to form, out of accounts of the words that are
taken, of the nodes that are made and of what the phrases build. Before a step of a
loop there must be one account that the step keeps.

As with a watch, what comes out of a form can be computed (`Account.after`), as can
whether every node may be made of its parts (`Account.fits`). What is computed holds
of every reading (`Form.Reads.told`), as soon as it is known of the few ways in which
accounts are put together (`Account.Sound`).
-/
import SceneGate.Proofs.Brackets

namespace SceneGate

/-- How accounts of parts are put together. -/
structure Account (A : Type) where
  /-- Of no parts. -/
  empty : A
  /-- Of a point that is never reached. -/
  nothing : A
  /-- Of parts and those behind them. -/
  append : A → A → A
  /-- Of a point that is reached in two ways. -/
  union : A → A → A
  /-- Whether the first account is seen to allow no more than the second. -/
  within : A → A → Bool
  /-- Of a word of one of the kinds. -/
  word : KindSet → A
  /-- Of a node, from what is told of its parts. -/
  node : Kind → A → A
  /-- Whether a node of a kind may be made of such parts. -/
  mayBe : Kind → A → Bool
  /-- Of what a phrase builds. -/
  phrase : Phrase → A

/-- What is told after a form, for each of its answers. -/
structure Report (A : Type) where
  yes : A
  no : A

/-- What is told after an answer. -/
def Report.of {A : Type} (o : Report A) (answer : Bool) : A := bif answer then o.yes else o.no

/-- What is told, passed through a function. -/
def Report.map {A : Type} (f : A → A) (o : Report A) : Report A := ⟨f o.yes, f o.no⟩

namespace Account

variable {A : Type} (acc : Account A) (w : Watch)

/-- What is told whatever the answer was. -/
def either (o : Report A) : A := acc.union o.yes o.no

/-- What is told where `S` is known, if the point is reached at all. -/
def given (S : Sight) (a : A) : A := if S.isEmpty then acc.nothing else a

/-- What is told before each step of a loop, if `step` tells what a step makes of
what was told before: two steps are enough. -/
def round (step : A → A) (a : A) : A :=
  let b := acc.union a (step a)
  acc.union b (step b)

/-- What is told of the present run after a form that was read where `S` is known,
if `a` was told before. -/
def after : Form → Sight → A → Report A
  | .answer true, _, a => ⟨a, acc.nothing⟩
  | .answer false, _, a => ⟨acc.nothing, a⟩
  | .next kinds, S, a => ⟨acc.given (S.inter (.only kinds)) a, acc.given (S.inter (.allBut kinds)) a⟩
  | .nextTwo first _, S, a => ⟨acc.given (S.inter (.only [first])) a, a⟩
  | .take, S, a => ⟨acc.append a (acc.word S.down), acc.nothing⟩
  | .complain _, S, a | .complainOfToken, S, a => ⟨acc.nothing, acc.given (w.faulted S) a⟩
  | .seq first second, S, a =>
    after second (w.after first S).either (acc.either (after first S a))
  | .cond test yes no, S, a =>
    let o := after test S a
    let oy := after yes (w.after test S).yes o.yes
    let on := after no (w.after test S).no o.no
    ⟨acc.union oy.yes on.yes, acc.union oy.no on.no⟩
  | .loop test body, S, a =>
    let T := w.round test body S
    let step a := acc.either (after body (w.after test T).yes (after test T a).yes)
    ⟨acc.nothing, (after test T (acc.round step a)).no⟩
  | .call p, _, a => ⟨acc.append a (acc.phrase p), acc.append a (acc.phrase p)⟩
  | .node kind body, S, a => (after body S acc.empty).map (acc.append a <| acc.node kind ·)
  | .mark body, S, a => (after body S acc.empty).map (acc.append a)
  | .wrap kind body, S, a => (after body S a).map (acc.node kind)
  | .enclosed bracket body, S, a =>
    let T := (w.after body (w.taken S)).either
    let b := acc.either (after body (w.taken S) (acc.append a (acc.word S.down)))
    let c := acc.union (acc.append b (acc.word (.only [bracket])))
      (acc.given (w.faulted (T.inter (.allBut [bracket]))) b)
    ⟨c, c⟩

/-- What is told after one step of a loop. -/
def again (test body : Form) (T : Sight) (a : A) : A :=
  acc.either (acc.after w body (w.after test T).yes (acc.after w test T a).yes)

/-- Whether every node in a form may be made of its parts, if `a` is told before. A
node may be made of the parts read so far only where `inRun` says that the run of
parts began in the form. -/
def fits (inRun : Bool) : Form → Sight → A → Bool
  | .seq first second, S, a =>
    fits inRun first S a &&
      fits inRun second (w.after first S).either (acc.either (acc.after w first S a))
  | .cond test yes no, S, a =>
    fits inRun test S a &&
      fits inRun yes (w.after test S).yes (acc.after w test S a).yes &&
      fits inRun no (w.after test S).no (acc.after w test S a).no
  | .loop test body, S, a =>
    let T := w.round test body S
    let b := acc.round (acc.again w test body T) a
    fits inRun test T b && fits inRun body (w.after test T).yes (acc.after w test T b).yes &&
      acc.within (acc.again w test body T b) b
  | .node kind body, S, _ =>
    let o := acc.after w body S acc.empty
    acc.mayBe kind o.yes && acc.mayBe kind o.no && fits true body S acc.empty
  | .mark body, S, _ => fits true body S acc.empty
  | .wrap kind body, S, a =>
    let o := acc.after w body S a
    inRun && acc.mayBe kind o.yes && acc.mayBe kind o.no && fits true body S a
  | .enclosed _ body, S, a => fits inRun body (w.taken S) (acc.append a (acc.word S.down))
  | .answer _, _, _ | .next _, _, _ | .nextTwo _ _, _, _ | .take, _, _ | .complain _, _, _
  | .complainOfToken, _, _ | .call _, _, _ => true

/-- Whether the form of a phrase builds what is told of the phrase, and every node in
it may be made of its parts. -/
def fitsPhrase (p : Phrase) : Bool :=
  acc.fits w false p.form ⟨p.startsOn, .none⟩ acc.empty &&
    acc.within (acc.either (acc.after w p.form ⟨p.startsOn, .none⟩ acc.empty)) (acc.phrase p)

end Account

/-! ## What is told holds -/

/-- What is known of the next token of readings that end in a `good` point, when no
flag is watched. -/
structure Watch.Sees (w : Watch) (env : Surroundings) (good : Progress → Prop) : Prop where
  back : ∀ {s s'}, Progress.Follows s s' → good s' → good s
  fault : ∀ {S s f}, good (Progress.record s f) → S.has false s.current = true →
    (w.faulted S).has false s.current = true
  taken : ∀ {S s}, S.has false (Progress.current s) = true →
    (w.taken S).has false s.take.current = true
  call : ∀ {p S}, w.mayCall p S = true → S.within ⟨p.startsOn, p.startsOn⟩ = true
  sighted : ∀ {f S s b s'}, Form.Reads env (Phrase.Reads env) f s b s' → good s' →
    w.fits true f S = true → S.has false s.current = true →
      ((w.after f S).of b).has false s'.current = true

/-- What makes accounts of parts true, if `Tells` says what an account tells; every
node that may be made is as `P` says. -/
structure Account.Sound {A : Type} (acc : Account A) (Tells : A → List Tree → Prop)
    (P : Kind → List Tree → Prop) : Prop where
  empty : Tells acc.empty []
  append : ∀ {a b ts us}, Tells a ts → Tells b us → Tells (acc.append a b) (ts ++ us)
  trivia : ∀ {a ts} (ks : List Token), Tells a ts → (∀ k ∈ ks, k.isTrivia = true) →
    Tells a (ts ++ ks.map .leaf)
  left : ∀ {a b ts}, Tells a ts → Tells (acc.union a b) ts
  right : ∀ {a b ts}, Tells b ts → Tells (acc.union a b) ts
  within : ∀ {a b ts}, acc.within a b = true → Tells a ts → Tells b ts
  word : ∀ {K k}, K.has (Token.kind k) = true → k.isTrivia = false → Tells (acc.word K) [.leaf k]
  noWord : ∀ {K}, K.has .endOfFile = true → Tells (acc.word K) []
  node : ∀ {kind a ts}, acc.mayBe kind a = true → Tells a ts →
    P kind ts ∧ Tells (acc.node kind a) [.node kind ts]

section Told

variable {A : Type} {acc : Account A} {Tells : A → List Tree → Prop} {P : Kind → List Tree → Prop}
  {w : Watch} {env : Surroundings} {good : Progress → Prop} {a b : A} {s s' : Progress}
  {base : List Tree} {S : Sight}

namespace Progress

/-- Since `base` was built, parts have been built that the account tells of. -/
structure Told (Tells : A → List Tree → Prop) (P : Kind → List Tree → Prop) (base : List Tree)
    (a : A) (s : Progress) : Prop where
  built : ∃ new, s.built = new ++ base ∧ Tells a new.reverse ∧ ∀ t ∈ new, t.Each P
  sorted : s.Sorted

theorem Told.imp (h : s.Told Tells P base a) (hab : ∀ ts, Tells a ts → Tells b ts) :
    s.Told Tells P base b := by
  obtain ⟨⟨new, hnew, htells, heach⟩, hsorted⟩ := h
  exact ⟨⟨new, hnew, hab _ htells, heach⟩, hsorted⟩

theorem Told.record (h : s.Told Tells P base a) (f : Fault) : (s.record f).Told Tells P base a := by
  refine ⟨by rw [built_record]; exact h.built, ?_, by rw [rest_record]; exact h.sorted.rest⟩
  unfold Progress.record
  split <;> exact h.sorted.pending

theorem Told.complain (h : s.Told Tells P base a) (cause : Fault.Cause) :
    (s.complain env cause).Told Tells P base a := by
  obtain ⟨f, hf⟩ := exists_complain_eq env cause s
  rw [hf]
  exact h.record f

variable (hacc : acc.Sound Tells P)

include hacc

theorem told_here (hs : s.Sorted) : s.Told Tells P s.built acc.empty :=
  ⟨⟨[], rfl, hacc.empty, by simp⟩, hs⟩

theorem Told.flush (h : s.Told Tells P base a) : s.flush.Told Tells P base a := by
  obtain ⟨⟨new, hnew, htells, heach⟩, hsorted⟩ := h
  refine ⟨⟨(s.pending.map Tree.leaf).reverse ++ new, by simp [Progress.flush, hnew], ?_, ?_⟩,
    ⟨by simp [Progress.flush], hsorted.rest⟩⟩
  · rw [List.reverse_append, List.reverse_reverse]
    exact hacc.trivia _ htells hsorted.pending
  · intro t ht
    rcases List.mem_append.1 ht with ht | ht
    · obtain ⟨k, -, rfl⟩ := List.mem_map.1 (List.mem_reverse.1 ht)
      exact Tree.each_leaf k
    · exact heach t ht

theorem told_inside (hs : s.Sorted) : s.inside.Told Tells P [] acc.empty :=
  ⟨⟨[], rfl, hacc.empty, by simp⟩, ⟨by simp [Progress.inside, Progress.flush], hs.rest⟩⟩

/-- Parts that stand behind those that were there. -/
theorem Told.concat (h : s.Told Tells P base a) (parts : List Tree) (hp : Tells b parts.reverse)
    (heach : ∀ t ∈ parts, t.Each P) (hs : s'.Sorted) (hb : s'.built = parts ++ s.built) :
    s'.Told Tells P base (acc.append a b) := by
  obtain ⟨⟨new, hnew, htells, hnews⟩, -⟩ := h
  refine ⟨⟨parts ++ new, by rw [hb, hnew, List.append_assoc], ?_,
    List.forall_mem_append.2 ⟨heach, hnews⟩⟩, hs⟩
  rw [List.reverse_append]
  exact hacc.append htells hp

theorem Told.take (h : s.Told Tells P base a) {K : KindSet} (hk : K.has s.current = true) :
    s.take.Told Tells P base (acc.append a (acc.word K)) := by
  have hsorted := h.sorted.take
  cases hr : s.rest with
  | nil =>
    rw [take_of_nil hr] at hsorted ⊢
    refine (h.flush hacc).concat hacc [] (hacc.noWord ?_) (by simp) hsorted rfl
    simpa [current, hr] using hk
  | cons l ls =>
    have hl := (h.sorted.rest l (by simp [hr])).1
    refine (h.flush hacc).concat hacc [.leaf l.token] ?_ (by simp) hsorted ?_
    · exact hacc.word (by simpa [current, hr] using hk) hl
    · rw [take_of_cons hr]; rfl

theorem Told.rejoin (h : s.Told Tells P base a) (parts : List Tree) (hp : Tells b parts.reverse)
    (heach : ∀ t ∈ parts, t.Each P) (hs : s'.Sorted) :
    (s.rejoin s' parts).Told Tells P base (acc.append a b) :=
  (h.flush hacc).concat hacc parts hp heach ⟨hs.pending, hs.rest⟩ rfl

end Progress

open Progress

/-- What it means that a phrase builds what is told of it. -/
def Phrase.BuildsTold (acc : Account A) (Tells : A → List Tree → Prop)
    (P : Kind → List Tree → Prop) (good : Progress → Prop) (p : Phrase) (s : Progress) (_ : Bool)
    (s' : Progress) : Prop :=
  p.startsOn.has s.current = true → good s' → ∀ base a, s.Told Tells P base a →
    s'.Told Tells P base (acc.append a (acc.phrase p))

theorem Account.Sound.either (hacc : acc.Sound Tells P) {o : Report A} {answer : Bool}
    {ts : List Tree} (h : Tells (o.of answer) ts) : Tells (acc.either o) ts := by
  cases answer with
  | false => exact hacc.right h
  | true => exact hacc.left h

theorem Account.given_of_has {k : Kind} (h : S.has false k = true) : acc.given S a = a := by
  simp [Account.given, Sight.isEmpty_of_has h]

/-- What is told after a form holds of every reading of it that ends well, if it does of
the phrases. The induction is on the form; a loop has an account of its own, of what
is built before each of its steps. -/
theorem Form.Reads.told (hacc : acc.Sound Tells P) (hw : w.Sees env good) {f : Form} {c inRun : Bool}
    (h : Form.Reads env (fun q s b s' => Phrase.Reads env q s b s' ∧
      q.BuildsTold acc Tells P good s b s') f s c s')
    (hg : good s') (hrun : inRun = true → base = []) (hf : w.fits true f S = true)
    (ha : acc.fits w inRun f S a = true) (hk : S.has false s.current = true)
    (hs : s.Told Tells P base a) : s'.Told Tells P base ((acc.after w f S a).of c) := by
  have alone {f s c s'}
      (h : Form.Reads env (fun q s b s' => Phrase.Reads env q s b s' ∧
        q.BuildsTold acc Tells P good s b s') f s c s') :
      Form.Reads env (Phrase.Reads env) f s c s' :=
    h.imp fun _ _ _ _ hq => hq.1
  have follows {f s c s'}
      (h : Form.Reads env (fun q s b s' => Phrase.Reads env q s b s' ∧
        q.BuildsTold acc Tells P good s b s') f s c s') : Follows s s' :=
    (h.imp fun _ _ _ _ hq => hq.1.follows).follows
  induction f generalizing s c s' S inRun base a with
  | answer yes => cases h; cases yes <;> exact hs
  | next kinds =>
    cases h
    cases hc : kinds.contains s.current with
    | true =>
      have hS : (S.inter (.only kinds)).has false s.current = true := by simpa [hk] using hc
      exact hs.imp fun ts => by simp [Account.after, Report.of, Account.given_of_has hS]
    | false =>
      have hS : (S.inter (.allBut kinds)).has false s.current = true := by simpa [hk] using hc
      exact hs.imp fun ts => by simp [Account.after, Report.of, Account.given_of_has hS]
  | nextTwo first second =>
    cases h
    cases hc : s.current == first && s.following == second with
    | true =>
      have hS : (S.inter (.only [first])).has false s.current = true := by simp_all
      exact hs.imp fun ts => by simp [Account.after, Report.of, Account.given_of_has hS]
    | false => exact hs
  | take =>
    cases h
    exact hs.take hacc hk
  | complain | complainOfToken =>
    cases h
    obtain ⟨f, hrecord⟩ := exists_complain_eq env _ s
    have hS := hw.fault (hrecord ▸ hg) hk
    exact (hs.complain _).imp fun ts => by simp [Account.after, Report.of, Account.given_of_has hS]
  | seq first second ih₁ ih₂ =>
    simp only [Watch.fits, Account.fits, Bool.and_eq_true] at hf ha
    cases h with
    | seq h₁ h₂ =>
      have hg₁ := hw.back (follows h₂) hg
      have hk₁ := hw.sighted (alone h₁) hg₁ hf.1 hk
      exact ih₂ h₂ hg hrun hf.2 ha.2 (Outlook.has_either hk₁)
        ((ih₁ h₁ hg₁ hrun hf.1 ha.1 hk hs).imp fun _ => hacc.either)
  | cond test yes no ih iy ino =>
    simp only [Watch.fits, Account.fits, Bool.and_eq_true] at hf ha
    cases h with
    | condYes h₁ h₂ =>
      have hg₁ := hw.back (follows h₂) hg
      have hk₁ := hw.sighted (alone h₁) hg₁ hf.1.1 hk
      have := iy h₂ hg hrun hf.1.2 ha.1.2 hk₁ (ih h₁ hg₁ hrun hf.1.1 ha.1.1 hk hs)
      cases c <;> exact this.imp fun _ => hacc.left
    | condNo h₁ h₂ =>
      have hg₁ := hw.back (follows h₂) hg
      have hk₁ := hw.sighted (alone h₁) hg₁ hf.1.1 hk
      have := ino h₂ hg hrun hf.2 ha.2 hk₁ (ih h₁ hg₁ hrun hf.1.1 ha.1.1 hk hs)
      cases c <;> exact this.imp fun _ => hacc.right
  | loop test body iht ihb =>
    simp only [Watch.fits, Account.fits, Bool.and_eq_true] at hf ha
    obtain ⟨⟨ht, hb⟩, hback⟩ := hf
    obtain ⟨⟨hat, hab⟩, hwithin⟩ := ha
    have hfirst : (w.round test body S).has false s.current = true := by simp [Watch.round, hk]
    obtain ⟨rfl, s₀, ⟨hs₀, hk₀⟩, h₀⟩ := h.of_loop
      (P := fun s => s.Told Tells P base (acc.round (acc.again w test body (w.round test body S)) a) ∧
        (w.round test body S).has false s.current = true)
      ⟨hs.imp fun _ hts => hacc.left (hacc.left hts), hfirst⟩ fun hP h₁ h₂ h₃ => by
        have hg₂ := hw.back (follows h₃) hg
        have hg₁ := hw.back (follows h₂) hg₂
        have hk₁ := hw.sighted (alone h₁) hg₁ ht hP.2
        have hk₂ := hw.sighted (alone h₂) hg₂ hb hk₁
        have hstep := ihb h₂ hg₂ hrun hb hab hk₁ (iht h₁ hg₁ hrun ht hat hP.2 hP.1)
        exact ⟨hstep.imp fun _ hts => hacc.within hwithin (hacc.either hts),
          Sight.has_of_within hback (Outlook.has_either hk₂)⟩
    exact iht h₀ hg hrun ht hat hk₀ hs₀
  | call p =>
    cases h with
    | call h =>
      have hstart := Sight.has_of_within (hw.call hf) hk
      cases c <;> exact h.2 hstart hg base a hs
  | node kind body ih =>
    simp only [Watch.fits, Account.fits, Bool.and_eq_true] at hf ha
    cases h with
    | node h =>
      have hin := ih h (hw.back (follows_rejoin ..) hg) (fun _ => rfl) hf.2 ha.2 hk
        (told_inside hacc hs.sorted)
      obtain ⟨⟨new, hnew, htells, heach⟩, hsorted⟩ := hin
      rw [List.append_nil] at hnew
      have hmay : acc.mayBe kind ((acc.after w body S acc.empty).of c) = true := by
        cases c with
        | false => exact ha.1.2
        | true => exact ha.1.1
      obtain ⟨hP, hnode⟩ := hacc.node hmay htells
      have := hs.rejoin hacc [.node kind new.reverse] hnode
        (by simpa [Tree.each_node] using ⟨hP, heach⟩) hsorted
      rw [hnew]
      cases c <;> exact this
  | mark body ih =>
    simp only [Watch.fits, Account.fits] at hf ha
    cases h with
    | mark h =>
      have hin := ih h (hw.back (follows_rejoin ..) hg) (fun _ => rfl) hf ha hk
        (told_inside hacc hs.sorted)
      obtain ⟨⟨new, hnew, htells, heach⟩, hsorted⟩ := hin
      rw [List.append_nil] at hnew
      have := hs.rejoin hacc new htells heach hsorted
      rw [hnew]
      cases c <;> exact this
  | wrap kind body ih =>
    simp only [Watch.fits, Account.fits, Bool.and_eq_true] at hf ha
    cases h with
    | wrap h =>
      obtain rfl := hrun ha.1.1.1
      have hin := ih h (hw.back (follows_built ..) hg) (fun _ => rfl) hf.2 ha.2 hk hs
      obtain ⟨⟨new, hnew, htells, heach⟩, hsorted⟩ := hin
      rw [List.append_nil] at hnew
      have hmay : acc.mayBe kind ((acc.after w body S a).of c) = true := by
        cases c with
        | false => exact ha.1.2
        | true => exact ha.1.1.2
      obtain ⟨hP, hnode⟩ := hacc.node hmay htells
      refine ⟨⟨[.node kind new.reverse], by simp [hnew], ?_,
        by simpa [Tree.each_node] using ⟨hP, heach⟩⟩, ⟨hsorted.pending, hsorted.rest⟩⟩
      cases c <;> exact hnode
  | enclosed bracket body ih =>
    simp only [Watch.fits, Account.fits, Bool.and_eq_true] at hf ha
    cases h with
    | enclosed h =>
      rename_i s₁
      have hg₁ := hw.back (follows_close ..) hg
      have hk₁ := hw.taken hk
      have hin := (ih h hg₁ hrun hf.1.2 ha hk₁ (hs.take hacc hk)).imp fun _ => hacc.either
      have hout := Outlook.has_either (hw.sighted (alone h) hg₁ hf.1.2 hk₁)
      by_cases hb : s₁.current = bracket
      · have hclosed := hin.take hacc (K := .only [bracket]) (by simp [hb])
        rw [Progress.close, if_pos hb]
        cases c <;> exact hclosed.imp fun _ => hacc.left
      · obtain ⟨f, hclose⟩ := exists_close_eq env (s.offset env) hb
        rw [hclose] at hg ⊢
        have hmissed := hw.fault hg (S := ((w.after body (w.taken S)).either).inter (.allBut [bracket]))
          (by simp [hout, hb])
        have hleft := (hin.record f).imp (b := acc.given _ _) fun ts => by
          rw [Account.given_of_has hmissed]; exact id
        cases c <;> exact hleft.imp fun _ => hacc.right

/-- What a phrase builds is what is told of it, if the form of each phrase builds that. -/
theorem Phrase.Reads.told (hacc : acc.Sound Tells P) (hw : w.Sees env good)
    (hfits : ∀ p : Phrase, w.fits true p.form ⟨p.startsOn, .none⟩ = true)
    (hall : ∀ p : Phrase, acc.fitsPhrase w p = true) {p : Phrase} {c : Bool}
    (h : Phrase.Reads env p s c s') : p.BuildsTold acc Tells P good s c s' := by
  refine h.induct (Phrase.BuildsTold acc Tells P good) fun p s c s' h hk hg base a hs => ?_
  have hp := hall p
  simp only [Account.fitsPhrase, Bool.and_eq_true] at hp
  have hown := h.told hacc hw hg (by simp) (hfits p) hp.1 hk (told_here hacc hs.sorted)
  obtain ⟨⟨new, hnew, htells, heach⟩, hsorted⟩ := hown
  exact hs.concat hacc new (hacc.within hp.2 (hacc.either htells)) heach hsorted hnew

/-- What is told of a program is told of the parts of the tree of a text, if its reading
ends well, and the nodes in them are as `P` says. -/
theorem Account.Sound.told_parse (hacc : acc.Sound Tells P) (hw : ∀ env, w.Sees env good)
    (hfits : ∀ p : Phrase, w.fits true p.form ⟨p.startsOn, .none⟩ = true)
    (hall : ∀ p : Phrase, acc.fitsPhrase w p = true) {t : Text}
    (hgood : ∀ s : Progress, (parse t).faults = s.faults.reverse → good s) :
    ∃ ts, (parse t).tree = .node .sourceFile ts ∧
      Tells (acc.append acc.empty (acc.phrase .program)) ts ∧ ∀ u ∈ ts, u.Each P := by
  obtain ⟨c, s, hreads, hrest, -, htree, hfaults⟩ := exists_reading t
  have hstart : (Progress.start (layout t).tokens (layout t).faults).Told Tells P [] acc.empty :=
    told_here hacc (sorted_start ..)
  obtain ⟨⟨new, hnew, htells, heach⟩, hsorted⟩ :=
    hreads.told hacc (hw _) hfits hall rfl (hgood s hfaults) [] _ hstart
  rw [List.append_nil] at hnew
  have hparts := hacc.trivia (s.pending ++ Lexeme.tokens s.rest) htells fun k hk =>
    hsorted.pending k (by simpa [hrest] using hk)
  refine ⟨_, by rw [htree, Progress.root, hnew], hparts, fun t ht => ?_⟩
  rcases List.mem_append.1 ht with ht | ht
  · exact heach t (List.mem_reverse.1 ht)
  · obtain ⟨k, -, rfl⟩ := List.mem_map.1 ht
    exact Tree.each_leaf k

/-- The nodes of the tree of a text are as `P` says, if its reading ends well. -/
theorem Account.Sound.each_parse (hacc : acc.Sound Tells P) (hw : ∀ env, w.Sees env good)
    (hfits : ∀ p : Phrase, w.fits true p.form ⟨p.startsOn, .none⟩ = true)
    (hall : ∀ p : Phrase, acc.fitsPhrase w p = true)
    (hroot : acc.mayBe .sourceFile (acc.append acc.empty (acc.phrase .program)) = true) {t : Text}
    (hgood : ∀ s : Progress, (parse t).faults = s.faults.reverse → good s) :
    (parse t).tree.Each P := by
  obtain ⟨ts, htree, htells, heach⟩ := hacc.told_parse hw hfits hall hgood
  rw [htree, Tree.each_node]
  exact ⟨(hacc.node hroot htells).1, heach⟩

end Told

/-! ## Two watches -/

/-- Watches the kinds that tests leave open, whether or not a fault is found. -/
def Watch.lenient : Watch := { Watch.faultless with faulted := id }

theorem Phrase.lenient_fits (p : Phrase) :
    Watch.lenient.fits true p.form ⟨p.startsOn, .none⟩ = true := by
  revert p
  decide +kernel

theorem Watch.lenient_sound (env : Surroundings) :
    Watch.lenient.Sound env (fun _ _ _ _ => True) (fun _ => True)
      (fun (_ : Unit) flag _ => flag = false) id where
  back _ _ := trivial
  take := by
    intro _ S s _ ⟨flag, hflag, hk⟩
    exact ⟨flag, hflag, Sight.has_onward hk⟩
  fault := by
    intro _ S s f _ ⟨flag, hflag, hk⟩
    exact ⟨flag, hflag, by rw [Progress.current_record]; exact hk⟩
  call := by
    intro _ S p s b s' _ _ _ _ ⟨flag, hflag, hk⟩
    exact ⟨flag, hflag, Sight.has_onward hk⟩
  inside h := h
  node _ _ _ h := h
  mark _ h := h
  wrap _ h := h

theorem Watch.lenient_sees (env : Surroundings) : Watch.lenient.Sees env fun _ => True where
  back _ _ := trivial
  fault _ hk := hk
  taken hk := Sight.has_onward hk
  call h := h
  sighted h _ hf hk := by
    obtain ⟨flag, rfl, hk⟩ := (Watch.lenient_sound env).holds
      (h.imp fun _ _ _ _ hq => ⟨hq, trivial⟩) trivial (fun _ => ⟨(), rfl⟩) hf ⟨false, rfl, hk⟩
    exact hk

theorem Watch.faultless_sees (env : Surroundings) :
    Watch.faultless.Sees env fun s => s.faults = [] where
  back h hg := List.suffix_nil.1 (hg ▸ h.faults)
  fault hg _ := absurd hg (Progress.faults_record_ne _ _)
  taken hk := Sight.has_onward hk
  call h := h
  sighted h hg hf hk := h.sighted hg hf hk

section Programs

variable {A : Type} {acc : Account A} {Tells : A → List Tree → Prop} {P : Kind → List Tree → Prop}

/-- What is told of a program is told of the parts of the tree of a program, and the nodes in
them are as `P` says. -/
theorem Account.Sound.told_of_ok (hacc : acc.Sound Tells P)
    (hall : ∀ p : Phrase, acc.fitsPhrase Watch.faultless p = true) {t : Text}
    (h : (parse t).ok = true) : ∃ ts, (parse t).tree = .node .sourceFile ts ∧
      Tells (acc.append acc.empty (acc.phrase .program)) ts ∧ ∀ u ∈ ts, u.Each P :=
  hacc.told_parse Watch.faultless_sees (fun p => p.faultless_fits) hall
    fun s hfaults => by simpa [Parse.ok, hfaults] using h

/-- The nodes of the tree of a program are as `P` says. -/
theorem Account.Sound.each_of_ok (hacc : acc.Sound Tells P)
    (hall : ∀ p : Phrase, acc.fitsPhrase Watch.faultless p = true)
    (hroot : acc.mayBe .sourceFile (acc.append acc.empty (acc.phrase .program)) = true) {t : Text}
    (h : (parse t).ok = true) : (parse t).tree.Each P :=
  hacc.each_parse Watch.faultless_sees (fun p => p.faultless_fits) hall hroot
    fun s hfaults => by simpa [Parse.ok, hfaults] using h

end Programs

end SceneGate
