/-
Two readings side by side. The grammar looks at kinds of tokens only, so two
readings of tokens of the same kinds take the same steps. Where one finds a name
and the other a string they may go different ways; but then one of them is
stranded, and ends with a fault (`Fate`), unless the name and the string are
operands, which are the same but for the node that they become.

As for a watch, what can come of two readings is computed from the forms
(`Form.fate`), and what is computed holds (`Form.Reads.fated`).
-/
import SceneGate.Proofs.Twins

namespace SceneGate

/-- What is known where two readings stand: the kinds that the next tokens may be
of if they are of the same kind, and whether they may be a name and a string. -/
structure Pair where
  kinds : KindSet
  quoted : Bool
deriving DecidableEq, Repr

namespace Pair

/-- A point that two readings never reach together. -/
def nothing : Pair := ⟨.none, false⟩

/-- A point of which nothing is known. -/
def anything : Pair := ⟨.all, true⟩

/-- Whether the point is seen never to be reached. -/
def isEmpty (P : Pair) : Bool := P.kinds.isEmpty && !P.quoted

/-- What is known at a point that is reached in two ways. -/
def union (P Q : Pair) : Pair := ⟨P.kinds.union Q.kinds, P.quoted || Q.quoted⟩

/-- Nothing is known, if the point is reached at all. -/
def onward (P : Pair) : Pair := if P.isEmpty then .nothing else .anything

/-- The two readings are at such a point. -/
def Covers (P : Pair) (s u : Progress) : Prop :=
  s.current = u.current ∧ P.kinds.has s.current = true ∨
    P.quoted = true ∧ s.current = .ident ∧ u.current = .string

end Pair

/-- What can come of two readings of a form: they go on together, after a yes or a
no; or one of them is stranded before a token of certain kinds; or only one of
them says yes, and neither has taken anything. -/
structure Fate where
  /-- Whether nothing else can come of them. -/
  ok : Bool
  yes : Pair := .nothing
  no : Pair := .nothing
  /-- The kinds before which the first reading is stranded. -/
  first : KindSet := .none
  /-- The kinds before which the second reading is stranded. -/
  second : KindSet := .none
  /-- If only the first reading can say yes, what the second has next, and what
  stands behind that, as far as it is known. -/
  onlyFirst : Option (Kind × Option Kind) := none
  /-- Whether only the second reading can say yes, before a name and a string. -/
  onlySecond : Bool := false
deriving Repr

namespace Fate

/-- What is known if both go on together after an answer. -/
def of (F : Fate) (answer : Bool) : Pair := bif answer then F.yes else F.no

/-- Whether both readings answer the same, unless one is stranded. -/
def agrees (F : Fate) : Bool := F.onlyFirst.isNone && !F.onlySecond

/-- What the second reading has next when only the first says yes. -/
def apart (F : Fate) : Sight :=
  match F.onlyFirst with
  | some (ahead, _) => ⟨.only [ahead], .none⟩
  | none => .nothing

/-- What stands behind that. -/
def behind (F : Fate) : Option Kind := F.onlyFirst.bind Prod.snd

/-- Two readings have ended as foreseen. -/
inductive Fulfilled (M : Token → Token → Prop) (F : Fate) :
    Progress → Bool → Progress → Bool → Prop
  | together {s u : Progress} {b : Bool} : s.Twin M u → (F.of b).Covers s u →
      Fulfilled M F s b u b
  | first {s u : Progress} {a b : Bool} : F.first.has s.current = true → Fulfilled M F s a u b
  | second {s u : Progress} {a b : Bool} : F.second.has u.current = true → Fulfilled M F s a u b
  | onlyFirst {s u : Progress} {ahead : Kind} {behind : Option Kind} : s.Twin M u →
      F.onlyFirst = some (ahead, behind) → u.current = ahead →
      (∀ k ∈ behind, u.following = k) → Fulfilled M F s true u false
  | onlySecond {s u : Progress} : F.onlySecond = true → s.current = .ident →
      Fulfilled M F s false u true

end Fate

namespace Phrase

/-- Phrases that end with an operand, or may do so. -/
def endsInOperand : Phrase → Bool
  | .smallStatement | .expressionStatement | .assignedValue | .withItem | .parameter _
  | .starExpressions | .starExpression | .starTargets | .starTarget | .starNamed | .starred
  | .yieldExpression | .lambda | .bracedItems | .dictItem | .setItem | .forClause
  | .argumentsFrom _ | .slices | .sliceItem => true
  | p => p.isOperand

/-- Before which kinds the first of two readings is stranded after a phrase. A name
is an operand by itself, so what goes on in a string stands behind it. -/
def strandsFirst (p : Phrase) : KindSet := if p.endsInOperand then .only [.ident, .string] else .none

/-- Before which kinds the second of two readings is stranded after a phrase. A
string does not go on as a path or with `=` or `:=`. -/
def strandsSecond : Phrase → KindSet
  | .dottedName | .importAlias | .smallStatement => .only [.dot, .string]
  | .parameter _ => .only [.string]
  | .namedExpression | .starNamed | .bracedItems | .dictItem | .setItem | .slices
  | .sliceItem => .only [.colonEq]
  | .argumentsFrom _ => .only [.eq, .colonEq]
  | _ => .none

end Phrase

namespace Form

/-- The fate of two readings of a form where `P` is known. Once one of them is
stranded it is followed alone. -/
def fate : Form → Pair → Fate
  | .answer true, P => { ok := true, yes := P }
  | .answer false, P => { ok := true, no := P }
  | .next kinds, P =>
    let name := kinds.contains .ident
    let string := kinds.contains .string
    { ok := true
      yes := ⟨P.kinds.inter (.only kinds), P.quoted && name && string⟩
      no := ⟨P.kinds.inter (.allBut kinds), P.quoted && !name && !string⟩
      onlyFirst := if P.quoted && name && !string then some (.string, none) else none
      onlySecond := P.quoted && !name && string }
  | .nextTwo a b, P =>
    { ok := a != .string && b != .string && !(a == .ident && b == .ident)
      yes := ⟨P.kinds.inter (.only [a]), false⟩
      no := P
      onlyFirst :=
        if P.quoted && a == .ident then some (.string, some b)
        else if P.kinds.has a && b == .ident then some (a, some .string)
        else none }
  | .take, P => { ok := true, yes := P.onward }
  | .complain _, _ | .complainOfToken, _ => { ok := true }
  | .seq f g, P =>
    let F := fate f P
    let G := fate g (F.yes.union F.no)
    { G with
      ok := F.ok && G.ok && F.agrees && g.isStranded none ⟨.none, F.first⟩ &&
        g.isStranded none ⟨.none, F.second⟩
      first := G.first.union (g.strands none ⟨.none, F.first⟩)
      second := G.second.union (g.strands none ⟨.none, F.second⟩) }
  | .cond test f g, P =>
    let T := fate test P
    let F := fate f T.yes
    let G := fate g T.no
    { ok := T.ok && F.ok && G.ok && !T.onlySecond && F.agrees && G.agrees &&
        f.isStranded none ⟨.none, T.first⟩ && g.isStranded none ⟨.none, T.first⟩ &&
        f.isStranded none ⟨.none, T.second⟩ && g.isStranded none ⟨.none, T.second⟩ &&
        g.isStranded T.behind T.apart
      yes := F.yes.union G.yes
      no := F.no.union G.no
      first := ((F.first.union G.first).union (f.strands none ⟨.none, T.first⟩)).union
        (g.strands none ⟨.none, T.first⟩)
      second := (((F.second.union G.second).union (f.strands none ⟨.none, T.second⟩)).union
        (g.strands none ⟨.none, T.second⟩)).union (g.strands T.behind T.apart) }
  | .loop test body, P =>
    let T := fate test P.onward
    let B := fate body T.yes
    { ok := T.ok && B.ok && T.first.isEmpty && T.second.isEmpty && B.agrees &&
        (loop test body).isStranded none ⟨.none, B.first⟩ &&
        (loop test body).isStranded none ⟨.none, B.second⟩
      no := T.no
      first := ((loop test body).strands none ⟨.none, B.first⟩).union
        (if T.onlySecond then .only [.ident] else .none)
      second := ((loop test body).strands none ⟨.none, B.second⟩).union
        (.only (T.onlyFirst.map Prod.fst).toList) }
  | .call p, P =>
    if P.isEmpty then { ok := true }
    else
      { ok := true, yes := .anything, no := .anything
        first := p.strandsFirst, second := p.strandsSecond }
  | .node _ body, P | .mark body, P | .wrap _ body, P => fate body P
  | .enclosed bracket body, P =>
    let F := fate body P.onward
    { ok := F.ok && F.agrees && !F.first.has bracket && !F.second.has bracket &&
        bracket != .ident && bracket != .string
      yes := F.yes.onward
      no := F.no.onward }

end Form

/-! ## What is foreseen happens -/

section Fated

variable {M : Token → Token → Prop} {env env' : Surroundings} {P Q : Pair} {F G : Fate}
  {s u s' u' : Progress} {a b : Bool}

namespace Pair

theorem Covers.left (h : P.Covers s u) : (P.union Q).Covers s u := by
  rcases h with ⟨hc, hk⟩ | ⟨hq, hs, hu⟩
  · exact .inl ⟨hc, by simp [union, hk]⟩
  · exact .inr ⟨by simp [union, hq], hs, hu⟩

theorem Covers.right (h : Q.Covers s u) : (P.union Q).Covers s u := by
  rcases h with ⟨hc, hk⟩ | ⟨hq, hs, hu⟩
  · exact .inl ⟨hc, by simp [union, hk]⟩
  · exact .inr ⟨by simp [union, hq], hs, hu⟩

theorem Covers.isEmpty (h : P.Covers s u) : P.isEmpty = false := by
  rcases h with ⟨-, hk⟩ | ⟨hq, -⟩
  · simp [Pair.isEmpty, KindSet.isEmpty_of_has hk]
  · simp [Pair.isEmpty, hq]

theorem Covers.onward (h : P.Covers s u) : P.onward = .anything := by
  simp [Pair.onward, h.isEmpty]

theorem covers_anything (hM : ∀ {k l}, M k l → k.kind.Twin l.kind) (h : s.Twin M u) :
    Pair.anything.Covers s u := by
  rcases h.current hM with hc | ⟨hs, hu⟩
  · exact .inl ⟨hc, rfl⟩
  · exact .inr ⟨rfl, hs, hu⟩

end Pair

namespace Fate

theorem of_agrees (h : F.agrees = true) : F.onlyFirst = none ∧ F.onlySecond = false := by
  simpa [agrees] using h

theorem Fulfilled.imp (h : F.Fulfilled M s b u a)
    (hyes : ∀ s u, F.yes.Covers s u → G.yes.Covers s u)
    (hno : ∀ s u, F.no.Covers s u → G.no.Covers s u)
    (hfirst : ∀ k, F.first.has k = true → G.first.has k = true)
    (hsecond : ∀ k, F.second.has k = true → G.second.has k = true)
    (honly : F.agrees = true ∨ F.onlyFirst = G.onlyFirst ∧ F.onlySecond = G.onlySecond) :
    G.Fulfilled M s b u a := by
  cases h with
  | together ht hc =>
    refine .together ht ?_
    cases a with
    | false => exact hno _ _ hc
    | true => exact hyes _ _ hc
  | first hk => exact .first (hfirst _ hk)
  | second hk => exact .second (hsecond _ hk)
  | onlyFirst ht hf hahead hbehind =>
    rcases honly with hagree | ⟨heq, -⟩
    · rw [(of_agrees hagree).1] at hf; cases hf
    · exact .onlyFirst ht (heq ▸ hf) hahead hbehind
  | onlySecond hs hname =>
    rcases honly with hagree | ⟨-, heq⟩
    · rw [(of_agrees hagree).2] at hs; cases hs
    · exact .onlySecond (heq ▸ hs) hname

/-- What is built around two readings changes nothing about them. -/
theorem Fulfilled.around (h : F.Fulfilled M s b u a) (ht : s.Twin M u → s'.Twin M u')
    (hs : s'.current = s.current) (hu : u'.current = u.current)
    (hbehind : u'.following = u.following) : F.Fulfilled M s' b u' a := by
  cases h with
  | together htwin hc => exact .together (ht htwin) (by unfold Pair.Covers; rw [hs, hu]; exact hc)
  | first hk => exact .first (hs ▸ hk)
  | second hk => exact .second (hu ▸ hk)
  | onlyFirst htwin hf hahead hk =>
    exact .onlyFirst (ht htwin) hf (hu.trans hahead) fun j hj => hbehind.trans (hk j hj)
  | onlySecond hf hname => exact .onlySecond hf (hs.trans hname)

end Fate

/-- What is said of a phrase comes of two readings of it. -/
def Phrase.Fated (M : Token → Token → Prop) (env' : Surroundings) (p : Phrase) (s : Progress)
    (b : Bool) (s' : Progress) : Prop :=
  ∀ {u a u'}, Phrase.Reads env' p u a u' → s.Twin M u → s'.faults = [] → u'.faults = [] →
    Fate.Fulfilled M
      { ok := true, yes := .anything, no := .anything
        first := p.strandsFirst, second := p.strandsSecond } s' b u' a

/-- The readings that side by side are looked at: of the first it is known of every
phrase in a form what comes of it together with a reading of the second. -/
abbrev FirstCalls (M : Token → Token → Prop) (env env' : Surroundings) (p : Phrase) (s : Progress)
    (b : Bool) (s' : Progress) : Prop :=
  Phrase.Reads env p s b s' ∧ p.Fated M env' s b s'

/-- Once a reading is stranded it stays so. -/
theorem Form.Reads.stays_stranded {f : Form} {K : KindSet}
    (h : Form.Reads env (Phrase.Reads env) f s b s') (hg : s'.faults = [])
    (hf : f.isStranded none ⟨.none, K⟩ = true) (hk : K.has s.current = true) :
    (f.strands none ⟨.none, K⟩).has s'.current = true :=
  h.strands hg hf ⟨true, fun hp => absurd hp (by simp), hk⟩

/-- What is computed of a form comes of two readings of it. -/
def Form.Fated (M : Token → Token → Prop) (env env' : Surroundings) (f : Form) : Prop :=
  ∀ {P : Pair} {s u : Progress} {b : Bool} {s' : Progress} {a : Bool} {u' : Progress},
    Form.Reads env (FirstCalls M env env') f s b s' →
    Form.Reads env' (Phrase.Reads env') f u a u' → s'.faults = [] → u'.faults = [] →
    (f.fate P).ok = true → s.Twin M u → P.Covers s u →
    (f.fate P).Fulfilled M s' b u' a

-- From here on `simp` opens what is computed of a form.
attribute [local simp] Form.fate

theorem Form.Reads.alone {f : Form} (h : Form.Reads env (FirstCalls M env env') f s b s') :
    Form.Reads env (Phrase.Reads env) f s b s' :=
  h.imp fun _ _ _ _ hq => hq.1

theorem Form.fated_seq {f g : Form} (hf : f.Fated M env env') (hg : g.Fated M env env') :
    (f.seq g).Fated M env env' := by
  intro P s u b s' a u' h h' hs hu hok ht hP
  obtain ⟨c, s₀, hs₁, hs₂⟩ := h.of_seq
  obtain ⟨d, u₀, hu₁, hu₂⟩ := h'.of_seq
  simp only [fate, Bool.and_eq_true] at hok
  obtain ⟨⟨⟨⟨hokf, hokg⟩, hagree⟩, hfirst⟩, hsecond⟩ := hok
  cases hf hs₁ hu₁ (hs₂.alone.faults_eq hs) (hu₂.faults_eq hu) hokf ht hP with
  | together ht' hP' =>
    have hP' : ((f.fate P).yes.union (f.fate P).no).Covers s₀ u₀ := by
      cases c with
      | false => exact hP'.right
      | true => exact hP'.left
    refine (hg hs₂ hu₂ hs hu hokg ht' hP').imp (fun _ _ h => h) (fun _ _ h => h) ?_ ?_
      (.inr ⟨rfl, rfl⟩)
    · intro k hk; simp [hk]
    · intro k hk; simp [hk]
  | first hk => exact .first (by simp [hs₂.alone.stays_stranded hs hfirst hk])
  | second hk => exact .second (by simp [hu₂.stays_stranded hu hsecond hk])
  | onlyFirst _ honly => rw [(Fate.of_agrees hagree).1] at honly; cases honly
  | onlySecond honly => rw [(Fate.of_agrees hagree).2] at honly; cases honly

theorem Form.fated_cond {test f g : Form} (htest : test.Fated M env env')
    (hf : f.Fated M env env') (hg : g.Fated M env env') :
    (test.cond f g).Fated M env env' := by
  intro P s u b s' a u' h h' hs hu hok ht hP
  obtain ⟨c, s₀, hs₁, hs₂⟩ := h.of_cond
  obtain ⟨d, u₀, hu₁, hu₂⟩ := h'.of_cond
  have hs₀ : s₀.faults = [] := by cases c <;> exact hs₂.alone.faults_eq hs
  have hu₀ : u₀.faults = [] := by cases d <;> exact hu₂.faults_eq hu
  simp only [fate, Bool.and_eq_true, Bool.not_eq_true'] at hok
  obtain ⟨⟨⟨⟨⟨⟨⟨⟨⟨⟨hokt, hokf⟩, hokg⟩, honly⟩, hagreef⟩, hagreeg⟩, hff⟩, hgf⟩, hfs⟩, hgs⟩, hapart⟩ :=
    hok
  cases htest hs₁ hu₁ hs₀ hu₀ hokt ht hP with
  | together ht' hP' =>
    cases c with
    | true =>
      refine (hf hs₂ hu₂ hs hu hokf ht' hP').imp (fun _ _ h => h.left) (fun _ _ h => h.left) ?_ ?_
        (.inl hagreef)
      · intro k hk; simp [hk]
      · intro k hk; simp [hk]
    | false =>
      refine (hg hs₂ hu₂ hs hu hokg ht' hP').imp (fun _ _ h => h.right) (fun _ _ h => h.right) ?_ ?_
        (.inl hagreeg)
      · intro k hk; simp [hk]
      · intro k hk; simp [hk]
  | first hk =>
    refine .first ?_
    cases c with
    | true =>
      have hend := Form.Reads.stays_stranded (f := f) hs₂.alone hs hff hk
      simp [hend]
    | false =>
      have hend := Form.Reads.stays_stranded (f := g) hs₂.alone hs hgf hk
      simp [hend]
  | second hk =>
    refine .second ?_
    cases d with
    | true =>
      have hend := Form.Reads.stays_stranded (f := f) hu₂ hu hfs hk
      simp [hend]
    | false =>
      have hend := Form.Reads.stays_stranded (f := g) hu₂ hu hgs hk
      simp [hend]
  | onlyFirst _ hapart' hahead hbehind =>
    -- the second reading goes on with what it has next
    refine .second ?_
    have hstart : Progress.Holds (Known (test.fate P).behind) () (test.fate P).apart u₀ := by
      refine ⟨false, fun _ => ?_, ?_⟩
      · simpa [Fate.behind, hapart'] using hbehind
      · simp [Fate.apart, hapart', Sight.has, hahead]
    have hend := Form.Reads.strands (f := g) hu₂ hu hapart hstart
    simp [hend]
  | onlySecond honly' => rw [honly] at honly'; cases honly'

/-- A loop: as long as both readings are together at the test, nothing is known
there. -/
theorem Form.fated_loop {test body : Form} (htest : test.Fated M env env')
    (hbody : body.Fated M env env') (hM : ∀ {k l}, M k l → k.kind.Twin l.kind) :
    (test.loop body).Fated M env env' := by
  intro P s u b s' a u' h h' hs hu hok ht hP
  have honward : P.onward = .anything := hP.onward
  clear hP
  simp only [fate, honward, Bool.and_eq_true] at hok
  obtain ⟨⟨⟨⟨⟨⟨hokt, hokb⟩, hfirst⟩, hsecond⟩, hagree⟩, hstayf⟩, hstays⟩ := hok
  have hnofirst {k} : (test.fate .anything).first.has k = false := KindSet.not_has_of_isEmpty hfirst
  have hnosecond {k} : (test.fate .anything).second.has k = false :=
    KindSet.not_has_of_isEmpty hsecond
  generalize hl : Form.loop test body = l at h
  induction h generalizing u with
  | @loopEnd _ s b s' hs₁ =>
    cases hl
    cases h' with
    | loopEnd hu₁ =>
      cases htest hs₁ hu₁ hs hu hokt ht (Pair.covers_anything hM ht) with
      | together ht' hP' => exact .together ht' (by simpa [honward, Fate.of] using hP')
      | first hk => rw [hnofirst] at hk; cases hk
      | second hk => rw [hnosecond] at hk; cases hk
    | loopAgain hu₁ hu₂ hu₃ =>
      have hu₁' := hu₂.faults_eq (hu₃.faults_eq hu)
      cases htest hs₁ hu₁ hs hu₁' hokt ht (Pair.covers_anything hM ht) with
      | first hk => rw [hnofirst] at hk; cases hk
      | second hk => rw [hnosecond] at hk; cases hk
      | onlySecond honly hname => exact .first (by simp [honward, honly, hname])
  | @loopAgain test body s s₁ c s₂ b s' hs₁ hs₂ hs₃ _ _ ih =>
    cases hl
    have hs₂' := hs₃.alone.faults_eq hs
    have hs₁' := hs₂.alone.faults_eq hs₂'
    cases h' with
    | loopEnd hu₁ =>
      cases htest hs₁ hu₁ hs₁' hu hokt ht (Pair.covers_anything hM ht) with
      | first hk => rw [hnofirst] at hk; cases hk
      | second hk => rw [hnosecond] at hk; cases hk
      | onlyFirst _ honly hahead => exact .second (by simp [honward, honly, hahead])
    | loopAgain hu₁ hu₂ hu₃ =>
      have hu₂' := hu₃.faults_eq hu
      have hu₁' := hu₂.faults_eq hu₂'
      cases htest hs₁ hu₁ hs₁' hu₁' hokt ht (Pair.covers_anything hM ht) with
      | first hk => rw [hnofirst] at hk; cases hk
      | second hk => rw [hnosecond] at hk; cases hk
      | together ht' hP' =>
        cases hbody hs₂ hu₂ hs₂' hu₂' hokb ht' hP' with
        | together ht'' _ => exact ih hu₃ hs ht'' rfl
        | first hk => exact .first (by simp [honward, hs₃.alone.stays_stranded hs hstayf hk])
        | second hk => exact .second (by simp [honward, hu₃.stays_stranded hu hstays hk])
        | onlyFirst _ honly => rw [(Fate.of_agrees hagree).1] at honly; cases honly
        | onlySecond honly => rw [(Fate.of_agrees hagree).2] at honly; cases honly
  | _ => cases hl

theorem Form.fated_next (kinds : List Kind) : (Form.next kinds).Fated M env env' := by
  intro P s u b s' a u' h h' _ _ _ ht hP
  obtain ⟨rfl, rfl⟩ := h.of_next
  obtain ⟨rfl, rfl⟩ := h'.of_next
  rcases hP with ⟨hc, hk⟩ | ⟨hq, hname, hstring⟩
  · rw [← hc]
    refine .together ht (.inl ⟨hc, ?_⟩)
    cases hkinds : kinds.contains s'.current <;> simp_all [Fate.of]
  · rw [hname, hstring]
    cases hi : kinds.contains .ident <;> cases hs : kinds.contains .string
    · exact .together ht (.inr ⟨by simp_all [Fate.of], hname, hstring⟩)
    · exact .onlySecond (by simp_all) hname
    · have honly : (fate (.next kinds) P).onlyFirst = some (.string, none) := by simp_all
      exact .onlyFirst ht honly hstring (by simp)
    · exact .together ht (.inr ⟨by simp_all [Fate.of], hname, hstring⟩)

theorem Form.fated_nextTwo (c d : Kind) (hM : ∀ {k l}, M k l → k.kind.Twin l.kind) :
    (Form.nextTwo c d).Fated M env env' := by
  intro P s u b s' a u' h h' _ _ hok ht hP
  obtain ⟨rfl, rfl⟩ := h.of_nextTwo
  obtain ⟨rfl, rfl⟩ := h'.of_nextTwo
  simp only [fate, Bool.and_eq_true, bne_iff_ne, ne_eq, Bool.not_eq_true', Bool.and_eq_false_iff,
    beq_eq_false_iff_ne] at hok
  obtain ⟨⟨hcs, hds⟩, hnames⟩ := hok
  have hbehind := ht.following hM
  -- the second reading finds no string where a word is looked for
  by_cases hno : (s'.current == c && s'.following == d) = true
  · simp only [Bool.and_eq_true, beq_iff_eq] at hno
    obtain ⟨rfl, rfl⟩ := hno
    rcases hP with ⟨hc, hk⟩ | ⟨hq, hname, hstring⟩
    · rcases hbehind with hd | ⟨hname, hstring⟩
      · simp only [← hc, ← hd, BEq.rfl, Bool.and_self]
        exact .together ht (.inl ⟨hc, by simpa [Fate.of] using hk⟩)
      · have hfirst : s'.current ≠ .ident := hnames.resolve_right (by simp [hname])
        have honly : (fate (.nextTwo s'.current s'.following) P).onlyFirst =
            some (s'.current, some .string) := by simp [hfirst, hname, hk]
        have hu : (u'.following == s'.following) = false := by simp [hstring, hname]
        simp only [BEq.rfl, Bool.and_self, hu, Bool.and_false]
        exact .onlyFirst ht honly hc.symm (by simpa using hstring)
    · have hd : s'.following = u'.following :=
        hbehind.resolve_right fun h => (hnames.resolve_left (by simp [hname])) h.1
      have honly : (fate (.nextTwo s'.current s'.following) P).onlyFirst =
          some (.string, some s'.following) := by simp [hq, hname]
      have hu : (u'.current == s'.current) = false := by simp [hstring, hname]
      simp only [BEq.rfl, Bool.and_self, hu, Bool.false_and]
      exact .onlyFirst ht honly hstring (by simp [hd])
  · have hno' : (u'.current == c && u'.following == d) = false := by
      refine Bool.eq_false_iff.2 fun hyes => hno ?_
      simp only [Bool.and_eq_true, beq_iff_eq] at hyes ⊢
      obtain ⟨rfl, rfl⟩ := hyes
      have hc : s'.current = u'.current := by
        rcases hP with ⟨hc, -⟩ | ⟨-, -, hstring⟩
        · exact hc
        · exact absurd hstring hcs
      have hd : s'.following = u'.following := by
        rcases hbehind with hd | ⟨-, hstring⟩
        · exact hd
        · exact absurd hstring hds
      exact ⟨hc, hd⟩
    rw [Bool.eq_false_iff.2 hno, hno']
    exact .together ht hP

theorem Form.fated (hM : ∀ {k l}, M k l → k.kind.Twin l.kind) (f : Form) :
    f.Fated M env env' := by
  induction f with
  | answer yes =>
    intro P s u b s' a u' h h' _ _ _ ht hP
    cases h
    cases h'
    cases yes <;> exact .together ht hP
  | next kinds => exact fated_next kinds
  | nextTwo c d => exact fated_nextTwo c d hM
  | take =>
    intro P s u b s' a u' h h' _ _ _ ht hP
    cases h
    cases h'
    refine .together ht.take ?_
    have hany : (fate .take P).of true = .anything := hP.onward
    rw [hany]
    exact Pair.covers_anything hM ht.take
  | complain cause =>
    intro P s u b s' a u' h _ hs
    cases h
    exact absurd hs (Progress.faults_complain_ne _ _ _)
  | complainOfToken =>
    intro P s u b s' a u' h _ hs
    cases h
    exact absurd hs (Progress.faults_complain_ne _ _ _)
  | seq f g ihf ihg => exact fated_seq ihf ihg
  | cond test f g iht ihf ihg => exact fated_cond iht ihf ihg
  | loop test body iht ihb => exact fated_loop iht ihb hM
  | call p =>
    intro P s u b s' a u' h h' hs hu _ ht hP
    cases h with
    | call h =>
      cases h' with
      | call h' =>
        have hne : P.isEmpty = false := hP.isEmpty
        simp only [fate, hne, Bool.false_eq_true, if_false]
        exact h.2 h' ht hs hu
  | node kind body ih =>
    intro P s u b s' a u' h h' hs hu hok ht hP
    cases h with
    | node h =>
      cases h' with
      | node h' =>
        refine (ih h h' hs hu hok ht.inside hP).around (fun ht' => ?_) rfl rfl rfl
        exact ht.rejoin ht' (.cons (ht'.node kind) .nil)
  | mark body ih =>
    intro P s u b s' a u' h h' hs hu hok ht hP
    cases h with
    | mark h =>
      cases h' with
      | mark h' =>
        refine (ih h h' hs hu hok ht.inside hP).around (fun ht' => ?_) rfl rfl rfl
        exact ht.rejoin ht' ht'.built
  | wrap kind body ih =>
    intro P s u b s' a u' h h' hs hu hok ht hP
    cases h with
    | wrap h =>
      cases h' with
      | wrap h' =>
        refine (ih h h' hs hu hok ht hP).around (fun ht' => ?_) rfl rfl rfl
        exact ⟨.cons (ht'.node kind) .nil, ht'.pending, ht'.rest⟩
  | enclosed bracket body ih =>
    intro P s u b s' a u' h h' hs hu hok ht hP
    cases h with
    | enclosed h =>
      rename_i s₁
      cases h' with
      | enclosed h' =>
        rename_i u₁
        obtain ⟨hsb, hsc⟩ := Progress.close_of_faults hs
        obtain ⟨hub, huc⟩ := Progress.close_of_faults hu
        rw [hsc] at hs ⊢
        rw [huc] at hu ⊢
        simp only [fate, Bool.and_eq_true, Bool.not_eq_true'] at hok
        obtain ⟨⟨⟨⟨⟨hokb, hagree⟩, hfirst⟩, hsecond⟩, -⟩, -⟩ := hok
        have hP' : P.onward.Covers s.take u.take := by
          rw [hP.onward]
          exact Pair.covers_anything hM ht.take
        have hs' : s₁.faults = [] := List.suffix_nil.1 (hs ▸ (Progress.follows_take s₁).faults)
        have hu' : u₁.faults = [] := List.suffix_nil.1 (hu ▸ (Progress.follows_take u₁).faults)
        cases ih h h' hs' hu' hokb ht.take hP' with
        | together ht' hc =>
          refine .together ht'.take ?_
          have hany : (fate (.enclosed bracket body) P).of b = .anything := by
            cases b <;> exact hc.onward
          rw [hany]
          exact Pair.covers_anything hM ht'.take
        | first hk => rw [hsb, hfirst] at hk; cases hk
        | second hk => rw [hub, hsecond] at hk; cases hk
        | onlyFirst _ honly => rw [(Fate.of_agrees hagree).1] at honly; cases honly
        | onlySecond honly => rw [(Fate.of_agrees hagree).2] at honly; cases honly

/-! ## Operands -/

/-- A name as an operand. -/
theorem Form.Reads.atom_of_ident (h : Form.Reads env (Phrase.Reads env) Form.atom s b s')
    (hs : s.current = .ident) : b = true ∧
      s' = s.rejoin s.inside.take [.node .nameRef s.inside.take.built.reverse] := by
  have h := h.of_cond_next
  rw [hs] at h
  obtain ⟨c, s₀, hcall, hskip⟩ := h.of_seq
  cases hskip
  cases hcall with
  | call hname =>
    obtain ⟨s₁, htake, rfl⟩ := hname.form.of_node
    cases htake
    exact ⟨rfl, rfl⟩

/-- A string as an operand: at least the first of the strings in a row. -/
theorem Form.Reads.atom_of_string (h : Form.Reads env (Phrase.Reads env) Form.atom s b s')
    (hs : s.current = .string) : b = true ∧
      (s.following = .string ∨
        s' = s.rejoin s.inside.take [.node .stringLiteral s.inside.take.built.reverse]) := by
  have h := h.of_cond_next
  rw [hs] at h
  have h := h.of_cond_next
  rw [hs] at h
  have h := h.of_cond_next
  rw [hs] at h
  obtain ⟨c, s₀, hnode, hskip⟩ := h.of_seq
  cases hskip
  obtain ⟨s₁, hloop, rfl⟩ := hnode.of_node
  refine ⟨rfl, ?_⟩
  cases hloop with
  | loopEnd hno =>
    obtain ⟨-, hno⟩ := hno.of_next
    simp [hs] at hno
  | loopAgain hyes htake hloop =>
    obtain ⟨rfl, -⟩ := hyes.of_next
    cases htake
    cases hloop with
    | loopEnd hno =>
      obtain ⟨rfl, -⟩ := hno.of_next
      exact .inr rfl
    | loopAgain hyes =>
      obtain ⟨-, hyes⟩ := hyes.of_next
      left
      simpa [Progress.current_take] using hyes.symm

/-- A name and a string are operands of the same shape. -/
theorem Phrase.fated_atom (hM : ∀ {k l}, M k l → k.kind.Twin l.kind)
    (h : Form.Reads env (Phrase.Reads env) Form.atom s b s')
    (h' : Form.Reads env' (Phrase.Reads env') Form.atom u a u') (ht : s.Twin M u)
    (hs : s.current = .ident) (hu : u.current = .string) :
    Fate.Fulfilled M { ok := true, yes := .anything, no := .anything,
                       first := Phrase.atom.strandsFirst, second := Phrase.atom.strandsSecond }
      s' b u' a := by
  obtain ⟨rfl, rfl⟩ := h.atom_of_ident hs
  obtain ⟨rfl, hmore | rfl⟩ := h'.atom_of_string hu
  · refine .first ?_
    have hbehind := ht.following hM
    rw [hmore] at hbehind
    have hk : s.inside.take.current = .ident ∨ s.inside.take.current = .string := by
      rw [Progress.current_take]
      exact hbehind.elim .inr fun h => .inl h.1
    rcases hk with hk | hk <;> simp [hk, strandsFirst, endsInOperand, isOperand]
  · have hin := ht.inside.take
    have hword : Tree.Twin M (.node .nameRef s.inside.take.built.reverse)
        (.node .stringLiteral u.inside.take.built.reverse) := by
      have hrest := ht.rest
      cases hsr : s.rest with
      | nil => simp [Progress.current, hsr] at hs
      | cons l ls =>
        rw [hsr] at hrest
        obtain ⟨m, ms, hlm, -, hur⟩ := List.forall₂_cons_left_iff.1 hrest
        have hl : l.token.kind = .ident := by simpa [Progress.current, hsr] using hs
        have hm : m.token.kind = .string := by simpa [Progress.current, hur] using hu
        rw [Progress.take_of_cons (s := s.inside) hsr, Progress.take_of_cons (s := u.inside) hur]
        exact .word hlm.token hl hm
    have htwin := ht.rejoin hin (.cons hword .nil)
    exact .together htwin (Pair.covers_anything hM htwin)

/-- Nothing else can come of two readings of a phrase than what is said of it;
operands that are a name and a string are looked at by themselves. -/
theorem Phrase.fate_ok (p : Phrase) :
    let F := p.form.fate ⟨.all, p != .atom⟩
    F.ok = true ∧ F.agrees = true ∧ F.first.within p.strandsFirst = true ∧
      F.second.within p.strandsSecond = true := by
  revert p
  decide +kernel

/-- What is said of a phrase comes of two readings of it: the induction is on the
first of them. -/
theorem Phrase.Reads.fated (hM : ∀ {k l}, M k l → k.kind.Twin l.kind) {p : Phrase}
    (h : Phrase.Reads env p s b s') : p.Fated M env' s b s' := by
  refine h.induct (Phrase.Fated M env') fun p s b s' h u a u' h' ht hs hu => ?_
  obtain ⟨hok, hagree, hfirst, hsecond⟩ := p.fate_ok
  have hcover : Pair.Covers ⟨.all, p != .atom⟩ s u ∨
      p = .atom ∧ s.current = .ident ∧ u.current = .string := by
    rcases ht.current hM with hc | ⟨hname, hstring⟩
    · exact .inl (.inl ⟨hc, rfl⟩)
    · by_cases hp : p = .atom
      · exact .inr ⟨hp, hname, hstring⟩
      · exact .inl (.inr ⟨by simpa using hp, hname, hstring⟩)
  rcases hcover with hcover | ⟨rfl, hname, hstring⟩
  · refine (Form.fated hM p.form h h'.form hs hu hok ht hcover).imp ?_ ?_
      (fun k => KindSet.has_of_within hfirst) (fun k => KindSet.has_of_within hsecond) (.inl hagree)
    · intro s u hc
      exact hc.imp (fun h => ⟨h.1, rfl⟩) fun h => ⟨rfl, h.2⟩
    · intro s u hc
      exact hc.imp (fun h => ⟨h.1, rfl⟩) fun h => ⟨rfl, h.2⟩
  · exact fated_atom hM h.alone h'.form ht hname hstring

/-- Two readings of a program without faults build twin trees. -/
theorem Phrase.Reads.program_twin (hM : ∀ {k l}, M k l → k.kind.Twin l.kind)
    (h : Phrase.Reads env .program s b s') (h' : Phrase.Reads env' .program u a u')
    (ht : s.Twin M u) (hs : s'.faults = []) (hu : u'.faults = []) : s'.Twin M u' := by
  cases h.fated hM h' ht hs hu with
  | together ht' => exact ht'
  | first hk => cases hk
  | second hk => cases hk
  | onlyFirst _ honly => cases honly
  | onlySecond honly => cases honly

end Fated

end SceneGate
