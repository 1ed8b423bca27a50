/-
What stands behind a word of a program, as far as its kind tells: behind a dot a name and no
other word of a value, behind a name no number (`Kind.successors`, `successors_words`). The
token of a node NAME_REF stands behind none of these (`values_stand_apart`).

A flag is watched that is up right behind a word of one kind. Where the grammar looks two
tokens ahead it does not test again for the second; a form that insists on it reads the
same (`Form.sharp`), and lets the flag be followed. Only readings without faults are
watched.
-/
import SceneGate.Proofs.LaidOut
import SceneGate.Proofs.Lossless
import SceneGate.Proofs.SideBySide
import SceneGate.Proofs.Stranded
import Mathlib.Data.List.Chain

namespace SceneGate

/-! ## Forms that insist on what they have seen -/

namespace Form

/-- The form, where a token that may be taken must be there. -/
def insisting (k : Kind) : Form → Form
  | .seq first second => .seq (first.insisting k) (second.insisting k)
  | .node kind body => .node kind (body.insisting k)
  | .cond test yes no => if .cond test yes no = eat k then expect k else .cond test yes no
  | form => form

/-- The form, insisting on the second of two tokens after it was seen. -/
def sharp : Form → Form
  | .cond (.nextTwo first second) yes no =>
    .cond (.nextTwo first second) (yes.insisting second) no
  | .cond test yes no => .cond test yes.sharp no.sharp
  | .loop (.nextTwo first second) body => .loop (.nextTwo first second) (body.insisting second)
  | .seq first second => .seq first.sharp second.sharp
  | .node kind body => .node kind body.sharp
  | form => form

variable {env : Surroundings} {calls : Phrase → Progress → Bool → Progress → Prop}
  {s s' : Progress} {b : Bool} {j k : Kind} {test yes yes' no no' body body' : Form}

theorem Reads.insist (h : Reads env calls (eat k) s b s') (hk : s.current = k) :
    Reads env calls (expect k) s b s' := by
  obtain ⟨c, s₁, htest, htake⟩ := h.of_cond
  obtain ⟨rfl, rfl⟩ := htest.of_next
  rw [show [k].contains s₁.current = true by simp [hk]] at htest htake
  exact .condYes htest htake

/-- Other forms behind a test. -/
theorem Reads.exchange (h : Reads env calls (.cond test yes no) s b s')
    (hyes : ∀ {s₁}, Reads env calls test s true s₁ → Reads env calls yes s₁ b s' →
      Reads env calls yes' s₁ b s')
    (hno : ∀ {s₁}, Reads env calls no s₁ b s' → Reads env calls no' s₁ b s') :
    Reads env calls (.cond test yes' no') s b s' := by
  obtain ⟨c, s₁, htest, h⟩ := h.of_cond
  cases c with
  | true => exact .condYes htest (hyes htest h)
  | false => exact .condNo htest (hno h)

/-- Another step of a loop. -/
theorem Reads.exchange_loop (h : Reads env calls (.loop test body) s b s')
    (hbody : ∀ {s s₁ a s₂}, Reads env calls test s true s₁ → Reads env calls body s₁ a s₂ →
      Reads env calls body' s₁ a s₂) : Reads env calls (.loop test body') s b s' := by
  generalize hloop : Form.loop test body = f at h
  induction h with
  | loopEnd htest =>
    cases hloop
    exact .loopEnd htest
  | loopAgain htest hstep _ _ _ ih =>
    cases hloop
    exact .loopAgain htest (hbody htest hstep) (ih rfl)
  | _ => cases hloop

/-- Two tokens that were seen are the next ones. -/
theorem Reads.of_seen (h : Reads env calls (.nextTwo j k) s true s') :
    s' = s ∧ s.current = j ∧ s.take.current = k := by
  obtain ⟨rfl, hb⟩ := h.of_nextTwo
  obtain ⟨hj, hk⟩ : s'.current = j ∧ s'.following = k := by simpa using hb.symm
  exact ⟨rfl, hj, (Progress.current_take s').trans hk⟩

end Form

open Form Progress

variable {env : Surroundings} {calls : Phrase → Progress → Bool → Progress → Prop}
  {p : Phrase} {s s' : Progress} {b : Bool} {j k kind : Kind}

theorem Form.Reads.current_of_single (h : Form.Reads env calls (single kind) s b s') :
    s'.current = s.take.current := by
  cases h with
  | node h =>
    cases h
    rw [current_rejoin, current_take, current_take]
    rfl

/-- A name takes one token. -/
theorem Phrase.Reads.current_of_name (h : p.Reads env s b s') (hp : p = .name ∨ p = .nameRef)
    (hk : s.current = .ident) : s'.current = s.take.current := by
  obtain ⟨n, h⟩ := h
  have h := Form.Reads.of_read h
  rcases hp with rfl | rfl
  · obtain ⟨c, s₁, htest, h⟩ := Form.Reads.of_cond h
    obtain ⟨rfl, rfl⟩ := htest.of_next
    rw [show [Kind.ident].contains s₁.current = true by simp [hk]] at h
    exact Form.Reads.current_of_single h
  · exact Form.Reads.current_of_single h

/-- A name, a token that was seen behind it, and a form. -/
theorem Form.Reads.insist_behind {f : Form} {Spec : Phrase → Progress → Bool → Progress → Prop}
    (hp : p = .name ∨ p = .nameRef) (hj : s.current = .ident) (hk : s.take.current = k)
    (h : Form.Reads env (fun q s b s' => q.Reads env s b s' ∧ Spec q s b s')
      (.node kind (seqs [.call p, eat k, f])) s b s') :
    Form.Reads env (fun q s b s' => q.Reads env s b s' ∧ Spec q s b s')
      (.node kind (seqs [.call p, Form.expect k, f])) s b s' := by
  cases h with
  | node h =>
    obtain ⟨a, s₁, hcall, h⟩ := Form.Reads.of_seq h
    obtain ⟨a', s₂, heat, h⟩ := Form.Reads.of_seq h
    have hcurrent : s₁.current = k := by
      cases hcall with
      | call hname =>
        rw [hname.1.current_of_name hp hj, current_take]
        rwa [current_take] at hk
    exact .node (.seq hcall (.seq (heat.insist hcurrent) h))

/-- A phrase reads as its form does that insists on what it has seen. -/
theorem Phrase.reads_sharp {Spec : Phrase → Progress → Bool → Progress → Prop}
    (h : Form.Reads env (fun q s b s' => q.Reads env s b s' ∧ Spec q s b s') p.form s b s') :
    Form.Reads env (fun q s b s' => q.Reads env s b s' ∧ Spec q s b s') p.form.sharp s b s' := by
  have hplain : ∀ p : Phrase, p ∉ [.dottedName, .namedExpression, .argumentsFrom true, .argumentsFrom false] →
      p.form.sharp = p.form := by decide +kernel
  by_cases hp : p ∈ [.dottedName, .namedExpression, .argumentsFrom true, .argumentsFrom false]
  · simp only [List.mem_cons, List.not_mem_nil, or_false] at hp
    rcases hp with rfl | rfl | hp
    · cases h with
      | node h =>
        refine .node (h.exchange (fun _ hloop => ?_) id)
        refine hloop.exchange_loop fun htest hstep => ?_
        obtain ⟨rfl, -, hsecond⟩ := htest.of_seen
        obtain ⟨a, s₁, htake, heat⟩ := hstep.of_seq
        cases htake
        exact .seq .take (heat.insist hsecond)
    · refine Form.Reads.exchange h (fun htest hyes => ?_) id
      obtain ⟨rfl, hfirst, hsecond⟩ := htest.of_seen
      exact hyes.insist_behind (.inr rfl) hfirst hsecond
    · have hnamed (after : Bool)
          (h : Form.Reads env (fun q s b s' => q.Reads env s b s' ∧ Spec q s b s')
            (Form.argumentsFrom after) s b s') :
          Form.Reads env (fun q s b s' => q.Reads env s b s' ∧ Spec q s b s')
            (Form.argumentsFrom after).sharp s b s' := by
        refine h.exchange (fun _ h => ?_) id
        refine h.exchange (fun _ => id) fun h => ?_
        refine h.exchange (fun _ => id) fun h => ?_
        refine h.exchange (fun htest hyes => ?_) id
        obtain ⟨rfl, hfirst, hsecond⟩ := htest.of_seen
        obtain ⟨a, s₁, hitem, hmore⟩ := hyes.of_seq
        exact .seq (hitem.insist_behind (.inl rfl) hfirst hsecond) hmore
      rcases hp with rfl | rfl
      · exact hnamed true h
      · exact hnamed false h
  · rwa [hplain p hp]

/-! ## The watch -/

/-- What can stand behind a word of a kind, as far as it is told. -/
def Kind.successors : Kind → KindSet
  | .dot => .only [.ident, .importKw, .dot, .ellipsis, .endOfFile]
  | .importKw => .only [.ident, .lParen, .star, .endOfFile]
  | .ident => .allBut [.number]
  | _ => .all

/-- The kinds whose successors are told. -/
def Kind.leaders : List Kind := [.dot, .importKw, .ident]

namespace Phrase

/-- Phrases that are read behind a word of the kind. -/
def readBehind : Kind → List Phrase
  | .dot => [.name, .dottedName]
  | .importKw => [.importAlias, .importedName, .dottedName, .name]
  | .ident => [.forClause, .arguments, .parameters]
  | _ => []

/-- Where a phrase is read. -/
def leadAt (k : Kind) (p : Phrase) : Sight :=
  match p with
  | .elseClause => ⟨.all, .only [.endOfFile]⟩
  | p => ⟨p.startsOn, if p ∈ readBehind k then p.startsOn else .none⟩

/-- What is known behind a phrase. A statement ends its line. -/
def leadTo (k : Kind) : Phrase → Sight
  | .unexpectedIndent => .nothing
  | .program | .statement | .block | .simpleStatements | .ifStatement | .elseClause
  | .whileStatement | .forStatement | .withStatement | .tryStatement | .exceptClause
  | .finallyClause | .decorated | .function | .classParts => ⟨.all, .only [.endOfFile]⟩
  | _ => ⟨.all, if k = .ident then .all else .none⟩

end Phrase

/-- Watches whether a word of the kind was taken last. -/
def Watch.successors (k : Kind) : Watch where
  taken S :=
    let kinds := S.down.union S.up
    ⟨(S.down.inter (.only [.endOfFile])).union
        (if kinds.within (.only [k]) then .none else .all),
      (S.up.inter (.only [.endOfFile])).union (if kinds.has k then .all else .none)⟩
  faulted _ := .nothing
  left p S := if S.isEmpty then .nothing else p.leadTo k
  mayTake S := S.up.within k.successors
  mayCall p S := S.within (p.leadAt k)
  mayOpen kind body S := kind != .nameRef || (body == .take && S.up.isEmpty)
  mayWrap kind := kind != .nameRef

/-- All that is done in a phrase is allowed where it is read, and leads where
`Phrase.leadTo` says. -/
theorem Phrase.successors_fit : ∀ k ∈ Kind.leaders, ∀ p : Phrase,
    (Watch.successors k).fits true p.form.sharp (p.leadAt k) = true ∧
      ((Watch.successors k).after p.form.sharp (p.leadAt k)).either.within (p.leadTo k) = true := by
  decide +kernel

/-! ## What the watch sees -/

/-- Whether a word of the kind was passed last. -/
def endsIn (k : Kind) (passed : List Token) : Bool := passed.getLast?.any fun j => j.kind == k

/-- All tokens that `D` holds of stand right behind words of the kind. -/
def StandBehind (k : Kind) (D : Token → Prop) (words : List Token) : Prop :=
  ∀ front j back, words = front ++ j :: back → D j → endsIn k front = true

/-- A node that is no name, or whose token `D` does not hold of. -/
def NoNameOf (D : Token → Prop) (kind : Kind) (ts : List Tree) : Prop :=
  kind = .nameRef → ∀ k, .leaf k ∈ ts → ¬ D k

/-- Behind words of the kind stand its successors. -/
def FollowedUp (k : Kind) (words : List Token) : Prop :=
  words.IsChain fun i j => i.kind = k → k.successors.has j.kind = true

/-- What was passed of `words`, and what was built; the flag says whether a word of the kind
was passed last. -/
structure PassedBehind (k : Kind) (D : Token → Prop) (words : List Token) (flag : Bool)
    (s : Progress) : Prop where
  passed : ∃ passed, words = passed ++ s.rest.map Lexeme.token ∧ FollowedUp k passed ∧
    flag = endsIn k passed
  each : s.Each (NoNameOf D)

/-- What it means that a phrase passes only what may follow, and builds no name that stands
behind a word of the kind. -/
def Phrase.FollowsUp (k : Kind) (D : Token → Prop) (words : List Token) (p : Phrase) (s : Progress)
    (_ : Bool) (s' : Progress) : Prop :=
  s'.faults = [] → ∀ flag, PassedBehind k D words flag s → (p.leadAt k).has flag s.current = true →
    ∃ flag', PassedBehind k D words flag' s' ∧ (p.leadTo k).has flag' s'.current = true

variable {D : Token → Prop} {words : List Token} {flag : Bool}

theorem FollowedUp.concat {passed : List Token} {i : Token} (h : FollowedUp k passed)
    (hi : endsIn k passed = true → k.successors.has i.kind = true) : FollowedUp k (passed ++ [i]) := by
  refine List.isChain_append.2 ⟨h, .singleton i, fun j hj l hl hkind => ?_⟩
  obtain rfl : i = l := by simpa using hl
  exact hi (by rw [endsIn, Option.mem_def.1 hj]; simp [hkind])

theorem PassedBehind.take {l : Lexeme} {tail : List Lexeme} (h : PassedBehind k D words flag s)
    (hs : s.rest = l :: tail) (hl : flag = true → k.successors.has s.current = true) :
    PassedBehind k D words (s.current == k) s.take := by
  obtain ⟨⟨passed, hwords, hup, hflag⟩, heach⟩ := h
  have hcurrent : s.current = l.token.kind := by simp [current, hs]
  refine ⟨⟨passed ++ [l.token], ?_, hup.concat fun hend => ?_, ?_⟩, heach.take⟩
  · rw [take_of_cons hs, hwords, hs]
    simp
  · rw [← hcurrent]
    exact hl (hflag.trans hend)
  · simp [endsIn, hcurrent]

/-- A name that is read where no word of the kind was passed last does not stand behind one. -/
theorem PassedBehind.noNameOf (h : PassedBehind k D words false s) (hD : StandBehind k D words) :
    NoNameOf D .nameRef s.inside.take.built.reverse := by
  intro _ j hj hDj
  obtain ⟨⟨passed, hwords, -, hflag⟩, -⟩ := h
  cases hr : s.rest with
  | nil =>
    have hrest : s.inside.rest = [] := hr
    rw [take_of_nil hrest] at hj
    simp [inside, flush] at hj
  | cons l tail =>
    have hrest : s.inside.rest = l :: tail := hr
    rw [take_of_cons hrest] at hj
    obtain rfl : j = l.token := by simpa [inside, flush] using hj
    have hend := hD passed l.token (tail.map Lexeme.token) (by simpa [hr] using hwords) hDj
    rw [← hflag] at hend
    cases hend

theorem Watch.successors_sound (env : Surroundings) (hD : StandBehind k D words) :
    (Watch.successors k).Sound env (Phrase.FollowsUp k D words) (fun s => s.faults = [])
      (fun (_ : Unit) => PassedBehind k D words) id where
  back h hg := List.suffix_nil.1 (hg ▸ h.faults)
  take := by
    intro _ S s hmay ⟨flag, hp, hk⟩
    have hkinds : (S.down.union S.up).has s.current = true := by
      cases flag <;> simp_all [Sight.has]
    cases hr : s.rest with
    | nil =>
      have hrest : s.take.rest = s.rest := by rw [take_of_nil hr]; rfl
      have hend : s.current = .endOfFile := by simp [current, hr]
      refine ⟨flag, ⟨by rw [hrest]; exact hp.passed, hp.each.take⟩, ?_⟩
      rw [current_eq hrest]
      cases flag <;> simp_all [successors, Sight.has]
    | cons l tail =>
      have hnext : flag = true → k.successors.has s.current = true := by
        rintro rfl
        exact KindSet.has_of_within hmay hk
      refine ⟨_, hp.take hr hnext, ?_⟩
      by_cases hlast : s.current = k
      · simp_all [successors, Sight.has]
      · have hwithin : (S.down.union S.up).within (.only [k]) = false := by
          refine Bool.eq_false_iff.2 fun hw => hlast ?_
          simpa using KindSet.has_of_within hw hkinds
        simp [successors, Sight.has, hwithin, beq_eq_false_iff_ne.2 hlast]
  fault h := absurd h (faults_record_ne _ _)
  call := by
    intro _ S p s b s' hmay _ hspec hg ⟨flag, hp, hk⟩
    obtain ⟨flag', hp', hk'⟩ := hspec hg flag hp (Sight.has_of_within hmay hk)
    exact ⟨flag', hp', by simpa [successors, Sight.isEmpty_of_has hk] using hk'⟩
  inside h := ⟨h.passed, by simp [Progress.Each, inside]⟩
  node := by
    intro _ S s b flag' s' kind body hmay ⟨flag, hp, hk⟩ hread h'
    refine ⟨h'.passed, hp.each.rejoin (h'.each.node fun hkind => ?_)⟩
    subst hkind
    simp only [successors, bne_self_eq_false, Bool.false_or, Bool.and_eq_true, beq_iff_eq] at hmay
    obtain ⟨rfl, hup⟩ := hmay
    cases hread
    cases flag with
    | false => exact hp.noNameOf hD rfl
    | true => exact absurd ((KindSet.not_has_of_isEmpty hup).symm.trans hk) (by simp)
  mark h h' := ⟨h'.passed, h.each.rejoin h'.each⟩
  wrap := by
    intro _ flag s kind hmay h
    refine ⟨h.passed, h.each.node fun hkind => ?_⟩
    simp [successors, hkind] at hmay

/-- A phrase that is read without faults passes only what may follow. -/
theorem Phrase.Reads.followsUp {p : Phrase} (hk : k ∈ Kind.leaders) (hD : StandBehind k D words)
    (h : Phrase.Reads env p s b s') : p.FollowsUp k D words s b s' := by
  refine h.induct (Phrase.FollowsUp k D words) fun p s b s' h hg flag hp hlead => ?_
  obtain ⟨hfits, hafter⟩ := Phrase.successors_fit k hk p
  exact ((Watch.successors_sound env hD).holds (Phrase.reads_sharp h) hg (fun _ => ⟨(), rfl⟩) hfits
    ⟨flag, hp, hlead⟩).either.within hafter

/-- Behind the words of a program stand their successors, and no name that is a value. -/
theorem followedUp_parse {t : Text} (h : (parse t).ok = true) (hk : k ∈ Kind.leaders)
    (hD : StandBehind k D (significant (layout t).tokens)) :
    FollowedUp k (significant (layout t).tokens) ∧ (parse t).tree.Each (NoNameOf D) := by
  obtain ⟨b, s, hreads, hrest, -, htree, hfaults⟩ := exists_reading t
  have hs : s.faults = [] := by simpa [Parse.ok, hfaults] using h
  have hstart : PassedBehind k D (significant (layout t).tokens) false
      (Progress.start (layout t).tokens (layout t).faults) :=
    ⟨⟨[], (Lexeme.map_token_split _).symm, .nil, rfl⟩, Progress.each_start _ _⟩
  obtain ⟨_, ⟨⟨passed, hwords, hup, -⟩, heach⟩, -⟩ := hreads.followsUp hk hD hs false hstart rfl
  have hall : significant (layout t).tokens = passed := by simpa [hrest] using hwords
  refine ⟨hall ▸ hup, ?_⟩
  rw [htree]
  exact Tree.each_node.2 ⟨nofun, Tree.eachOf_iff.1 heach.root⟩

/-- Behind the words of a program stand their successors. -/
theorem successors_words {t : Text} (h : (parse t).ok = true) (hk : k ∈ Kind.leaders) :
    FollowedUp k (significant (layout t).tokens) :=
  (followedUp_parse (D := fun _ => False) h hk fun _ _ _ _ hD => hD.elim).1

/-- In a program no name that is a value stands right behind a word whose successors are
told. -/
theorem values_stand_apart {t : Text} (h : (parse t).ok = true) (hk : k ∈ Kind.leaders)
    (hD : StandBehind k D (significant (layout t).tokens)) : (parse t).tree.Each (NoNameOf D) :=
  (followedUp_parse h hk hD).2

end SceneGate
