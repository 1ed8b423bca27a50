/-
What nodes of some kinds are made of, part by part. In a text that is a program a call is
what is called and an argument list, an attribute is what it is taken of, a dot and a
name, a name is an identifier, and an argument list begins with a bracket (`Kind.mold`,
`molded_parse`).
-/
import SceneGate.Proofs.Accounts
import SceneGate.Proofs.Trimmed

namespace SceneGate

/-- What a part may be: a word of the kinds in `down`, or a node of the kinds in `up`. -/
abbrev Part := Sight

namespace Part

/-- A word of one of the kinds. -/
def word (K : KindSet) : Part := ⟨K, .none⟩

/-- A node of one of the kinds. -/
def node (K : KindSet) : Part := ⟨.none, K⟩

/-- Whether the tree is such a part. -/
def Fits (A : Part) (t : Tree) : Prop := A.has t.isNode t.kind = true

variable {K : KindSet} {t : Tree}

theorem fits_word : (word K).Fits t ↔ ∃ k, t = .leaf k ∧ K.has k.kind = true := by
  cases t <;> simp [Fits, word, Sight.has, Tree.isNode, Tree.kind]

theorem fits_node : (node K).Fits t ↔ t.isNode = true ∧ K.has t.kind = true := by
  cases t <;> simp [Fits, node, Sight.has, Tree.isNode, Tree.kind]

end Part

/-- The parts that are no trivia. -/
def Tree.solid (ts : List Tree) : List Tree := ts.filter fun t => !t.isTrivia

/-- What is told of the parts that are no trivia. -/
inductive Mold where
  /-- The point is never reached. -/
  | never
  /-- The first of them are of these sorts, and there may be more. -/
  | parts (first : List Part) (more : Bool)
deriving DecidableEq, Repr

/-- What a node of the kind is made of. -/
def Kind.mold : Kind → Mold
  | .callExpr => .parts [.node (.allBut [.argList, .name]), .node (.only [.argList])] false
  | .attributeExpr =>
    .parts [.node (.allBut [.argList, .name]), .word (.only [.dot]), .node (.only [.name])] false
  | .name | .nameRef => .parts [.word (.only [.ident])] false
  | .argList => .parts [.word (.only [.lParen])] true
  | _ => .parts [] true

namespace Mold

/-- The parts are what is told. -/
def Tells : Mold → List Tree → Prop
  | never, _ => False
  | parts first more, ts =>
    ∃ us vs, Tree.solid ts = us ++ vs ∧ List.Forall₂ Part.Fits first us ∧ (more = false → vs = [])

theorem tells_exactly {first : List Part} {ts : List Tree} (h : (parts first false).Tells ts) :
    List.Forall₂ Part.Fits first (Tree.solid ts) := by
  obtain ⟨us, vs, hts, hfits, hvs⟩ := h
  rw [hts, hvs rfl, List.append_nil]
  exact hfits

theorem tells_call {ts : List Tree} (h : (Kind.mold .callExpr).Tells ts) :
    ∃ callee list, Tree.solid ts = [callee, list] ∧ callee.isNode = true ∧
      callee.kind ∉ [.argList, .name] ∧ list.isNode = true ∧ list.kind = .argList := by
  obtain ⟨callee, _, hcallee, hmore, hts⟩ := List.forall₂_cons_left_iff.1 (tells_exactly h)
  obtain ⟨list, _, hlist, hnone, rfl⟩ := List.forall₂_cons_left_iff.1 hmore
  obtain rfl := List.forall₂_nil_left_iff.1 hnone
  rw [Part.fits_node] at hcallee hlist
  exact ⟨callee, list, hts, hcallee.1, by simpa using hcallee.2, hlist.1, by simpa using hlist.2⟩

theorem tells_attribute {ts : List Tree} (h : (Kind.mold .attributeExpr).Tells ts) :
    ∃ receiver dot name, Tree.solid ts = [receiver, .leaf dot, name] ∧ receiver.isNode = true ∧
      receiver.kind ∉ [.argList, .name] ∧ name.isNode = true ∧ name.kind = .name := by
  obtain ⟨receiver, _, hreceiver, hmore, hts⟩ := List.forall₂_cons_left_iff.1 (tells_exactly h)
  obtain ⟨dot, _, hdot, hlast, rfl⟩ := List.forall₂_cons_left_iff.1 hmore
  obtain ⟨name, _, hname, hnone, rfl⟩ := List.forall₂_cons_left_iff.1 hlast
  obtain rfl := List.forall₂_nil_left_iff.1 hnone
  rw [Part.fits_node] at hreceiver hname
  obtain ⟨k, rfl, -⟩ := Part.fits_word.1 hdot
  exact ⟨receiver, k, name, hts, hreceiver.1, by simpa using hreceiver.2, hname.1,
    by simpa using hname.2⟩

/-- One behind the other. -/
def append : Mold → Mold → Mold
  | never, _ | _, never => never
  | parts as true, parts _ _ => parts as true
  | parts as false, parts bs more => parts (as ++ bs) more

/-- What either of the two allows. -/
def union : Mold → Mold → Mold
  | never, b => b
  | a, never => a
  | parts as m, parts bs n =>
    parts (List.zipWith Sight.union as bs) (m || n || as.length != bs.length)

/-- Whether the first is seen to allow no more than the second. -/
def within : Mold → Mold → Bool
  | never, _ => true
  | _, never => false
  | parts as m, parts bs n =>
    bs.length ≤ as.length && (List.zipWith Sight.within as bs).all id &&
      (n || (!m && as.length == bs.length))

/-- The account of what nodes are made of. -/
def account : Account Mold where
  empty := parts [] false
  nothing := never
  append := append
  union := union
  within := within
  word K := if K.has .endOfFile then parts [] true else parts [.word K] false
  node kind a := if a = never then never else parts [.node (.only [kind])] false
  mayBe kind a := a.within kind.mold
  phrase
    | .name => parts [.node (.only [.name])] false
    | .nameRef => parts [.node (.only [.nameRef])] false
    | .arguments => parts [.node (.only [.argList])] false
    | .atom | .parenthesized | .list | .braced => parts [.node (.allBut [.argList, .name])] false
    | _ => parts [] true

variable {a b : Mold} {ts us : List Tree} {as bs : List Part}

theorem solid_append (ts us : List Tree) : Tree.solid (ts ++ us) = Tree.solid ts ++ Tree.solid us :=
  List.filter_append ..

theorem solid_trivia {ks : List Token} (h : ∀ k ∈ ks, k.isTrivia = true) :
    Tree.solid (ks.map .leaf) = [] := by
  simpa [Tree.solid, Tree.isTrivia] using h

/-- One part that is told. -/
theorem tells_singleton {A : Part} {t : Tree} (ht : t.isTrivia = false) (h : A.Fits t) :
    (parts [A] false).Tells [t] :=
  ⟨[t], [], by simp [Tree.solid, ht], .cons h .nil, fun _ => rfl⟩

theorem tells_anything (ts : List Tree) : (parts [] true).Tells ts :=
  ⟨[], Tree.solid ts, rfl, .nil, by simp⟩

theorem Tells.append (h : a.Tells ts) (h' : b.Tells us) : (a.append b).Tells (ts ++ us) := by
  match a, b with
  | never, _ => exact h.elim
  | parts _ _, never => exact h'.elim
  | parts as true, parts bs n =>
    obtain ⟨vs, ws, hts, hfits, -⟩ := h
    exact ⟨vs, ws ++ Tree.solid us, by simp [solid_append, hts], hfits, by simp⟩
  | parts as false, parts bs n =>
    obtain ⟨vs, ws, hts, hfits, hws⟩ := h
    obtain ⟨vs', ws', hus, hfits', hws'⟩ := h'
    obtain rfl := hws rfl
    exact ⟨vs ++ vs', ws', by simp [solid_append, hts, hus], List.rel_append hfits hfits', hws'⟩

/-- Parts that are of given sorts are of wider ones, as many as there are of these. -/
theorem forall₂_zipWith {f : Part → Part → Part} (hf : ∀ {A B t}, A.Fits t → (f A B).Fits t)
    (h : List.Forall₂ Part.Fits as us) (bs : List Part) :
    ∃ vs ws, us = vs ++ ws ∧ List.Forall₂ Part.Fits (List.zipWith f as bs) vs ∧
      (as.length = bs.length → ws = []) := by
  induction h generalizing bs with
  | nil => exact ⟨[], [], rfl, by simp, fun _ => rfl⟩
  | @cons A t as us ht _ ih =>
    cases bs with
    | nil => exact ⟨[], t :: us, rfl, .nil, by simp⟩
    | cons B bs =>
      obtain ⟨vs, ws, rfl, hfits, hws⟩ := ih bs
      exact ⟨t :: vs, ws, rfl, .cons (hf ht) hfits, fun h => hws (by simpa using h)⟩

theorem Tells.left (h : a.Tells ts) : (a.union b).Tells ts := by
  match a, b with
  | never, _ => exact h.elim
  | parts _ _, never => exact h
  | parts as m, parts bs n =>
    obtain ⟨us, vs, hts, hfits, hvs⟩ := h
    obtain ⟨us, ws, rfl, hfits, hws⟩ := forall₂_zipWith (f := Sight.union)
      (fun h => by simpa [Part.Fits] using .inl h) hfits bs
    refine ⟨us, ws ++ vs, by rw [hts, List.append_assoc], hfits, fun hmore => ?_⟩
    simp only [Bool.or_eq_false_iff, bne_eq_false_iff_eq] at hmore
    rw [hws hmore.2, hvs hmore.1.1, List.append_nil]

theorem Tells.right (h : b.Tells ts) : (a.union b).Tells ts := by
  match a, b with
  | _, never => exact h.elim
  | never, parts _ _ => exact h
  | parts as m, parts bs n =>
    obtain ⟨us, vs, hts, hfits, hvs⟩ := h
    obtain ⟨us, ws, rfl, hfits, hws⟩ := forall₂_zipWith (f := fun B A => Sight.union A B)
      (fun h => by simpa [Part.Fits] using .inr h) hfits as
    rw [List.zipWith_comm] at hfits
    refine ⟨us, ws ++ vs, by rw [hts, List.append_assoc], hfits, fun hmore => ?_⟩
    simp only [Bool.or_eq_false_iff, bne_eq_false_iff_eq] at hmore
    rw [hws hmore.2.symm, hvs hmore.1.2, List.append_nil]

theorem forall₂_within (h : List.Forall₂ Part.Fits as us) (hlen : bs.length ≤ as.length)
    (hall : (List.zipWith Sight.within as bs).all id = true) :
    ∃ vs ws, us = vs ++ ws ∧ List.Forall₂ Part.Fits bs vs ∧ (as.length = bs.length → ws = []) := by
  induction h generalizing bs with
  | nil =>
    obtain rfl : bs = [] := by simpa using hlen
    exact ⟨[], [], rfl, .nil, fun _ => rfl⟩
  | @cons A t as us ht _ ih =>
    cases bs with
    | nil => exact ⟨[], t :: us, rfl, .nil, by simp⟩
    | cons B bs =>
      simp only [List.zipWith_cons_cons, List.all_cons, Bool.and_eq_true] at hall
      obtain ⟨vs, ws, rfl, hfits, hws⟩ := ih (by simpa using hlen) hall.2
      exact ⟨t :: vs, ws, rfl, .cons (Sight.has_of_within hall.1 ht) hfits,
        fun h => hws (by simpa using h)⟩

theorem Tells.within (hab : a.within b = true) (h : a.Tells ts) : b.Tells ts := by
  match a, b with
  | never, _ => exact h.elim
  | parts _ _, never => cases hab
  | parts as m, parts bs n =>
    obtain ⟨us, vs, hts, hfits, hvs⟩ := h
    simp only [Mold.within, Bool.and_eq_true, decide_eq_true_eq] at hab
    obtain ⟨us, ws, rfl, hfits, hws⟩ := forall₂_within hfits hab.1.1 hab.1.2
    refine ⟨us, ws ++ vs, by rw [hts, List.append_assoc], hfits, fun hmore => ?_⟩
    obtain ⟨hm, hlen⟩ : m = false ∧ as.length = bs.length := by simpa [hmore] using hab.2
    rw [hws hlen, hvs hm, List.append_nil]

theorem sound : account.Sound Tells fun kind ts => kind.mold.Tells ts where
  empty := ⟨[], [], rfl, .nil, fun _ => rfl⟩
  append := Tells.append
  trivia := by
    intro a ts ks h hks
    cases a with
    | never => exact h.elim
    | parts first more =>
      obtain ⟨us, vs, hts, hfits⟩ := h
      exact ⟨us, vs, by rw [solid_append, solid_trivia hks, List.append_nil, hts], hfits⟩
  left := Tells.left
  right := Tells.right
  within := Tells.within
  word := by
    intro K k hK hk
    simp only [account]
    split
    · exact tells_anything _
    · exact tells_singleton hk hK
  noWord := by
    intro K hK
    simp only [account, hK, if_true]
    exact tells_anything _
  node := by
    intro kind a ts hmay h
    refine ⟨h.within hmay, ?_⟩
    cases a with
    | never => exact h.elim
    | parts first more =>
      exact tells_singleton rfl (by simp [Part.Fits, Part.node, Sight.has, Tree.isNode, Tree.kind])

end Mold

theorem Phrase.mold_fits (p : Phrase) : Mold.account.fitsPhrase Watch.faultless p = true := by
  revert p
  decide +kernel

/-- In a text that is a program the nodes are made of what is told. -/
theorem molded_parse {t : Text} (h : (parse t).ok = true) :
    (parse t).tree.Each fun kind ts => kind.mold.Tells ts :=
  Mold.sound.each_of_ok Phrase.mold_fits rfl h

end SceneGate
