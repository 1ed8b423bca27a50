/-
Where names stand. Every identifier of a text is the name of something: wherever it is
taken, among faults too, it is put into a node of its own or into a path of names. So
the check for stray prose sees every identifier that is not under a name that is
defined (`names_eq_uses`); and in a text that is a program the names that are defined
are told by what they stand behind in their node (`Kind.namePlaces`).
-/
import SceneGate.Proofs.Accounts
import SceneGate.Proofs.Names

namespace SceneGate

/-- Whether a node of the kind is a name, or a path of names, where it is defined or
reached through something else, and not looked up. -/
def Kind.isBinding (k : Kind) : Bool := k == .name || k == .dottedName

/-- Whether a node of the kind is made of identifiers. -/
def Kind.holdsIdentifiers (k : Kind) : Bool := k == .nameRef || k.isBinding

namespace Tree

/-- The kind of the last of the trees that is more than trivia. -/
def lastWord? (ts : List Tree) : Option Kind :=
  ((ts.map kind).filter fun k => !k.isTrivia).getLast?

mutual

/-- The identifiers of a tree that are not under a name that is bound. -/
def uses : Tree → List Token
  | .leaf k => if k.kind = .ident then [k] else []
  | .node kind ts => if kind.isBinding then [] else usesOf ts

/-- Those of trees that stand side by side. -/
def usesOf : List Tree → List Token
  | [] => []
  | t :: ts => t.uses ++ usesOf ts

end

end Tree

/-- What names that are bound stand behind in a node of the kind; `none` is the
beginning of the node. -/
def Kind.namePlaces : Kind → List (Option Kind)
  | .attributeExpr => [some .dot]
  | .keywordArg => [none]
  | .param => [none, some .star, some .starStar]
  | .functionDef => [some .defKw]
  | .classDef => [some .classKw]
  | .importAlias => [none, some .asKw]
  | .importFromStmt => [some .fromKw, some .dot, some .ellipsis]
  | .globalStmt => [some .globalKw, some .comma]
  | .nonlocalStmt => [some .nonlocalKw, some .comma]
  | .exceptClause => [some .asKw]
  | _ => []

/-! ## Identifiers are put into names -/

/-- Names hold nothing but tokens, and no other node holds an identifier. -/
def Housed (kind : Kind) (ts : List Tree) : Prop :=
  bif kind.holdsIdentifiers then ∀ t ∈ ts, t.isNode = false
  else ∀ k : Token, .leaf k ∈ ts → k.kind ≠ .ident

/-- What has been built of a node: perhaps identifiers, perhaps nodes. -/
structure Inmates where
  identifiers : Bool
  nodes : Bool
deriving DecidableEq, Repr

namespace Inmates

/-- What either of the two allows. -/
def union (a b : Inmates) : Inmates := ⟨a.identifiers || b.identifiers, a.nodes || b.nodes⟩

/-- What is told: of which sort none of the parts is. -/
structure Tells (a : Inmates) (ts : List Tree) : Prop where
  identifiers : a.identifiers = false → ∀ k : Token, .leaf k ∈ ts → k.kind ≠ .ident
  nodes : a.nodes = false → ∀ t ∈ ts, t.isNode = false

/-- The account of identifiers. -/
def account : Account Inmates where
  empty := ⟨false, false⟩
  nothing := ⟨false, false⟩
  append := union
  union := union
  within a b := (!a.identifiers || b.identifiers) && (!a.nodes || b.nodes)
  word K := ⟨K.has .ident, false⟩
  node _ _ := ⟨false, true⟩
  mayBe kind a := bif kind.holdsIdentifiers then !a.nodes else !a.identifiers
  phrase _ := ⟨false, true⟩

theorem tells_append {a b : Inmates} {ts us : List Tree} (h : a.Tells ts) (h' : b.Tells us) :
    (a.union b).Tells (ts ++ us) := by
  constructor
  · intro hnone k hk
    simp only [union, Bool.or_eq_false_iff] at hnone
    rcases List.mem_append.1 hk with hk | hk
    · exact h.identifiers hnone.1 k hk
    · exact h'.identifiers hnone.2 k hk
  · intro hnone
    simp only [union, Bool.or_eq_false_iff] at hnone
    exact List.forall_mem_append.2 ⟨h.nodes hnone.1, h'.nodes hnone.2⟩

theorem tells_nil (a : Inmates) : a.Tells [] := ⟨by simp, by simp⟩

theorem sound : account.Sound Tells Housed where
  empty := tells_nil _
  append := tells_append
  trivia := by
    intro a ts ks h hks
    refine ⟨fun hnone k hk => ?_, fun hnone => ?_⟩
    · rcases List.mem_append.1 hk with hk | hk
      · exact h.identifiers hnone k hk
      · obtain ⟨j, hj, heq⟩ := List.mem_map.1 hk
        cases heq
        rintro hident
        simpa [Token.isTrivia, hident, Kind.isTrivia] using hks k hj
    · refine List.forall_mem_append.2 ⟨h.nodes hnone, fun t ht => ?_⟩
      obtain ⟨j, -, rfl⟩ := List.mem_map.1 ht
      rfl
  left h := by simpa [account] using tells_append h (tells_nil _)
  right h := by simpa [account] using tells_append (tells_nil _) h
  within := by
    intro a b ts hab h
    simp only [account, Bool.and_eq_true, Bool.or_eq_true, Bool.not_eq_true'] at hab
    refine ⟨fun hnone => h.identifiers ?_, fun hnone => h.nodes ?_⟩
    · exact hab.1.resolve_right (by simp [hnone])
    · exact hab.2.resolve_right (by simp [hnone])
  word := by
    intro K k hK _
    refine ⟨fun hnone j hj hident => ?_, by simp [Tree.isNode]⟩
    obtain rfl : j = k := by simpa using hj
    simp [account, ← hident, hK] at hnone
  noWord _ := tells_nil _
  node := by
    intro kind a ts hmay h
    refine ⟨?_, ⟨by simp, by simp [account]⟩⟩
    simp only [account] at hmay
    unfold Housed
    cases hkind : kind.holdsIdentifiers with
    | true => exact h.nodes (by simpa [hkind] using hmay)
    | false => exact h.identifiers (by simpa [hkind] using hmay)

end Inmates

theorem Phrase.housed_fits (p : Phrase) : Inmates.account.fitsPhrase Watch.lenient p = true := by
  revert p
  decide +kernel

/-- Every identifier of a text is put into a name, and names hold nothing but tokens. -/
theorem housed_parse (t : Text) : (parse t).tree.Each Housed :=
  Inmates.sound.each_parse Watch.lenient_sees Phrase.lenient_fits Phrase.housed_fits rfl
    fun _ _ => trivial

/-! ## The names that prose is looked for among -/

section Uses

/-- Whether a tree in its place is a name that is looked up. -/
def Located.isUse (l : Located) : Bool := l.tree.isNode && l.tree.kind == .nameRef

namespace Tree

theorem locateAll_leaves {ts : List Tree} (h : ∀ t ∈ ts, t.isNode = false) (o d : Nat) :
    (locateAll o d ts).filter Located.isUse = [] := by
  induction ts generalizing o with
  | nil => simp [locateAll]
  | cons t ts ih =>
    obtain ⟨ht, hts⟩ := List.forall_mem_cons.1 h
    cases t with
    | leaf k => simp [locateAll, locate, Located.isUse, isNode, ih hts]
    | node kind us => cases ht

mutual

/-- The names that are looked up in a tree are its identifiers that are not under a
name that is bound. -/
theorem map_bareText_locate (o d : Nat) : ∀ {t : Tree}, t.Each Housed → t.Each NameAlone →
    (∀ k, t = .leaf k → k.kind ≠ .ident) →
    ((t.locate o d).filter Located.isUse).map (·.tree.bareText) = t.uses.map Token.text
  | .leaf k, _, _, hk => by
    simp [locate, Located.isUse, isNode, uses, hk k rfl]
  | .node kind ts, hhoused, halone, _ => by
    by_cases huse : kind = .nameRef
    · obtain ⟨k, rfl, hk⟩ := halone.1 huse
      subst huse
      simp [locate, locateAll, Located.isUse, isNode, Tree.kind, uses, usesOf, Kind.isBinding, hk,
        bareText, Token.isTrivia, Kind.isTrivia]
    · have hfirst : Located.isUse ⟨o, d, .node kind ts⟩ = false := by
        simp [Located.isUse, Tree.kind, huse]
      rw [locate, List.filter_cons, hfirst, uses]
      cases hbinding : kind.isBinding with
      | true =>
        have hleaves : ∀ t ∈ ts, t.isNode = false := by
          simpa [Housed, Kind.holdsIdentifiers, hbinding] using hhoused.1
        simp [locateAll_leaves hleaves]
      | false =>
        have hother : ∀ k : Token, .leaf k ∈ ts → k.kind ≠ .ident := by
          simpa [Housed, Kind.holdsIdentifiers, hbinding, huse] using hhoused.1
        exact map_bareText_locateAll o (d + 1) hhoused.2 halone.2 hother

theorem map_bareText_locateAll (o d : Nat) : ∀ {ts : List Tree}, EachOf Housed ts →
    EachOf NameAlone ts → (∀ k : Token, .leaf k ∈ ts → k.kind ≠ .ident) →
    ((locateAll o d ts).filter Located.isUse).map (·.tree.bareText) = (usesOf ts).map Token.text
  | [], _, _, _ => by simp [locateAll, usesOf]
  | t :: ts, hhoused, halone, hk => by
    rw [locateAll, usesOf, List.filter_append, List.map_append, List.map_append,
      map_bareText_locate o d hhoused.1 halone.1 fun k ht => hk k (by simp [ht]),
      map_bareText_locateAll (o + t.bytes) d hhoused.2 halone.2 fun k ht =>
        hk k (List.mem_cons_of_mem _ ht)]

end

end Tree

theorem eraseDups_filter {α : Type} [BEq α] [LawfulBEq α] (p : α → Bool) (xs : List α) :
    (xs.filter p).eraseDups = xs.eraseDups.filter p := by
  induction hn : xs.length using Nat.strongRecOn generalizing xs with
  | _ n ih =>
    cases xs with
    | nil => simp
    | cons x xs =>
      have hshort : (xs.filter fun y => !y == x).length < n := by
        have := List.length_filter_le (fun y => !y == x) xs
        simp only [List.length_cons] at hn
        omega
      have hrest := ih _ hshort _ rfl
      rw [List.eraseDups_cons]
      cases hx : p x with
      | true =>
        rw [List.filter_cons_of_pos hx, List.filter_cons_of_pos hx, List.eraseDups_cons, ← hrest,
          List.filter_filter, List.filter_filter]
        simp only [Bool.and_comm]
      | false =>
        have hne : ∀ y, (p y && !y == x) = p y := by
          intro y
          by_cases h : y = x <;> simp [h, hx]
        rw [List.filter_cons_of_neg (by simp [hx]), List.filter_cons_of_neg (by simp [hx]), ← hrest,
          List.filter_filter]
        simp only [hne]

theorem StrayProse.map_fst_keepFirst (es : List (Text × Nat)) :
    (keepFirst es).map Prod.fst = (es.map Prod.fst).eraseDups := by
  induction es with
  | nil => rfl
  | cons e es ih =>
    rw [keepFirst, List.map_cons, List.map_cons, List.eraseDups_cons, eraseDups_filter, ← ih,
      List.filter_map]
    rfl

/-- The names of stray prose are the identifiers that are prose and are not under a name
that is bound, each once, in the order in which they first occur. -/
theorem StrayProse.names_eq_uses (t : Text) :
    names (parse t) = (((parse t).tree.uses.map Token.text).filter Text.hasProse).eraseDups := by
  obtain ⟨parts, htree⟩ := parse_root t
  have huses := Tree.map_bareText_locate 0 0 (housed_parse t) (nameAlone_parse t) (by simp [htree])
  rw [names, occurrences, map_fst_keepFirst, ← huses, List.filter_map, List.filter_map,
    List.map_map]
  rfl

end Uses

/-! ## What names stand behind -/

/-- A set of places: behind a word of some kinds, and perhaps at the beginning. -/
structure Places where
  behind : KindSet
  first : Bool
deriving DecidableEq, Repr

namespace Places

/-- Whether a place is in the set. -/
def has (A : Places) (place : Option Kind) : Bool := place.elim A.first A.behind.has

/-- No places. -/
def none : Places := ⟨.none, false⟩

/-- The places in one of the sets. -/
def union (A B : Places) : Places := ⟨A.behind.union B.behind, A.first || B.first⟩

/-- The places among parts that stand behind others, whose last word stands in
`last`, when `A` are their places among themselves. -/
def after (last A : Places) : Places :=
  bif A.first then ⟨A.behind.union last.behind, last.first⟩ else A

/-- Whether the set is seen to be empty. -/
def isEmpty (A : Places) : Bool := A.behind.isEmpty && !A.first

/-- Whether the first set is seen to be a part of the second. -/
def within (A B : Places) : Bool := A.behind.within B.behind && (!A.first || B.first)

/-- The places in a list. -/
def ofList (ps : List (Option Kind)) : Places := ⟨.only (ps.filterMap id), ps.contains .none⟩

/-- Whether the sets are seen to have no place in common. -/
def apart (A B : Places) : Bool := (A.behind.inter B.behind).isEmpty && !(A.first && B.first)

variable {A B : Places} {p : Option Kind}

@[simp] theorem has_union : (A.union B).has p = (A.has p || B.has p) := by
  cases p <;> simp [has, union]

theorem has_of_within (h : A.within B = true) (hp : A.has p = true) : B.has p = true := by
  simp only [within, Bool.and_eq_true, Bool.or_eq_true, Bool.not_eq_true'] at h
  cases p with
  | none => exact h.2.resolve_left (by simpa [has] using hp)
  | some k => exact KindSet.has_of_within h.1 hp

theorem isEmpty_of_has (h : A.has p = true) : A.isEmpty = false := by
  cases p with
  | none => simp_all [has, isEmpty]
  | some k => simp [isEmpty, KindSet.isEmpty_of_has (a := A.behind) h]

@[simp] theorem has_ofList {ps : List (Option Kind)} : (ofList ps).has p = ps.contains p := by
  cases p <;> simp [has, ofList]

theorem not_has_of_apart (h : A.apart B = true) (hA : A.has p = true) : B.has p = false := by
  simp only [apart, Bool.and_eq_true, Bool.not_eq_true'] at h
  cases p with
  | none => simp_all [has]
  | some k =>
    have := KindSet.not_has_of_isEmpty (k := k) h.1
    simp_all [has]

/-- A place behind trees and behind their last word is a place behind the two. -/
theorem has_after {last : Places} {q : Option Kind} (hlast : last.has q = true)
    (hp : A.has p = true) : (last.after A).has (p.or q) = true := by
  cases p with
  | none =>
    have hfirst : A.first = true := hp
    cases q <;> simp_all [has, after]
  | some k =>
    cases hfirst : A.first <;> simp_all [has, after]

end Places

namespace Tree

variable {ts us : List Tree}

@[simp] theorem lastWord?_nil : lastWord? [] = none := rfl

@[simp] theorem lastWord?_append : lastWord? (ts ++ us) = (lastWord? us).or (lastWord? ts) := by
  simp [lastWord?, List.getLast?_append]

theorem lastWord?_singleton {t : Tree} (h : t.kind.isTrivia = false) :
    lastWord? [t] = some t.kind := by simp [lastWord?, h]

theorem lastWord?_trivia {ks : List Token} (h : ∀ k ∈ ks, k.isTrivia = true) :
    lastWord? (ks.map leaf) = none := by
  simp only [lastWord?, List.getLast?_eq_none_iff, List.filter_eq_nil_iff, List.mem_map]
  rintro k ⟨t, ⟨j, hj, rfl⟩, rfl⟩
  have : j.kind.isTrivia = true := h j hj
  simp [Tree.kind, this]

end Tree

/-- What is told of parts: where names that are bound stand among them, where other
nodes do, and what their last word is. -/
structure Row where
  bindings : Places
  others : Places
  last : Places
deriving DecidableEq, Repr

namespace Row

/-- A node by itself. -/
def single (kind : Kind) : Row :=
  let here : Places := ⟨.none, true⟩
  bif kind.isBinding then ⟨here, .none, ⟨.only [kind], false⟩⟩
  else ⟨.none, here, ⟨.only [kind], false⟩⟩

/-- A node that is not a name that is bound. -/
def plain : Row := ⟨.none, ⟨.none, true⟩, ⟨.all, false⟩⟩

/-- Nodes and words, and no name that is bound. -/
def mixed : Row := ⟨.none, ⟨.all, true⟩, ⟨.all, true⟩⟩

/-- What a phrase builds. -/
def ofPhrase : Phrase → Row
  | .name => single .name
  | .dottedName => single .dottedName
  | .function => ⟨⟨.only [.defKw], false⟩, ⟨.allBut [.defKw], false⟩, ⟨.all, false⟩⟩
  | .classParts => ⟨⟨.only [.classKw], false⟩, ⟨.allBut [.classKw], false⟩, ⟨.all, false⟩⟩
  | .program | .statement | .unexpectedIndent | .simpleStatements | .elseClause
  | .bracedItems | .dictItem | .setItem | .argumentsFrom _ | .slices | .sliceItem => mixed
  | _ => plain

/-- The account of names that are bound. -/
def account : Account Row where
  empty := ⟨.none, .none, ⟨.none, true⟩⟩
  nothing := ⟨.none, .none, .none⟩
  append a b := ⟨a.bindings.union (a.last.after b.bindings), a.others.union (a.last.after b.others),
    a.last.after b.last⟩
  union a b := ⟨a.bindings.union b.bindings, a.others.union b.others, a.last.union b.last⟩
  within a b := a.bindings.within b.bindings && a.others.within b.others && a.last.within b.last
  word K := ⟨.none, .none, ⟨K, K.has .endOfFile⟩⟩
  node kind a := bif a.last.isEmpty then ⟨.none, .none, .none⟩ else single kind
  mayBe kind a := a.last.isEmpty ||
    (!kind.isTrivia && a.bindings.within (.ofList kind.namePlaces) &&
      a.others.apart (.ofList kind.namePlaces))
  phrase := ofPhrase

/-- Nodes stand where the row says, and so does the last word. -/
structure Tells (a : Row) (ts : List Tree) : Prop where
  nodes : ∀ before t after, ts = before ++ t :: after → t.isNode = true →
    (bif t.kind.isBinding then a.bindings else a.others).has (Tree.lastWord? before) = true
  last : a.last.has (Tree.lastWord? ts) = true

end Row

/-- A node is a name that is bound just if it stands in a place of those. -/
def Placed (kind : Kind) (ts : List Tree) : Prop :=
  ∀ before t after, ts = before ++ t :: after → t.isNode = true →
    (t.kind.isBinding = true ↔ Tree.lastWord? before ∈ kind.namePlaces)

namespace Row

variable {a b : Row} {ts us : List Tree}

theorem Tells.append (h : a.Tells ts) (h' : b.Tells us) : (account.append a b).Tells (ts ++ us) := by
  refine ⟨fun before t after heq hnode => ?_, ?_⟩
  · -- The node is among the trees behind, or among those in front.
    rcases List.append_eq_append_iff.1 heq with ⟨mid, rfl, rfl⟩ | ⟨mid, rfl, hmid⟩
    · have := Places.has_after h.last (h'.nodes mid t after rfl hnode)
      rw [Tree.lastWord?_append]
      cases hb : t.kind.isBinding <;> simp_all [account]
    · cases mid with
      | nil =>
        have := Places.has_after h.last (h'.nodes [] t after (by simpa using hmid.symm) hnode)
        cases hb : t.kind.isBinding <;> simp_all [account]
      | cons u mid =>
        obtain ⟨rfl, -⟩ := List.cons.inj hmid
        have := h.nodes before t mid rfl hnode
        cases hb : t.kind.isBinding <;> simp_all [account]
  · rw [Tree.lastWord?_append]
    exact Places.has_after h.last h'.last

theorem tells_leaves (ks : List Token) (h : a.last.has (Tree.lastWord? (ks.map .leaf)) = true) :
    a.Tells (ks.map .leaf) := by
  refine ⟨fun before t after heq hnode => ?_, h⟩
  obtain ⟨k, -, rfl⟩ := List.mem_map.1 (heq ▸ List.mem_append_right before List.mem_cons_self)
  cases hnode

theorem tells_single {kind : Kind} (h : kind.isTrivia = false) :
    (single kind).Tells [.node kind ts] := by
  refine ⟨fun before t after heq hnode => ?_, ?_⟩
  · obtain ⟨rfl, rfl⟩ : before = [] ∧ t = .node kind ts := by
      cases before with
      | nil => exact ⟨rfl, (List.cons.inj heq).1.symm⟩
      | cons u before => simp at heq
    cases hb : kind.isBinding <;> simp [single, Tree.kind, hb, Places.has]
  · rw [Tree.lastWord?_singleton (by exact h)]
    cases hb : kind.isBinding <;> simp [single, Tree.kind, hb, Places.has]

theorem Tells.union_left (h : a.Tells ts) : (account.union a b).Tells ts := by
  refine ⟨fun before t after heq hnode => ?_, by simp [account, h.last]⟩
  have := h.nodes before t after heq hnode
  cases hb : t.kind.isBinding <;> simp_all [account]

theorem Tells.union_right (h : b.Tells ts) : (account.union a b).Tells ts := by
  refine ⟨fun before t after heq hnode => ?_, by simp [account, h.last]⟩
  have := h.nodes before t after heq hnode
  cases hb : t.kind.isBinding <;> simp_all [account]

theorem Tells.within (hab : account.within a b = true) (h : a.Tells ts) : b.Tells ts := by
  simp only [account, Bool.and_eq_true] at hab
  refine ⟨fun before t after heq hnode => ?_, Places.has_of_within hab.2 h.last⟩
  have := h.nodes before t after heq hnode
  cases hb : t.kind.isBinding with
  | false => exact Places.has_of_within hab.1.2 (by simpa [hb] using this)
  | true => exact Places.has_of_within hab.1.1 (by simpa [hb] using this)

theorem Tells.placed {kind : Kind} (hmay : account.mayBe kind a = true) (h : a.Tells ts) :
    Placed kind ts := by
  have hlast := Places.isEmpty_of_has h.last
  simp only [account, hlast, Bool.false_or, Bool.and_eq_true] at hmay
  intro before t after heq hnode
  have hplace := h.nodes before t after heq hnode
  cases hb : t.kind.isBinding with
  | false =>
    have := Places.not_has_of_apart hmay.2 (by simpa [hb] using hplace)
    simpa using this
  | true =>
    have := Places.has_of_within hmay.1.2 (by simpa [hb] using hplace)
    simpa using this

theorem sound : account.Sound Tells Placed where
  empty := tells_leaves [] rfl
  append := Tells.append
  trivia := by
    intro a ts ks h hks
    refine ⟨fun before t after heq hnode => ?_, ?_⟩
    · rcases List.append_eq_append_iff.1 heq with ⟨mid, rfl, hmid⟩ | ⟨mid, rfl, hmid⟩
      · obtain ⟨k, -, rfl⟩ := List.mem_map.1 (hmid ▸ List.mem_append_right mid List.mem_cons_self)
        cases hnode
      · cases mid with
        | nil =>
          have hmid : t :: after = ks.map .leaf := hmid
          obtain ⟨k, -, rfl⟩ := List.mem_map.1 (hmid ▸ List.mem_cons_self)
          cases hnode
        | cons u mid =>
          obtain ⟨rfl, -⟩ := List.cons.inj hmid
          exact h.nodes before t mid rfl hnode
    · rw [Tree.lastWord?_append, Tree.lastWord?_trivia hks, Option.none_or]
      exact h.last
  left := Tells.union_left
  right := Tells.union_right
  within := Tells.within
  word := by
    intro K k hK hk
    refine tells_leaves [k] ?_
    rw [List.map_singleton, Tree.lastWord?_singleton (by exact hk)]
    exact hK
  noWord hK := tells_leaves [] hK
  node := by
    intro kind a ts hmay h
    have hlast := Places.isEmpty_of_has h.last
    refine ⟨h.placed hmay, ?_⟩
    simp only [account, hlast, Bool.false_or, Bool.and_eq_true, Bool.not_eq_true'] at hmay
    simpa [account, hlast] using tells_single hmay.1.1

end Row

theorem Phrase.row_fits (p : Phrase) : Row.account.fitsPhrase Watch.faultless p = true := by
  revert p
  decide +kernel

/-- In a text that is a program the names that are bound are told by where they stand. -/
theorem placed_parse {t : Text} (h : (parse t).ok = true) : (parse t).tree.Each Placed :=
  Row.sound.each_of_ok Phrase.row_fits rfl h

/-! ## All identifiers -/

/-- The check for stray prose misses no identifier. In every text, each identifier is a
part of a name that is looked up, a name that is bound or a path of names, and a name
that is looked up is just one identifier; so the names of stray prose are the
identifiers of prose that are not under a name that is bound or a path. In a text that
is a program those are the names of attributes, of arguments passed by keyword, of
parameters, functions, classes, modules and aliases, and those that `global`, `nonlocal`
and `except` bind: they stand in the places of such names, and no other node does. -/
theorem names_miss_nothing (t : Text) :
    (∀ l ∈ (parse t).tree.locate 0 0, ∀ k : Token, .leaf k ∈ l.tree.parts → k.kind = .ident →
      l.tree.kind ∈ [.nameRef, .name, .dottedName]) ∧
    (∀ l ∈ (parse t).tree.locate 0 0, l.tree.isNode = true → l.tree.kind = .nameRef →
      ∃ k : Token, l.tree.parts = [.leaf k] ∧ k.kind = .ident) ∧
    StrayProse.names (parse t) =
      (((parse t).tree.uses.map Token.text).filter Text.hasProse).eraseDups ∧
    ((parse t).ok = true → ∀ l ∈ (parse t).tree.locate 0 0, ∀ before u after,
      l.tree.parts = before ++ u :: after → u.isNode = true →
        (u.kind ∈ [.name, .dottedName] ↔ Tree.lastWord? before ∈ l.tree.kind.namePlaces)) := by
  have node_of_parts {l : Located} {u : Tree} (hu : u ∈ l.tree.parts) : l.tree.isNode = true := by
    cases hl : l.tree with
    | leaf k => simp [hl, Tree.parts] at hu
    | node kind ts => rfl
  refine ⟨fun l hl k hk hident => ?_, fun l hl hnode hkind => ?_, StrayProse.names_eq_uses t, ?_⟩
  · have hhoused := (Tree.each_iff_locate 0 0 _).1 (housed_parse t) l hl (node_of_parts hk)
    cases hholds : l.tree.kind.holdsIdentifiers with
    | true => simpa [Kind.holdsIdentifiers, Kind.isBinding, or_assoc] using hholds
    | false =>
      rw [Housed, hholds] at hhoused
      exact absurd hident (hhoused k hk)
  · exact (Tree.each_iff_locate 0 0 _).1 (nameAlone_parse t) l hl hnode hkind
  · intro hok l hl before u after hparts hnode
    have hu : u ∈ l.tree.parts := by simp [hparts]
    have hplaced := (Tree.each_iff_locate 0 0 _).1 (placed_parse hok) l hl (node_of_parts hu)
    simpa [Kind.isBinding] using hplaced before u after hparts hnode

/-- A program that binds names of prose and looks up others. -/
def naming : Text :=
  "from màu.sắc import đỏ as tô\ndef hàm(số, *dãy):\n    global tổng\n    tổng = số.lớn(cỡ=chữ, x=y)\n".toList

theorem names_miss_nothing_naming : (parse naming).ok = true ∧
    StrayProse.names (parse naming) = ["tổng".toList, "số".toList, "chữ".toList] ∧
    ∀ l ∈ (parse naming).tree.locate 0 0, ∀ before u after,
      l.tree.parts = before ++ u :: after → u.isNode = true →
        (u.kind ∈ [.name, .dottedName] ↔ Tree.lastWord? before ∈ l.tree.kind.namePlaces) := by
  have hok : (parse naming).ok = true := by decide +kernel
  obtain ⟨-, -, hnames, hplaces⟩ := names_miss_nothing naming
  exact ⟨hok, by rw [hnames]; decide +kernel, hplaces hok⟩

end SceneGate
