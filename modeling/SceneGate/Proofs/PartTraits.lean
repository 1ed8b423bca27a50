/-
Traits of parts. A trait is something that parts which stand side by side may be like, such
as to begin with one word and `=`; and parts are like that only if those in front and those
behind are like one of a few pairs (`Trait.splits`). So an account of the traits that parts
may have can be put together part by part.

In the tree of a program nothing but a list of arguments or of parameters opens with a
bracket, a word and `=`; these lists stand only in calls and definitions; and what stands
in front of arguments or a dot is a name, an attribute, or ends with a word that closes it
(`traits_parse`).
-/
import SceneGate.Proofs.Accounts
import SceneGate.Proofs.LaidOut
import SceneGate.Proofs.Molds

namespace SceneGate

/-- What words may be like at their front. -/
inductive Front where
  | any
  /-- There is no word. -/
  | none
  /-- There is one word, and no more. -/
  | one
  /-- The first word is `=`. -/
  | eq
  /-- The second word is `=`. -/
  | thenEq
deriving DecidableEq, Repr

namespace Front

/-- What words are like if those before and those behind are like one of the pairs. -/
def splits : Front → List (Front × Front)
  | any => [(any, any)]
  | none => [(none, none)]
  | one => [(one, none), (none, one)]
  | eq => [(eq, any), (none, eq)]
  | thenEq => [(thenEq, any), (one, eq), (none, thenEq)]

def all : List Front := [any, none, one, eq, thenEq]

/-- Words of these kinds are like this. -/
def Holds : Front → List Kind → Prop
  | any, _ => True
  | none, ks => ks = []
  | one, ks => ∃ k, ks = [k]
  | eq, ks => ks.head? = some .eq
  | thenEq, ks => ks.tail.head? = some .eq

variable {w : Front} {ks ls : List Kind}

theorem mem_all (w : Front) : w ∈ all := by cases w <;> decide

theorem exists_split (h : w.Holds (ks ++ ls)) : ∃ e ∈ w.splits, e.1.Holds ks ∧ e.2.Holds ls := by
  cases w with
  | any => exact ⟨_, List.mem_singleton.2 rfl, trivial, trivial⟩
  | none => exact ⟨_, List.mem_singleton.2 rfl, List.append_eq_nil_iff.1 h⟩
  | one =>
    obtain ⟨k, hk⟩ := h
    rcases List.append_eq_singleton_iff.1 hk with ⟨rfl, rfl⟩ | ⟨rfl, rfl⟩
    · exact ⟨(none, one), by decide, rfl, k, rfl⟩
    · exact ⟨(one, none), by decide, ⟨k, rfl⟩, rfl⟩
  | eq =>
    cases ks with
    | nil => exact ⟨(none, eq), by decide, rfl, h⟩
    | cons k ks => exact ⟨(eq, any), by decide, h, trivial⟩
  | thenEq =>
    match ks with
    | [] => exact ⟨(none, thenEq), by decide, rfl, h⟩
    | [k] => exact ⟨(one, eq), by decide, ⟨k, rfl⟩, h⟩
    | k :: k' :: ks => exact ⟨(thenEq, any), by decide, h, trivial⟩

end Front

/-- What parts that stand side by side may be like. -/
inductive Trait where
  /-- There is nothing but trivia. -/
  | empty
  /-- There is more than trivia. -/
  | filled
  /-- The words are like this. -/
  | words (w : Front)
  /-- Behind an opening bracket that is one of the parts, the words are like this. -/
  | opened (w : Front)
  /-- An opening bracket is one of the parts. -/
  | bracket
  /-- An opening bracket is one of the parts, and there is more than trivia in front of it. -/
  | late
  /-- A list of arguments is one of the parts. -/
  | arguments
  /-- A list of parameters with a bracket is one of the parts. -/
  | parameters
  /-- The last word closes no operand. -/
  | loose
  /-- The first part is no operand. -/
  | looseFirst
deriving DecidableEq, Repr

/-- Kinds of words that close an operand. -/
def Kind.closers : List Kind := [
  .rParen, .rBracket, .rBrace, .number, .string, .trueKw, .falseKw, .noneKw, .ellipsis]

namespace Tree

/-- The kinds of the words in parts that stand side by side. -/
def wordKinds (ts : List Tree) : List Kind := (significant (tokensOf ts)).map Token.kind

/-- A tree that arguments or a dot may stand behind. -/
def IsOperand (t : Tree) : Prop :=
  t.kind = .nameRef ∨ t.kind = .attributeExpr ∨ ∀ k ∈ (wordKinds [t]).getLast?, k ∈ Kind.closers

variable {ts us : List Tree}

@[simp] theorem wordKinds_nil : wordKinds [] = [] := rfl

@[simp] theorem wordKinds_append (ts us : List Tree) :
    wordKinds (ts ++ us) = wordKinds ts ++ wordKinds us := by
  simp [wordKinds]

@[simp] theorem wordKinds_node (kind : Kind) (ts : List Tree) :
    wordKinds [node kind ts] = wordKinds ts := by
  simp [wordKinds]

theorem wordKinds_leaf {k : Token} (h : k.isTrivia = false) : wordKinds [leaf k] = [k.kind] := by
  simp [wordKinds, significant, h]

theorem wordKinds_trivia {ks : List Token} (h : ∀ k ∈ ks, k.isTrivia = true) :
    wordKinds (ks.map leaf) = [] := by
  simp [wordKinds, significant_of_trivia h]

end Tree

namespace Trait

/-- What parts are like if those before and those behind are like one of the pairs. -/
def splits : Trait → List (Trait × Trait)
  | empty => [(empty, empty)]
  | words w => w.splits.map fun e => (words e.1, words e.2)
  | opened w => (words .any, opened w) :: w.splits.map fun e => (opened e.1, words e.2)
  | filled => [(filled, words .any), (words .any, filled)]
  | bracket => [(bracket, words .any), (words .any, bracket)]
  | late => [(late, words .any), (words .any, late), (filled, bracket)]
  | arguments => [(arguments, words .any), (words .any, arguments)]
  | parameters => [(parameters, words .any), (words .any, parameters)]
  | loose => [(loose, words .none), (words .any, loose)]
  | looseFirst => [(looseFirst, words .any), (empty, looseFirst)]

def all : List Trait := [empty, filled, bracket, late, arguments, parameters, loose, looseFirst] ++
  Front.all.map words ++ Front.all.map opened

/-- The parts are like this. -/
def Holds : Trait → List Tree → Prop
  | empty, ts => Tree.solid ts = []
  | words w, ts => w.Holds (Tree.wordKinds ts)
  | opened w, ts => ∃ front k back, ts = front ++ .leaf k :: back ∧ k.kind = .lParen ∧
      w.Holds (Tree.wordKinds back)
  | filled, ts => Tree.solid ts ≠ []
  | bracket, ts => ∃ k, .leaf k ∈ ts ∧ k.kind = .lParen
  | late, ts => ∃ front k back, ts = front ++ .leaf k :: back ∧ k.kind = .lParen ∧
      Tree.solid front ≠ []
  | arguments, ts => ∃ us, .node .argList us ∈ ts
  | parameters, ts => ∃ us, .node .paramList us ∈ ts ∧ ∃ k, .leaf k ∈ us ∧ k.kind = .lParen
  | loose, ts => ∃ k ∈ (Tree.wordKinds ts).getLast?, k ∉ Kind.closers
  | looseFirst, ts => ∃ t ∈ (Tree.solid ts).head?, ¬ t.IsOperand

variable {t : Trait} {ts us : List Tree}

theorem mem_all (t : Trait) : t ∈ all := by
  cases t with
  | words w => exact List.mem_append_left _ (List.mem_append_right _ (List.mem_map_of_mem w.mem_all))
  | opened w => exact List.mem_append_right _ (List.mem_map_of_mem w.mem_all)
  | _ => decide

theorem exists_split (h : t.Holds (ts ++ us)) :
    ∃ e ∈ t.splits, e.1.Holds ts ∧ e.2.Holds us := by
  cases t with
  | empty =>
    refine ⟨_, List.mem_singleton.2 rfl, ?_⟩
    simpa [Holds, Tree.solid] using h
  | words w =>
    simp only [Holds, Tree.wordKinds_append] at h
    obtain ⟨e, he, hts, hus⟩ := Front.exists_split h
    exact ⟨(words e.1, words e.2), List.mem_map_of_mem he, hts, hus⟩
  | opened w =>
    obtain ⟨front, k, back, hsplit, hk, hw⟩ := h
    rcases List.append_eq_append_iff.1 hsplit with ⟨mid, rfl, hus⟩ | ⟨mid, rfl, hmid⟩
    · exact ⟨_, List.mem_cons_self, trivial, mid, k, back, hus, hk, hw⟩
    · cases mid with
      | nil => exact ⟨_, List.mem_cons_self, trivial, [], k, back, by simpa using hmid.symm, hk, hw⟩
      | cons u mid =>
        rw [List.cons_append, List.cons.injEq] at hmid
        obtain ⟨rfl, rfl⟩ := hmid
        rw [Tree.wordKinds_append] at hw
        obtain ⟨e, he, hmid, hus⟩ := Front.exists_split hw
        exact ⟨(opened e.1, words e.2), List.mem_cons_of_mem _ (List.mem_map_of_mem he),
          ⟨front, k, mid, rfl, hk, hmid⟩, hus⟩
  | filled =>
    rw [Holds, Mold.solid_append] at h
    by_cases hts : Tree.solid ts = []
    · exact ⟨(words .any, filled), by decide, trivial, by simpa [Holds, hts] using h⟩
    · exact ⟨(filled, words .any), by decide, hts, trivial⟩
  | late =>
    obtain ⟨front, k, back, hsplit, hk, hfront⟩ := h
    rcases List.append_eq_append_iff.1 hsplit with ⟨mid, rfl, hus⟩ | ⟨mid, rfl, hmid⟩
    · rw [Mold.solid_append] at hfront
      by_cases hts : Tree.solid ts = []
      · exact ⟨(words .any, late), by decide, trivial, mid, k, back, hus, hk, by simpa [hts] using hfront⟩
      · exact ⟨(filled, bracket), by decide, hts, k, by simp [hus], hk⟩
    · cases mid with
      | nil =>
        refine ⟨(filled, bracket), by decide, by simpa [Holds] using hfront, k, ?_, hk⟩
        rw [← show _ = us from hmid]
        exact List.mem_cons_self
      | cons u mid =>
        rw [List.cons_append, List.cons.injEq] at hmid
        obtain ⟨rfl, -⟩ := hmid
        exact ⟨(late, words .any), by decide, ⟨front, k, mid, rfl, hk, hfront⟩, trivial⟩
  | bracket =>
    obtain ⟨k, hmem, hk⟩ := h
    rcases List.mem_append.1 hmem with hmem | hmem
    · exact ⟨(bracket, words .any), by decide, ⟨k, hmem, hk⟩, trivial⟩
    · exact ⟨(words .any, bracket), by decide, trivial, k, hmem, hk⟩
  | arguments =>
    obtain ⟨vs, hmem⟩ := h
    rcases List.mem_append.1 hmem with hmem | hmem
    · exact ⟨(arguments, words .any), by decide, ⟨vs, hmem⟩, trivial⟩
    · exact ⟨(words .any, arguments), by decide, trivial, vs, hmem⟩
  | parameters =>
    obtain ⟨vs, hmem, hvs⟩ := h
    rcases List.mem_append.1 hmem with hmem | hmem
    · exact ⟨(parameters, words .any), by decide, ⟨vs, hmem, hvs⟩, trivial⟩
    · exact ⟨(words .any, parameters), by decide, trivial, vs, hmem, hvs⟩
  | loose =>
    obtain ⟨k, hlast, hk⟩ := h
    rw [Tree.wordKinds_append, List.getLast?_append] at hlast
    cases hus : (Tree.wordKinds us).getLast? with
    | none =>
      refine ⟨(loose, words .none), by decide, ⟨k, by simpa [hus] using hlast, hk⟩, ?_⟩
      exact List.getLast?_eq_none_iff.1 hus
    | some j =>
      refine ⟨(words .any, loose), by decide, trivial, j, hus, ?_⟩
      obtain rfl : j = k := by simpa [hus] using hlast
      exact hk
  | looseFirst =>
    obtain ⟨u, hfirst, hu⟩ := h
    rw [Mold.solid_append, List.head?_append] at hfirst
    cases hts : (Tree.solid ts).head? with
    | none =>
      refine ⟨(empty, looseFirst), by decide, List.head?_eq_none_iff.1 hts, u, ?_, hu⟩
      rwa [hts, Option.none_or] at hfirst
    | some v =>
      rw [hts, Option.some_or] at hfirst
      exact ⟨(looseFirst, words .any), by decide, ⟨v, hts, Option.some.inj hfirst ▸ hu⟩, trivial⟩

/-- Trivia is like nothing but no words. -/
theorem of_trivia {ks : List Token} (hks : ∀ k ∈ ks, k.isTrivia = true)
    (h : t.Holds (ks.map .leaf)) : t ∈ [empty, words .any, words .none] := by
  have hwords := Tree.wordKinds_trivia hks
  have hleaf : ∀ k, .leaf k ∈ ks.map Tree.leaf → k.kind ≠ .lParen := by
    intro k hk hkind
    obtain ⟨j, hj, hleaf⟩ := List.mem_map.1 hk
    cases hleaf
    simpa [Token.isTrivia, hkind, Kind.isTrivia] using hks k hj
  have hnode : ∀ kind us, .node kind us ∉ ks.map Tree.leaf := by simp
  cases t with
  | empty => decide
  | words w =>
    simp only [Holds, hwords] at h
    cases w with
    | any | none => decide
    | one => obtain ⟨k, hk⟩ := h; cases hk
    | eq | thenEq => cases h
  | opened w =>
    obtain ⟨front, k, back, hsplit, hk, -⟩ := h
    exact absurd hk (hleaf k (by simp [hsplit]))
  | filled => exact absurd (Mold.solid_trivia hks) h
  | bracket =>
    obtain ⟨k, hmem, hk⟩ := h
    exact absurd hk (hleaf k hmem)
  | late =>
    obtain ⟨front, k, back, hsplit, hk, -⟩ := h
    exact absurd hk (hleaf k (by simp [hsplit]))
  | arguments =>
    obtain ⟨us, hmem⟩ := h
    exact absurd hmem (hnode _ us)
  | parameters =>
    obtain ⟨us, hmem, -⟩ := h
    exact absurd hmem (hnode _ us)
  | loose =>
    obtain ⟨k, hlast, -⟩ := h
    simp [hwords] at hlast
  | looseFirst =>
    obtain ⟨u, hfirst, -⟩ := h
    simp [Mold.solid_trivia hks] at hfirst

/-- Trivia behind parts changes no trait. -/
theorem Holds.of_append_trivia {ks : List Token} (hks : ∀ k ∈ ks, k.isTrivia = true)
    (h : t.Holds (ts ++ ks.map .leaf)) : t.Holds ts := by
  obtain ⟨e, he, hts, hback⟩ := exists_split h
  have hall : ∀ t ∈ all, ∀ e ∈ t.splits, e.2 ∈ [empty, words .any, words .none] → e.1 = t := by decide
  rwa [hall t t.mem_all e he (of_trivia hks hback)] at hts

end Trait

/-! ## The account -/

/-- The traits that parts may have. -/
abbrev Traits := Trait → Bool

namespace Trait

/-- The traits that a word of one of the kinds may have. -/
def ofWord (K : KindSet) : Traits
  | words .any | words .one | filled => true
  | empty | words .none => K.has .endOfFile
  | words .eq => K.has .eq
  | bracket | opened .any | opened .none => K.has .lParen
  | loose | looseFirst => !K.within (.only Kind.closers)
  | _ => false

/-- The traits that a node may have if its parts may have these. -/
def ofNode (kind : Kind) (a : Traits) : Traits
  | words w => a (words w)
  | filled => true
  | loose => a loose
  | arguments => kind == .argList
  | parameters => kind == .paramList && a bracket
  | looseFirst => kind != .nameRef && kind != .attributeExpr && a loose
  | _ => false

/-- The traits that the parts of a node do not have. -/
def barred (kind : Kind) : List Trait :=
  (if kind ∈ [.argList, .paramList] then [] else [opened .thenEq]) ++
    (if kind ∈ [.callExpr, .classDef] then [] else [arguments]) ++
    (if kind = .functionDef then [] else [parameters]) ++
    (if kind = .paramList then [late] else []) ++
    if kind ∈ [.callExpr, .attributeExpr] then [looseFirst] else []

/-- The traits of what phrases build. -/
def phrase : Phrase → List Trait
  | .name => [filled, words .any, words .one, loose, looseFirst]
  | .nameRef => [filled, words .any, words .one, loose]
  | .atom => [filled, words .any, words .none, words .one, loose]
  | .parenthesized | .list | .braced => [filled, words .any]
  | .arguments => [filled, words .any, arguments]
  | .parameters => [filled, words .any, parameters]
  | .function => [filled, words .any, loose, looseFirst, parameters]
  | .classParts => [filled, words .any, loose, looseFirst, arguments]
  | .parameter _ | .argumentsFrom _ =>
    [empty, filled, words .any, words .none, words .one, words .thenEq, loose, looseFirst]
  | .program | .statement | .unexpectedIndent | .block | .simpleStatements | .smallStatement
  | .expressionStatement | .withStatement =>
    [empty, filled, words .any, words .none, words .one, words .eq, words .thenEq, loose, looseFirst]
  | _ => [empty, filled, words .any, words .none, words .one, loose, looseFirst]

/-- The account of the traits that parts may have. -/
def account : Account Traits where
  empty t := [empty, words .any, words .none].contains t
  nothing _ := false
  append a b t := t.splits.any fun e => a e.1 && b e.2
  union a b t := a t || b t
  within a b := all.all fun t => !a t || b t
  word := ofWord
  node := ofNode
  mayBe kind a := (barred kind).all fun t => !a t
  phrase p t := (phrase p).contains t

/-- The parts have no traits but these. -/
def Tells (a : Traits) (ts : List Tree) : Prop := ∀ t : Trait, t.Holds ts → a t = true

/-- The parts of a node have none of the traits that are barred. -/
def Untraited (kind : Kind) (ts : List Tree) : Prop := ∀ t ∈ barred kind, ¬ t.Holds ts

variable {t : Trait} {ts us : List Tree} {kind : Kind}

theorem tells_word {K : KindSet} {k : Token} (hK : K.has k.kind = true) (hk : k.isTrivia = false) :
    Tells (ofWord K) [.leaf k] := by
  have hwords := Tree.wordKinds_leaf hk
  have hsolid : Tree.solid [.leaf k] = [.leaf k] := by simp [Tree.solid, Tree.isTrivia, hk]
  have hcloser (hnot : k.kind ∉ Kind.closers) : (!K.within (.only Kind.closers)) = true := by
    rw [Bool.not_eq_true', Bool.eq_false_iff]
    exact fun hwithin => hnot (by simpa using KindSet.has_of_within hwithin hK)
  intro t h
  cases t with
  | empty => simp [Holds, hsolid] at h
  | filled => rfl
  | words w =>
    simp only [Holds, hwords] at h
    cases w with
    | any | one => rfl
    | none => cases h
    | eq =>
      rwa [show k.kind = .eq by simpa [Front.Holds] using h] at hK
    | thenEq => cases h
  | opened w =>
    obtain ⟨front, j, back, hsplit, hj, hw⟩ := h
    obtain ⟨-, rfl, rfl⟩ : front = [] ∧ j = k ∧ back = [] := by
      simpa [List.singleton_eq_append_iff] using hsplit
    rw [hj] at hK
    cases w with
    | any | none => exact hK
    | one => obtain ⟨i, hi⟩ := hw; cases hi
    | eq | thenEq => cases hw
  | bracket =>
    obtain ⟨j, hmem, hj⟩ := h
    cases List.mem_singleton.1 hmem
    rwa [hj] at hK
  | late =>
    obtain ⟨front, j, back, hsplit, -, hfront⟩ := h
    obtain ⟨rfl, -, -⟩ : front = [] ∧ j = k ∧ back = [] := by
      simpa [List.singleton_eq_append_iff] using hsplit
    exact absurd rfl hfront
  | arguments =>
    obtain ⟨us, hmem⟩ := h
    cases List.mem_singleton.1 hmem
  | parameters =>
    obtain ⟨us, hmem, -⟩ := h
    cases List.mem_singleton.1 hmem
  | loose =>
    obtain ⟨j, hlast, hj⟩ := h
    obtain rfl : k.kind = j := by simpa [hwords] using hlast
    exact hcloser hj
  | looseFirst =>
    obtain ⟨u, hfirst, hu⟩ := h
    obtain rfl : .leaf k = u := by simpa [hsolid] using hfirst
    refine hcloser fun hcloses => hu (.inr (.inr ?_))
    simpa [hwords] using hcloses

theorem tells_nothing {K : KindSet} (hK : K.has .endOfFile = true) : Tells (ofWord K) [] := by
  intro t h
  have hmem := @of_trivia t [] (by simp) h
  simp only [List.mem_cons, List.not_mem_nil, or_false] at hmem
  rcases hmem with rfl | rfl | rfl
  · exact hK
  · rfl
  · exact hK

theorem tells_node {a : Traits} (h : Tells a ts) : Tells (ofNode kind a) [.node kind ts] := by
  intro t ht
  cases t with
  | empty => cases ht
  | filled => rfl
  | words w =>
    rw [Holds, Tree.wordKinds_node] at ht
    exact h (words w) ht
  | opened w =>
    obtain ⟨front, k, back, hsplit, -⟩ := ht
    simp [List.singleton_eq_append_iff] at hsplit
  | bracket =>
    obtain ⟨k, hmem, -⟩ := ht
    cases List.mem_singleton.1 hmem
  | late =>
    obtain ⟨front, k, back, hsplit, -⟩ := ht
    simp [List.singleton_eq_append_iff] at hsplit
  | arguments =>
    obtain ⟨us, hmem⟩ := ht
    cases List.mem_singleton.1 hmem
    rfl
  | parameters =>
    obtain ⟨us, hmem, hus⟩ := ht
    cases List.mem_singleton.1 hmem
    exact h bracket hus
  | loose =>
    rw [Holds, Tree.wordKinds_node] at ht
    exact h loose ht
  | looseFirst =>
    obtain ⟨u, hfirst, hu⟩ := ht
    obtain rfl : .node kind ts = u := Option.some.inj hfirst
    simp only [Tree.IsOperand, Tree.kind, Tree.wordKinds_node, not_or, not_forall] at hu
    obtain ⟨hname, hattribute, k, hlast, hk⟩ := hu
    have hloose := h loose ⟨k, hlast, hk⟩
    simp [ofNode, hname, hattribute, hloose]

theorem sound : account.Sound Tells Untraited where
  empty t h := by simpa [account] using @of_trivia t [] (by simp) h
  append := by
    intro a b ts us ha hb t h
    obtain ⟨e, he, hts, hus⟩ := exists_split h
    simp only [account, List.any_eq_true, Bool.and_eq_true]
    exact ⟨e, he, ha _ hts, hb _ hus⟩
  trivia ks h hks t ht := h t (ht.of_append_trivia hks)
  left h t ht := by simp [account, h t ht]
  right h t ht := by simp [account, h t ht]
  within := by
    intro a b ts hab h t ht
    have := List.all_eq_true.1 hab t t.mem_all
    simpa [h t ht] using this
  word := tells_word
  noWord := tells_nothing
  node := by
    intro kind a ts hmay h
    refine ⟨fun t ht hholds => ?_, tells_node h⟩
    have := List.all_eq_true.1 hmay t ht
    simp [h t hholds] at this

end Trait

theorem Phrase.traits_fit (p : Phrase) : Trait.account.fitsPhrase Watch.faultless p = true := by
  revert p
  decide +kernel

/-- In a program, the parts of nodes have none of the traits that are barred. -/
theorem traits_parse {t : Text} (h : (parse t).ok = true) : (parse t).tree.Each Trait.Untraited :=
  Trait.sound.each_of_ok Phrase.traits_fit (by decide +kernel) h

end SceneGate
