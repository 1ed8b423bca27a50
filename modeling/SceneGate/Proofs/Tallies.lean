/-
Tallies. A tally says of each part what it counts for in a monoid, and so of parts in a row
what they come to. Of the parts that a form builds it is only told what they may come to, as
a list of values (`Tally.account`). In a loop the values could grow without an end; so a
value that is not to be kept counts as any.
-/
import Mathlib.Algebra.BigOperators.Group.List.Basic
import Mathlib.Data.List.Dedup
import SceneGate.Proofs.Molds

namespace SceneGate

/-- What parts count for. -/
structure Tally (M : Type) where
  /-- What words of some kinds count for. -/
  words : List (Kind × M)
  /-- What all other words count for. -/
  rest : M
  /-- What a node of a kind counts for. -/
  node : Kind → M

namespace Tally

variable {M : Type} [Monoid M]

/-! ## Sums -/

section Sums

variable (y : Tally M)

/-- What a word of a kind counts for. -/
def word (k : Kind) : M := ((y.words.find? fun e => e.1 == k).map Prod.snd).getD y.rest

/-- What a part counts for. -/
def part : Tree → M
  | .leaf k => y.word k.kind
  | .node kind _ => y.node kind

/-- What parts in a row come to; trivia does not count. -/
def sum (ts : List Tree) : M := ((Tree.solid ts).map y.part).prod

/-- What a word of one of the kinds may count for, or no word at the end of the text. -/
def wordsIn (K : KindSet) : List M :=
  (y.words.filter fun e => K.has e.1).map Prod.snd ++
    (if K.within (.only (y.words.map Prod.fst)) then [] else [y.rest]) ++
      if K.has .endOfFile then [1] else []

/-- What parts come to that come to one of two values and then to the other. No value stands
for any. -/
def times (keep : M → Bool) (u v : Option M) : Option M :=
  match u, v with
  | some u, some v => if keep (u * v) then some (u * v) else none
  | _, _ => none

/-- The parts come to one of the values. -/
def Tells (a : List (Option M)) (ts : List Tree) : Prop :=
  ∃ u ∈ a, u = none ∨ u = some (y.sum ts)

variable {y} {keep : M → Bool} {a b : List (Option M)} {ts : List Tree}

theorem sum_append (ts us : List Tree) : y.sum (ts ++ us) = y.sum ts * y.sum us := by
  simp [sum, Mold.solid_append]

theorem sum_singleton {t : Tree} (h : t.isTrivia = false) : y.sum [t] = y.part t := by
  simp [sum, Tree.solid, h]

theorem sum_trivia {ks : List Token} (h : ∀ k ∈ ks, k.isTrivia = true) :
    y.sum (ks.map .leaf) = 1 := by
  simp [sum, Mold.solid_trivia h]

omit [Monoid M] in
/-- A word counts for what is said of its kind, or as all other words do. -/
theorem word_cases (y : Tally M) (k : Kind) :
    (k, y.word k) ∈ y.words ∨ (k ∉ y.words.map Prod.fst ∧ y.word k = y.rest) := by
  unfold word
  cases hfind : y.words.find? fun e => e.1 == k with
  | some e =>
    obtain rfl : e.1 = k := by simpa using List.find?_some hfind
    exact .inl (List.mem_of_find?_eq_some hfind)
  | none =>
    refine .inr ⟨fun hmem => ?_, rfl⟩
    obtain ⟨e, he, rfl⟩ := List.mem_map.1 hmem
    exact List.find?_eq_none.1 hfind e he (beq_self_eq_true e.1)

theorem word_mem_wordsIn {K : KindSet} {k : Kind} (hk : K.has k = true) :
    y.word k ∈ y.wordsIn K := by
  unfold wordsIn
  rcases y.word_cases k with hmem | ⟨hnot, hrest⟩
  · refine List.mem_append_left _ (List.mem_append_left _ (List.mem_map.2 ⟨(k, y.word k), ?_, rfl⟩))
    exact List.mem_filter.2 ⟨hmem, hk⟩
  · refine List.mem_append_left _ (List.mem_append_right _ ?_)
    split
    · rename_i hwithin
      exact absurd (List.contains_iff_mem.1 (KindSet.has_of_within hwithin hk)) hnot
    · rw [hrest]
      exact List.mem_singleton.2 rfl

theorem one_mem_wordsIn {K : KindSet} (hK : K.has .endOfFile = true) : 1 ∈ y.wordsIn K := by
  simp [wordsIn, hK]

theorem times_cases {u v : Option M} {m n : M} (hu : u = none ∨ u = some m)
    (hv : v = none ∨ v = some n) : times keep u v = none ∨ times keep u v = some (m * n) := by
  rcases hu with rfl | rfl
  · exact .inl rfl
  · rcases hv with rfl | rfl
    · exact .inl rfl
    · simp only [times]
      split
      · exact .inr rfl
      · exact .inl rfl

theorem Tells.mono (h : y.Tells a ts) (hab : a ⊆ b) : y.Tells b ts := by
  obtain ⟨u, hu, hsum⟩ := h
  exact ⟨u, hab hu, hsum⟩

/-- One value that is told. -/
theorem tells_of_mem {m : M} (hm : some m ∈ a) (hsum : y.sum ts = m) : y.Tells a ts :=
  ⟨some m, hm, .inr (by rw [hsum])⟩

end Sums

/-! ## The account -/

section Account

variable [DecidableEq M] (y : Tally M) (keep : M → Bool) (allowed : Kind → Option (List M))
  (phrase : Phrase → List (Option M))

/-- The account of what parts come to. Where it matters what the parts of a node come to, it
is among the values that are `allowed`; what a phrase builds comes to one of its values. -/
def account : Account (List (Option M)) where
  empty := [some 1]
  nothing := []
  append a b := (a.flatMap fun u => b.map (times keep u)).dedup
  union a b := (a ++ b).dedup
  within a b := b.contains none || a.all b.contains
  word K := (y.wordsIn K).map some
  node kind a := if a = [] then [] else [some (y.node kind)]
  mayBe kind a :=
    match allowed kind with
    | none => true
    | some values => a.all fun u => u.any values.contains
  phrase := phrase

/-- The parts of a node come to what they may. -/
def Allows (kind : Kind) (ts : List Tree) : Prop :=
  ∀ values, allowed kind = some values → y.sum ts ∈ values

variable {y keep allowed phrase} {a b : List (Option M)} {ts us : List Tree}

theorem Tells.append (h : y.Tells a ts) (h' : y.Tells b us) :
    y.Tells ((y.account keep allowed phrase).append a b) (ts ++ us) := by
  obtain ⟨u, hu, hsum⟩ := h
  obtain ⟨v, hv, hsum'⟩ := h'
  refine ⟨times keep u v, ?_, by rw [sum_append]; exact times_cases hsum hsum'⟩
  exact List.mem_dedup.2 (List.mem_flatMap.2 ⟨u, hu, List.mem_map_of_mem hv⟩)

theorem Tells.within (hab : (y.account keep allowed phrase).within a b = true)
    (h : y.Tells a ts) : y.Tells b ts := by
  simp only [account, Bool.or_eq_true, List.contains_iff_mem, List.all_eq_true] at hab
  rcases hab with hab | hab
  · exact ⟨none, hab, .inl rfl⟩
  · exact h.mono hab

theorem sound : (y.account keep allowed phrase).Sound y.Tells (y.Allows allowed) where
  empty := tells_of_mem List.mem_cons_self rfl
  append := Tells.append
  trivia := by
    intro a ts ks h hks
    rwa [Tells, sum_append, sum_trivia hks, mul_one]
  left h := h.mono fun _ hu => List.mem_dedup.2 (List.mem_append_left _ hu)
  right h := h.mono fun _ hu => List.mem_dedup.2 (List.mem_append_right _ hu)
  within := Tells.within
  word hk hword := tells_of_mem (List.mem_map_of_mem (word_mem_wordsIn hk)) (sum_singleton hword)
  noWord hK := tells_of_mem (List.mem_map_of_mem (one_mem_wordsIn hK)) rfl
  node := by
    intro kind a ts hmay h
    have hne : a ≠ [] := by
      obtain ⟨u, hu, -⟩ := h
      exact List.ne_nil_of_mem hu
    refine ⟨fun values hvalues => ?_, ?_⟩
    · simp only [account, hvalues, List.all_eq_true] at hmay
      obtain ⟨u, hu, rfl | rfl⟩ := h
      · cases hmay none hu
      · simpa using hmay _ hu
    · simp only [account, if_neg hne]
      exact tells_of_mem List.mem_cons_self (sum_singleton rfl)

end Account

end Tally

end SceneGate
