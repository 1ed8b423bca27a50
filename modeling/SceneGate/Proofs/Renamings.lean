/-
Renaming a text that was renamed. To replace a word is to join the same segments with
another word (`exists_segments`), and a word that nothing of the new one can be a part of
lies in one of the segments, where it was before (`Clear.infix_of_joinWith`). So an old name
that is clear of what is written from its own turn on is gone from the result, and a result
that holds no old name stays as it is (`renaming_settles`). A new name that ends as an old one
begins is not clear of it: it joins with what stands behind it (`replaceAll_joins`).
-/
import Mathlib.Data.List.Infix
import SceneGate.Proofs.FormulaBraces
import SceneGate.Rules.DeprecatedNames

namespace SceneGate

namespace Text

variable {t u old new s : Text} {c : Char} {segments : List Text}

/-! ## Segments -/

@[simp] theorem joinWith_singleton (mark : Text) : joinWith mark [s] = s := by simp [joinWith]

theorem joinWith_cons_cons (mark s s' : Text) (segments : List Text) :
    joinWith mark (s :: s' :: segments) = s ++ mark ++ joinWith mark (s' :: segments) := by
  simp [joinWith]

theorem joinWith_cons (mark : Text) (c : Char) (s : Text) (segments : List Text) :
    joinWith mark ((c :: s) :: segments) = c :: joinWith mark (s :: segments) := by
  cases segments <;> simp [joinWith_cons_cons]

theorem prefix_joinWith (mark s : Text) (segments : List Text) :
    s <+: joinWith mark (s :: segments) := by
  cases segments with
  | nil => simp
  | cons s' segments =>
    rw [joinWith_cons_cons, List.append_assoc]
    exact List.prefix_append _ _

theorem infix_joinWith (mark : Text) (h : s ∈ segments) : s <:+: joinWith mark segments := by
  induction segments with
  | nil => cases h
  | cons s' segments ih =>
    rcases List.mem_cons.1 h with rfl | h
    · exact (prefix_joinWith mark s segments).isInfix
    · cases segments with
      | nil => cases h
      | cons s'' segments =>
        rw [joinWith_cons_cons]
        exact (ih h).trans (List.suffix_append _ _).isInfix

/-! ## Replacing a word -/

/-- The recogniser of the word that is replaced. -/
def word? (old new rest : Text) : Option Find :=
  if old.isPrefixOf rest then some ⟨old.length, new⟩ else none

theorem word?_append (old new rest : Text) :
    word? old new (old ++ rest) = some ⟨old.length, new⟩ :=
  if_pos (List.isPrefixOf_iff_prefix.2 (List.prefix_append _ _))

theorem word?_eq_none : word? old new t = none ↔ ¬ old <+: t := by
  simp [word?]

theorem word?_eq_some {b rest r : Text} (h : word? old new (b ++ rest) = some ⟨b.length, r⟩) :
    b = old ∧ r = new := by
  obtain ⟨hfront, hfound⟩ := Option.ite_none_right_eq_some.1 h
  obtain ⟨hlength, hr⟩ := Find.mk.inj (Option.some.inj hfound)
  have hprefix := List.isPrefixOf_iff_prefix.1 hfront
  have hb : old <+: b :=
    List.prefix_of_prefix_length_le hprefix (List.prefix_append b rest) hlength.le
  exact ⟨(hb.eq_of_length hlength).symm, hr.symm⟩

theorem fitting_word? (hold : old ≠ []) : Fitting (word? old new) := by
  intro t found h
  obtain ⟨hfront, h⟩ := Option.ite_none_right_eq_some.1 h
  obtain rfl := Option.some.inj h
  exact ⟨List.length_pos_iff.2 hold, (List.isPrefixOf_iff_prefix.1 hfront).length_le⟩

/-- A word is replaced by joining the text's segments, which do not hold it, with the new
word. -/
theorem exists_segments (hold : old ≠ []) (new t : Text) :
    ∃ s segments, t = joinWith old (s :: segments) ∧
      t.replaceAll old new = joinWith new (s :: segments) ∧
      ∀ s' ∈ s :: segments, ¬ old <:+: s' := by
  change ∃ s segments, t = _ ∧ t.replaceFinds (word? old new) = _ ∧ _
  have hfitting : Fitting (word? old new) := fitting_word? hold
  induction t using finds_induct hfitting with
  | nil => exact ⟨[], [], by simp, by simp [replaceFinds, replaceFindsFrom], by simpa using hold⟩
  | found b rest r hfound hb ih =>
    obtain ⟨rfl, rfl⟩ := word?_eq_some hfound
    obtain ⟨s, segments, hrest, hreplaced, hnone⟩ := ih
    refine ⟨[], s :: segments, ?_, ?_, ?_⟩
    · rw [joinWith_cons_cons, ← hrest, List.nil_append]
    · rw [joinWith_cons_cons, ← hreplaced, List.nil_append, (finds_of_some hfound hb).1]
    · rintro s' (_ | ⟨_, hs'⟩)
      · simpa using hold
      · exact hnone s' hs'
  | kept c cs hkept ih =>
    obtain ⟨s, segments, hrest, hreplaced, hnone⟩ := ih
    refine ⟨c :: s, segments, ?_, ?_, ?_⟩
    · rw [joinWith_cons, ← hrest]
    · rw [joinWith_cons, ← hreplaced, (finds_of_none hkept).1]
    · rintro s' (_ | ⟨_, hs'⟩) hpart
      · rcases List.infix_cons_iff.1 hpart with hfront | hpart
        · refine word?_eq_none.1 hkept (hfront.trans ?_)
          rw [hrest, ← joinWith_cons]
          exact prefix_joinWith _ _ _
        · exact hnone s List.mem_cons_self hpart
      · exact hnone s' (List.mem_cons_of_mem _ hs') hpart

/-- A text that does not hold a word stays as it is when the word is replaced. -/
theorem replaceAll_of_not_infix (h : ¬ old <:+: t) (new : Text) : t.replaceAll old new = t := by
  change t.replaceFinds (word? old new) = t
  induction t with
  | nil => rfl
  | cons c t ih =>
    rw [List.infix_cons_iff, not_or] at h
    rw [(finds_of_none (word?_eq_none.2 h.1)).1, ih h.2]

/-! ## Words that are clear of others -/

/-- What is written as `new` adds no occurrence of `old`, whatever stands beside it: neither
holds the other, and none ends as the other begins. -/
structure Clear (new old : Text) : Prop where
  not_within : ¬ new <:+: old
  not_holding : ¬ old <:+: new
  behind : ∀ x ∈ new.tails, x ≠ [] → ¬ x <+: old
  before : ∀ x ∈ new.inits, x ≠ [] → ¬ x <:+ old

instance : Decidable (Clear new old) :=
  decidable_of_iff
    (¬ new <:+: old ∧ ¬ old <:+: new ∧ (∀ x ∈ new.tails, x ≠ [] → ¬ x <+: old) ∧
      ∀ x ∈ new.inits, x ≠ [] → ¬ x <:+ old)
    ⟨fun ⟨h₁, h₂, h₃, h₄⟩ => ⟨h₁, h₂, h₃, h₄⟩, fun ⟨h₁, h₂, h₃, h₄⟩ => ⟨h₁, h₂, h₃, h₄⟩⟩

namespace Clear

/-- A word that the one between two texts is clear of is a part of one of them. -/
theorem infix_or_infix {a b : Text} (h : Clear new u) (hpart : u <:+: a ++ new ++ b) :
    u <:+: a ∨ u <:+: b := by
  obtain ⟨front, back, heq⟩ := hpart
  rw [List.append_assoc, List.append_assoc] at heq
  rcases List.append_eq_append_iff.1 heq with ⟨a', rfl, hu⟩ | ⟨a', rfl, hnew⟩
  · -- the word begins in `a`; what of it goes over the end of `a` begins as `new` does
    rcases List.append_eq_append_iff.1 hu with ⟨a'', rfl, -⟩ | ⟨x, rfl, hx⟩
    · exact .inl ⟨front, a'', by simp⟩
    · rcases List.append_eq_append_iff.1 hx with ⟨y, rfl, -⟩ | ⟨y, rfl, -⟩
      · exact absurd (List.infix_append a' new y |>.trans (by simp)) h.not_within
      · rcases eq_or_ne x [] with rfl | hne
        · exact .inl ⟨front, [], by simp⟩
        · exact absurd (List.suffix_append a' x)
            (h.before x ((List.mem_inits _ _).2 (List.prefix_append x y)) hne)
  · -- the word begins behind `a`; what of it lies in `new` begins it
    rcases List.append_eq_append_iff.1 hnew with ⟨x, rfl, hb⟩ | ⟨x, rfl, hu⟩
    · exact .inr ⟨x, back, by simpa using hb.symm⟩
    · rcases List.append_eq_append_iff.1 hu with ⟨y, rfl, -⟩ | ⟨y, rfl, hb⟩
      · exact absurd ⟨a', y, by simp⟩ h.not_holding
      · rcases eq_or_ne x [] with rfl | hne
        · exact .inr ⟨[], back, by simpa using hb.symm⟩
        · exact absurd (List.prefix_append x y)
            (h.behind x ((List.mem_tails _ _).2 (List.suffix_append a' x)) hne)

/-- A word that the new one is clear of comes from a segment. -/
theorem infix_of_joinWith (h : Clear new u) (hne : u ≠ [])
    (hpart : u <:+: joinWith new segments) : ∃ s ∈ segments, u <:+: s := by
  induction segments with
  | nil => exact absurd (List.eq_nil_of_infix_nil hpart) hne
  | cons s segments ih =>
    cases segments with
    | nil => exact ⟨s, List.mem_cons_self, by simpa using hpart⟩
    | cons s' segments =>
      rw [joinWith_cons_cons] at hpart
      rcases h.infix_or_infix hpart with hs | hrest
      · exact ⟨s, List.mem_cons_self, hs⟩
      · obtain ⟨r, hr, hu⟩ := ih hrest
        exact ⟨r, List.mem_cons_of_mem _ hr, hu⟩

end Clear

section Replaced

/-- What a word is replaced by leaves another word, that it is clear of, where it was. -/
theorem infix_of_replaceAll (hold : old ≠ []) (hu : u ≠ []) (h : Clear new u)
    (hpart : u <:+: t.replaceAll old new) : u <:+: t := by
  obtain ⟨s, segments, ht, hreplaced, -⟩ := exists_segments hold new t
  rw [hreplaced] at hpart
  obtain ⟨s', hs', hpart⟩ := h.infix_of_joinWith hu hpart
  rw [ht]
  exact hpart.trans (infix_joinWith old hs')

/-- A word that is replaced by one that is clear of it is gone. -/
theorem not_infix_replaceAll (hold : old ≠ []) (h : Clear new old) (t : Text) :
    ¬ old <:+: t.replaceAll old new := by
  obtain ⟨s, segments, -, hreplaced, hnone⟩ := exists_segments hold new t
  intro hpart
  rw [hreplaced] at hpart
  obtain ⟨s', hs', hpart⟩ := h.infix_of_joinWith hold hpart
  exact hnone s' hs' hpart

/-- A new word that ends as the old one begins joins with what stands behind it. -/
theorem replaceAll_joins {x z : Text} (hx : x ≠ []) (hnew : x <:+ new) (hold : x ++ z = old) :
    old <:+: (old ++ z).replaceAll old new := by
  have hne : old ≠ [] := by
    rw [← hold]
    exact List.append_ne_nil_of_left_ne_nil hx z
  have hz : ¬ old <:+: z := by
    intro hpart
    have hlength := hpart.length_le
    rw [← hold, List.length_append] at hlength
    have := List.length_pos_iff.2 hx
    omega
  have hreplaced : (old ++ z).replaceAll old new = new ++ z.replaceAll old new :=
    (finds_of_some (word?_append old new z) hne).1
  rw [hreplaced, replaceAll_of_not_infix hz new]
  obtain ⟨y, rfl⟩ := hnew
  exact ⟨y, [], by simp [← hold]⟩

end Replaced

end Text

/-! ## Renaming name after name -/

namespace DeprecatedNames

open Text

variable {names front back : Renaming} {old new u t : Text}

theorem rename_cons (old new : Text) (names : Renaming) (t : Text) :
    rename ((old, new) :: names) t = rename names (t.replaceAll old new) := rfl

theorem rename_append (front back : Renaming) (t : Text) :
    rename (front ++ back) t = rename back (rename front t) := List.foldl_append

theorem old_ne_nil_of_mem_kept {entry : Text × Text} (h : entry ∈ kept names) :
    entry.1 ≠ [] := by
  have hkept := (List.mem_filter.1 h).2
  simp only [Bool.and_eq_true, Bool.not_eq_true', List.isEmpty_eq_false_iff] at hkept
  exact hkept.1

/-- A word that all new names are clear of does not come up. -/
theorem infix_of_rename (hu : u ≠ []) (holds : ∀ entry ∈ names, entry.1 ≠ [])
    (h : ∀ entry ∈ names, Clear entry.2 u) (hpart : u <:+: rename names t) : u <:+: t := by
  induction names generalizing t with
  | nil => exact hpart
  | cons entry names ih =>
    obtain ⟨old, new⟩ := entry
    refine infix_of_replaceAll (holds _ List.mem_cons_self) hu (h _ List.mem_cons_self) ?_
    exact ih (fun e he => holds e (List.mem_cons_of_mem _ he))
      (fun e he => h e (List.mem_cons_of_mem _ he)) hpart

/-- A name that is clear of what is written from its own turn on is gone in the end. -/
theorem not_infix_rename (holds : ∀ entry ∈ names, entry.1 ≠ [])
    (hnames : names = front ++ (old, new) :: back)
    (h : ∀ entry ∈ (old, new) :: back, Clear entry.2 old) (t : Text) :
    ¬ old <:+: rename names t := by
  subst hnames
  have hold : old ≠ [] := holds (old, new) (by simp)
  rw [rename_append, rename_cons]
  intro hpart
  refine not_infix_replaceAll hold (h _ List.mem_cons_self) (rename front t)
    (infix_of_rename hold (fun e he => holds e (by simp [he])) (fun e he => ?_) hpart)
  exact h e (List.mem_cons_of_mem _ he)

/-- A text that holds no old name stays as it is. -/
theorem rename_of_not_infix (h : ∀ entry ∈ names, ¬ entry.1 <:+: t) : rename names t = t := by
  induction names with
  | nil => rfl
  | cons entry names ih =>
    obtain ⟨old, new⟩ := entry
    rw [rename_cons, replaceAll_of_not_infix (h _ List.mem_cons_self) new]
    exact ih fun e he => h e (List.mem_cons_of_mem _ he)

/-- Every new name is clear of its own old name and of those that are renamed before. -/
def Settling (names : Renaming) : Prop :=
  (∀ entry ∈ names, Clear entry.2 entry.1) ∧
    names.Pairwise fun entry later => Clear later.2 entry.1

instance : Decidable (Settling names) := inferInstanceAs (Decidable (_ ∧ _))

theorem Settling.clear (h : Settling (front ++ (old, new) :: back)) :
    ∀ entry ∈ (old, new) :: back, Clear entry.2 old := by
  rintro entry (_ | ⟨_, hentry⟩)
  · exact h.1 (old, new) (by simp)
  · exact List.rel_of_pairwise_cons (List.pairwise_append.1 h.2).2.1 hentry

/-- A single name whose new one ends as it begins comes up again on some text. -/
theorem rename_joins {x z : Text} (hx : x ≠ []) (hnew : x <:+ new) (hold : x ++ z = old) :
    old <:+: rename [(old, new)] (old ++ z) :=
  replaceAll_joins hx hnew hold

/-- What the rule leaves. An old name is gone if what is written from its turn on is clear of
it, and a result without old names is left alone; so where all are clear, the rule has nothing
to do on its own results. -/
theorem renaming_settles (v : Vocabulary) (t : Text) :
    (∀ front old new back, kept v.deprecatedNames = front ++ (old, new) :: back →
      (∀ entry ∈ (old, new) :: back, Clear entry.2 old) → ¬ old <:+: (rule v).apply t) ∧
    ((∀ entry ∈ kept v.deprecatedNames, ¬ entry.1 <:+: (rule v).apply t) →
      (rule v).apply ((rule v).apply t) = (rule v).apply t) ∧
    (Settling (kept v.deprecatedNames) →
      (rule v).apply ((rule v).apply t) = (rule v).apply t ∧
        ∀ entry ∈ kept v.deprecatedNames, ¬ entry.1 <:+: (rule v).apply t) := by
  have hgone : ∀ front old new back, kept v.deprecatedNames = front ++ (old, new) :: back →
      (∀ entry ∈ (old, new) :: back, Clear entry.2 old) → ¬ old <:+: (rule v).apply t :=
    fun front old new back hnames h =>
      not_infix_rename (fun _ => old_ne_nil_of_mem_kept) hnames h t
  have hstays : (∀ entry ∈ kept v.deprecatedNames, ¬ entry.1 <:+: (rule v).apply t) →
      (rule v).apply ((rule v).apply t) = (rule v).apply t := rename_of_not_infix
  refine ⟨hgone, hstays, fun hsettling => ?_⟩
  have hnone : ∀ entry ∈ kept v.deprecatedNames, ¬ entry.1 <:+: (rule v).apply t := by
    intro entry hentry
    obtain ⟨front, back, hnames⟩ := List.append_of_mem hentry
    rw [hnames] at hsettling
    exact hgone front entry.1 entry.2 back hnames hsettling.clear
  exact ⟨hstays hnone, hnone⟩

theorem renaming_settles_colours :
    let v : Vocabulary :=
      { deprecatedNames := [("GRAY".toList, "GREY".toList), ("LIGHT_BROWN".toList, "TAN".toList)] }
    Settling (kept v.deprecatedNames) ∧
      (rule v).apply "c = LIGHT_GRAY\n".toList = "c = LIGHT_GREY\n".toList ∧
      ∀ t, (rule v).apply ((rule v).apply t) = (rule v).apply t := by
  intro v
  have hsettling : Settling (kept v.deprecatedNames) := by decide
  exact ⟨hsettling, by decide, fun t => ((renaming_settles v t).2.2 hsettling).1⟩

/-- A renaming may join what it writes with what stands behind it: of `GRAYYY` it leaves
`GRAYY`, which is the old name. -/
theorem renamed_again_joinedName :
    let v : Vocabulary := { deprecatedNames := [("GRAYY".toList, "GRAY".toList)] }
    kept v.deprecatedNames = v.deprecatedNames ∧
      "GRAYY".toList <:+: (rule v).apply "a GRAYYY\n".toList ∧
      (rule v).apply ((rule v).apply "a GRAYYY\n".toList) ≠ (rule v).apply "a GRAYYY\n".toList := by
  decide

end DeprecatedNames

end SceneGate
