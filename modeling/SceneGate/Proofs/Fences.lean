/-
Fences. A text is divided at the first place where a mark stands (`splitAtFirst?_eq_some`), so
a mark is found where it was put unless it stands earlier, or begins earlier and overlaps
itself. The mark of a block of programs cannot overlap itself, and that of any block only
where a backquote stands in front of it. So a program that was put between fences is read
from between them, and what is read has no fence left (`fenced_round_trip`).
-/
import Mathlib.Data.List.DropRight
import SceneGate.Generate.Prompt

namespace SceneGate

namespace Text

variable {t a b m u : Text} {c x : Char}

/-! ## Dividing a text at a mark -/

theorem splitAtFirst?_eq_none (hm : m ≠ []) : t.splitAtFirst? m = none ↔ ¬ m <:+: t := by
  induction t with
  | nil => simp [splitAtFirst?, hm]
  | cons c t ih =>
    rw [splitAtFirst?]
    split
    · rename_i hfront
      simp [(List.isPrefixOf_iff_prefix.1 hfront).isInfix]
    · rename_i hfront
      rw [List.isPrefixOf_iff_prefix] at hfront
      rw [Option.map_eq_none_iff, ih, List.infix_cons_iff, not_or]
      exact ⟨fun h => ⟨hfront, h⟩, fun h => h.2⟩

/-- Whether a mark begins in front of another one does not depend on the end of that one. -/
theorem prefix_dropLast_iff (ha : a ≠ []) : m <+: a ++ m.dropLast ↔ m <+: a ++ m ++ b := by
  have hpart : a ++ m.dropLast <+: a ++ m ++ b := by
    rw [List.append_assoc, List.prefix_append_right_inj]
    exact m.dropLast_prefix.trans (List.prefix_append m b)
  refine ⟨fun h => h.trans hpart, fun h => List.prefix_of_prefix_length_le h hpart ?_⟩
  have := List.length_pos_iff.2 ha
  rw [List.length_append, List.length_dropLast]
  omega

/-- A text is divided at the first place where the mark stands: none begins in front. -/
theorem splitAtFirst?_eq_some (hm : m ≠ []) :
    t.splitAtFirst? m = some (a, b) ↔ t = a ++ m ++ b ∧ ¬ m <:+: a ++ m.dropLast := by
  induction t generalizing a with
  | nil => simp [splitAtFirst?, hm]
  | cons c t ih =>
    rw [splitAtFirst?]
    split
    · rename_i hfront
      obtain ⟨rest, hrest⟩ := List.isPrefixOf_iff_prefix.1 hfront
      rw [← hrest, List.drop_left, Option.some.injEq, Prod.mk.injEq]
      -- the mark stands at the front, so no other division has it first
      constructor
      · rintro ⟨rfl, rfl⟩
        refine ⟨rfl, fun h => ?_⟩
        have hlength := h.length_le
        have hpos := List.length_pos_iff.2 hm
        rw [List.nil_append, List.length_dropLast] at hlength
        omega
      · rintro ⟨heq, hfirst⟩
        have hnil : a = [] := by
          by_contra hne
          exact hfirst ((prefix_dropLast_iff hne).2 (heq ▸ List.prefix_append m rest)).isInfix
        subst hnil
        exact ⟨rfl, List.append_cancel_left heq⟩
    · rename_i hfront
      rw [List.isPrefixOf_iff_prefix] at hfront
      simp only [Option.map_eq_some_iff, Prod.exists, Prod.mk.injEq]
      constructor
      · rintro ⟨a, b, h, rfl, rfl⟩
        obtain ⟨rfl, hfirst⟩ := ih.1 h
        refine ⟨rfl, fun h => (List.infix_cons_iff.1 h).elim (fun h => ?_) hfirst⟩
        exact hfront ((prefix_dropLast_iff (a := c :: a) (List.cons_ne_nil c a)).1 h)
      · rintro ⟨heq, hfirst⟩
        cases a with
        | nil => exact absurd ⟨b, heq.symm⟩ hfront
        | cons d a =>
          obtain ⟨rfl, rfl⟩ := List.cons.inj heq
          exact ⟨a, b, ih.2 ⟨rfl, fun h => hfirst (List.infix_cons h)⟩, rfl, rfl⟩

/-- What overlaps a mark that was put behind a text stands in that text, or the mark overlaps
itself. -/
theorem overlap_of_infix (hm : m ≠ []) (h : m <:+: a ++ m.dropLast) :
    m <:+: a ∨ ∃ l r, l ≠ [] ∧ r ≠ [] ∧ m = l ++ r ∧ l <:+ a ∧ r <+: m := by
  have hshort {r : Text} (hr : r <+: m.dropLast) : r.length < m.length := by
    have hle := hr.length_le
    have hpos := List.length_pos_iff.2 hm
    rw [List.length_dropLast] at hle
    omega
  rcases List.infix_append_iff.1 h with h | h | ⟨l, r, heq, hl, hr⟩
  · exact .inl h
  · have hle := h.length_le
    have := hshort List.prefix_rfl
    omega
  · rcases Decidable.em (r = []) with rfl | hr0
    · exact .inl (heq ▸ (List.append_nil l).symm ▸ hl.isInfix)
    · refine .inr ⟨l, r, fun hl0 => ?_, hr0, heq, hl, hr.trans m.dropLast_prefix⟩
      have := hshort hr
      rw [heq, hl0, List.nil_append] at this
      omega

theorem upTo_append (hm : m ≠ []) (h : ¬ m <:+: a ++ m.dropLast) : (a ++ m ++ b).upTo m = a := by
  rw [upTo, (splitAtFirst?_eq_some hm).2 ⟨rfl, h⟩]

theorem prefix_upTo (hm : m ≠ []) (t : Text) : t.upTo m <+: t := by
  rw [upTo]
  split
  · rename_i h
    obtain ⟨rfl, -⟩ := (splitAtFirst?_eq_some hm).1 h
    rw [List.append_assoc]
    exact List.prefix_append _ _
  · exact List.prefix_rfl

/-- Up to the first mark there is none. -/
theorem not_infix_upTo (hm : m ≠ []) (t : Text) : ¬ m <:+: t.upTo m := by
  rw [upTo]
  split
  · rename_i h
    exact fun hmem => ((splitAtFirst?_eq_some hm).1 h).2 (hmem.trans List.infix_append_left)
  · rename_i h
    exact (splitAtFirst?_eq_none hm).1 h

/-- A mark that has no `x` stands in front of an `x` or behind it. -/
theorem infix_append_cons (hx : x ∉ m) : m <:+: a ++ x :: b ↔ m <:+: a ∨ m <:+: b := by
  have hnil {r : Text} (hr : x ∉ r) (h : r <+: x :: b) : r = [] := by
    rcases List.prefix_cons_iff.1 h with rfl | ⟨r, rfl, -⟩
    · rfl
    · exact absurd List.mem_cons_self hr
  rw [List.infix_append_iff, List.infix_cons_iff]
  constructor
  · rintro (h | (h | h) | ⟨l, r, rfl, hl, hr⟩)
    · exact .inl h
    · exact .inl (hnil hx h ▸ List.nil_infix)
    · exact .inr h
    · obtain rfl := hnil (fun hmem => hx (List.mem_append_right l hmem)) hr
      exact .inl (by rw [List.append_nil]; exact hl.isInfix)
  · rintro (h | h)
    · exact .inl h
    · exact .inr (.inl (.inr h))

theorem not_infix_of_notMem (hx : m.head? = some x) (ht : x ∉ t) : ¬ m <:+: t := fun h =>
  ht (h.subset (List.mem_of_mem_head? hx))

/-- A mark does not begin where its first character does not stand. -/
theorem infix_append_of_notMem (hx : m.head? = some x) (ha : x ∉ a) :
    m <:+: a ++ b ↔ m <:+: b := by
  rw [List.infix_append_iff]
  constructor
  · rintro (h | h | ⟨l, r, rfl, hl, hr⟩)
    · exact absurd h (not_infix_of_notMem hx ha)
    · exact h
    · cases l with
      | nil => exact hr.isInfix
      | cons c l =>
        cases hx
        exact absurd (hl.subset List.mem_cons_self) ha
  · exact fun h => .inr (.inl h)

/-! ## Trimming -/

theorem trimEnd_eq (t : Text) : t.trimEnd = t.rdropWhile isBlank := rfl

theorem infix_trim (t : Text) : t.trim <:+: t :=
  (List.rdropWhile_prefix isBlank t.trimStart).isInfix.trans (List.dropWhile_suffix _).isInfix

/-- A trimmed text neither begins nor ends with a blank. -/
theorem isBlank_trim (h : t.trim.head? = some c ∨ t.trim.getLast? = some c) :
    isBlank c = false := by
  rw [trim, trimEnd_eq] at h
  rcases h with h | h
  · have hstart : t.trimStart.head? = some c := by
      obtain ⟨u, hu⟩ := List.rdropWhile_prefix isBlank t.trimStart
      rw [← hu, List.head?_append, h, Option.some_or]
    have := List.head?_dropWhile_not isBlank t
    rw [← trimStart, hstart] at this
    simpa using this
  · obtain ⟨hne, rfl⟩ := List.mem_getLast?_eq_getLast h
    simpa using List.rdropWhile_last_not isBlank t.trimStart hne

/-- Nothing is taken from a text that neither begins nor ends with a blank. -/
theorem trim_eq_self (hhead : ∀ c, t.head? = some c → isBlank c = false)
    (hlast : ∀ c, t.getLast? = some c → isBlank c = false) : t.trim = t := by
  have hstart : t.trimStart = t := by
    cases t with
    | nil => rfl
    | cons c t => exact List.dropWhile_cons_of_neg (by simp [hhead c rfl])
  rw [trim, hstart, trimEnd_eq]
  exact List.rdropWhile_eq_self_iff.2 fun hne => by
    simp [hlast _ (List.getLast?_eq_some_getLast hne)]

theorem trim_trim (t : Text) : t.trim.trim = t.trim :=
  trim_eq_self (fun _ h => isBlank_trim (.inl h)) fun _ h => isBlank_trim (.inr h)

theorem trim_append_left (hu : ∀ c ∈ u, isBlank c) (t : Text) : (u ++ t).trim = t.trim := by
  rw [trim, trimStart, List.dropWhile_append_of_pos hu]
  rfl

theorem trim_append_right (hu : ∀ c ∈ u, isBlank c) (t : Text) : (t ++ u).trim = t.trim := by
  have hend (s : Text) : (s ++ u).trimEnd = s.trimEnd := by
    rw [trimEnd, List.reverse_append, List.dropWhile_append_of_pos (by simpa using hu), trimEnd]
  rw [trim, trim, trimStart, List.dropWhile_append]
  split
  · rename_i h
    rw [List.isEmpty_iff] at h
    rw [trimStart, h, List.dropWhile_eq_nil_iff.2 hu]
  · exact hend _

theorem trim_trimEnd (t : Text) : t.trimEnd.trim = t.trim := by
  have hback : t.trimEnd ++ t.rtakeWhile isBlank = t := List.rdropWhile_append_rtakeWhile
  conv => rhs; rw [← hback]
  exact (trim_append_right (fun c hc => List.mem_rtakeWhile_imp hc) _).symm

end Text

namespace Response

open Text

variable {pre post tag code t : Text}

/-! ## Blocks -/

/-- Letters and digits, as in the name of a language. -/
def IsTag (tag : Text) : Prop := ∀ c ∈ tag, isAsciiLetter c || isAsciiDigit c

instance (tag : Text) : Decidable (IsTag tag) :=
  inferInstanceAs (Decidable (∀ c ∈ tag, isAsciiLetter c || isAsciiDigit c))

/-- The character that fences are made of. -/
def backquote : Char := '\x60'

/-- A program between fences, in a block with a tag. -/
def fenced (tag code : Text) : Text := fence ++ tag ++ '\n' :: code ++ '\n' :: fence

theorem IsTag.notMem (h : IsTag tag) {c : Char} (hc : (isAsciiLetter c || isAsciiDigit c) = false) :
    c ∉ tag := fun hmem => by
  have := h c hmem
  rw [hc] at this
  cases this

/-- The first line of a block is no part of the program if it is a tag or empty. -/
theorem trim_withoutTag (htag : IsTag tag) (t : Text) :
    (withoutTag (tag ++ '\n' :: t)).trim = t.trim := by
  have hsplit : splitAtFirst? (tag ++ '\n' :: t) ['\n'] = some (tag, t) := by
    refine (splitAtFirst?_eq_some (List.cons_ne_nil _ _)).2 ⟨by simp, fun h => ?_⟩
    have hmem := h.subset (List.mem_singleton_self _)
    rw [List.dropLast_singleton, List.append_nil] at hmem
    exact htag.notMem (by decide) hmem
  rw [withoutTag, hsplit]
  dsimp only
  split
  · rfl
  · -- letters and digits that are not taken off are none
    rename_i hcond
    have hnil : tag = [] := by
      have hall : tag.all (fun c => isAsciiLetter c || isAsciiDigit c) = true :=
        List.all_eq_true.2 htag
      simpa [hall] using hcond
    subst hnil
    exact trim_append_left (u := ['\n']) (by decide) t

/-- A program is read from the block that it was put in. -/
theorem trim_blockAfter (htag : IsTag tag) (hcode : ¬ fence <:+: code) (post : Text) :
    (blockAfter (tag ++ '\n' :: code ++ '\n' :: fence ++ post)).trim = code.trim := by
  have hfirst : ¬ fence <:+: tag ++ '\n' :: (code ++ ['\n']) ++ fence.dropLast := by
    have hfeed : '\n' ∉ fence := by decide
    have hassoc : tag ++ '\n' :: (code ++ ['\n']) ++ fence.dropLast =
        tag ++ '\n' :: (code ++ '\n' :: fence.dropLast) := by simp
    rw [hassoc, infix_append_cons hfeed, infix_append_cons hfeed, not_or, not_or]
    exact ⟨not_infix_of_notMem rfl (htag.notMem (c := backquote) (by decide)), hcode, by decide⟩
  have hassoc : tag ++ '\n' :: code ++ '\n' :: fence ++ post =
      tag ++ '\n' :: (code ++ ['\n']) ++ fence ++ post := by simp
  rw [blockAfter, hassoc, upTo_append (by decide) hfirst, trim_withoutTag htag]
  exact trim_append_right (by decide) code

/-- The mark of a block of programs does not overlap itself. -/
theorem not_infix_programFence (h : ¬ programFence <:+: pre) :
    ¬ programFence <:+: pre ++ programFence.dropLast := fun hmem => by
  rcases overlap_of_infix (by decide) hmem with hmem | ⟨l, r, hl, hr, heq, -, hfront⟩
  · exact h hmem
  · have hdrop : r = programFence.drop l.length := by rw [heq, List.drop_left]
    have hlength := congrArg List.length heq
    rw [List.length_append] at hlength
    -- it begins with none of its own ends
    have hborder : ∀ n < programFence.length, 0 < n →
        ¬ programFence.drop n <+: programFence := by decide
    exact hborder l.length (by have := List.length_pos_iff.2 hr; omega) (List.length_pos_iff.2 hl)
      (hdrop ▸ hfront)

/-- The mark of a block overlaps itself only behind a backquote. -/
theorem not_infix_fence (h : ¬ fence <:+: pre) (hlast : pre.getLast? ≠ some backquote) :
    ¬ fence <:+: pre ++ fence.dropLast := fun hmem => by
  rcases overlap_of_infix (by decide) hmem with hmem | ⟨l, r, hl, -, heq, hsuffix, -⟩
  · exact h hmem
  · obtain ⟨front, rfl⟩ := hsuffix
    have hquotes : ∀ c ∈ fence, c = backquote := by decide
    have hin : l.getLast hl ∈ fence := heq ▸ List.mem_append_left r (List.getLast_mem hl)
    apply hlast
    rw [List.getLast?_append, List.getLast?_eq_some_getLast hl, hquotes _ hin, Option.some_or]

/-! ## The program in an answer -/

theorem program_of_programFence (hpre : ¬ programFence <:+: pre) (htag : IsTag tag)
    (hcode : ¬ fence <:+: code) (post : Text) :
    program (pre ++ fenced ("python".toList ++ tag) code ++ post) = code.trim := by
  have hassoc : pre ++ fenced ("python".toList ++ tag) code ++ post =
      pre ++ programFence ++ (tag ++ '\n' :: code ++ '\n' :: fence ++ post) := by
    simp [fenced, programFence]
  rw [program, hassoc,
    (splitAtFirst?_eq_some (by decide)).2 ⟨rfl, not_infix_programFence hpre⟩]
  exact trim_blockAfter htag hcode post

theorem program_of_fence (hnone : ¬ programFence <:+: pre ++ fenced tag code ++ post)
    (hpre : ¬ fence <:+: pre) (hlast : pre.getLast? ≠ some backquote) (htag : IsTag tag)
    (hcode : ¬ fence <:+: code) :
    program (pre ++ fenced tag code ++ post) = code.trim := by
  have hassoc : pre ++ fenced tag code ++ post =
      pre ++ fence ++ (tag ++ '\n' :: code ++ '\n' :: fence ++ post) := by
    simp [fenced]
  rw [program, (splitAtFirst?_eq_none (by decide)).2 hnone, hassoc,
    (splitAtFirst?_eq_some (by decide)).2 ⟨rfl, not_infix_fence hpre hlast⟩]
  exact trim_blockAfter htag hcode post

theorem program_improvement {feedback : Text} (hcode : ¬ fence <:+: code)
    (hfeedback : ¬ programFence <:+: feedback) :
    program (Prompt.improvement code feedback) = code.trim := by
  obtain ⟨header, post, hheader, heq⟩ : ∃ header post, backquote ∉ header ∧
      Prompt.improvement code feedback =
        header ++ feedback.trim ++ "\n\nCurrent program:\n".toList ++
          fenced ("python".toList ++ []) code.trimEnd ++ post := by
    refine ⟨("Improve the following ManimGL program according to the feedback below. " ++
        "Keep all on-screen text in the same language.\n\nFeedback: ").toList,
      "\n\nReturn the complete revised Python program, without explanations.".toList,
      by decide +kernel, ?_⟩
    unfold Prompt.improvement programFence fenced
    simp only [List.append_assoc, List.append_nil]
  have hmiddle : "\n\nCurrent program:\n".toList = '\n' :: "\nCurrent program:\n".toList := by
    decide
  have hpre : ¬ programFence <:+: header ++ feedback.trim ++ "\n\nCurrent program:\n".toList := by
    have hfirst : programFence.head? = some backquote := rfl
    rw [List.append_assoc, infix_append_of_notMem hfirst hheader, hmiddle,
      infix_append_cons (by decide), not_or]
    exact ⟨fun h => hfeedback (h.trans (infix_trim feedback)),
      not_infix_of_notMem hfirst (by decide)⟩
  have hend : ¬ fence <:+: code.trimEnd := fun h =>
    hcode (h.trans (List.rdropWhile_prefix isBlank code).isInfix)
  rw [heq, program_of_programFence hpre (List.forall_mem_nil _) hend, trim_trimEnd]

theorem infix_withoutTag (t : Text) : withoutTag t <:+: t := by
  rw [withoutTag]
  split
  · rename_i tag rest h
    obtain ⟨heq, -⟩ := (splitAtFirst?_eq_some (List.cons_ne_nil _ _)).1 h
    split
    · exact heq ▸ (List.suffix_append _ rest).isInfix
    · exact List.infix_rfl
  · exact List.infix_rfl

/-- No fence is left in a block. -/
theorem infix_blockAfter (t : Text) : blockAfter t <:+: t ∧ ¬ fence <:+: blockAfter t :=
  have hpart : blockAfter t <:+: t.upTo fence := infix_withoutTag _
  ⟨hpart.trans (prefix_upTo (by decide) t).isInfix,
    fun h => not_infix_upTo (by decide) t (h.trans hpart)⟩

/-- The program in an answer is a part of it without fences, trimmed. -/
theorem exists_trim (t : Text) : ∃ u : Text, program t = u.trim ∧ u <:+: t ∧ ¬ fence <:+: u := by
  have hblock {a m b : Text} (hm : m ≠ []) (h : t.splitAtFirst? m = some (a, b)) :
      blockAfter b <:+: t ∧ ¬ fence <:+: blockAfter b := by
    obtain ⟨rfl, -⟩ := (splitAtFirst?_eq_some hm).1 h
    obtain ⟨hpart, hnone⟩ := infix_blockAfter b
    exact ⟨hpart.trans (List.suffix_append _ b).isInfix, hnone⟩
  rw [program]
  split
  · rename_i h
    exact ⟨_, rfl, hblock (by decide) h⟩
  · split
    · rename_i h
      exact ⟨_, rfl, hblock (by decide) h⟩
    · rename_i h
      exact ⟨t, rfl, List.infix_rfl, (splitAtFirst?_eq_none (by decide)).1 h⟩

/-- A text without fences is a program but for its blank ends. -/
theorem program_of_unfenced (h : ¬ fence <:+: t) : program t = t.trim := by
  have hprogram : ¬ programFence <:+: t := fun hmem =>
    h ((List.prefix_append fence _).isInfix.trans hmem)
  rw [program, (splitAtFirst?_eq_none (by decide)).2 hprogram,
    (splitAtFirst?_eq_none (by decide)).2 h]

/-- The program in an answer is a part of it that neither begins nor ends with a blank and has
no fence, so it is the program in itself. And a program without fences that was put into a
block is read from it: from a block of programs if none is opened in front of it, with
letters and digits glued to the mark or none; from a block with another tag or none if no
block of programs is opened anywhere, and no fence in front of it; and from the prompt for an
improvement if the feedback opens no block of programs. -/
theorem fenced_round_trip :
    (∀ t, program t <:+: t ∧
      (∀ c, (program t).head? = some c ∨ (program t).getLast? = some c → isBlank c = false) ∧
      ¬ fence <:+: program t ∧ program (program t) = program t) ∧
    ∀ code : Text, ¬ fence <:+: code →
      (∀ pre tag post, IsTag tag → ¬ programFence <:+: pre →
        program (pre ++ fenced ("python".toList ++ tag) code ++ post) = code.trim) ∧
      (∀ pre tag post, IsTag tag → ¬ programFence <:+: pre ++ fenced tag code ++ post →
        ¬ fence <:+: pre → pre.getLast? ≠ some backquote →
        program (pre ++ fenced tag code ++ post) = code.trim) ∧
      ∀ feedback, ¬ programFence <:+: feedback →
        program (Prompt.improvement code feedback) = code.trim := by
  refine ⟨fun t => ?_, fun code hcode => ⟨fun pre tag post htag hpre => ?_,
    fun pre tag post htag hnone hpre hlast => ?_, fun feedback hfeedback => ?_⟩⟩
  · obtain ⟨u, hu, hpart, hnone⟩ := exists_trim t
    have hfence : ¬ fence <:+: program t := fun h => hnone (h.trans (hu ▸ infix_trim u))
    refine ⟨hu ▸ (infix_trim u).trans hpart, fun c h => isBlank_trim (hu ▸ h), hfence, ?_⟩
    rw [program_of_unfenced hfence, hu, trim_trim]
  · exact program_of_programFence hpre htag hcode post
  · exact program_of_fence hnone hpre hlast htag hcode
  · exact program_improvement hcode hfeedback

/-- A program of one line. -/
def greeting : Text := "  print(1)\n".toList

theorem fenced_round_trip_greeting :
    ¬ fence <:+: greeting ∧
      (IsTag "3".toList ∧ ¬ programFence <:+: "```no```:`".toList ∧
        program ("```no```:`".toList ++ fenced ("python".toList ++ "3".toList) greeting ++
          "```that".toList) = greeting.trim) ∧
      (IsTag [] ∧ ¬ programFence <:+: "See:".toList ++ fenced [] greeting ++ [] ∧
        ¬ fence <:+: "See:".toList ∧ "See:".toList.getLast? ≠ some backquote ∧
        program ("See:".toList ++ fenced [] greeting ++ []) = greeting.trim) ∧
      ¬ programFence <:+: "Use ```py".toList ∧
        program (Prompt.improvement greeting "Use ```py".toList) = greeting.trim := by
  have hcode : ¬ fence <:+: greeting := by decide +kernel
  obtain ⟨htagged, hplain, himproved⟩ := fenced_round_trip.2 greeting hcode
  have hdigit : IsTag "3".toList := by decide +kernel
  have hempty : IsTag [] := List.forall_mem_nil _
  have hpre : ¬ programFence <:+: "```no```:`".toList := by decide +kernel
  have hnone : ¬ programFence <:+: "See:".toList ++ fenced [] greeting ++ [] := by decide +kernel
  have hfront : ¬ fence <:+: "See:".toList := by decide +kernel
  have hlast : "See:".toList.getLast? ≠ some backquote := by decide +kernel
  have hfeedback : ¬ programFence <:+: "Use ```py".toList := by decide +kernel
  exact ⟨hcode, ⟨hdigit, hpre, htagged _ _ _ hdigit hpre⟩,
    ⟨hempty, hnone, hfront, hlast, hplain _ _ _ hempty hnone hfront hlast⟩,
    hfeedback, himproved _ hfeedback⟩

end Response

end SceneGate
