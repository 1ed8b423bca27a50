/-
Carrying out edits is one substitution. Spans that do not overlap lie one before
the other (`overlaps_eq_false_iff`), so in order of their starts they divide the
text into pieces that are kept and ranges that are replaced (`Substituted`).
Replacing the ranges one by one, from the last to the first, comes to the same:
each range is still where it was when its turn comes (`foldr_replaceIn`). So the
order in which the spans came does not matter.
-/
import Mathlib.Data.List.Induction
import SceneGate.Edits

namespace SceneGate

namespace Text

theorem bytes_pos {t : Text} (h : t ≠ []) : 0 < t.bytes := by
  cases t with
  | nil => exact absurd rfl h
  | cons c cs =>
    have := c.utf8Size_pos
    simp only [bytes_cons]
    omega

theorem isBoundary_append (a b : Text) : (a ++ b).isBoundary a.bytes = true := by
  simp [isBoundary]

theorem isBoundary_iff {n : Nat} {t : Text} :
    t.isBoundary n = true ↔ ∃ front back, t = front ++ back ∧ front.bytes = n := by
  constructor
  · intro h
    obtain ⟨⟨front, back⟩, hcut⟩ := Option.isSome_iff_exists.1 h
    obtain ⟨happend, hbytes⟩ := cut?_eq_some hcut
    exact ⟨front, back, happend.symm, hbytes⟩
  · rintro ⟨front, back, rfl, rfl⟩
    exact isBoundary_append front back

/-- Of two beginnings of a text, the one that is no longer begins the other. -/
theorem exists_append_of_bytes_le {a b c d : Text} (h : a ++ b = c ++ d) (hle : a.bytes ≤ c.bytes) :
    ∃ m, c = a ++ m ∧ b = m ++ d := by
  rcases List.append_eq_append_iff.1 h with hm | ⟨m, rfl, rfl⟩
  · exact hm
  · obtain rfl : m = [] := by
      rcases Decidable.em (m = []) with hm | hm
      · exact hm
      · have := bytes_pos hm
        simp only [bytes_append] at hle
        omega
    exact ⟨[], by simp⟩

/-- A text has one beginning of a given length. -/
theorem append_inj_of_bytes {a b c d : Text} (h : a ++ b = c ++ d) (hbytes : a.bytes = c.bytes) :
    a = c ∧ b = d := by
  obtain ⟨m, rfl, rfl⟩ := exists_append_of_bytes_le h (Nat.le_of_eq hbytes)
  obtain rfl : m = [] := by
    rcases Decidable.em (m = []) with hm | hm
    · exact hm
    · have := bytes_pos hm
      simp only [bytes_append] at hbytes
      omega
  simp

end Text

/-! ## Spans that do not overlap -/

namespace Span

/-- The first range lies before the second. -/
def Before (a b : Span) : Prop := a.stop ≤ b.start ∧ a.start < b.start

/-- Spans that do not overlap lie one before the other. -/
theorem overlaps_eq_false_iff {a b : Span} :
    a.overlaps b = false ↔ a.Before b ∨ b.Before a := by
  unfold overlaps Before
  split
  · simp only [holds, Bool.or_eq_false_iff, Bool.and_eq_false_iff, beq_eq_false_iff_ne,
      decide_eq_false_iff_not]
    unfold stop
    omega
  · rw [decide_eq_false_iff_not]
    unfold stop
    omega

theorem overlaps_of_before {a b : Span} (h : a.Before b) : a.overlaps b = false :=
  overlaps_eq_false_iff.2 (.inl h)

theorem not_overlaps_symm {a b : Span} (h : a.overlaps b = false) : b.overlaps a = false :=
  overlaps_eq_false_iff.2 (overlaps_eq_false_iff.1 h).symm

theorem not_overlaps_perm {spans spans' : List Span} (h : spans.Perm spans') :
    (spans.Pairwise fun a b => a.overlaps b = false) ↔
      spans'.Pairwise fun a b => a.overlaps b = false :=
  h.pairwise_iff not_overlaps_symm

/-- Spans in the order of their starts lie one before the other. -/
theorem pairwise_before {spans : List Span} (h : spans.Pairwise fun a b => a.overlaps b = false)
    (hsorted : spans.Pairwise fun a b => a.start ≤ b.start) : spans.Pairwise Before := by
  refine (List.pairwise_and_iff.2 ⟨h, hsorted⟩).imp fun ⟨hover, hle⟩ => ?_
  rcases overlaps_eq_false_iff.1 hover with hbefore | hafter
  · exact hbefore
  · exact absurd hafter.2 (Nat.not_lt.2 hle)

/-- There is one order in which spans lie one before the other. -/
theorem eq_of_before {spans spans' : List Span} (hperm : spans.Perm spans')
    (h : spans.Pairwise Before) (h' : spans'.Pairwise Before) : spans = spans' :=
  List.Perm.eq_of_pairwise (fun _ _ _ _ hab hba => absurd hab.2 (Nat.lt_asymm hba.2)) h h' hperm

/-! ## Spans that fit a text -/

/-- Whether the range can be cut out of a text: it ends within the text, and no
end of it lies inside a character. -/
def Fits (s : Span) (t : Text) : Prop :=
  ∃ front middle back, t = front ++ middle ++ back ∧ front.bytes = s.start ∧ middle.bytes = s.length

/-- What is wrong with a span that does not fit. -/
def misfit (s : Span) (t : Text) : EditError :=
  if t.bytes < s.stop then .outOfBounds s.start s.stop t.bytes else .notCharBoundary s.start s.stop

theorem fits_iff {s : Span} {t : Text} :
    s.Fits t ↔ s.stop ≤ t.bytes ∧ t.isBoundary s.start = true ∧ t.isBoundary s.stop = true := by
  rw [Text.isBoundary_iff, Text.isBoundary_iff]
  constructor
  · rintro ⟨front, middle, back, rfl, hstart, hlength⟩
    refine ⟨?_, ⟨front, middle ++ back, by simp, hstart⟩, ⟨front ++ middle, back, rfl, ?_⟩⟩
    · simp only [stop, ← hstart, ← hlength, Text.bytes_append]
      omega
    · simp [stop, ← hstart, ← hlength]
  · rintro ⟨-, ⟨front, back, rfl, hstart⟩, front', back', happend, hstop⟩
    have hle : front.bytes ≤ front'.bytes := by
      rw [hstart, hstop]
      exact Nat.le_add_right ..
    obtain ⟨middle, rfl, rfl⟩ := Text.exists_append_of_bytes_le happend hle
    refine ⟨front, middle, back', by simp, hstart, ?_⟩
    simp only [Text.bytes_append, stop] at hstop
    omega

theorem misfit?_eq_none {s : Span} {t : Text} : s.misfit? t = none ↔ s.Fits t := by
  rw [fits_iff, misfit?]
  split
  · rename_i hlt
    simp only [reduceCtorEq, false_iff]
    exact fun h => absurd h.1 (Nat.not_le.2 hlt)
  · rename_i hle
    split <;> simp_all

theorem misfit?_eq_some {s : Span} {t : Text} {e : EditError} :
    s.misfit? t = some e ↔ ¬ s.Fits t ∧ e = s.misfit t := by
  rw [← misfit?_eq_none, misfit?, misfit]
  split
  · simp [eq_comm]
  · split
    · simp
    · simp [eq_comm]

end Span

/-! ## Substitution -/

/-- A text that begins at `offset`, and what comes out of it when the ranges of
spans, given from left to right, are replaced at once: the pieces of the text
between the ranges stay, with the replacements between them. -/
inductive Substituted : (offset : Nat) → List Span → Text → Text → Prop
  | keep (offset : Nat) (t : Text) : Substituted offset [] t t
  | replace {offset : Nat} {s : Span} {spans : List Span} {t out : Text} (kept replaced : Text) :
      offset + kept.bytes = s.start → replaced.bytes = s.length →
      Substituted s.stop spans t out →
      Substituted offset (s :: spans) (kept ++ replaced ++ t) (kept ++ s.replacement ++ out)

namespace Substituted

variable {offset : Nat} {s : Span} {spans : List Span} {t out out' : Text}

theorem of_cons (h : Substituted offset (s :: spans) t out) :
    ∃ kept replaced rest out', t = kept ++ replaced ++ rest ∧ out = kept ++ s.replacement ++ out' ∧
      offset + kept.bytes = s.start ∧ replaced.bytes = s.length ∧
      Substituted s.stop spans rest out' := by
  cases h with
  | replace kept replaced hstart hlength hrest =>
    exact ⟨kept, replaced, _, _, rfl, rfl, hstart, hlength, hrest⟩

/-- One thing only comes out. -/
theorem unique (h : Substituted offset spans t out) (h' : Substituted offset spans t out') :
    out = out' := by
  induction h generalizing out' with
  | keep => cases h'; rfl
  | replace kept replaced hstart hlength _ ih =>
    obtain ⟨kept', replaced', rest', out', ht, rfl, hstart', hlength', hrest'⟩ := h'.of_cons
    rw [List.append_assoc, List.append_assoc] at ht
    obtain ⟨rfl, hbehind⟩ := Text.append_inj_of_bytes ht (by omega)
    obtain ⟨rfl, rfl⟩ := Text.append_inj_of_bytes hbehind (by omega)
    rw [ih hrest']

/-- All spans fit the text. -/
theorem fits (h : Substituted offset spans t out) (front : Text) (hfront : front.bytes = offset) :
    ∀ s ∈ spans, s.Fits (front ++ t) := by
  induction h generalizing front with
  | keep => simp
  | @replace offset s spans rest out kept replaced hstart hlength _ ih =>
    refine List.forall_mem_cons.2 ⟨⟨front ++ kept, replaced, rest, by simp, ?_, hlength⟩, ?_⟩
    · rw [Text.bytes_append, hfront, hstart]
    · have hbehind := ih (front ++ kept ++ replaced) (by
        simp only [Text.bytes_append, Span.stop]
        omega)
      simpa using hbehind

/-- Replacing the ranges one by one, from the last to the first, is the same. -/
theorem foldr_replaceIn (h : Substituted offset spans t out) (front : Text)
    (hfront : front.bytes = offset) :
    spans.foldr Span.replaceIn (front ++ t) = front ++ out := by
  induction h generalizing front with
  | keep => rfl
  | @replace offset s spans rest out kept replaced hstart hlength _ ih =>
    have hbehind := ih (front ++ kept ++ replaced) (by
      simp only [Text.bytes_append, Span.stop]
      omega)
    have hcut : s.start = (front ++ kept).bytes := by rw [Text.bytes_append, hfront, hstart]
    have hassoc : front ++ (kept ++ replaced ++ rest) = front ++ kept ++ replaced ++ rest := by simp
    rw [List.foldr_cons, hassoc, hbehind, List.append_assoc (front ++ kept), Span.replaceIn, hcut,
      Text.cut?_append]
    simp only [← hlength, Text.cut?_append, List.append_assoc]

/-- When the turn of a span comes, its range is still there. -/
theorem fits_foldr {before after : List Span} {s : Span}
    (h : Substituted offset (before ++ s :: after) t out) (front : Text)
    (hfront : front.bytes = offset) :
    s.Fits (after.foldr Span.replaceIn (front ++ t)) := by
  induction before generalizing offset t out front with
  | nil =>
    obtain ⟨kept, replaced, rest, out', rfl, rfl, hstart, hlength, hrest⟩ := h.of_cons
    have hbehind := hrest.foldr_replaceIn (front ++ kept ++ replaced) (by
      simp only [Text.bytes_append, Span.stop]
      omega)
    refine ⟨front ++ kept, replaced, out', ?_, by rw [Text.bytes_append, hfront, hstart], hlength⟩
    rw [← hbehind]
    simp
  | cons b before ih =>
    obtain ⟨kept, replaced, rest, out', rfl, rfl, hstart, hlength, hrest⟩ := h.of_cons
    have hbehind := ih hrest (front ++ kept ++ replaced) (by
      simp only [Text.bytes_append, Span.stop]
      omega)
    simpa using hbehind

end Substituted

/-- Spans that fit a text and lie one before the other can be substituted in it. -/
theorem exists_substituted {spans : List Span} (front t : Text) (h : spans.Pairwise Span.Before)
    (hfits : ∀ s ∈ spans, s.Fits (front ++ t)) (hfront : ∀ s ∈ spans, front.bytes ≤ s.start) :
    ∃ out, Substituted front.bytes spans t out := by
  induction spans generalizing front t with
  | nil => exact ⟨t, .keep _ t⟩
  | cons s spans ih =>
    obtain ⟨hs, hspans⟩ := List.pairwise_cons.1 h
    obtain ⟨a, replaced, rest, ht, hstart, hlength⟩ := hfits s (by simp)
    rw [List.append_assoc] at ht
    obtain ⟨kept, rfl, rfl⟩ := Text.exists_append_of_bytes_le ht (by
      rw [hstart]
      exact hfront s (by simp))
    rw [Text.bytes_append] at hstart
    have hstop : (front ++ kept ++ replaced).bytes = s.stop := by
      simp only [Text.bytes_append, Span.stop]
      omega
    obtain ⟨out, hout⟩ := ih (front ++ kept ++ replaced) rest hspans
      (fun u hu => by simpa using hfits u (by simp [hu]))
      (fun u hu => by rw [hstop]; exact (hs u hu).1)
    rw [hstop] at hout
    rw [← List.append_assoc]
    exact ⟨_, .replace kept replaced hstart hlength hout⟩

/-! ## Sets of edits -/

namespace Edits

variable {edits : Edits} {spans : List Span} {t out : Text} {e : EditError}

theorem push_snd (edits : Edits) (s : Span) :
    (edits.push s).2 = true ↔ ∀ a ∈ edits.spans, a.overlaps s = false := by
  unfold push
  split
  · rename_i h
    obtain ⟨a, ha, hover⟩ := List.any_eq_true.1 h
    simp only [Bool.false_eq_true, false_iff]
    exact fun hall => absurd (hall a ha) (by simp [hover])
  · rename_i h
    simpa using h

theorem spans_push (edits : Edits) (s : Span) :
    (edits.push s).1.spans = if (edits.push s).2 then edits.spans ++ [s] else edits.spans := by
  unfold push
  split <;> rfl

theorem ofSpans_concat (spans : List Span) (s : Span) :
    ofSpans (spans ++ [s]) = ((ofSpans spans).push s).1 := by
  simp [ofSpans, pushAll]

/-- Spans that overlap none of each other are all kept. -/
theorem spans_ofSpans (h : spans.Pairwise fun a b => a.overlaps b = false) :
    (ofSpans spans).spans = spans := by
  induction spans using List.reverseRecOn with
  | nil => rfl
  | append_singleton spans s ih =>
    obtain ⟨hspans, -, hs⟩ := List.pairwise_append.1 h
    have hfree : ((ofSpans spans).push s).2 = true :=
      (push_snd _ s).2 fun a ha => hs a (ih hspans ▸ ha) s (by simp)
    rw [ofSpans_concat, spans_push, if_pos hfree, ih hspans]

/-- The spans in the order of their starts. -/
def inOrder (edits : Edits) : List Span := edits.spans.mergeSort fun a b => a.start ≤ b.start

theorem perm_inOrder (edits : Edits) : edits.inOrder.Perm edits.spans := List.mergeSort_perm ..

theorem before_inOrder (edits : Edits) : edits.inOrder.Pairwise Span.Before := by
  refine Span.pairwise_before ((Span.not_overlaps_perm edits.perm_inOrder).2 edits.apart) ?_
  refine (List.pairwise_mergeSort ?_ ?_ edits.spans).imp fun h => of_decide_eq_true h
  · intro a b c hab hbc
    simp only [decide_eq_true_eq] at hab hbc ⊢
    omega
  · intro a b
    simp only [Bool.or_eq_true, decide_eq_true_eq]
    omega

/-- Carrying out edits fails for the first span that does not fit. -/
theorem apply_eq_error : edits.apply t = .error e ↔
    ∃ before s after, edits.spans = before ++ s :: after ∧ (∀ b ∈ before, b.Fits t) ∧
      ¬ s.Fits t ∧ e = s.misfit t := by
  have hfind : edits.apply t = .error e ↔ edits.spans.findSome? (·.misfit? t) = some e := by
    unfold apply
    split
    · rename_i h; simp [h]
    · rename_i h; simp [h]
  rw [hfind, List.findSome?_eq_some_iff]
  simp only [Span.misfit?_eq_some, Span.misfit?_eq_none]
  constructor
  · rintro ⟨before, s, after, hspans, hs, hbefore⟩
    exact ⟨before, s, after, hspans, hbefore, hs⟩
  · rintro ⟨before, s, after, hspans, hbefore, hs⟩
    exact ⟨before, s, after, hspans, hs, hbefore⟩

/-- Carrying out edits substitutes all spans at once. -/
theorem apply_eq_ok : edits.apply t = .ok out ↔ Substituted 0 edits.inOrder t out := by
  have hiff : (edits.spans.findSome? (·.misfit? t) = none) ↔ ∀ s ∈ edits.inOrder, s.Fits t := by
    simp only [List.findSome?_eq_none_iff, Span.misfit?_eq_none, edits.perm_inOrder.mem_iff]
  have hfold {out} (h : Substituted 0 edits.inOrder t out) :
      edits.inOrder.foldr Span.replaceIn t = out := h.foldr_replaceIn [] rfl
  constructor
  · intro h
    unfold apply at h
    split at h
    · cases h
    · rename_i hnone
      obtain ⟨out', hout⟩ := exists_substituted [] t edits.before_inOrder
        (hiff.1 hnone) (fun _ _ => Nat.zero_le _)
      cases h
      change Substituted 0 edits.inOrder t (edits.inOrder.foldr Span.replaceIn t)
      rw [hfold hout]
      exact hout
  · intro h
    have hnone := hiff.2 (h.fits [] rfl)
    unfold apply
    rw [hnone]
    exact congrArg Except.ok (hfold h)

/-- If all of them fit the text, edits are carried out from the last to the first. -/
theorem apply_of_fits (edits : Edits) (h : ∀ s ∈ edits.spans, s.Fits t) :
    edits.apply t = .ok (edits.inOrder.foldr Span.replaceIn t) ∧
      Substituted 0 edits.inOrder t (edits.inOrder.foldr Span.replaceIn t) := by
  obtain ⟨out, hout⟩ := exists_substituted [] t edits.before_inOrder
    (fun s hs => h s (edits.perm_inOrder.mem_iff.1 hs)) (fun _ _ => Nat.zero_le _)
  have hfold : edits.inOrder.foldr Span.replaceIn t = out := hout.foldr_replaceIn [] rfl
  rw [hfold]
  exact ⟨apply_eq_ok.2 hout, hout⟩

/-- Spans given from left to right that fit the text are carried out from the last
to the first. -/
theorem applyOrKeep_ofSpans (h : spans.Pairwise Span.Before)
    (hfit : ∀ s ∈ spans, s.misfit? t = none) :
    (ofSpans spans).applyOrKeep t = spans.foldr Span.replaceIn t := by
  have hspans : (ofSpans spans).spans = spans := spans_ofSpans (h.imp Span.overlaps_of_before)
  have hperm := perm_inOrder (ofSpans spans)
  rw [hspans] at hperm
  have horder : (ofSpans spans).inOrder = spans := Span.eq_of_before hperm (before_inOrder _) h
  have happly := (apply_of_fits (t := t) (ofSpans spans) fun s hs =>
    Span.misfit?_eq_none.1 (hfit s (hspans ▸ hs))).1
  rw [applyOrKeep, happly, horder]

/-- Whatever the order in which spans that do not overlap came, the same comes out. -/
theorem inOrder_ofSpans_perm {spans' : List Span} (hperm : spans'.Perm spans)
    (h : spans.Pairwise fun a b => a.overlaps b = false) :
    (ofSpans spans').spans = spans' ∧ (ofSpans spans').inOrder = (ofSpans spans).inOrder := by
  have hspans := spans_ofSpans h
  have hspans' := spans_ofSpans ((Span.not_overlaps_perm hperm).2 h)
  refine ⟨hspans', Span.eq_of_before ?_ (before_inOrder _) (before_inOrder _)⟩
  have hleft := perm_inOrder (ofSpans spans')
  have hright := perm_inOrder (ofSpans spans)
  rw [hspans'] at hleft
  rw [hspans] at hright
  exact hleft.trans (hperm.trans hright.symm)

/-- Spans that come one after another: one is taken up if it overlaps none of
those taken up before it. What is taken up has distinct starts and disjoint
ranges. Carrying it out fails, and leaves the text as it was, for the first span
that does not fit the text; otherwise each range is found where it was, and what
comes out are the pieces of the text between the ranges with the replacements
between them. The order in which spans that do not overlap came makes no
difference. -/
theorem ofSpans_substitutes (spans : List Span) :
    (∀ s, ofSpans (spans ++ [s]) = ((ofSpans spans).push s).1 ∧
      (((ofSpans spans).push s).2 = true ↔ ∀ a ∈ (ofSpans spans).spans, a.overlaps s = false) ∧
      (ofSpans (spans ++ [s])).spans =
        if ((ofSpans spans).push s).2 then (ofSpans spans).spans ++ [s]
        else (ofSpans spans).spans) ∧
    ((ofSpans spans).spans.Pairwise fun a b =>
      a.start ≠ b.start ∧ (a.stop ≤ b.start ∨ b.stop ≤ a.start)) ∧
    (∀ t e, (ofSpans spans).apply t = .error e ↔
      ∃ before s after, (ofSpans spans).spans = before ++ s :: after ∧ (∀ b ∈ before, b.Fits t) ∧
        ¬ s.Fits t ∧ e = s.misfit t) ∧
    (∀ t e, (ofSpans spans).apply t = .error e → (ofSpans spans).applyOrKeep t = t) ∧
    (∃ sorted : List Span, sorted.Perm (ofSpans spans).spans ∧ sorted.Pairwise Span.Before ∧
      (∀ t out, (ofSpans spans).apply t = .ok out ↔ Substituted 0 sorted t out) ∧
      ∀ t, (∀ s ∈ (ofSpans spans).spans, s.Fits t) →
        (ofSpans spans).apply t = .ok (sorted.foldr Span.replaceIn t) ∧
        ∀ before s after, sorted = before ++ s :: after →
          s.Fits (after.foldr Span.replaceIn t)) ∧
    ((spans.Pairwise fun a b => a.overlaps b = false) → ∀ spans', spans'.Perm spans →
      (ofSpans spans').spans = spans' ∧ ∀ t, (∀ s ∈ spans, s.Fits t) →
        ∃ out, (ofSpans spans').apply t = .ok out ∧ (ofSpans spans).apply t = .ok out) := by
  refine ⟨fun s => ⟨ofSpans_concat spans s, push_snd _ s, ?_⟩, ?_, fun t e => apply_eq_error, ?_,
    ⟨(ofSpans spans).inOrder, perm_inOrder _, before_inOrder _, fun t out => apply_eq_ok, ?_⟩, ?_⟩
  · rw [ofSpans_concat, spans_push]
  · refine (ofSpans spans).apart.imp fun h => ?_
    rcases Span.overlaps_eq_false_iff.1 h with hbefore | hafter
    · exact ⟨Nat.ne_of_lt hbefore.2, .inl hbefore.1⟩
    · exact ⟨Nat.ne_of_gt hafter.2, .inr hafter.1⟩
  · intro t e h
    rw [applyOrKeep, h]
  · intro t h
    obtain ⟨happly, hsubstituted⟩ := apply_of_fits _ h
    refine ⟨happly, fun before s after hsorted => ?_⟩
    rw [hsorted] at hsubstituted
    exact hsubstituted.fits_foldr [] rfl
  · intro h spans' hperm
    obtain ⟨hspans', horder⟩ := inOrder_ofSpans_perm hperm h
    refine ⟨hspans', fun t hfits => ?_⟩
    have happly := (apply_of_fits (t := t) (ofSpans spans)
      fun s hs => hfits s (spans_ofSpans h ▸ hs)).1
    have happly' := (apply_of_fits (t := t) (ofSpans spans')
      fun s hs => hfits s (hperm.mem_iff.1 (hspans' ▸ hs))).1
    rw [horder] at happly'
    exact ⟨_, happly', happly⟩

theorem ofSpans_substitutes_accented :
    ∃ out, (ofSpans [⟨5, 1, "20".toList⟩, ⟨0, 2, "x".toList⟩]).apply "đ = 1".toList = .ok out ∧
      (ofSpans [⟨0, 2, "x".toList⟩, ⟨5, 1, "20".toList⟩]).apply "đ = 1".toList = .ok out := by
  have hfits : ∀ s ∈ [(⟨0, 2, "x".toList⟩ : Span), ⟨5, 1, "20".toList⟩], s.Fits "đ = 1".toList := by
    simp only [Span.fits_iff]
    decide
  exact ((ofSpans_substitutes [⟨0, 2, "x".toList⟩, ⟨5, 1, "20".toList⟩]).2.2.2.2.2 (by decide) _
    (.swap ..)).2 _ hfits

end Edits

end SceneGate
