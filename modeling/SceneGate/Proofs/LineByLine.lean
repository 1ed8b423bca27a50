/-
Rules that work line by line. No call goes over the end of a line, and a line feed goes on
no name, so the calls in two texts put together are those of the first, which ends with a
line, and those of the second (`findAll_append`). The edits of such calls do not meet those of
the others (`LeftToRight.applyOrKeep_append`), so what comes out of the two texts is what
comes out of each (`rules_line_by_line`).
-/
import SceneGate.Proofs.FormulaNotes
import SceneGate.Rules.LegacyText

namespace SceneGate

/-! ## Texts that end with a line -/

/-- The text ends with a line feed, if it is not empty. -/
def Text.WholeLines (t : Text) : Prop := t = [] ∨ t.getLast? = some '\n'

namespace Text.WholeLines

variable {a b u t : Text} {c : Char} {n : Nat}

theorem tail (h : WholeLines (c :: t)) : WholeLines t ∧ (t = [] → c = '\n') := by
  have hlast := h.resolve_left (List.cons_ne_nil c t)
  cases t with
  | nil => exact ⟨.inl rfl, fun _ => by simpa using hlast⟩
  | cons d t => exact ⟨.inr (by simpa using hlast), fun h => absurd h (List.cons_ne_nil d t)⟩

theorem drop (h : WholeLines t) (n : Nat) : WholeLines (t.drop n) := by
  rcases Nat.lt_or_ge n t.length with hlt | hge
  · have hne : t ≠ [] := fun hnil => by simp [hnil] at hlt
    right
    rw [List.getLast?_drop, if_neg (Nat.not_le.2 hlt), h.resolve_left hne]
  · exact .inl (List.drop_eq_nil_of_le hge)

/-- A text without line feeds does not go over the end of a line. -/
theorem prefix_append_iff (h : WholeLines a) (hne : a ≠ []) (hu : '\n' ∉ u) (b : Text) :
    u <+: a ++ b ↔ u <+: a := by
  constructor
  · intro hfront
    rcases List.prefix_or_prefix_of_prefix hfront (List.prefix_append a b) with h' | h'
    · exact h'
    · exact absurd (h'.subset (List.mem_of_getLast? (h.resolve_left hne))) hu
  · exact fun hfront => hfront.trans (List.prefix_append a b)

theorem length_lt_of_prefix (h : WholeLines a) (hne : a ≠ []) (hu : '\n' ∉ u) (hfront : u <+: a) :
    u.length < a.length := by
  refine Nat.lt_of_le_of_ne hfront.length_le fun hlength => hu ?_
  rw [hfront.eq_of_length hlength]
  exact List.mem_of_getLast? (h.resolve_left hne)

theorem splitLines_append (h : WholeLines a) (b : Text) :
    (a ++ b).splitLines = a.splitLines ++ b.splitLines := by
  induction a with
  | nil => rfl
  | cons c t ih =>
    obtain ⟨ht, hlast⟩ := h.tail
    rw [List.cons_append, splitLines, splitLines, ih ht]
    split
    · rfl
    · rename_i hc
      cases hlines : splitLines t with
      | nil =>
        have hnil := flatten_splitLines t
        rw [hlines] at hnil
        exact absurd (hlast hnil.symm) hc
      | cons l ls => rfl

end Text.WholeLines

/-! ## Calls in two texts -/

open Text

variable {callee a b t : Text} {before before' : Option Char} {offset skip n : Nat}

theorem StringArgument.read?_append (h : WholeLines a) (hne : a ≠ []) (b : Text) :
    read? (a ++ b) = read? a := by
  refine Option.ext fun x => ?_
  rw [read?_eq_some, read?_eq_some]
  refine and_congr_right fun hx => ?_
  have hfront := h.prefix_append_iff hne hx.lineFeed_notMem b
  simpa only [List.IsPrefix, eq_comm] using hfront

namespace StringCall

theorem LiesIn.start_lt {call : StringCall} (h : call.LiesIn t) : call.start < t.bytes := by
  obtain ⟨front, back, rfl, hfront⟩ := h
  have hpos : 0 < call.source.bytes := call.length_pos
  simp only [bytes_append, hfront]
  omega

/-- The call in a text that begins `n` bytes later. -/
def shift (n : Nat) (call : StringCall) : StringCall := { call with start := n + call.start }

theorem findFrom_before (h : continuesName before = continuesName before') :
    findFrom callee before offset skip t = findFrom callee before' offset skip t := by
  cases t with
  | nil => rw [findFrom, findFrom]
  | cons c t =>
    cases skip with
    | zero => simp only [findFrom, h]
    | succ skip => rw [findFrom, findFrom]

theorem findFrom_shift (n : Nat) : findFrom callee before (n + offset) skip t =
    (findFrom callee before offset skip t).map (shift n) := by
  induction t generalizing before offset skip with
  | nil => simp [findFrom]
  | cons c t ih =>
    cases skip with
    | succ skip => simp only [findFrom, Nat.add_assoc, ih]
    | zero =>
      simp only [findFrom, Nat.add_assoc, ih]
      split
      · split <;> rfl
      · rfl

theorem findFrom_append (hcallee : '\n' ∉ callee) (ha : WholeLines a)
    (hbefore : a = [] → continuesName before = false) (hskip : skip ≤ a.length) (b : Text) :
    findFrom callee before offset skip (a ++ b) =
      findFrom callee before offset skip a ++ findFrom callee none (offset + a.bytes) 0 b := by
  induction a generalizing before offset skip with
  | nil =>
    obtain rfl : skip = 0 := Nat.le_zero.1 hskip
    have hnone : continuesName before = continuesName none := hbefore rfl
    rw [List.nil_append, findFrom_before hnone]
    simp [findFrom]
  | cons c cs ih =>
    obtain ⟨hcs, hlast⟩ := ha.tail
    have hnext : cs = [] → continuesName (some c) = false := fun h => by rw [hlast h]; decide
    have hlater (skip : Nat) (hskip : skip ≤ cs.length) :
        findFrom callee (some c) (offset + c.utf8Size) skip (cs ++ b) =
          findFrom callee (some c) (offset + c.utf8Size) skip cs ++
            findFrom callee none (offset + bytes (c :: cs)) 0 b := by
      rw [ih hcs hnext hskip, bytes_cons, Nat.add_assoc]
    cases skip with
    | succ skip =>
      rw [List.cons_append, findFrom, findFrom]
      exact hlater skip (Nat.le_of_succ_le_succ hskip)
    | zero =>
      have hne := List.cons_ne_nil c cs
      have hopening : '\n' ∉ callee ++ ['('] := by simp [hcallee]
      have hfront : (callee ++ ['(']).isPrefixOf (c :: (cs ++ b)) =
          (callee ++ ['(']).isPrefixOf (c :: cs) := by
        rw [Bool.eq_iff_iff, List.isPrefixOf_iff_prefix, List.isPrefixOf_iff_prefix]
        exact ha.prefix_append_iff hne hopening b
      rw [List.cons_append, findFrom, findFrom, hfront]
      split
      · -- what opens a call ends in front of the line feed, and what is read behind it too
        rename_i hopen
        have hlt := ha.length_lt_of_prefix hne hopening (List.isPrefixOf_iff_prefix.1 hopen)
        have hread : StringArgument.read? ((c :: (cs ++ b)).drop (callee ++ ['(']).length) =
            StringArgument.read? ((c :: cs).drop (callee ++ ['(']).length) := by
          rw [← List.cons_append, List.drop_append_of_le_length (Nat.le_of_lt hlt)]
          refine StringArgument.read?_append (ha.drop _) (fun hnil => ?_) b
          exact absurd (List.drop_eq_nil_iff.1 hnil) (Nat.not_le.2 hlt)
        have hskip : callee.length ≤ cs.length := by
          simp only [List.length_append, List.length_cons, List.length_nil] at hlt
          omega
        simp only [hread, hlater _ hskip]
        split <;> rfl
      · exact hlater 0 (Nat.zero_le _)

/-- The calls in two texts put together are those of the one and those of the other. -/
theorem findAll_append (hcallee : '\n' ∉ callee) (ha : WholeLines a) (b : Text) :
    findAll callee (a ++ b) = findAll callee a ++ (findAll callee b).map (shift a.bytes) := by
  rw [findAll, findFrom_append hcallee ha (fun _ => rfl) (Nat.zero_le _), Nat.zero_add,
    ← Nat.add_zero a.bytes, findFrom_shift]
  rfl

end StringCall

/-! ## Edits of two texts -/

/-- The span in a text that begins `n` bytes later. -/
def Span.shift (n : Nat) (s : Span) : Span := { s with start := n + s.start }

/-- What comes out of a text does not depend on where it begins. -/
theorem Substituted.shift {spans : List Span} {out : Text} (h : Substituted offset spans t out)
    (n : Nat) : Substituted (n + offset) (spans.map (.shift n)) t out := by
  induction h with
  | keep => exact .keep _ _
  | @replace offset s spans t out kept replaced hstart hlength _ ih =>
    have hstop : (s.shift n).stop = n + s.stop := Nat.add_assoc ..
    exact .replace (s := s.shift n) kept replaced (by rw [Nat.add_assoc, hstart]; rfl) hlength
      (hstop ▸ ih)

namespace Span

variable {spans spans' : List Span}

theorem firstCome_shift (n : Nat) (last : Option Span) (spans : List Span) :
    firstCome (last.map (shift n)) (spans.map (shift n)) =
      (firstCome last spans).map (shift n) := by
  have hbefore (a b : Span) : (a.shift n).Before (b.shift n) ↔ a.Before b := by
    simp only [Before, shift, stop]
    omega
  induction spans generalizing last with
  | nil => rfl
  | cons s spans ih =>
    have hall : (last.map (shift n)).all (fun p => decide (p.Before (s.shift n))) =
        last.all fun p => decide (p.Before s) := by
      cases last <;> simp [hbefore]
    rw [List.map_cons, firstCome, firstCome, hall]
    split
    · rw [List.map_cons, ← ih (some s)]
      rfl
    · exact ih last

/-- Edits that come from left to right, fit a text and begin in it. -/
structure LeftToRight (spans : List Span) (t : Text) : Prop where
  sorted : spans.Pairwise fun a b => a.start ≤ b.start
  fits : ∀ s ∈ spans, s.Fits t
  begins : ∀ s ∈ spans, s.start < t.bytes

/-- Something comes out of the text. -/
theorem LeftToRight.exists_substituted (h : LeftToRight spans t) :
    ∃ out, Substituted 0 (firstCome none spans) t out := by
  have hsub := firstCome_sublist none spans
  have hbefore : (firstCome none spans).Pairwise Before := by
    refine pairwise_before ?_ (h.sorted.sublist hsub)
    rw [← Edits.spans_ofSpans_ordered h.sorted]
    exact (Edits.ofSpans spans).apart
  exact SceneGate.exists_substituted [] t hbefore (fun s hs => h.fits s (hsub.mem hs))
    fun s _ => Nat.zero_le _

/-- Edits of two texts put together do not meet. -/
theorem LeftToRight.applyOrKeep_append (h : LeftToRight spans a) (h' : LeftToRight spans' b) :
    (Edits.ofSpans (spans ++ spans'.map (shift a.bytes))).applyOrKeep (a ++ b) =
      (Edits.ofSpans spans).applyOrKeep a ++ (Edits.ofSpans spans').applyOrKeep b := by
  obtain ⟨out, hout⟩ := h.exists_substituted
  obtain ⟨out', hout'⟩ := h'.exists_substituted
  have hbehind : ∀ s ∈ spans, ∀ u ∈ spans'.map (shift a.bytes), s.Before u := by
    intro s hs u hu
    obtain ⟨w, -, rfl⟩ := List.mem_map.1 hu
    have hstop := (fits_iff.1 (h.fits s hs)).1
    have hstart := h.begins s hs
    exact ⟨Nat.le_trans hstop (Nat.le_add_right ..),
      Nat.lt_of_lt_of_le hstart (Nat.le_add_right ..)⟩
  rw [Edits.applyOrKeep_ordered h.sorted hout, Edits.applyOrKeep_ordered h'.sorted hout']
  refine Edits.applyOrKeep_ordered ?_ ?_
  · refine List.pairwise_append.2
      ⟨h.sorted, ?_, fun s hs u hu => Nat.le_of_lt (hbehind s hs u hu).2⟩
    exact List.pairwise_map.2 (h'.sorted.imp fun hle => Nat.add_le_add_left hle _)
  · have hshifted := hout'.shift a.bytes
    have hcome := firstCome_shift a.bytes none spans'
    rw [Nat.add_zero] at hshifted
    rw [Option.map_none] at hcome
    rw [firstCome_append hbehind, hcome]
    exact hout.append (by rwa [Nat.zero_add])

end Span

/-! ## The rules -/

open StringCall

variable {v : Vocabulary}

namespace LegacyText

theorem leftToRight (v : Vocabulary) (t : Text) : Span.LeftToRight (spans v t) t := by
  have hlies : ∀ s ∈ spans v t, ∃ c : StringCall, c.LiesIn t ∧ s.start = c.start ∧
      s.length = c.length := by
    intro s hs
    obtain ⟨c, hc, rfl⟩ := List.mem_map.1 hs
    exact ⟨c, (stands_of_mem_findAll hc).liesIn, rfl, rfl⟩
  refine ⟨?_, fun s hs => ?_, fun s hs => ?_⟩
  · exact List.pairwise_map.2 ((pairwise_start_findAll _ t).imp Nat.le_of_lt)
  · obtain ⟨c, hc, hstart, hlength⟩ := hlies s hs
    exact hc.fits hstart hlength
  · obtain ⟨c, hc, hstart, -⟩ := hlies s hs
    exact hstart ▸ hc.start_lt

theorem spans_append (hname : '\n' ∉ v.legacyTextConstructor) (ha : WholeLines a) (b : Text) :
    spans v (a ++ b) = spans v a ++ (spans v b).map (Span.shift a.bytes) := by
  rw [spans, findAll_append hname ha, List.map_append, List.map_map, spans, spans, List.map_map]
  rfl

end LegacyText

namespace InlineText

variable {calls calls' : List StringCall} {start : Nat} {ls ls' : List Text}

/-- The edits for a text come line by line. -/
theorem spans_eq_editsFrom (v : Vocabulary) (t : Text) :
    spans v t = editsFrom v (proseCalls v t) 0 t.splitLines := by
  have hbound : ∀ c ∈ proseCalls v t, c.start < 0 + Text.bytes t.splitLines.flatten := by
    intro c hc
    rw [flatten_splitLines, Nat.zero_add]
    exact (stands_of_mem_findAll (List.mem_filter.1 hc).1).liesIn.start_lt
  rw [← spansFrom_eq (lines_splitLines t) [] (show ∀ n ∈ [], n < 0 by simp)
    (pairwise_proseCalls v t) hbound]
  simp [spans, Text.lines, proseCalls]

theorem proseCalls_append (hname : '\n' ∉ v.texConstructor) (ha : WholeLines a) (b : Text) :
    proseCalls v (a ++ b) = proseCalls v a ++ (proseCalls v b).map (StringCall.shift a.bytes) := by
  rw [proseCalls, findAll_append hname ha, List.filter_append, List.filter_map]
  rfl

theorem editsFrom_append (v : Vocabulary) (calls : List StringCall) (start : Nat)
    (ls ls' : List Text) : editsFrom v calls start (ls ++ ls') =
      editsFrom v calls start ls ++ editsFrom v calls (start + Text.bytes ls.flatten) ls' := by
  induction ls generalizing start with
  | nil => rfl
  | cons l ls ih =>
    rw [List.cons_append, editsFrom, editsFrom, ih, List.append_assoc, List.flatten_cons,
      bytes_append, Nat.add_assoc]

/-- The edits of lines are those for the calls on them. -/
theorem editsFrom_congr (h : ∀ s l, start ≤ s → s + bytes l ≤ start + Text.bytes ls.flatten →
    callsOn calls s l = callsOn calls' s l) :
    editsFrom v calls start ls = editsFrom v calls' start ls := by
  induction ls generalizing start with
  | nil => rfl
  | cons l ls ih =>
    rw [List.flatten_cons, bytes_append] at h
    rw [editsFrom, editsFrom, h start l (Nat.le_refl _) (by omega),
      ih fun s m hs hm => h s m (by omega) (by omega)]

theorem callsOn_append (start : Nat) (l : Text) :
    callsOn (calls ++ calls') start l = callsOn calls start l ++ callsOn calls' start l :=
  List.filter_append ..

theorem callsOn_eq_nil {l : Text} (h : ∀ c ∈ calls, c.start < start ∨ start + l.bytes ≤ c.start) :
    callsOn calls start l = [] := by
  refine List.filter_eq_nil_iff.2 fun c hc => ?_
  have := h c hc
  simp only [Bool.and_eq_true, decide_eq_true_eq, not_and, Nat.not_lt]
  omega

theorem callsOn_shift (n start : Nat) (l : Text) :
    callsOn (calls.map (shift n)) (n + start) l = (callsOn calls start l).map (shift n) := by
  rw [callsOn, callsOn, List.filter_map]
  refine congrArg _ (List.filter_congr fun c _ => ?_)
  simp only [Function.comp_apply, shift, Nat.add_le_add_iff_left, Nat.add_assoc,
    Nat.add_lt_add_iff_left]

theorem lineEdits_shift (n start : Nat) (above : Text) :
    lineEdits (n + start) above (calls.map (shift n)) =
      (lineEdits start above calls).map (Span.shift n) := by
  cases calls with
  | nil => rfl
  | cons call calls =>
    have hstart : n + start = (call.shift n).start ↔ start = call.start := Nat.add_left_cancel_iff
    have hcalls : (calls.map (shift n)).map (edit []) =
        (calls.map (edit [])).map (Span.shift n) := by
      rw [List.map_map, List.map_map]
      rfl
    rw [List.map_cons, lineEdits, lineEdits, if_congr hstart rfl rfl]
    split
    · rw [hcalls, List.map_cons]
      rfl
    · rw [List.map_cons, hcalls, List.map_cons, List.map_cons]
      rfl

theorem editsFrom_shift (n : Nat) : editsFrom v (calls.map (shift n)) (n + start) ls =
    (editsFrom v calls start ls).map (Span.shift n) := by
  induction ls generalizing start with
  | nil => rfl
  | cons l ls ih =>
    rw [editsFrom, editsFrom, callsOn_shift, lineEdits_shift, Nat.add_assoc, ih, List.map_append]

theorem spans_append (hname : '\n' ∉ v.texConstructor) (ha : WholeLines a) (b : Text) :
    spans v (a ++ b) = spans v a ++ (spans v b).map (Span.shift a.bytes) := by
  have hin : ∀ c ∈ proseCalls v a, c.start < a.bytes := fun c hc =>
    (stands_of_mem_findAll (List.mem_filter.1 hc).1).liesIn.start_lt
  have hbehind : ∀ c ∈ (proseCalls v b).map (shift a.bytes), a.bytes ≤ c.start := by
    intro c hc
    obtain ⟨c, -, rfl⟩ := List.mem_map.1 hc
    exact Nat.le_add_right ..
  rw [spans_eq_editsFrom, spans_eq_editsFrom, spans_eq_editsFrom, proseCalls_append hname ha,
    ha.splitLines_append, editsFrom_append, flatten_splitLines, Nat.zero_add, ← editsFrom_shift]
  -- on the lines of the one text begin none of the calls of the other
  refine congrArg₂ _ (editsFrom_congr fun s l _ hle => ?_) (editsFrom_congr fun s l hle _ => ?_)
  · rw [flatten_splitLines] at hle
    have hnone : callsOn ((proseCalls v b).map (shift a.bytes)) s l = [] :=
      callsOn_eq_nil fun c hc => by have := hbehind c hc; omega
    rw [callsOn_append, hnone, List.append_nil]
  · have hnone : callsOn (proseCalls v a) s l = [] :=
      callsOn_eq_nil fun c hc => by have := hin c hc; omega
    rw [callsOn_append, hnone, List.nil_append]

/-- An edit begins where a call does, or where a line does on which one begins. -/
theorem fits_editsFrom (pre : Text) (hcalls : ∀ c ∈ calls, c.LiesIn (pre ++ ls.flatten)) :
    ∀ s ∈ editsFrom v calls pre.bytes ls,
      s.Fits (pre ++ ls.flatten) ∧ s.start < (pre ++ ls.flatten).bytes := by
  induction ls generalizing pre with
  | nil => exact List.forall_mem_nil _
  | cons l ls ih =>
    have hassoc : pre ++ (l :: ls).flatten = pre ++ l ++ ls.flatten := by simp
    intro s hs
    rcases List.mem_append.1 hs with hs | hs
    · rcases mem_lineEdits hs with ⟨hstart, hlength, hne⟩ | ⟨c, hc, hstart, hlength⟩
      · obtain ⟨c, hc⟩ := List.exists_mem_of_ne_nil _ hne
        obtain ⟨hmem, hle, -⟩ := mem_callsOn.1 hc
        exact ⟨⟨pre, [], (l :: ls).flatten, by simp, hstart.symm, hlength.symm⟩,
          hstart ▸ Nat.lt_of_le_of_lt hle (hcalls c hmem).start_lt⟩
      · have hlies := hcalls c (mem_callsOn.1 hc).1
        exact ⟨hlies.fits hstart hlength, hstart ▸ hlies.start_lt⟩
    · rw [hassoc] at hcalls ⊢
      rw [← bytes_append] at hs
      exact ih (pre ++ l) hcalls s hs

theorem leftToRight (v : Vocabulary) (t : Text) : Span.LeftToRight (spans v t) t := by
  have hlies : ∀ c ∈ proseCalls v t, c.LiesIn ([] ++ t.splitLines.flatten) := by
    intro c hc
    rw [List.nil_append, flatten_splitLines]
    exact (stands_of_mem_findAll (List.mem_filter.1 hc).1).liesIn
  have hfits := fits_editsFrom (v := v) [] hlies
  rw [List.nil_append, flatten_splitLines] at hfits
  rw [spans_eq_editsFrom]
  exact ⟨pairwise_editsFrom (pairwise_proseCalls v t) 0 _, fun s hs => (hfits s hs).1,
    fun s hs => (hfits s hs).2⟩

end InlineText

/-- Rules work line by line. Where a text ends with a line, or is empty, what a rule makes of
it and of any text behind it is what it makes of each: the rule for text in formulas and the
one for the removed constructor, if the names that they look for hold no line feed, and the
one that quotes words, whatever the words are. -/
theorem rules_line_by_line (ha : a = [] ∨ a.getLast? = some '\n') (b : Text) :
    (∀ v : Vocabulary, '\n' ∉ v.texConstructor →
      (InlineText.rule v).apply (a ++ b) =
        (InlineText.rule v).apply a ++ (InlineText.rule v).apply b) ∧
    (∀ v : Vocabulary, '\n' ∉ v.legacyTextConstructor →
      (LegacyText.rule v).apply (a ++ b) =
        (LegacyText.rule v).apply a ++ (LegacyText.rule v).apply b) ∧
    ∀ words, (QuoteWords.rule words).apply (a ++ b) =
      (QuoteWords.rule words).apply a ++ (QuoteWords.rule words).apply b := by
  have ha : WholeLines a := ha
  refine ⟨fun v hname => ?_, fun v hname => ?_, fun words => ?_⟩
  · have happend := (InlineText.leftToRight v a).applyOrKeep_append (InlineText.leftToRight v b)
    rwa [← InlineText.spans_append hname ha] at happend
  · have happend := (LegacyText.leftToRight v a).applyOrKeep_append (LegacyText.leftToRight v b)
    rwa [← LegacyText.spans_append hname ha] at happend
  · show QuoteWords.quote words (a ++ b) = QuoteWords.quote words a ++ QuoteWords.quote words b
    rw [QuoteWords.quote_eq, QuoteWords.quote_eq, QuoteWords.quote_eq, ha.splitLines_append,
      List.map_append, List.flatten_append]

/-- A formula that goes over the end of a line. -/
def brokenFormula : Text := "x = Tex(\"\\text\x7bSố\n".toList

/-- What may stand behind it. -/
def formulaEnd : Text := "đo\x7d\"); Tex(\"\\text\x7bSố\x7d n\")".toList

theorem rules_line_by_line_brokenFormula :
    (brokenFormula = [] ∨ brokenFormula.getLast? = some '\n') ∧
      '\n' ∉ ({} : Vocabulary).texConstructor ∧ '\n' ∉ ({} : Vocabulary).legacyTextConstructor ∧
      (InlineText.rule {}).apply (brokenFormula ++ formulaEnd) =
        (InlineText.rule {}).apply brokenFormula ++ (InlineText.rule {}).apply formulaEnd ∧
      (LegacyText.rule {}).apply (brokenFormula ++ formulaEnd) =
        (LegacyText.rule {}).apply brokenFormula ++ (LegacyText.rule {}).apply formulaEnd := by
  have hends : brokenFormula = [] ∨ brokenFormula.getLast? = some '\n' := .inr (by decide)
  have htex : '\n' ∉ ({} : Vocabulary).texConstructor := by decide
  have hlegacy : '\n' ∉ ({} : Vocabulary).legacyTextConstructor := by decide
  obtain ⟨hinline, htext, -⟩ := rules_line_by_line hends formulaEnd
  exact ⟨hends, htex, hlegacy, hinline {} htex, htext {} hlegacy⟩

end SceneGate
