/-
What quoting does to a text. Each edit lies on a line of its own, so none is
turned away and each line comes out as if it had been the only one (`quote_eq`).
Of the text as a whole it is kept that a word in quotes has no letter beside it:
whatever stands next to it is a blank or one of the signs that tell places.
-/
import SceneGate.Proofs.Quotes
import SceneGate.Proofs.Substitution

namespace SceneGate

/-! ## Lines -/

/-- Lines that follow one another: only the last may have no line feed. -/
inductive Text.Lines : List Text → Prop
  | nil : Lines []
  | last : l ≠ [] → '\n' ∉ l → Lines [l]
  | cons : '\n' ∉ l → Lines ls → Lines ((l ++ ['\n']) :: ls)

namespace Text

theorem lines_splitLines (t : Text) : Lines (splitLines t) := by
  induction t with
  | nil => exact .nil
  | cons c cs ih =>
    simp only [splitLines]
    split
    · rename_i hc
      subst hc
      exact .cons (l := []) (by simp) ih
    · rename_i hc
      have hc' : '\n' ∉ [c] := by simpa using Ne.symm hc
      generalize splitLines cs = ls at ih
      cases ih with
      | nil => exact .last (by simp) hc'
      | last hne hl => exact .last (by simp) (by simpa using And.intro (Ne.symm hc) hl)
      | @cons l ls hl hls =>
        have hcl : '\n' ∉ c :: l := by simpa using And.intro (Ne.symm hc) hl
        exact .cons hcl hls

theorem prefix_withoutLast (c : Char) (t : Text) : withoutLast c t <+: t := by
  unfold withoutLast
  split
  · exact List.dropLast_prefix t
  · exact List.prefix_rfl

theorem prefix_withoutLineEnding (line : Text) : withoutLineEnding line <+: line :=
  (prefix_withoutLast _ _).trans (prefix_withoutLast _ _)

/-- What ends a line. -/
def lineEnding (line : Text) : Text := line.drop (withoutLineEnding line).length

theorem withoutLineEnding_append (line : Text) :
    withoutLineEnding line ++ lineEnding line = line :=
  List.prefix_iff_eq_append.1 (prefix_withoutLineEnding line)

theorem eq_withoutLast (c : Char) (t : Text) : t = withoutLast c t ∨ t = withoutLast c t ++ [c] := by
  unfold withoutLast
  split
  · rename_i h
    obtain ⟨u, rfl⟩ := List.getLast?_eq_some_iff.1 h
    exact .inr (by rw [List.dropLast_concat])
  · exact .inl rfl

/-- A line ends in a line feed and a carriage return, or one of them, or neither. -/
theorem lineEnding_eq (line : Text) :
    line.lineEnding = [] ∨ line.lineEnding = ['\n'] ∨ line.lineEnding = ['\r'] ∨
      line.lineEnding = ['\r', '\n'] := by
  have hending {ending : Text} (h : line = withoutLineEnding line ++ ending) :
      line.lineEnding = ending :=
    List.append_cancel_left ((withoutLineEnding_append line).trans h)
  have hfeed := eq_withoutLast '\n' line
  have hreturn := eq_withoutLast '\r' (withoutLast '\n' line)
  rw [← withoutLineEnding] at hreturn
  rcases hfeed with hfeed | hfeed <;> rcases hreturn with hreturn | hreturn <;>
    rw [hreturn] at hfeed
  · exact .inl (hending (by simpa using hfeed))
  · exact .inr (.inr (.inl (hending hfeed)))
  · exact .inr (.inl (hending hfeed))
  · exact .inr (.inr (.inr (hending (by simpa using hfeed))))

theorem lineEnding_ne_nil (l : Text) : lineEnding (l ++ ['\n']) ≠ [] := by
  intro h
  have hline := withoutLineEnding_append (l ++ ['\n'])
  have hfeed : withoutLast '\n' (l ++ ['\n']) = l := by simp [withoutLast]
  have hlen := (prefix_withoutLast '\r' (withoutLast '\n' (l ++ ['\n']))).length_le
  rw [← withoutLineEnding, hfeed] at hlen
  have := congrArg List.length hline
  simp [h] at this
  omega

theorem Lines.ne_nil {l : Text} {ls : List Text} (h : Lines (l :: ls)) : l ≠ [] := by
  cases h with
  | last hne => exact hne
  | cons => simp

theorem Lines.tail {l : Text} {ls : List Text} (h : Lines (l :: ls)) : Lines ls := by
  cases h with
  | last => exact .nil
  | cons _ hls => exact hls

end Text

namespace QuoteWords

/-- What becomes of a line: its line ending and comments stay as they are. -/
def requote (words : List Text) (line : Text) : Text :=
  let content := line.withoutLineEnding
  (if isComment content then content else quoteLine words content) ++ line.lineEnding

end QuoteWords

/-! ## Edits that lie on different lines -/

namespace QuoteWords

open Text

variable {words : List Text} {t : Text}

theorem span?_eq_some {line : Line} {s : Span} (h : span? words line = some s) :
    isComment line.content = false ∧
      s = ⟨line.start, line.content.bytes, quoteLine words line.content⟩ := by
  unfold span? at h
  dsimp only at h
  split at h
  · cases h
  · rename_i hc
    simp only [Bool.or_eq_true, not_or, Bool.not_eq_true] at hc
    exact ⟨hc.1, (Option.some.inj h).symm⟩

theorem span?_eq_none {line : Line} (h : span? words line = none) :
    isComment line.content = true ∨ quoteLine words line.content = line.content := by
  unfold span? at h
  dsimp only at h
  split at h
  · rename_i hc
    simpa using hc
  · cases h

/-- The edits of lines lie on these lines, one before the other. -/
theorem spans_before {ls : List Text} (hls : Lines ls) (start : Nat) :
    ((linesFrom start ls).filterMap (span? words)).Pairwise Span.Before ∧
      ∀ s ∈ (linesFrom start ls).filterMap (span? words), start ≤ s.start := by
  induction ls generalizing start with
  | nil => simp [linesFrom]
  | cons l ls ih =>
    obtain ⟨hpair, hstart⟩ := ih hls.tail (start + l.bytes)
    have hlater : ∀ s ∈ (linesFrom (start + l.bytes) ls).filterMap (span? words),
        start ≤ s.start := fun s hs => by have := hstart s hs; omega
    rw [linesFrom, List.filterMap_cons]
    split
    · exact ⟨hpair, hlater⟩
    · rename_i s hs
      obtain ⟨-, rfl⟩ := span?_eq_some hs
      have hlen : l.withoutLineEnding.bytes ≤ l.bytes := by
        have := congrArg Text.bytes (withoutLineEnding_append l)
        rw [bytes_append] at this
        omega
      have hpos := bytes_pos hls.ne_nil
      refine ⟨List.pairwise_cons.2 ⟨fun s hs => ?_, hpair⟩, ?_⟩
      · have := hstart s hs
        simp only [Span.Before, Span.stop]
        omega
      · simpa using hlater

/-- The edits of lines fit a text that holds the lines. -/
theorem misfit?_spans (words ls : List Text) (before : Text) :
    ∀ s ∈ (linesFrom before.bytes ls).filterMap (span? words),
      s.misfit? (before ++ ls.flatten) = none := by
  induction ls generalizing before with
  | nil => simp [linesFrom]
  | cons l ls ih =>
    have hrest := ih (before ++ l)
    simp only [bytes_append, List.append_assoc] at hrest
    have hline := withoutLineEnding_append l
    rw [linesFrom, List.filterMap_cons, List.flatten_cons]
    split
    · exact hrest
    · rename_i s hs
      refine List.forall_mem_cons.2 ⟨?_, hrest⟩
      obtain ⟨-, rfl⟩ := span?_eq_some hs
      have hstop := isBoundary_append (before ++ l.withoutLineEnding) (l.lineEnding ++ ls.flatten)
      have hstart := isBoundary_append before (l ++ ls.flatten)
      have htext : before ++ l.withoutLineEnding ++ (l.lineEnding ++ ls.flatten) =
          before ++ (l ++ ls.flatten) := by
        rw [List.append_assoc, ← List.append_assoc l.withoutLineEnding, hline]
      rw [htext, bytes_append] at hstop
      have hlen : ¬ (before ++ (l ++ ls.flatten)).bytes <
          before.bytes + l.withoutLineEnding.bytes := by
        rw [← htext, bytes_append, bytes_append]
        omega
      simp only [Span.misfit?, Span.stop, if_neg hlen, hstart, hstop, Bool.and_self, if_true]

/-- Carrying out the edits of lines rewrites these lines and nothing else. -/
theorem foldr_spans (words ls : List Text) (before : Text) :
    ((linesFrom before.bytes ls).filterMap (span? words)).foldr Span.replaceIn
        (before ++ ls.flatten) = before ++ (ls.map (requote words)).flatten := by
  induction ls generalizing before with
  | nil => simp [linesFrom]
  | cons l ls ih =>
    have hrest := ih (before ++ l)
    simp only [bytes_append, List.append_assoc] at hrest
    have hline := withoutLineEnding_append l
    rw [linesFrom, List.filterMap_cons, List.flatten_cons, List.map_cons, List.flatten_cons]
    split
    · rename_i hs
      have hsame : requote words l = l := by
        unfold requote
        rcases span?_eq_none hs with hc | hq
        · simpa [hc] using hline
        · simpa [hq] using hline
      rw [hrest, hsame]
    · rename_i s hs
      obtain ⟨hc, rfl⟩ := span?_eq_some hs
      rw [List.foldr_cons, hrest]
      have htext : l ++ (ls.map (requote words)).flatten =
          l.withoutLineEnding ++ (l.lineEnding ++ (ls.map (requote words)).flatten) := by
        rw [← List.append_assoc, hline]
      simp only [Span.replaceIn, htext, cut?_append]
      simp [requote, hc]

/-- A text is quoted line by line. -/
theorem quote_eq (words : List Text) (t : Text) :
    quote words t = (t.splitLines.map (requote (words.filter (!·.isEmpty)))).flatten := by
  have hspans : spans words t =
      (linesFrom (Text.bytes []) t.splitLines).filterMap (span? (words.filter (!·.isEmpty))) := rfl
  have htext : t = [] ++ t.splitLines.flatten := by simp
  unfold quote
  rw [hspans, Edits.applyOrKeep_ofSpans (spans_before (lines_splitLines t) _).1]
  · conv => lhs; rw [htext]
    simpa using foldr_spans (words.filter (!·.isEmpty)) t.splitLines []
  · have h := misfit?_spans (words.filter (!·.isEmpty)) t.splitLines []
    simpa using h

/-! ## Words in quotes stand apart -/

/-- What is said of the characters of a text is decided on these alone, not on all
the characters that there are. -/
instance (priority := 2000) decidableForallChar {p : Char → Prop} [DecidablePred p] (t : Text) :
    Decidable (∀ c ∈ t, p c) :=
  List.decidableBAll p t

instance (priority := 2000) decidableForallChar? {p : Char → Prop} [DecidablePred p]
    (c : Option Char) : Decidable (∀ d ∈ c, p d) :=
  decidable_of_iff (∀ d ∈ c.toList, p d) (by simp)

/-- Characters that may stand beside a word in quotes. -/
def isGap (c : Char) : Bool := isBlank c || signs.contains c

/-- Characters that may stand before a word in quotes. -/
def isLead (c : Char) : Bool := isBlank c || ['=', '(', '[', ','].contains c

/-- Characters that may stand after a word in quotes. -/
def isTrail (c : Char) : Bool := isBlank c || [')', ']'].contains c

theorem isGap_of_isLead {c : Char} (h : isLead c = true) : isGap c = true := by
  have hall : ∀ c ∈ ['=', '(', '[', ','], isGap c = true := by decide
  simp only [isLead, Bool.or_eq_true, List.contains_iff_mem] at h
  rcases h with h | h
  · simp [isGap, h]
  · exact hall c h

theorem isGap_of_isTrail {c : Char} (h : isTrail c = true) : isGap c = true := by
  have hall : ∀ c ∈ [')', ']'], isGap c = true := by decide
  simp only [isTrail, Bool.or_eq_true, List.contains_iff_mem] at h
  rcases h with h | h
  · simp [isGap, h]
  · exact hall c h

theorem isTrail_of_mem_lineEnding {line : Text} {c : Char} (h : c ∈ line.lineEnding) :
    isTrail c = true := by
  have hall : ∀ c ∈ ['\r', '\n'], isTrail c = true := by decide
  refine hall c ?_
  rcases lineEnding_eq line with he | he | he | he <;> rw [he] at h <;> simp_all

/-- The words of a list, where what stands beside them is a gap or an end of the
text. -/
structure Apart (words : List Text) (before w after : Text) : Prop where
  mem : w ∈ words
  before : ∀ c ∈ before.head?, isGap c = true
  after : ∀ c ∈ after.head?, isGap c = true

/-- The words of a list, between characters that frame a value. -/
structure Framed (words : List Text) (before w after : Text) : Prop where
  mem : w ∈ words
  before : ∀ c ∈ before.head?, isLead c = true
  after : ∀ c ∈ after.head?, isTrail c = true

theorem Framed.apart {before w after : Text} (h : Framed words before w after) :
    Apart words before w after :=
  ⟨h.mem, fun c hc => isGap_of_isLead (h.before c hc), fun c hc => isGap_of_isTrail (h.after c hc)⟩

/-- Behind blanks comes a sign, so the text begins with a blank or with the sign. -/
theorem isBlank_or_eq_of_dropWhile {c s : Char} {t : Text}
    (h : ((c :: t).dropWhile isBlank).head? = some s) : isBlank c = true ∨ c = s := by
  rw [List.dropWhile_cons] at h
  split at h
  · rename_i hc
    exact .inl hc
  · exact .inr (Option.some.inj h)

theorem Lead.isLead {place : Lead × Trail} (hplace : place ∈ places) {t : Text}
    (h : place.1.fits t = true) : ∀ c ∈ t.head?, QuoteWords.isLead c = true := by
  obtain ⟨lead, trail⟩ := place
  intro c hc
  cases t with
  | nil => cases hc
  | cons x t =>
    cases hc
    cases lead with
    | sign s =>
      have hs : ∀ place ∈ places, ∀ s, place.1 = .sign s → QuoteWords.isLead s = true := by
        simp only [places, List.forall_mem_cons, Lead.sign.injEq, reduceCtorEq, false_imp_iff,
          forall_eq', implies_true, List.not_mem_nil, and_true]
        decide
      rcases isBlank_or_eq_of_dropWhile (beq_iff_eq.1 h) with hx | rfl
      · simp [QuoteWords.isLead, hx]
      · exact hs _ hplace _ rfl
    | lineStart => simp [Lead.fits] at h; simp [QuoteWords.isLead, h.1]
    | blank => simp [Lead.fits] at h; simp [QuoteWords.isLead, h]

theorem Trail.isTrail {place : Lead × Trail} (hplace : place ∈ places) {t : Text}
    (h : place.2.fits t = true) : ∀ c ∈ t.head?, QuoteWords.isTrail c = true := by
  obtain ⟨lead, trail⟩ := place
  intro c hc
  cases t with
  | nil => cases hc
  | cons x t =>
    cases hc
    cases trail with
    | sign s =>
      have hs : ∀ place ∈ places, ∀ s, place.2 = .sign s → QuoteWords.isTrail s = true := by
        simp only [places, List.forall_mem_cons, Trail.sign.injEq, reduceCtorEq, false_imp_iff,
          forall_eq', implies_true, List.not_mem_nil, and_true]
        decide
      rcases isBlank_or_eq_of_dropWhile (beq_iff_eq.1 h) with hx | rfl
      · simp [QuoteWords.isTrail, hx]
      · exact hs _ hplace _ rfl
    | lineEnd => simp [Trail.fits] at h; simp [QuoteWords.isTrail, h.1]
    | blank => simp [Trail.fits] at h; simp [QuoteWords.isTrail, h]

/-- A place on a line of a text, with what stands around the line. -/
theorem Allowed.framed {before w after b a : Text} (h : Allowed words before w after)
    (hb : ∀ c ∈ b.head?, isLead c = true) (ha : ∀ c ∈ a.head?, isTrail c = true) :
    Framed words (before ++ b) w (after ++ a) := by
  obtain ⟨hw, place, hplace, hlead, htrail⟩ := h
  refine ⟨hw, ?_, ?_⟩
  · cases before with
    | nil => exact hb
    | cons c before => simpa using Lead.isLead hplace hlead
  · cases after with
    | nil => exact ha
    | cons c after => simpa using Trail.isTrail hplace htrail

theorem quotes_requote (hW : ∀ w ∈ words, PlainWord w) {line before after u : Text}
    (hb : ∀ c ∈ before.head?, isLead c = true)
    (ha : ∀ c ∈ (line.lineEnding ++ after).head?, isTrail c = true)
    (h : Quotes (Framed words) (line.reverse ++ before) after u) :
    Quotes (Framed words) before (line ++ after) (requote words line ++ u) := by
  have hline := withoutLineEnding_append line
  have hrest : Quotes (Framed words) (line.withoutLineEnding.reverse ++ before)
      (line.lineEnding ++ after) (line.lineEnding ++ u) := by
    refine .append_same ?_
    rw [← List.append_assoc, ← List.reverse_append, hline]
    exact h
  have htext : line ++ after = line.withoutLineEnding ++ (line.lineEnding ++ after) := by
    rw [← List.append_assoc, hline]
  unfold requote
  rw [htext, List.append_assoc]
  split
  · exact .append_same hrest
  · exact (quotes_quoteLine hW line.withoutLineEnding).within (b := before)
      (fun _ hplace => hplace.framed hb ha) (by simpa using hrest)

/-- Quoting words in a text puts some of them in quotes, each where a value is
framed. -/
theorem quotes_quote_framed (hW : ∀ w ∈ words, PlainWord w) (t : Text) :
    Quotes (Framed words) [] t (quote words t) := by
  have hwords : ∀ w ∈ words.filter (!·.isEmpty), PlainWord w :=
    fun w hw => hW w (List.mem_filter.1 hw).1
  have hlines {ls : List Text} (hls : Lines ls) {before : Text}
      (hb : ∀ c ∈ before.head?, isLead c = true) :
      Quotes (Framed (words.filter (!·.isEmpty))) before ls.flatten
        (ls.map (requote (words.filter (!·.isEmpty)))).flatten := by
    induction hls generalizing before with
    | nil => exact .nil
    | @last l hne hl =>
      refine quotes_requote hwords hb (fun c hc => ?_) .nil
      rw [List.flatten_nil, List.append_nil] at hc
      exact isTrail_of_mem_lineEnding (List.mem_of_mem_head? hc)
    | @cons l ls hl _ ih =>
      refine quotes_requote hwords hb (fun c hc => ?_) (ih fun c hc => ?_)
      · obtain ⟨x, e, he⟩ := List.exists_cons_of_ne_nil (lineEnding_ne_nil l)
        rw [he, List.cons_append, List.head?_cons, Option.mem_some_iff] at hc
        have hmem : c ∈ (l ++ ['\n']).lineEnding := by simp [he, hc]
        exact isTrail_of_mem_lineEnding hmem
      · simp only [List.reverse_append, List.reverse_cons, List.reverse_nil, List.nil_append,
          List.cons_append, List.head?_cons, Option.mem_some_iff] at hc
        subst hc
        decide
  have h : Quotes (Framed (words.filter (!·.isEmpty))) [] _ _ :=
    hlines (lines_splitLines t) (by simp)
  rw [flatten_splitLines, ← quote_eq] at h
  exact h.imp fun hmay => ⟨(List.mem_filter.1 hmay.mem).1, hmay.before, hmay.after⟩

/-- Quoting words in a text puts some of them in quotes, each apart from what
stands beside it. -/
theorem quotes_quote (hW : ∀ w ∈ words, PlainWord w) (t : Text) :
    Quotes (Apart words) [] t (quote words t) :=
  (quotes_quote_framed hW t).imp Framed.apart

end QuoteWords

end SceneGate
