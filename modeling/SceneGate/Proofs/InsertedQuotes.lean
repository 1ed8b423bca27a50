/-
Quoting inserts quotes and does nothing else. A text and the text with quotes have the same
pieces (`Quotes.exists_pieces`): characters that are kept, and words that get quotes. They
have the same lines too, one for one: each keeps its ending, and a comment is kept as it is
(`lines_quote`).
-/
import SceneGate.Proofs.Targets

namespace SceneGate

/-! ## Pieces -/

/-- A piece of a text: a character that is kept, or a word that gets quotes. -/
inductive Piece where
  | kept (c : Char)
  | word (w : Text)
deriving DecidableEq, Repr

namespace Piece

/-- The text that pieces make before words get quotes. -/
def bare (ps : List Piece) : Text :=
  ps.flatMap fun
    | kept c => [c]
    | word w => w

/-- The text that pieces make with words in quotes. -/
def written (ps : List Piece) : Text :=
  ps.flatMap fun
    | kept c => [c]
    | word w => QuoteWords.quoted w

variable {ps qs front back : List Piece} {c : Char} {w : Text}

@[simp] theorem bare_nil : bare [] = [] := rfl
@[simp] theorem bare_kept : bare (kept c :: ps) = c :: bare ps := rfl
@[simp] theorem bare_word : bare (word w :: ps) = w ++ bare ps := rfl
@[simp] theorem bare_append : bare (ps ++ qs) = bare ps ++ bare qs := List.flatMap_append
@[simp] theorem written_nil : written [] = [] := rfl
@[simp] theorem written_kept : written (kept c :: ps) = c :: written ps := rfl
@[simp] theorem written_word : written (word w :: ps) = QuoteWords.quoted w ++ written ps := rfl
@[simp] theorem written_append : written (ps ++ qs) = written ps ++ written qs :=
  List.flatMap_append

end Piece

open Piece QuoteWords

section Pieces

variable {may : Text → Text → Text → Prop} {before t p : Text}

/-- A text and the text with quotes are made of the same pieces, and each word in quotes
stands where it may. -/
theorem Quotes.exists_pieces (h : Quotes may before t p) :
    ∃ ps, bare ps = t ∧ written ps = p ∧ ∀ front w back, ps = front ++ .word w :: back →
      may ((bare front).reverse ++ before) w (bare back) := by
  induction h with
  | nil => exact ⟨[], rfl, rfl, fun front w back h => by simp at h⟩
  | @same c before t p _ ih =>
    obtain ⟨ps, rfl, rfl, hmay⟩ := ih
    refine ⟨.kept c :: ps, rfl, rfl, fun front w back h => ?_⟩
    cases front with
    | nil => simp at h
    | cons x front =>
      obtain ⟨rfl, rfl⟩ := List.cons_eq_cons.1 h
      simpa using hmay front w back rfl
  | @word before w t p hw _ ih =>
    obtain ⟨ps, rfl, rfl, hmay⟩ := ih
    refine ⟨.word w :: ps, rfl, rfl, fun front v back h => ?_⟩
    cases front with
    | nil =>
      simp only [List.nil_append, List.cons.injEq, Piece.word.injEq] at h
      obtain ⟨rfl, rfl⟩ := h
      exact hw
    | cons x front =>
      obtain ⟨rfl, rfl⟩ := List.cons_eq_cons.1 h
      simpa using hmay front v back rfl

/-- Quotes are the only characters that are new. -/
theorem Quotes.mem_of_mem (h : Quotes may before t p) {c : Char} (hc : c ∈ p) :
    c ∈ t ∨ c = '"' := by
  induction h with
  | nil => cases hc
  | same _ ih =>
    rcases List.mem_cons.1 hc with rfl | hc
    · exact .inl List.mem_cons_self
    · exact (ih hc).imp_left (List.mem_cons_of_mem _)
  | @word before w t p _ _ ih =>
    simp only [quoted, List.cons_append, List.append_assoc, List.nil_append, List.mem_cons,
      List.mem_append] at hc
    rcases hc with rfl | hc | rfl | hc
    · exact .inr rfl
    · exact .inl (List.mem_append_left _ hc)
    · exact .inr rfl
    · exact (ih hc).imp_left (List.mem_append_right _)

/-- A text ends as before, or with a quote. -/
theorem Quotes.getLast? (h : Quotes may before t p) :
    p.getLast? = t.getLast? ∨ p.getLast? = some '"' := by
  induction h with
  | nil => exact .inl rfl
  | same _ ih =>
    rw [List.getLast?_cons, List.getLast?_cons]
    rcases ih with h | h
    · exact .inl (by rw [h])
    · exact .inr (by rw [h]; rfl)
  | @word before w t p _ _ ih =>
    have hquote : (quoted w ++ p).getLast? = p.getLast?.or (some '"') := by
      simp [quoted, List.getLast?_append, List.getLast?_cons]
    rw [hquote, List.getLast?_append]
    rcases ih with h | h
    · rw [h]
      cases t.getLast? with
      | none => exact .inr rfl
      | some c => exact .inl rfl
    · exact .inr (by rw [h]; rfl)

/-! ### What stands beside a word -/

variable {words : List Text} {ps front back : List Piece}

/-- Every word of the pieces is to be quoted, and stands where a value is framed. -/
def FramedPieces (words : List Text) (ps : List Piece) : Prop :=
  ∀ front w back, ps = front ++ .word w :: back →
    Framed words (bare front).reverse w (bare back)

theorem isPlain_of_isGap {c : Char} (h : isGap c = true) : isPlain c = false := by
  simp only [isGap, Bool.or_eq_true] at h
  cases hp : isPlain c with
  | false => rfl
  | true =>
    obtain ⟨hblank, -, hsign⟩ := isPlain_iff.1 hp
    rw [hblank, hsign] at h
    simp at h

/-- What stands before a word in quotes stood before it without quotes: no other word in
quotes is next to it. -/
theorem FramedPieces.getLast?_written (hW : ∀ w ∈ words, PlainWord w)
    (h : FramedPieces words ps) {w : Text} (hps : ps = front ++ .word w :: back) :
    (written front).getLast? = (bare front).getLast? := by
  rcases front.eq_nil_or_concat with rfl | ⟨init, x, rfl⟩
  · rfl
  · cases x with
    | kept c => simp
    | word v =>
      -- the end of another word is no lead
      have hplain := hW v (h init v (.word w :: back) (by simpa using hps)).mem
      have hlead := (h _ w back hps).before
      obtain ⟨c, u, hv, hc⟩ := hplain.reverse.exists_cons
      have hgap := isGap_of_isLead (hlead c (by simp [hv]))
      rw [isPlain_of_isGap hgap] at hc
      cases hc

/-- What stands after a word in quotes stood after it without quotes. -/
theorem FramedPieces.head?_written (hW : ∀ w ∈ words, PlainWord w)
    (h : FramedPieces words ps) {w : Text} (hps : ps = front ++ .word w :: back) :
    (written back).head? = (bare back).head? := by
  cases back with
  | nil => rfl
  | cons x back =>
    cases x with
    | kept c => rfl
    | word v =>
      have hplain := hW v (h (front ++ [.word w]) v back (by simpa using hps)).mem
      have htrail := (h front w _ hps).after
      obtain ⟨c, u, rfl, hc⟩ := hplain.exists_cons
      have hgap := isGap_of_isTrail (htrail c rfl)
      rw [isPlain_of_isGap hgap] at hc
      cases hc

end Pieces

/-! ## Lines -/

namespace Text

theorem splitLines_of_notMem {l : Text} (hne : l ≠ []) (h : '\n' ∉ l) : splitLines l = [l] := by
  induction l with
  | nil => exact absurd rfl hne
  | cons c l ih =>
    obtain ⟨hc, hl⟩ := List.ne_and_not_mem_of_not_mem_cons h
    rw [splitLines, if_neg (Ne.symm hc)]
    cases l with
    | nil => rfl
    | cons d l => rw [ih (by simp) hl]

theorem splitLines_append {l : Text} (h : '\n' ∉ l) (t : Text) :
    splitLines (l ++ '\n' :: t) = (l ++ ['\n']) :: splitLines t := by
  induction l with
  | nil => simp [splitLines]
  | cons c l ih =>
    obtain ⟨hc, hl⟩ := List.ne_and_not_mem_of_not_mem_cons h
    rw [List.cons_append, splitLines, if_neg (Ne.symm hc), ih hl]
    rfl

/-- Lines put together are split as they were. -/
theorem Lines.splitLines_flatten {ls : List Text} (h : Lines ls) : splitLines ls.flatten = ls := by
  induction h with
  | nil => rfl
  | last hne hl => simpa using splitLines_of_notMem hne hl
  | @cons l ls hl _ ih =>
    rw [List.flatten_cons, List.append_assoc, List.singleton_append, splitLines_append hl, ih]

theorem withoutLast_of_ne {c : Char} {t : Text} (h : t.getLast? ≠ some c) :
    withoutLast c t = t := by
  rw [withoutLast, if_neg h]

theorem withoutLast_concat (c : Char) (t : Text) : withoutLast c (t ++ [c]) = t := by
  simp [withoutLast]

/-- A line's content has no line feed. -/
theorem Lines.lineFeed_notMem {ls : List Text} (h : Lines ls) {l : Text} (hl : l ∈ ls) :
    '\n' ∉ l.withoutLineEnding := by
  induction h with
  | nil => cases hl
  | last _ hfeed =>
    rw [List.mem_singleton.1 hl]
    exact fun hm => hfeed ((prefix_withoutLineEnding _).subset hm)
  | @cons m ls hfeed _ ih =>
    rcases List.mem_cons.1 hl with rfl | hl
    · rw [withoutLineEnding, withoutLast_concat]
      exact fun hmem => hfeed ((prefix_withoutLast '\r' m).subset hmem)
    · exact ih hl

theorem getLast?_ne_of_withoutLast {c : Char} {t : Text} (h : withoutLast c t = t) :
    t.getLast? ≠ some c := by
  intro hlast
  obtain ⟨u, rfl⟩ := List.getLast?_eq_some_iff.1 hlast
  rw [withoutLast_concat] at h
  simpa using congrArg List.length h

/-- Another content with the same ending is told from it as the first was, unless it ends
with a carriage return of its own. -/
theorem withoutLineEnding_append_lineEnding {line c : Text} (hfeed : '\n' ∉ c)
    (hreturn : c.getLast? = some '\r' → line.withoutLineEnding.getLast? = some '\r') :
    withoutLineEnding (c ++ line.lineEnding) = c := by
  have hline := withoutLineEnding_append line
  have hfeeds : c.getLast? ≠ some '\n' := fun h => hfeed (List.mem_of_getLast? h)
  rcases lineEnding_eq line with he | he | he | he <;> rw [he] at hline ⊢
  · rw [List.append_nil] at hline ⊢
    -- the line ends with neither, so the other content does not either
    have hself : withoutLast '\r' (withoutLast '\n' line) = line := hline
    have hshort := (prefix_withoutLast '\r' (withoutLast '\n' line)).length_le
    have hmid : withoutLast '\n' line = line :=
      (prefix_withoutLast '\n' line).eq_of_length_le (by rwa [hself] at hshort)
    rw [hmid] at hself
    rw [hline] at hreturn
    rw [withoutLineEnding, withoutLast_of_ne hfeeds,
      withoutLast_of_ne fun h => getLast?_ne_of_withoutLast hself (hreturn h)]
  · have hmid : withoutLast '\n' line = line.withoutLineEnding := by
      conv => lhs; rw [← hline, withoutLast_concat]
    have hself : withoutLast '\r' line.withoutLineEnding = line.withoutLineEnding := by
      conv => lhs; rw [← hmid]
      rfl
    rw [withoutLineEnding, withoutLast_concat,
      withoutLast_of_ne fun h => getLast?_ne_of_withoutLast hself (hreturn h)]
  · have hmid : withoutLast '\n' (c ++ ['\r']) = c ++ ['\r'] := withoutLast_of_ne (by simp)
    rw [withoutLineEnding, hmid, withoutLast_concat]
  · have hends : c ++ ['\r', '\n'] = c ++ ['\r'] ++ ['\n'] := by simp
    rw [withoutLineEnding, hends, withoutLast_concat, withoutLast_concat]

end Text

section Lines

variable {words : List Text}

/-- What becomes of a line's content. -/
theorem exists_requote (hW : ∀ w ∈ words, PlainWord w) (line : Text) :
    ∃ c, requote words line = c ++ line.lineEnding ∧
      Quotes (Allowed words) [] line.withoutLineEnding c := by
  unfold requote
  dsimp only
  split
  · exact ⟨_, rfl, .refl _⟩
  · exact ⟨_, rfl, quotes_quoteLine hW _⟩

/-- Quoting keeps what ends a line. -/
theorem lineEnding_requote (hW : ∀ w ∈ words, PlainWord w) {line : Text}
    (hfeed : '\n' ∉ line.withoutLineEnding) :
    (requote words line).lineEnding = line.lineEnding := by
  obtain ⟨c, hline, hquotes⟩ := exists_requote hW line
  have hc : '\n' ∉ c := fun hm => (hquotes.mem_of_mem hm).elim hfeed (by decide)
  have hreturn : c.getLast? = some '\r' → line.withoutLineEnding.getLast? = some '\r' := by
    intro hlast
    rcases hquotes.getLast? with h | h
    · exact h ▸ hlast
    · rw [hlast] at h
      exact absurd h (by decide)
  rw [hline, Text.lineEnding, Text.withoutLineEnding_append_lineEnding hc hreturn, List.drop_left]

/-- Quoting neither joins lines nor parts them. -/
theorem lines_map_requote (hW : ∀ w ∈ words, PlainWord w) {ls : List Text} (h : Text.Lines ls) :
    Text.Lines (ls.map (requote words)) := by
  induction h with
  | nil => exact .nil
  | @last l hne hl =>
    obtain ⟨c, hline, hquotes⟩ := exists_requote hW l
    have hparts := Text.withoutLineEnding_append l
    rw [List.map_singleton, hline]
    refine .last (fun hnil => hne ?_) fun hm => ?_
    · obtain ⟨rfl, hending⟩ := List.append_eq_nil_iff.1 hnil
      rw [← hparts, hquotes.of_nil_right, hending, List.nil_append]
    · rw [← hparts] at hl
      rcases List.mem_append.1 hm with hm | hm
      · exact (hquotes.mem_of_mem hm).elim (fun h => hl (List.mem_append_left _ h)) (by decide)
      · exact hl (List.mem_append_right _ hm)
  | @cons l ls hl hls ih =>
    obtain ⟨c, hline, hquotes⟩ := exists_requote hW (l ++ ['\n'])
    have hfeed : '\n' ∉ c := fun hm => (hquotes.mem_of_mem hm).elim
      ((Text.Lines.cons hl hls).lineFeed_notMem List.mem_cons_self) (by decide)
    rw [List.map_cons, hline]
    have hparts := Text.withoutLineEnding_append (l ++ ['\n'])
    rcases Text.lineEnding_eq (l ++ ['\n']) with he | he | he | he
    · exact absurd he (Text.lineEnding_ne_nil l)
    · rw [he]
      exact .cons hfeed ih
    · rw [he] at hparts
      simpa using congrArg List.getLast? hparts
    · have hends : c ++ ['\r', '\n'] = c ++ ['\r'] ++ ['\n'] := by simp
      rw [he, hends]
      exact .cons (by simpa using hfeed) ih

/-- The lines of a text with quotes are its lines with quotes. -/
theorem splitLines_quote (hW : ∀ w ∈ words, PlainWord w) (t : Text) :
    (quote words t).splitLines = t.splitLines.map (requote (words.filter (!·.isEmpty))) := by
  have hwords : ∀ w ∈ words.filter (!·.isEmpty), PlainWord w :=
    fun w hw => hW w (List.mem_filter.1 hw).1
  rw [quote_eq, (lines_map_requote hwords (Text.lines_splitLines t)).splitLines_flatten]

/-- A line is a comment if its content is. -/
theorem isComment_withoutLineEnding {line : Text} (h : isComment line = true) :
    isComment line.withoutLineEnding = true := by
  have hending : line.lineEnding.dropWhile isBlank = [] := by
    rcases Text.lineEnding_eq line with he | he | he | he <;> rw [he] <;> decide
  rw [← Text.withoutLineEnding_append line, isComment, Text.trimStart, List.dropWhile_append,
    hending] at h
  split at h
  · simp at h
  · rename_i hne
    rw [isComment, Text.trimStart]
    cases hrest : line.withoutLineEnding.dropWhile isBlank with
    | nil => simp [hrest] at hne
    | cons c rest => simpa [hrest] using h

theorem requote_of_isComment {line : Text} (h : isComment line = true) :
    requote words line = line := by
  rw [requote, if_pos (isComment_withoutLineEnding h), Text.withoutLineEnding_append]

end Lines

/-! ## Only quotes -/

/-- A text can be a name. -/
def IsIdentifier (w : Text) : Prop :=
  ∃ c cs, w = c :: cs ∧ isIdentifierStart c = true ∧ ∀ x ∈ cs, isIdentifierContinue x = true

theorem IsIdentifier.plain {w : Text} (h : IsIdentifier w) : PlainWord w := by
  obtain ⟨c, cs, rfl, hc, hcs⟩ := h
  refine ⟨by simp, List.forall_mem_cons.2 ⟨?_, fun x hx => ?_⟩⟩
  · exact isPlain_of_isIdentifierContinue (isIdentifierContinue_of_start hc)
  · exact isPlain_of_isIdentifierContinue (hcs x hx)

/-- A text is another one in which words of a list have got quotes and nothing else has
changed. -/
structure OnlyQuotes (words : List Text) (t p : Text) : Prop where
  /-- Both are made of the same pieces. A word that gets quotes is one of the list; before
  its first quote is nothing, a blank or one of four signs, behind its last quote nothing, a
  blank or one of two, and no letter was beside it before. -/
  pieces : ∃ ps, bare ps = t ∧ written ps = p ∧
    ∀ front w back, ps = front ++ .word w :: back → w ∈ words ∧ w ≠ [] ∧
      (∀ c ∈ (written front).getLast?, isBlank c = true ∨ c ∈ ['=', '(', '[', ',']) ∧
      (∀ c ∈ (written back).head?, isBlank c = true ∨ c ∈ [')', ']']) ∧
      (∀ c ∈ (bare front).getLast?, isIdentifierContinue c = false) ∧
      ∀ c ∈ (bare back).head?, isIdentifierContinue c = false
  /-- They have the same lines: each has the ending that it had, and one that begins with a
  number sign, perhaps behind blanks, is what it was. -/
  lines : List.Forall₂
    (fun line quoted => quoted.lineEnding = line.lineEnding ∧
      ((line.dropWhile isBlank).head? = some '#' → quoted = line)) t.splitLines p.splitLines

theorem onlyQuotes_quote {words : List Text} (hW : ∀ w ∈ words, PlainWord w) (t : Text) :
    OnlyQuotes words t (quote words t) where
  pieces := by
    obtain ⟨ps, hbare, hwritten, hmay⟩ := (quotes_quote_framed hW t).exists_pieces
    have hframed : FramedPieces words ps := fun front w back hps => by
      simpa using hmay front w back hps
    refine ⟨ps, hbare, hwritten, fun front w back hps => ?_⟩
    obtain ⟨hmem, hlead, htrail⟩ := hframed front w back hps
    rw [List.head?_reverse] at hlead
    rw [hframed.getLast?_written hW hps, hframed.head?_written hW hps]
    refine ⟨hmem, (hW w hmem).1, ?_, ?_, ?_, ?_⟩
    · simpa [isLead] using hlead
    · simpa [isTrail] using htrail
    · exact fun c hc => isIdentifierContinue_of_isGap (isGap_of_isLead (hlead c hc))
    · exact fun c hc => isIdentifierContinue_of_isGap (isGap_of_isTrail (htrail c hc))
  lines := by
    have hwords : ∀ w ∈ words.filter (!·.isEmpty), PlainWord w :=
      fun w hw => hW w (List.mem_filter.1 hw).1
    rw [splitLines_quote hW, List.forall₂_map_right_iff, List.forall₂_same]
    intro line hline
    refine ⟨lineEnding_requote hwords ((Text.lines_splitLines t).lineFeed_notMem hline), ?_⟩
    exact fun hcomment => requote_of_isComment (beq_iff_eq.2 hcomment)

/-- The rule that quotes names does nothing but put some of them in quotes, and so does
repair. -/
theorem quoting_inserts_quotes (t : Text) :
    (∀ words, (∀ w ∈ words, IsIdentifier w) → OnlyQuotes words t ((rule words).apply t)) ∧
      ∀ v p, repair v t = .repaired p → OnlyQuotes (StrayProse.names (parse t)) t p.text := by
  constructor
  · intro words hwords
    exact onlyQuotes_quote (fun w hw => (hwords w hw).plain) t
  · intro v p h
    obtain ⟨-, -, hp⟩ := repair_eq_repaired h
    rw [hp]
    exact onlyQuotes_quote (fun w hw => (proseWord_of_mem_names hw).plain) t

theorem quoting_inserts_quotes_assigning :
    OnlyQuotes ["a".toList, "ab".toList] "# a\nx = ab\r\n".toList
        "# a\nx = \"ab\"\r\n".toList ∧
      ∃ p : SceneProgram {}, repair {} assigning = .repaired p ∧
        OnlyQuotes (StrayProse.names (parse assigning)) assigning p.text := by
  have hwords : ∀ w ∈ ["a".toList, "ab".toList], IsIdentifier w := by
    simp only [List.forall_mem_cons, List.not_mem_nil, false_imp_iff, implies_true, and_true]
    exact ⟨⟨'a', [], rfl, by decide, by simp⟩, ⟨'a', ['b'], rfl, by decide, by decide⟩⟩
  have hquote : (rule ["a".toList, "ab".toList]).apply "# a\nx = ab\r\n".toList =
      "# a\nx = \"ab\"\r\n".toList := by decide +kernel
  obtain ⟨p, hp, -⟩ := repair_assigning
  refine ⟨?_, p, hp, (quoting_inserts_quotes assigning).2 {} p hp⟩
  rw [← hquote]
  exact (quoting_inserts_quotes _).1 _ hwords

end SceneGate
