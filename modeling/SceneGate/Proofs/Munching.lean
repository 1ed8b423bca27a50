/-
How far the lexer looks. A number and a word end before the first gap, a blank or
one of the signs beside which words get quotes, and of what stands behind that
the lexer sees nothing (`Agree.lengthAfter`, `Agree.munchWord`). A word of prose
is an identifier, whatever stands behind it, as long as it could not go on there
(`munch_word`).
-/
import SceneGate.Proofs.QuotedLines
import SceneGate.Proofs.RawTokens
import SceneGate.Source.Lexer
import SceneGate.Text.Prose

namespace SceneGate

open QuoteWords

/-! ## Characters -/

/-- The code points of blanks. -/
def blankCodes : List Nat := [
  9, 10, 11, 12, 13, 0x20, 0x85, 0xA0, 0x1680, 0x2000, 0x2001, 0x2002, 0x2003, 0x2004, 0x2005,
  0x2006, 0x2007, 0x2008, 0x2009, 0x200A, 0x2028, 0x2029, 0x202F, 0x205F, 0x3000]

theorem toNat_mem_blankCodes {c : Char} (h : isBlank c = true) : c.toNat ∈ blankCodes := by
  simp only [isBlank, Bool.or_eq_true, Bool.and_eq_true, decide_eq_true_eq, beq_iff_eq] at h
  simp only [blankCodes, List.mem_cons, List.not_mem_nil, or_false]
  omega

/-- Blanks, signs and quotes are no letters. -/
theorem isIdentifierContinue_of_isGap {c : Char} (h : isGap c = true) :
    isIdentifierContinue c = false := by
  simp only [isGap, Bool.or_eq_true] at h
  rcases h with h | h
  · have hall : ∀ n ∈ blankCodes, isIdentifierContinue (Char.ofNat n) = false := by decide +kernel
    have hc := hall c.toNat (toNat_mem_blankCodes h)
    rwa [Char.ofNat_toNat] at hc
  · have hall : ∀ c ∈ signs, isIdentifierContinue c = false := by decide
    exact hall c (by simpa using h)

theorem isGap_of_isIdentifierContinue {c : Char} (h : isIdentifierContinue c = true) :
    isGap c = false := by
  cases hgap : isGap c with
  | false => rfl
  | true =>
    rw [isIdentifierContinue_of_isGap hgap] at h
    cases h

theorem isIdentifierContinue_of_start {c : Char} (h : isIdentifierStart c = true) :
    isIdentifierContinue c = true := by
  rw [isIdentifierContinue, h, Bool.true_or]

/-- A letter is none of the characters in a list without letters. -/
theorem ne_of_isIdentifierContinue {c : Char} (h : isIdentifierContinue c = true) {d : Char}
    (hd : isIdentifierContinue d = false) : c ≠ d := by
  rintro rfl
  rw [h] at hd
  cases hd

theorem isPlain_of_isIdentifierContinue {c : Char} (h : isIdentifierContinue c = true) :
    isPlain c = true := by
  have hgap := isGap_of_isIdentifierContinue h
  simp only [isGap, Bool.or_eq_false_iff] at hgap
  exact isPlain_iff.2 ⟨hgap.1, ne_of_isIdentifierContinue h (by decide), hgap.2⟩

/-! ## Words of prose -/

/-- The letters of the natural-language alphabet lie outside ASCII. -/
theorem toNat_of_isProseChar {c : Char} (h : isProseChar c = true) : 128 ≤ c.toNat := by
  have hall : ∀ c ∈ proseLetters, 128 ≤ c.toNat := by decide +kernel
  exact hall c (by simpa [isProseChar] using h)

/-- A name that holds a letter of the natural-language alphabet. -/
structure ProseWord (w : Text) : Prop where
  spelled : ∃ c cs, w = c :: cs ∧ isIdentifierStart c = true ∧
    ∀ x ∈ cs, isIdentifierContinue x = true
  prose : w.hasProse = true

namespace ProseWord

variable {w : Text}

theorem isIdentifierContinue (h : ProseWord w) :
    ∀ x ∈ w, SceneGate.isIdentifierContinue x = true := by
  obtain ⟨c, cs, rfl, hc, hcs⟩ := h.spelled
  intro x hx
  rcases List.mem_cons.1 hx with rfl | hx
  · exact isIdentifierContinue_of_start hc
  · exact hcs x hx

theorem plain (h : ProseWord w) : PlainWord w := by
  refine ⟨?_, fun x hx => isPlain_of_isIdentifierContinue (h.isIdentifierContinue x hx)⟩
  obtain ⟨c, cs, rfl, -⟩ := h.spelled
  simp

theorem ofKeyword? (h : ProseWord w) : Kind.ofKeyword? w = none := by
  have hall : ∀ e ∈ Kind.keywords, ∀ c ∈ e.1, c.toNat < 128 := by decide +kernel
  refine List.lookup_eq_none_iff.2 fun e he => bne_iff_ne.2 ?_
  rintro rfl
  obtain ⟨c, hc, hprose⟩ := List.any_eq_true.1 h.prose
  have := hall e he c hc
  have := toNat_of_isProseChar hprose
  omega

end ProseWord

theorem isMark_of_isProseChar {c : Char} (h : isProseChar c = true) :
    StringLiteral.isMark c = false := by
  have hall : ∀ c ∈ "rRuUbBfF".toList, c.toNat < 128 := by decide +kernel
  cases hm : StringLiteral.isMark c with
  | false => rfl
  | true =>
    have := hall c (by simpa [StringLiteral.isMark] using hm)
    have := toNat_of_isProseChar h
    omega

theorem areMarks_left {a b : Char} (h : StringLiteral.isMark a = false) :
    StringLiteral.areMarks a b = false := by
  simp [StringLiteral.isMark, StringLiteral.areMarks] at h ⊢
  grind

theorem areMarks_right {a b : Char} (h : StringLiteral.isMark b = false) :
    StringLiteral.areMarks a b = false := by
  simp [StringLiteral.isMark, StringLiteral.areMarks] at h ⊢
  grind

/-- Each of two letters that may stand together may stand alone. -/
theorem isMark_of_areMarks {a b : Char} (h : StringLiteral.areMarks a b = true) :
    StringLiteral.isMark a = true ∧ StringLiteral.isMark b = true := by
  constructor
  · cases ha : StringLiteral.isMark a with
    | true => rfl
    | false => rw [areMarks_left ha] at h; cases h
  · cases hb : StringLiteral.isMark b with
    | true => rfl
    | false => rw [areMarks_right hb] at h; cases h

/-! ## Texts that agree up to a gap -/

/-- Texts that are the same up to the first gap. -/
inductive Agree : Text → Text → Prop
  | nil : Agree [] []
  | gap : isGap g = true → Agree (g :: t) (g :: p)
  | cons : isGap c = false → Agree t p → Agree (c :: t) (c :: p)

theorem Agree.isPrefixOf {t p : Text} (h : Agree t p) {u : Text} (hu : ∀ c ∈ u, isGap c = false) :
    u.isPrefixOf t = u.isPrefixOf p := by
  induction u generalizing t p with
  | nil => simp
  | cons x u ih =>
    cases h with
    | nil => rfl
    | @gap g t p hg =>
      have hx : (x == g) = false := by
        refine beq_eq_false_iff_ne.2 ?_
        rintro rfl
        exact absurd (hu x (by simp)) (by simp [hg])
      simp only [List.isPrefixOf, hx, Bool.false_and]
    | cons hc h => simp only [List.isPrefixOf, ih h fun y hy => hu y (by simp [hy])]

theorem Agree.drop {t p : Text} (h : Agree t p) {n : Nat} (hn : ∀ c ∈ t.take n, isGap c = false) :
    Agree (t.drop n) (p.drop n) := by
  induction n generalizing t p with
  | zero => exact h
  | succ n ih =>
    cases h with
    | nil => exact .nil
    | @gap g t p hg => exact absurd (hn g (by simp)) (by simp [hg])
    | cons hc h => exact ih h fun c hc => hn c (by simp [hc])

/-- A length that can be told without looking behind a gap. -/
structure Local (f : Text → Nat) : Prop where
  eq : ∀ {t p}, Agree t p → f t = f p
  inside : ∀ {t : Text}, ∀ c ∈ t.take (f t), isGap c = false

namespace Local

theorem runLength {f : Char → Bool} (hf : ∀ c, f c = true → isGap c = false) :
    Local (runLength f) where
  eq h := by
    unfold SceneGate.runLength
    induction h with
    | nil => rfl
    | @gap g t p hg =>
      have hg : f g = false := by
        cases hfg : f g with
        | false => rfl
        | true => rw [hf g hfg] at hg; cases hg
      simp [hg]
    | cons _ _ ih => simp only [List.takeWhile_cons]; split <;> simp [ih]
  inside c hc := hf c (mem_take_runLength hc)

/-- One length behind another. -/
theorem add {f g : Text → Nat} (hf : Local f) (hg : Local g) :
    Local fun t => f t + g (t.drop (f t)) where
  eq {t p} h := by
    have hdrop := h.drop fun c hc => hf.inside c hc
    simp only [← hf.eq h, hg.eq hdrop]
  inside {t} c hc := by
    rw [List.take_add, List.mem_append] at hc
    rcases hc with hc | hc
    · exact hf.inside c hc
    · exact hg.inside c hc

/-- A length behind a first character that is no gap. -/
theorem behind {f : Text → Nat} (hf : Local f) {P : Char → Bool}
    (hP : ∀ c, P c = true → isGap c = false) {g : Text → Nat} (hnil : g [] = 0)
    (hcons : ∀ c t, g (c :: t) = if P c then f t + 1 else 0) : Local g where
  eq h := by
    cases h with
    | nil => rfl
    | @gap x t p hx =>
      have hPx : ¬ P x = true := fun h => by rw [hP x h] at hx; cases hx
      simp only [hcons, if_neg hPx]
    | cons _ h => simp only [hcons, hf.eq h]
  inside {t} c hc := by
    cases t with
    | nil => rw [hnil] at hc; simp at hc
    | cons x t =>
      rw [hcons] at hc
      split at hc
      · rename_i hx
        rcases List.mem_cons.1 hc with rfl | hc
        · exact hP c hx
        · exact hf.inside c hc
      · simp at hc

end Local

namespace NumberLiteral

theorem isIdentifierContinue_of_isAsciiDigit {c : Char} (h : isAsciiDigit c = true) :
    isIdentifierContinue c = true := by
  have hn : c.toNat < 128 := by
    simp only [isAsciiDigit, Bool.and_eq_true, decide_eq_true_eq] at h
    omega
  simp [isIdentifierContinue, hn, h]

theorem isIdentifierContinue_of_isAsciiLetter {c : Char} (h : isAsciiLetter c = true) :
    isIdentifierContinue c = true := by
  have hn : c.toNat < 128 := by
    simp only [isAsciiLetter, Bool.and_eq_true, Bool.or_eq_true, decide_eq_true_eq] at h
    omega
  simp [isIdentifierContinue, isIdentifierStart, hn, h]

theorem not_isGap_of_isDigitChar {c : Char} (h : isDigitChar c = true) : isGap c = false := by
  refine isGap_of_isIdentifierContinue ?_
  simp only [isDigitChar, Bool.or_eq_true, beq_iff_eq] at h
  rcases h with h | rfl
  · exact isIdentifierContinue_of_isAsciiDigit h
  · decide

theorem local_digits : Local (runLength isDigitChar) := .runLength fun _ => not_isGap_of_isDigitChar

/-- A character that is one of two is no gap, if they are none. -/
theorem not_isGap_of_beq {c a b : Char} (ha : isGap a = false) (hb : isGap b = false)
    (h : (c == a || c == b) = true) : isGap c = false := by
  simp only [Bool.or_eq_true, beq_iff_eq] at h
  rcases h with rfl | rfl
  · exact ha
  · exact hb

theorem beq_of_isGap {c a b : Char} (ha : isGap a = false) (hb : isGap b = false)
    (h : isGap c = true) : (c == a || c == b) = false := by
  cases hc : c == a || c == b with
  | false => rfl
  | true => rw [not_isGap_of_beq ha hb hc] at h; cases h

theorem local_exponentLength : Local exponentLength where
  eq := by
    intro t p h
    cases h with
    | nil => rfl
    | gap hg =>
      have he := beq_of_isGap (a := 'e') (b := 'E') (by decide) (by decide) hg
      simp [exponentLength, he]
    | cons _ h =>
      have hall := local_digits.eq h
      cases h with
      | nil => rfl
      | gap hg =>
        have hsign := beq_of_isGap (a := '+') (b := '-') (by decide) (by decide) hg
        simp [exponentLength, hsign, hall]
      | cons _ h =>
        have hdigits := local_digits.eq h
        simp only [exponentLength, hdigits, hall]
  inside := by
    intro t c hc
    cases t with
    | nil => simp at hc
    | cons e rest =>
      simp only [exponentLength] at hc
      split at hc
      · rename_i he
        have he := not_isGap_of_beq (by decide) (by decide) he
        cases rest with
        | nil => simp at hc
        | cons x digits =>
          simp only at hc
          split at hc
          · rename_i hx
            have hx := not_isGap_of_beq (by decide) (by decide) hx
            split at hc
            · simp at hc
            · simp only [List.take_succ_cons, List.mem_cons] at hc
              rcases hc with rfl | rfl | hc
              · exact he
              · exact hx
              · exact local_digits.inside c hc
          · split at hc
            · simp at hc
            · rcases List.mem_cons.1 hc with rfl | hc
              · exact he
              · exact local_digits.inside c hc
      · simp at hc

theorem local_zero : Local fun _ => 0 where
  eq _ := rfl
  inside := by simp

theorem local_imaginaryLength : Local imaginaryLength :=
  local_zero.behind (P := fun c => c == 'j' || c == 'J')
    (fun _ => not_isGap_of_beq (by decide) (by decide)) rfl fun _ _ => rfl

theorem local_tailLength : Local tailLength := local_exponentLength.add local_imaginaryLength

theorem local_fractionLength : Local fractionLength := by
  refine local_digits.behind (P := fun c => c == '.') (fun c hc => ?_) rfl fun c t => ?_
  · rw [beq_iff_eq.1 hc]
    decide
  · unfold fractionLength
    split
    · rename_i heq; cases heq; rfl
    · rename_i hne
      rw [if_neg fun hc => hne t (by rw [beq_iff_eq.1 hc])]

theorem local_decimalLength : Local decimalLength := by
  have h := (local_digits.add local_fractionLength).add local_tailLength
  exact h

theorem local_pointedLength : Local pointedLength := by
  refine (local_digits.add local_tailLength).behind (P := isAsciiDigit)
    (fun c hc => not_isGap_of_isDigitChar (by simp [isDigitChar, hc])) rfl fun c t => ?_
  simp only [pointedLength, Nat.add_sub_cancel]
  split
  · omega
  · rfl

theorem toNat_le {a b : Char} (h : a ≤ b) : a.toNat ≤ b.toNat := h

theorem isIdentifierContinue_of_baseDigit? {base c : Char} {f : Char → Bool}
    (h : baseDigit? base = some f) (hc : f c = true) : isIdentifierContinue c = true := by
  have hletter {a b : Char} (ha : 65 ≤ a.toNat ∧ b.toNat ≤ 90 ∨ 97 ≤ a.toNat ∧ b.toNat ≤ 122)
      (h : (a ≤ c && c ≤ b) = true) : isIdentifierContinue c = true := by
    simp only [Bool.and_eq_true, decide_eq_true_eq] at h
    have hac := toNat_le h.1
    have hcb := toNat_le h.2
    refine isIdentifierContinue_of_isAsciiLetter ?_
    simp only [isAsciiLetter, Bool.or_eq_true, Bool.and_eq_true, decide_eq_true_eq]
    omega
  have hdigit {a b : Char} (ha : 48 ≤ a.toNat ∧ b.toNat ≤ 57) (h : (a ≤ c && c ≤ b) = true) :
      isIdentifierContinue c = true := by
    simp only [Bool.and_eq_true, decide_eq_true_eq] at h
    have hac := toNat_le h.1
    have hcb := toNat_le h.2
    refine isIdentifierContinue_of_isAsciiDigit ?_
    simp only [isAsciiDigit, Bool.and_eq_true, decide_eq_true_eq]
    omega
  have hchar {d : Char} (hd : isIdentifierContinue d = true) (h : (c == d) = true) :
      isIdentifierContinue c = true := by
    rw [beq_iff_eq.1 h]
    exact hd
  unfold baseDigit? at h
  split at h
  · cases h
    simp only [Bool.or_eq_true] at hc
    rcases hc with ((hc | hc) | hc) | hc
    · exact isIdentifierContinue_of_isAsciiDigit hc
    · exact hletter (by decide) hc
    · exact hletter (by decide) hc
    · exact hchar (by decide) hc
  split at h
  · cases h
    simp only [Bool.or_eq_true] at hc
    rcases hc with hc | hc
    · exact hdigit (by decide) hc
    · exact hchar (by decide) hc
  split at h
  · cases h
    simp only [Bool.or_eq_true] at hc
    rcases hc with (hc | hc) | hc
    · exact hchar (by decide) hc
    · exact hchar (by decide) hc
    · exact hchar (by decide) hc
  · cases h

theorem baseDigit?_of_isGap {g : Char} (h : isGap g = true) : baseDigit? g = none := by
  have hne {a b : Char} (ha : isGap a = false) (hb : isGap b = false) :
      (g == a || g == b) = false := beq_of_isGap ha hb h
  unfold baseDigit?
  rw [hne (by decide) (by decide), hne (by decide) (by decide), hne (by decide) (by decide)]
  rfl

theorem local_basedLength : Local basedLength where
  eq := by
    intro t p h
    cases h with
    | nil => rfl
    | gap hg => simp [basedLength, baseDigit?_of_isGap hg]
    | @cons base t p _ h =>
      cases hf : baseDigit? base with
      | none => simp [basedLength, hf]
      | some f =>
        have hrun := (Local.runLength fun c hc =>
          isGap_of_isIdentifierContinue (isIdentifierContinue_of_baseDigit? hf hc)).eq h
        simp only [basedLength, hf, hrun]
  inside := by
    intro t c hc
    cases t with
    | nil => simp at hc
    | cons base t =>
      cases hf : baseDigit? base with
      | none => simp [basedLength, hf] at hc
      | some f =>
        have hbase : isGap base = false := by
          cases hg : isGap base with
          | false => rfl
          | true => rw [baseDigit?_of_isGap hg] at hf; cases hf
        simp only [basedLength, hf] at hc
        split at hc
        · simp at hc
        · rcases List.mem_cons.1 hc with rfl | hc
          · exact hbase
          · exact isGap_of_isIdentifierContinue
              (isIdentifierContinue_of_baseDigit? hf (mem_take_runLength hc))

theorem local_lengthAfter (c : Char) : Local (lengthAfter c) where
  eq h := by
    have hdecimal := local_decimalLength.eq h
    have hbased := local_basedLength.eq h
    simp only [lengthAfter, hdecimal, hbased]
  inside {t} x hx := by
    unfold lengthAfter at hx
    split at hx
    · rcases Nat.le_total (decimalLength t) (basedLength t) with hle | hle
      · rw [Nat.max_eq_right hle] at hx
        exact local_basedLength.inside x hx
      · rw [Nat.max_eq_left hle] at hx
        exact local_decimalLength.inside x hx
    · exact local_decimalLength.inside x hx

end NumberLiteral

/-! ## Words -/

theorem runLength_append {f : Char → Bool} {u r : Text} (hu : ∀ x ∈ u, f x = true)
    (hr : ∀ x ∈ r.head?, f x = false) : runLength f (u ++ r) = u.length := by
  unfold runLength
  rw [List.takeWhile_append_of_pos hu]
  cases r with
  | nil => simp
  | cons x r => simp [hr x (by simp)]

theorem opening?_of_not_isMark {c : Char} {t : Text} (hq : StringLiteral.isQuote c = false)
    (hm : StringLiteral.isMark c = false) : StringLiteral.opening? (c :: t) = none := by
  have htwo (b : Char) := areMarks_left (b := b) hm
  cases t with
  | nil => simp [StringLiteral.opening?, hq]
  | cons b t => cases t <;> simp [StringLiteral.opening?, hq, hm, htwo]

theorem isQuote_of_isIdentifierContinue {c : Char} (h : isIdentifierContinue c = true) :
    StringLiteral.isQuote c = false := by
  simp only [StringLiteral.isQuote, Bool.or_eq_false_iff, beq_eq_false_iff_ne]
  exact ⟨ne_of_isIdentifierContinue h (by decide), ne_of_isIdentifierContinue h (by decide)⟩

/-- No string literal opens at a word of prose: its marks would have to be letters
of another alphabet. -/
theorem ProseWord.opening? {w r : Text} (h : ProseWord w) :
    StringLiteral.opening? (w ++ r) = none := by
  have hquote : ∀ x ∈ w, StringLiteral.isQuote x = false :=
    fun x hx => isQuote_of_isIdentifierContinue (h.isIdentifierContinue x hx)
  obtain ⟨x, hx, hprose⟩ := List.any_eq_true.1 h.prose
  have hmark := isMark_of_isProseChar hprose
  obtain ⟨c, cs, rfl, -⟩ := h.spelled
  rcases List.mem_cons.1 hx with rfl | hx
  · exact opening?_of_not_isMark (hquote x (by simp)) hmark
  · have hc := hquote c (by simp)
    cases cs with
    | nil => cases hx
    | cons b cs =>
      have hb := hquote b (by simp)
      cases cs with
      | nil =>
        obtain rfl := List.mem_singleton.1 hx
        have htwo := areMarks_right (a := c) hmark
        cases r <;> simp [StringLiteral.opening?, hc, hb, htwo]
      | cons d cs =>
        have hd := hquote d (by simp)
        simp [StringLiteral.opening?, hc, hb, hd]

/-- A character that a word begins with begins nothing else but a string literal. -/
theorem munch_of_isIdentifierStart {c : Char} {t : Text} (hc : isIdentifierStart c = true)
    (hopen : StringLiteral.opening? (c :: t) = none) : munch c t = munchWord c t := by
  have hcont := isIdentifierContinue_of_start hc
  have hne {d : Char} (hd : isIdentifierContinue d = false) : (c == d) = false :=
    beq_eq_false_iff_ne.2 (ne_of_isIdentifierContinue hcont hd)
  have hspace : isSpace c = false := by
    simp only [isSpace, hne (d := ' ') (by decide), hne (d := '\t') (by decide),
      hne (d := '\x0c') (by decide), Bool.or_self]
  unfold munch
  simp only [hspace, hne (d := '\n') (by decide), hne (d := '\r') (by decide),
    hne (d := '\\') (by decide), hne (d := '#') (by decide), StringLiteral.find?, hopen, hc,
    Option.map_none, if_true, Bool.false_eq_true, if_false]

/-- A word of prose is cut off as an identifier. -/
theorem munch_word {c : Char} {cs r : Text} (h : ProseWord (c :: cs))
    (hr : ∀ x ∈ r.head?, isIdentifierContinue x = false) :
    munch c (cs ++ r) = (.ident, cs.length) := by
  obtain ⟨c', cs', heq, hc, hcs⟩ := h.spelled
  obtain ⟨rfl, rfl⟩ := List.cons.inj heq
  have hopen : StringLiteral.opening? (c :: (cs ++ r)) = none := h.opening? (r := r)
  rw [munch_of_isIdentifierStart hc hopen]
  simp only [munchWord, runLength_append hcs hr, List.take_left, h.ofKeyword?, Option.getD_none]

end SceneGate
