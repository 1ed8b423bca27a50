/-
How far a word depends on what stands behind it. A blank, a line break, a comment, a
bracket `(` or `)` and a comma begin no longer word with what stands in front of them
(`Text.Stops`). So words that are cut off in front of one of these are cut off in front
of any other, too (`Word.AllCut.of_stops`).
-/
import SceneGate.Proofs.QuotedTokens
import SceneGate.Proofs.Written

namespace SceneGate

/-- Characters that no word goes on with. -/
def stops : List Char := " \t\x0c\n\r#\\,()".toList

/-- A text that begins with one of these characters, and is more than a backslash. -/
def Text.Stops (t : Text) : Prop := (∃ c u, t = c :: u ∧ c ∈ stops) ∧ t ≠ ['\\']

namespace Text

variable {e : Text} {r p : Text}

/-- A text stands in front of one that begins with another character, or not at all. -/
theorem prefix_append_iff (he : ∀ c ∈ e.head?, c ∉ p) : p <+: r ++ e ↔ p <+: r := by
  refine ⟨fun hpre => ?_, fun hpre => hpre.trans (List.prefix_append ..)⟩
  rcases List.prefix_or_prefix_of_prefix hpre (List.prefix_append ..) with hshort | ⟨more, rfl⟩
  · exact hshort
  · rw [List.prefix_append_right_inj] at hpre
    cases more with
    | nil => simp
    | cons x more =>
      obtain ⟨tail, rfl⟩ := hpre
      exact absurd (by simp) (he x rfl)

theorem isPrefixOf_append_eq (he : ∀ c ∈ e.head?, c ∉ p) :
    p.isPrefixOf (r ++ e) = p.isPrefixOf r := by
  rw [Bool.eq_iff_iff, List.isPrefixOf_iff_prefix, List.isPrefixOf_iff_prefix, prefix_append_iff he]

/-- A text without such characters does not go on with them. -/
theorem Stops.head?_notMem (h : Stops e) (hp : ∀ x ∈ p, x ∉ stops) : ∀ c ∈ e.head?, c ∉ p := by
  obtain ⟨⟨c, u, rfl, hc⟩, -⟩ := h
  rintro _ ⟨⟩ hmem
  exact hp _ hmem hc

theorem Stops.prefix_iff (h : Stops e) (hp : ∀ x ∈ p, x ∉ stops) : p <+: r ++ e ↔ p <+: r :=
  prefix_append_iff (h.head?_notMem hp)

theorem Stops.isPrefixOf_eq (h : Stops e) (hp : ∀ x ∈ p, x ∉ stops) :
    p.isPrefixOf (r ++ e) = p.isPrefixOf r := isPrefixOf_append_eq (h.head?_notMem hp)

end Text

/-! ## Numbers -/

namespace NumberLiteral

/-- Whether a number may be written with a character; a sign may stand in front of the digits of
an exponent, too. -/
def mayHold (c : Char) : Bool :=
  isAsciiDigit c || ('a' ≤ c && c ≤ 'f') || ('A' ≤ c && c ≤ 'F') || "_.xXoOjJ".toList.contains c

end NumberLiteral

/-- A text that no number goes on with: it does not begin like a number goes on, nor with a
sign and a digit. -/
def Text.EndsNumber (t : Text) : Prop :=
  ∀ c u, t = c :: u → NumberLiteral.mayHold c = false ∧
    (c = '+' ∨ c = '-' → ∀ d ∈ u.head?, NumberLiteral.isDigitChar d = false)

theorem Text.Stops.endsNumber {e : Text} (h : e.Stops) : e.EndsNumber := by
  have hall : ∀ c ∈ stops, NumberLiteral.mayHold c = false ∧ c ≠ '+' ∧ c ≠ '-' := by decide
  rintro c u rfl
  obtain ⟨⟨c, u, heq, hc⟩, -⟩ := h
  obtain ⟨rfl, rfl⟩ := List.cons.inj heq
  obtain ⟨hmay, hplus, hminus⟩ := hall _ hc
  exact ⟨hmay, fun hsign => (hsign.elim hplus hminus).elim⟩

/-- A length that is measured in front of what no number goes on with. -/
structure UpToStop (f : Text → Nat) : Prop where
  le : ∀ r, f r ≤ r.length
  eq : ∀ {r e : Text}, e.EndsNumber → f (r ++ e) = f r

namespace UpToStop

/-- A run of characters ends in front of one of another sort. -/
theorem runLength_append {p : Char → Bool} {e : Text} (he : ∀ c ∈ e.head?, p c = false) (r : Text) :
    SceneGate.runLength p (r ++ e) = SceneGate.runLength p r := by
  unfold SceneGate.runLength
  induction r with
  | nil =>
    cases e with
    | nil => rfl
    | cons c u => simp [he c rfl]
  | cons x r ih =>
    rw [List.cons_append, List.takeWhile_cons, List.takeWhile_cons]
    split
    · simpa using ih
    · rfl

theorem runLength {p : Char → Bool} (hp : ∀ c, p c = true → NumberLiteral.mayHold c = true) :
    UpToStop (runLength p) where
  le := runLength_le p
  eq {r e} he := runLength_append (fun c hc => by
    obtain ⟨u, rfl⟩ := List.head?_eq_some_iff.1 hc
    have hmay := (he c u rfl).1
    exact Bool.eq_false_iff.2 fun hpc => by simp [hp c hpc] at hmay) r

/-- One length behind another. -/
theorem behind {f g : Text → Nat} (hf : UpToStop f) (hg : UpToStop g) :
    UpToStop fun t => f t + g (t.drop (f t)) where
  le r := by
    have h₁ := hf.le r
    have h₂ := hg.le (r.drop (f r))
    rw [List.length_drop] at h₂
    show f r + g (r.drop (f r)) ≤ r.length
    omega
  eq {r e} he := by
    show f (r ++ e) + g ((r ++ e).drop (f (r ++ e))) = _
    rw [hf.eq he, List.drop_append_of_le_length (hf.le r), hg.eq he]

end UpToStop

namespace NumberLiteral

theorem upToStop_digits : UpToStop (runLength isDigitChar) :=
  .runLength fun c hc => by
    simp only [isDigitChar, Bool.or_eq_true, beq_iff_eq] at hc
    rcases hc with hc | rfl
    · simp [mayHold, hc]
    · decide

theorem exponentLength_of_sign {e sign : Char} {digits : Text} (he : (e == 'e' || e == 'E') = true)
    (hs : (sign == '+' || sign == '-') = true) : exponentLength (e :: sign :: digits) =
      if runLength isDigitChar digits = 0 then 0 else runLength isDigitChar digits + 2 := by
  simp only [exponentLength, he, hs, if_true]

theorem exponentLength_of_digit {e c : Char} {rest : Text} (he : (e == 'e' || e == 'E') = true)
    (hc : (c == '+' || c == '-') = false) : exponentLength (e :: c :: rest) =
      if runLength isDigitChar (c :: rest) = 0 then 0
      else runLength isDigitChar (c :: rest) + 1 := by
  simp only [exponentLength, he, hc, if_true, Bool.false_eq_true, if_false]

theorem exponentLength_of_other {e : Char} (he : (e == 'e' || e == 'E') = false) (rest : Text) :
    exponentLength (e :: rest) = 0 := by
  simp only [exponentLength, he, Bool.false_eq_true, if_false]

/-- Of what may hold a character that no number is written with, all is told. -/
theorem mayHold_of {c : Char} {l : List Char} (hl : ∀ x ∈ l, mayHold x = true)
    (hc : mayHold c = false) : c ∉ l := fun hmem => by
  rw [hl c hmem] at hc
  cases hc

theorem upToStop_exponentLength : UpToStop exponentLength where
  le r := by
    rcases r with _ | ⟨x, r⟩
    · simp [exponentLength]
    cases hx : x == 'e' || x == 'E' with
    | false => simp [exponentLength_of_other hx]
    | true =>
      rcases r with _ | ⟨y, r⟩
      · simp [exponentLength]
      cases hy : y == '+' || y == '-' with
      | true =>
        have := upToStop_digits.le r
        rw [exponentLength_of_sign hx hy]
        simp only [List.length_cons]
        split <;> omega
      | false =>
        have := upToStop_digits.le (y :: r)
        rw [exponentLength_of_digit hx hy]
        split <;> simp_all
  eq {r e} he := by
    rcases r with _ | ⟨x, r⟩
    · rcases e with _ | ⟨c, u⟩
      · rfl
      · have hc := mayHold_of (l := ['e', 'E']) (by decide) (he c u rfl).1
        exact exponentLength_of_other (by simpa using hc) u
    cases hx : x == 'e' || x == 'E' with
    | false => simp only [List.cons_append, exponentLength_of_other hx]
    | true =>
      rcases r with _ | ⟨y, r⟩
      · have hnone : runLength isDigitChar e = 0 := upToStop_digits.eq (r := []) he
        rcases e with _ | ⟨c, u⟩
        · rfl
        cases hc : c == '+' || c == '-' with
        | true =>
          have hdigits := (he c u rfl).2 (by simpa using hc)
          have hzero : runLength isDigitChar u = 0 := UpToStop.runLength_append hdigits []
          rw [List.cons_append, List.nil_append, exponentLength_of_sign hx hc, if_pos hzero]
          simp [exponentLength]
        | false =>
          rw [List.cons_append, List.nil_append, exponentLength_of_digit hx hc, if_pos hnone]
          simp [exponentLength]
      cases hy : y == '+' || y == '-' with
      | true =>
        simp only [List.cons_append, exponentLength_of_sign hx hy, upToStop_digits.eq he]
      | false =>
        have hrun := upToStop_digits.eq (r := y :: r) he
        rw [List.cons_append] at hrun
        simp only [List.cons_append, exponentLength_of_digit hx hy, hrun]

theorem upToStop_imaginaryLength : UpToStop imaginaryLength where
  le r := by
    cases r with
    | nil => simp [imaginaryLength]
    | cons c r =>
      simp only [imaginaryLength]
      split <;> simp
  eq {r e} he := by
    rcases r with _ | ⟨x, r⟩
    · rcases e with _ | ⟨c, u⟩
      · rfl
      · have hc := mayHold_of (l := ['j', 'J']) (by decide) (he c u rfl).1
        have hc : (c == 'j' || c == 'J') = false := by simpa using hc
        simp [imaginaryLength, hc]
    · rfl

theorem upToStop_tailLength : UpToStop tailLength :=
  upToStop_exponentLength.behind upToStop_imaginaryLength

theorem fractionLength_of_other {c : Char} (hc : c ≠ '.') (rest : Text) :
    fractionLength (c :: rest) = 0 := by
  unfold fractionLength
  split
  · rename_i h
    exact absurd (List.cons.inj h).1 hc
  · rfl

theorem upToStop_fractionLength : UpToStop fractionLength where
  le r := by
    unfold fractionLength
    split
    · simpa using upToStop_digits.le _
    · simp
  eq {r e} he := by
    rcases r with _ | ⟨x, r⟩
    · rcases e with _ | ⟨c, u⟩
      · rfl
      · have hc := mayHold_of (l := ['.']) (by decide) (he c u rfl).1
        exact fractionLength_of_other (by simpa using hc) u
    · by_cases hx : x = '.'
      · subst hx
        exact congrArg (· + 1) (upToStop_digits.eq he)
      · rw [List.cons_append, fractionLength_of_other hx, fractionLength_of_other hx]

theorem upToStop_decimalLength : UpToStop decimalLength :=
  (upToStop_digits.behind upToStop_fractionLength).behind upToStop_tailLength

theorem upToStop_pointedLength : UpToStop pointedLength where
  le r := by
    rcases r with _ | ⟨x, r⟩
    · simp [pointedLength]
    · have := (upToStop_digits.behind upToStop_tailLength).le r
      simp only [pointedLength, Nat.add_sub_cancel, List.length_cons]
      split
      · omega
      · omega
  eq {r e} he := by
    rcases r with _ | ⟨x, r⟩
    · rcases e with _ | ⟨c, u⟩
      · rfl
      · have hc : isAsciiDigit c = false := Bool.eq_false_iff.2 fun hdigit => by
          have := (he c u rfl).1
          simp [mayHold, hdigit] at this
        simp [pointedLength, hc]
    · have := (upToStop_digits.behind upToStop_tailLength).eq (r := r) he
      simp only [List.cons_append, pointedLength, Nat.add_sub_cancel]
      split
      · omega
      · rfl

/-- The digits of a base, and the letter that tells it, may stand in numbers. -/
theorem mayHold_of_baseDigit? {base : Char} {isDigit : Char → Bool}
    (h : baseDigit? base = some isDigit) :
    mayHold base = true ∧ ∀ c, isDigit c = true → mayHold c = true := by
  unfold baseDigit? at h
  split at h
  · rename_i hbase
    cases h
    refine ⟨by simp at hbase; rcases hbase with rfl | rfl <;> decide, fun c hc => ?_⟩
    simp only [Bool.or_eq_true, beq_iff_eq] at hc
    rcases hc with ((hc | hc) | hc) | rfl
    · simp [mayHold, hc]
    · simp [mayHold, hc]
    · simp [mayHold, hc]
    · decide
  split at h
  · rename_i hbase
    cases h
    refine ⟨by simp at hbase; rcases hbase with rfl | rfl <;> decide, fun c hc => ?_⟩
    simp only [Bool.or_eq_true, Bool.and_eq_true, decide_eq_true_eq, beq_iff_eq] at hc
    rcases hc with ⟨hlow, hhigh⟩ | rfl
    · have hdigit : isAsciiDigit c = true := by
        simp only [isAsciiDigit, Bool.and_eq_true, decide_eq_true_eq]
        exact ⟨hlow, Char.le_trans hhigh (show '7' ≤ '9' by decide)⟩
      simp [mayHold, hdigit]
    · decide
  split at h
  · rename_i hbase
    cases h
    refine ⟨by simp at hbase; rcases hbase with rfl | rfl <;> decide, fun c hc => ?_⟩
    simp only [Bool.or_eq_true, beq_iff_eq] at hc
    rcases hc with (rfl | rfl) | rfl <;> decide
  · cases h

theorem upToStop_basedLength : UpToStop basedLength where
  le r := by
    rcases r with _ | ⟨x, r⟩
    · simp [basedLength]
    · simp only [basedLength, List.length_cons]
      split
      · rename_i isDigit h
        have := (UpToStop.runLength (mayHold_of_baseDigit? h).2).le r
        split <;> omega
      · omega
  eq {r e} he := by
    rcases r with _ | ⟨x, r⟩
    · rcases e with _ | ⟨c, u⟩
      · rfl
      · simp only [List.nil_append, basedLength]
        split
        · rename_i isDigit h
          have hmay := (he c u rfl).1
          rw [(mayHold_of_baseDigit? h).1] at hmay
          cases hmay
        · rfl
    · simp only [List.cons_append, basedLength]
      split
      · rename_i isDigit h
        rw [(UpToStop.runLength (mayHold_of_baseDigit? h).2).eq he]
      · rfl

theorem upToStop_lengthAfter (c : Char) : UpToStop (lengthAfter c) where
  le r := by
    have h₁ := upToStop_decimalLength.le r
    have h₂ := upToStop_basedLength.le r
    unfold lengthAfter
    split <;> omega
  eq {r e} he := by
    unfold lengthAfter
    rw [upToStop_decimalLength.eq he, upToStop_basedLength.eq he]

end NumberLiteral

/-! ## Strings -/

namespace StringLiteral

variable {q : Char} {u e e' r : Text} {n l m : Nat}

/-- The letters in front of the quote that opens a string literal. -/
inductive Opens (q : Char) : Text → Prop
  | bare : isQuote q = true → Opens q []
  | one : isMark a = true → isQuote q = true → Opens q [a]
  | two : areMarks a b = true → isQuote q = true → Opens q [a, b]

theorem opening?_iff {t rest : Text} {m : Nat} : opening? t = some (m, q, rest) ↔
    ∃ marks, Opens q marks ∧ marks.length = m ∧ t = marks ++ q :: rest := by
  have hmark {c : Char} (h : isMark c = true) : isQuote c = false := by
    have hall : ∀ c ∈ "rRuUbBfF".toList, isQuote c = false := by decide
    exact hall c (by simpa [isMark] using h)
  constructor
  · intro h
    rcases t with _ | ⟨a, t⟩
    · cases h
    by_cases ha : isQuote a = true
    · simp only [opening?, ha, if_true, Option.some.injEq, Prod.mk.injEq] at h
      obtain ⟨rfl, rfl, rfl⟩ := h
      exact ⟨[], .bare ha, rfl, rfl⟩
    rcases t with _ | ⟨b, t⟩
    · simp [opening?, ha] at h
    by_cases hb : (isMark a && isQuote b) = true
    · simp only [opening?, ha, hb, if_true, Bool.false_eq_true, if_false, Option.some.injEq,
        Prod.mk.injEq] at h
      obtain ⟨rfl, rfl, rfl⟩ := h
      obtain ⟨ha, hb⟩ := Bool.and_eq_true_iff.1 hb
      exact ⟨[a], .one ha hb, rfl, rfl⟩
    rcases t with _ | ⟨c, t⟩
    · simp [opening?, ha, hb] at h
    by_cases hc : (areMarks a b && isQuote c) = true
    · simp only [opening?, ha, hb, hc, if_true, Bool.false_eq_true, if_false, Option.some.injEq,
        Prod.mk.injEq] at h
      obtain ⟨rfl, rfl, rfl⟩ := h
      obtain ⟨hab, hc⟩ := Bool.and_eq_true_iff.1 hc
      exact ⟨[a, b], .two hab hc, rfl, rfl⟩
    · simp [opening?, ha, hb, hc] at h
  · rintro ⟨marks, hopens, rfl, rfl⟩
    cases hopens with
    | bare hq => simp [opening?, hq]
    | one ha hq => simp [opening?, hmark ha, ha, hq]
    | two hab hq =>
      obtain ⟨ha, hb⟩ := isMark_of_areMarks hab
      simp [opening?, hmark ha, hmark hb, hab, hq]

theorem Opens.quote {marks : Text} (h : Opens q marks) : isQuote q = true := by
  cases h <;> assumption

/-- Characters that marks and quotes are. -/
def openers : List Char := "'\"rRuUbBfF".toList

theorem Opens.mem_openers {marks : Text} (h : Opens q marks) : ∀ x ∈ marks ++ [q], x ∈ openers := by
  have hquote {c : Char} (h : isQuote c = true) : c ∈ openers := by
    rcases isQuote_iff.1 h with rfl | rfl <;> decide
  have hmark {c : Char} (h : isMark c = true) : c ∈ openers := by
    have hall : ∀ c ∈ "rRuUbBfF".toList, c ∈ openers := by decide
    exact hall c (by simpa [isMark] using h)
  cases h with
  | bare hq => simp [hquote hq]
  | one ha hq => simp [hquote hq, hmark ha]
  | two hab hq =>
    obtain ⟨ha, hb⟩ := isMark_of_areMarks hab
    simp [hquote hq, hmark ha, hmark hb]

theorem Opens.not_stops {marks : Text} (h : Opens q marks) : ∀ x ∈ marks ++ [q], x ∉ stops := by
  have hall : ∀ c ∈ openers, c ∉ stops := by decide
  exact fun x hx => hall x (h.mem_openers x hx)

theorem shortBody_le (q : Char) (t : Text) :
    (shortBody q t).1 + (shortBody q t).2.toNat ≤ t.length := by
  fun_induction shortBody q t with
  | case1 => simp
  | case2 => simp
  | case3 | case6 => simp_all; omega
  | case4 => simp_all
  | case5 => simp_all

theorem longBody_le (q : Char) (t : Text) :
    (longBody q t).1 + 3 * (longBody q t).2.toNat ≤ t.length := by
  fun_induction longBody q t with
  | case1 => simp
  | case2 => simp
  | case3 | case6 | case7 => simp_all; omega
  | case4 _ _ _ _ _ hq =>
    have := (List.isPrefixOf_iff_prefix.1 hq).length_le
    simp at this ⊢
    omega
  | case5 => simp_all

theorem isPrefixOf_append {p : Text} (h : p.length ≤ u.length) :
    p.isPrefixOf (u ++ e) = p.isPrefixOf u := by
  rw [Bool.eq_iff_iff, List.isPrefixOf_iff_prefix, List.isPrefixOf_iff_prefix]
  exact ⟨fun hp => List.prefix_of_prefix_length_le hp (List.prefix_append ..) h,
    fun hp => hp.trans (List.prefix_append ..)⟩

/-- The body of a literal ends where it does, whatever stands behind its end. -/
theorem shortBody_closed (h : shortBody q (u ++ e) = (n, true)) (hn : n + 1 ≤ u.length) :
    shortBody q (u ++ e') = (n, true) := by
  induction hlen : u.length using Nat.strongRecOn generalizing u n with
  | ind _ ih =>
  subst hlen
  rcases u with _ | ⟨c, u⟩
  · simp at hn
  by_cases hc : c = '\\'
  · subst hc
    rcases u with _ | ⟨d, u⟩
    · -- the backslash takes what stands behind with it, and the end lies further behind
      rcases e with _ | ⟨x, e⟩
      · cases h
      · rw [List.cons_append, List.nil_append, shortBody_escape, Prod.mk.injEq] at h
        simp only [List.length_cons, List.length_nil] at hn
        omega
    · simp only [List.length_cons] at hn
      simp only [List.cons_append, shortBody_escape] at h ⊢
      generalize hbody : shortBody q (u ++ e) = body at h
      obtain ⟨k, closed⟩ := body
      obtain ⟨rfl, rfl⟩ := Prod.mk.inj h
      rw [ih u.length (by simp only [List.length_cons]; omega) hbody (by omega) rfl]
  · simp only [List.cons_append, shortBody_cons hc] at h ⊢
    split
    · rename_i hq
      rwa [if_pos hq] at h
    · rename_i hq
      rw [if_neg hq] at h
      split
      · rename_i hfeed
        rw [if_pos hfeed] at h
        cases h
      · rename_i hfeed
        simp only [List.length_cons] at hn
        rw [if_neg hfeed] at h
        generalize hbody : shortBody q (u ++ e) = body at h
        obtain ⟨k, closed⟩ := body
        obtain ⟨rfl, rfl⟩ := Prod.mk.inj h
        rw [ih u.length (by simp) hbody (by omega) rfl]

theorem longBody_closed (hq : q ≠ '\\') (h : longBody q (u ++ e) = (n, true))
    (hn : n + 3 ≤ u.length) : longBody q (u ++ e') = (n, true) := by
  induction hlen : u.length using Nat.strongRecOn generalizing u n with
  | ind _ ih =>
  subst hlen
  rcases u with _ | ⟨c, u⟩
  · simp at hn
  simp only [List.length_cons] at hn
  by_cases hc : c = '\\'
  · subst hc
    rcases u with _ | ⟨d, u⟩
    · simp at hn
    · simp only [List.length_cons] at hn
      simp only [List.cons_append, longBody_escape] at h ⊢
      generalize hbody : longBody q (u ++ e) = body at h
      obtain ⟨k, closed⟩ := body
      obtain ⟨rfl, rfl⟩ := Prod.mk.inj h
      rw [ih u.length (by simp only [List.length_cons]; omega) hbody (by omega) rfl]
  by_cases hcq : c = q
  · subst hcq
    have hfew {e : Text} (hu : 2 ≤ u.length) : [c, c].isPrefixOf (u ++ e) = [c, c].isPrefixOf u :=
      isPrefixOf_append hu
    rw [List.cons_append, longBody_quote hq, hfew (by omega)] at h ⊢
    rcases h with h | ⟨hnot, k, hk, rfl⟩
    · exact .inl h
    · exact .inr ⟨hnot, k, ih u.length (by simp) hk (by omega) rfl, rfl⟩
  · simp only [List.cons_append, longBody_cons hc hcq] at h ⊢
    generalize hbody : longBody q (u ++ e) = body at h
    obtain ⟨k, closed⟩ := body
    obtain ⟨rfl, rfl⟩ := Prod.mk.inj h
    rw [ih u.length (by simp) hbody (by omega) rfl]

/-- A literal between three quotes. -/
theorem measure_long {v : Text} : measure m q (q :: q :: v) = (.closed, n) ↔
    ∃ k, longBody q v = (k, true) ∧ n = m + k + 6 := by
  have hlong : [q, q].isPrefixOf (q :: q :: v) = true := by simp [List.isPrefixOf]
  rw [measure, if_pos hlong, show (q :: q :: v).drop 2 = v from rfl]
  obtain ⟨k, closed⟩ := longBody q v
  cases closed <;> simp [eq_comm]

/-- A literal between single quotes. -/
theorem measure_short (h : [q, q].isPrefixOf u = false) : measure m q u = (.closed, n) ↔
    ∃ k, shortBody q u = (k, true) ∧ n = m + k + 2 := by
  rw [measure, if_neg (by simp [h])]
  obtain ⟨k, closed⟩ := shortBody q u
  cases closed
  · dsimp only
    split <;> simp
  · simp [eq_comm]

/-- A literal is closed by three quotes or by one. -/
theorem measure_eq_closed : measure m q u = (.closed, n) ↔
    (∃ v k, u = q :: q :: v ∧ longBody q v = (k, true) ∧ n = m + k + 6) ∨
      [q, q].isPrefixOf u = false ∧ ∃ k, shortBody q u = (k, true) ∧ n = m + k + 2 := by
  cases hpre : [q, q].isPrefixOf u with
  | true =>
    obtain ⟨v, rfl⟩ := List.isPrefixOf_iff_prefix.1 hpre
    constructor
    · intro h
      obtain ⟨k, hbody, rfl⟩ := measure_long.1 h
      exact .inl ⟨v, k, rfl, hbody, rfl⟩
    · rintro (⟨w, k, hw, hbody, rfl⟩ | ⟨hfalse, -⟩)
      · obtain rfl : v = w := by simpa using hw
        exact measure_long.2 ⟨k, hbody, rfl⟩
      · cases hfalse
  | false =>
    rw [measure_short hpre]
    constructor
    · exact fun h => .inr ⟨rfl, h⟩
    · rintro (⟨w, k, rfl, -⟩ | ⟨-, h⟩)
      · simp [List.isPrefixOf] at hpre
      · exact h

/-- Marks and a quote are a word where only a backslash follows. -/
theorem measure_eq_word : measure m q u = (.word, n) ↔ m ≠ 0 ∧ u = ['\\'] ∧ n = m + 1 := by
  constructor
  · intro h
    unfold measure at h
    split at h
    · split at h <;> cases h
    · split at h
      · cases h
      · split at h
        · rename_i hword
          cases h
          exact ⟨hword.1, hword.2, rfl⟩
        · cases h
  · rintro ⟨hm, rfl, rfl⟩
    have hshort : [q, q].isPrefixOf ['\\'] = false := by simp [List.isPrefixOf]
    simp [measure, hshort, shortBody, hm]

/-- A literal that ends before something else ends there before anything else that opens no
quotes. -/
theorem measure_closed (hq : q ≠ '\\') (he : [q, q].isPrefixOf (u ++ e) = [q, q].isPrefixOf u)
    (he' : [q, q].isPrefixOf (u ++ e') = [q, q].isPrefixOf u)
    (h : measure m q (u ++ e) = (.closed, l)) (hl : l ≤ m + 1 + u.length) :
    measure m q (u ++ e') = (.closed, l) := by
  rcases measure_eq_closed.1 h with ⟨w, k, hw, hbody, rfl⟩ | ⟨hshort, k, hbody, rfl⟩
  · have hlong : [q, q].isPrefixOf (u ++ e) = true := List.isPrefixOf_iff_prefix.2 ⟨w, hw.symm⟩
    rw [he] at hlong
    obtain ⟨v, rfl⟩ := List.isPrefixOf_iff_prefix.1 hlong
    obtain rfl : v ++ e = w := by simpa using hw
    simp only [List.cons_append, List.nil_append, List.length_cons] at hl
    have hbody' : longBody q (v ++ e') = (k, true) := longBody_closed hq hbody (by omega)
    exact measure_long.2 ⟨k, hbody', rfl⟩
  · rw [he, ← he'] at hshort
    exact (measure_short hshort).2 ⟨k, shortBody_closed hbody (by omega), rfl⟩

/-- What is measured lies in the text. -/
theorem measure_le (marks : Nat) (rest : Text) : (measure marks q rest).2 ≤ marks + rest.length + 1 := by
  unfold measure
  split
  · rename_i hlong
    have hle := (List.isPrefixOf_iff_prefix.1 hlong).length_le
    have hbody := longBody_le q (rest.drop 2)
    rw [List.length_drop] at hbody
    simp only [List.length_cons, List.length_nil] at hle
    split <;> rename_i h <;> simp only [h, Bool.toNat_true, Bool.toNat_false] at hbody ⊢ <;> omega
  · have hbody := shortBody_le q rest
    split
    · rename_i h
      simp only [h, Bool.toNat_true] at hbody ⊢
      omega
    · rename_i h
      simp only [h, Bool.toNat_false] at hbody ⊢
      split <;> simp only <;> omega

theorem find?_le {t : Text} {shape : Shape} (h : find? t = some (shape, l)) : l ≤ t.length := by
  obtain ⟨⟨m, q, rest⟩, hopen, hmeasure⟩ := Option.map_eq_some_iff.1 h
  obtain ⟨marks, -, rfl, rfl⟩ := opening?_iff.1 hopen
  have hle := measure_le (q := q) marks.length rest
  have hmeasure : measure marks.length q rest = (shape, l) := hmeasure
  rw [hmeasure] at hle
  simp only [List.length_append, List.length_cons]
  omega

/-- A literal that ends before something else than a quote is found in front of anything else. -/
theorem find?_closed (he : ∀ c ∈ e.head?, isQuote c = false)
    (he' : ∀ c ∈ e'.head?, isQuote c = false) (h : find? (u ++ e) = some (.closed, l))
    (hl : l ≤ u.length) : find? (u ++ e') = some (.closed, l) := by
  obtain ⟨⟨m, q, rest⟩, hopen, hmeasure⟩ := Option.map_eq_some_iff.1 h
  obtain ⟨marks, hopens, rfl, htext⟩ := opening?_iff.1 hopen
  have hmeasure : measure marks.length q rest = (.closed, l) := hmeasure
  have hq : q ≠ '\\' := by
    rintro rfl
    exact hopens.not_stops '\\' (by simp) (by decide)
  have hlt : marks.length + 2 ≤ l := by
    rcases measure_eq_closed.1 hmeasure with ⟨v, k, -, -, rfl⟩ | ⟨-, k, -, rfl⟩ <;> omega
  -- the marks and the quote lie in front, and so does the end of the body
  obtain ⟨v, rfl⟩ : marks ++ [q] <+: u := by
    have hmarks : marks ++ [q] <+: u ++ e := ⟨rest, by simp [htext]⟩
    refine List.prefix_of_prefix_length_le hmarks (List.prefix_append ..) ?_
    simp only [List.length_append, List.length_cons, List.length_nil]
    omega
  obtain rfl : v ++ e = rest := by simpa using htext
  have hopen' : opening? (marks ++ [q] ++ v ++ e') = some (marks.length, q, v ++ e') :=
    opening?_iff.2 ⟨marks, hopens, rfl, by simp⟩
  refine Option.map_eq_some_iff.2 ⟨_, hopen', ?_⟩
  show measure marks.length q (v ++ e') = _
  simp only [List.length_append, List.length_cons, List.length_nil] at hl
  have hquotes {e : Text} (he : ∀ c ∈ e.head?, isQuote c = false) : ∀ c ∈ e.head?, c ∉ [q, q] := by
    intro c hc hmem
    have hne := he c hc
    obtain rfl : c = q := by simpa using hmem
    rw [hopens.quote] at hne
    cases hne
  exact measure_closed hq (Text.isPrefixOf_append_eq (hquotes he))
    (Text.isPrefixOf_append_eq (hquotes he')) hmeasure (by omega)

/-- Where no literal opens, none opens before something else behind which the marks and the quote
would lie in front. -/
theorem find?_none_of (hfront : ∀ {q : Char} {marks : Text}, Opens q marks →
      marks ++ [q] <+: u ++ e' → marks ++ [q] <+: u)
    (h : find? (u ++ e) = none) : find? (u ++ e') = none := by
  have hopen : opening? (u ++ e) = none := Option.map_eq_none_iff.1 h
  refine Option.map_eq_none_iff.2 (Option.eq_none_iff_forall_ne_some.2 ?_)
  rintro ⟨m, q, rest⟩ hopen'
  obtain ⟨marks, hopens, rfl, htext⟩ := opening?_iff.1 hopen'
  obtain ⟨v, rfl⟩ := hfront hopens ⟨rest, by simp [htext]⟩
  have hsome : opening? (marks ++ [q] ++ v ++ e) = some (marks.length, q, v ++ e) :=
    opening?_iff.2 ⟨marks, hopens, rfl, by simp⟩
  rw [hopen] at hsome
  cases hsome

/-- Where no literal opens before something else, none opens before anything else. -/
theorem find?_none (he' : e'.Stops) (h : find? (u ++ e) = none) : find? (u ++ e') = none :=
  find?_none_of (fun hopens => (he'.prefix_iff hopens.not_stops).1) h

/-- Marks and a quote in front of the last backslash of a text stand in front of nothing
else. -/
theorem find?_ne_word (he : e.Stops) : find? (u ++ e) ≠ some (.word, l) := by
  intro h
  obtain ⟨⟨m, q, rest⟩, hopen, hmeasure⟩ := Option.map_eq_some_iff.1 h
  obtain ⟨marks, hopens, rfl, htext⟩ := opening?_iff.1 hopen
  have hmeasure : measure marks.length q rest = (.word, l) := hmeasure
  obtain ⟨v, rfl⟩ : marks ++ [q] <+: u :=
    (he.prefix_iff hopens.not_stops).1 ⟨rest, by simp [htext]⟩
  obtain rfl : v ++ e = rest := by simpa using htext
  obtain ⟨-, hslash, -⟩ := measure_eq_word.1 hmeasure
  obtain ⟨⟨c, u, rfl, -⟩, hne⟩ := he
  rcases List.append_eq_singleton_iff.1 hslash with ⟨-, heq⟩ | ⟨-, heq⟩
  · exact hne heq
  · cases heq

end StringLiteral

/-! ## Tokens -/

theorem runLength_transfer {p : Char → Bool} {r e : Text} (e' : Text)
    (h : runLength p (r ++ e) < r.length) : runLength p (r ++ e') = runLength p (r ++ e) := by
  unfold runLength at h ⊢
  induction r with
  | nil => simp at h
  | cons x r ih =>
    simp only [List.cons_append, List.takeWhile_cons] at h ⊢
    split
    · rename_i hx
      rw [if_pos hx] at h
      simp only [List.length_cons, Nat.add_lt_add_iff_right] at h ⊢
      rw [ih h]
    · rfl

theorem operator?_le {c : Char} {cs : Text} {k : Kind} {n : Nat}
    (h : operator? (c :: cs) = some (k, n)) : n ≤ cs.length := by
  obtain ⟨entry, hfind, hentry⟩ := Option.map_eq_some_iff.1 h
  have hpre : entry.1.isPrefixOf (c :: cs) = true := by
    have := List.find?_some hfind
    exact this
  have hle := (List.isPrefixOf_iff_prefix.1 hpre).length_le
  obtain ⟨-, rfl⟩ := Prod.mk.inj hentry
  simp only [List.length_cons] at hle
  omega

/-- Operators that are longer than one character do not go on with what is none of their later
characters. -/
theorem operator?_append {c : Char} {r e : Text}
    (he : ∀ x ∈ e.head?, ∀ entry ∈ operators, x ∉ entry.1.tail) :
    operator? (c :: (r ++ e)) = operator? (c :: r) := by
  have hsame : ∀ entry ∈ operators,
      entry.1.isPrefixOf (c :: (r ++ e)) = entry.1.isPrefixOf (c :: r) := by
    rintro ⟨spelling, k⟩ hentry
    cases spelling with
    | nil => rfl
    | cons x spelling =>
      have htail : ∀ y ∈ e.head?, y ∉ spelling := fun y hy => he y hy _ hentry
      simp only [List.isPrefixOf_cons_cons]
      rw [Text.isPrefixOf_append_eq htail]
  have hfind : operators.find? (fun entry => entry.1.isPrefixOf (c :: (r ++ e))) =
      operators.find? (fun entry => entry.1.isPrefixOf (c :: r)) := by
    rw [← List.head?_filter, ← List.head?_filter, List.filter_congr hsame]
  rw [operator?, operator?, hfind]

theorem operator?_eq {c : Char} {r e : Text} (he : e.Stops) :
    operator? (c :: (r ++ e)) = operator? (c :: r) := by
  have hall : ∀ entry ∈ operators, ∀ x ∈ entry.1.tail, x ∉ stops := by decide +kernel
  exact operator?_append fun x hx entry hentry => he.head?_notMem (hall entry hentry) x hx

/-- A token lies in the text. -/
theorem munch_le (c : Char) (cs : Text) : (munch c cs).2 ≤ cs.length := by
  unfold munch
  split
  · exact runLength_le ..
  split
  · exact Nat.zero_le _
  split
  · split <;> simp
  split
  · split <;> simp
  split
  · exact runLength_le ..
  have hstring {shape n} (h : StringLiteral.find? (c :: cs) = some (shape, n)) : n - 1 ≤ cs.length := by
    have := StringLiteral.find?_le h
    simp only [List.length_cons] at this
    omega
  split
  · rename_i h; exact hstring h
  · rename_i h; exact hstring h
  · rename_i h; exact hstring h
  · split
    · exact runLength_le ..
    split
    · exact (NumberLiteral.upToStop_lengthAfter c).le cs
    split
    · exact NumberLiteral.upToStop_pointedLength.le cs
    cases h : operator? (c :: cs) with
    | none => exact Nat.zero_le _
    | some r => exact operator?_le h

/-- What two texts behind `c :: r` have in common if a token that ends in front of the one
ends in front of the other, too. -/
structure Text.CutsAlike (c : Char) (r e e' : Text) : Prop where
  space : isSpace c = true → runLength isSpace (r ++ e) ≤ r.length →
    runLength isSpace (r ++ e') = runLength isSpace (r ++ e)
  comment : c = '#' → runLength (fun c => c != '\r' && c != '\n') (r ++ e) ≤ r.length →
    runLength (fun c => c != '\r' && c != '\n') (r ++ e') =
      runLength (fun c => c != '\r' && c != '\n') (r ++ e)
  closed : ∀ l ≤ r.length + 1, StringLiteral.find? (c :: r ++ e) = some (.closed, l) →
    StringLiteral.find? (c :: r ++ e') = some (.closed, l)
  notWord : ∀ l, StringLiteral.find? (c :: r ++ e) ≠ some (.word, l)
  none : StringLiteral.find? (c :: r ++ e) = none → StringLiteral.find? (c :: r ++ e') = none
  word : runLength isIdentifierContinue (r ++ e) ≤ r.length →
    runLength isIdentifierContinue (r ++ e') = runLength isIdentifierContinue (r ++ e)
  number : isAsciiDigit c = true →
    NumberLiteral.lengthAfter c (r ++ e') = NumberLiteral.lengthAfter c (r ++ e)
  pointed : c = '.' → NumberLiteral.pointedLength (r ++ e') = NumberLiteral.pointedLength (r ++ e)
  operator : operator? (c :: r ++ e') = operator? (c :: r ++ e)

/-- A token that ends in front of a text. -/
theorem munch_cutsAlike {c : Char} {r e e' : Text} (h : Text.CutsAlike c r e e')
    (hle : (munch c (r ++ e)).2 ≤ r.length) (herror : (munch c (r ++ e)).1 ≠ .error) :
    munch c (r ++ e') = munch c (r ++ e) := by
  -- a line break is told by one or two characters behind the first
  have hkept {p : Text} (hp : p.length ≤ r.length) (h : p.isPrefixOf (r ++ e) = true) :
      p.isPrefixOf (r ++ e') = true := by
    rw [StringLiteral.isPrefixOf_append hp] at h ⊢
    exact h
  by_cases hreturn : c = '\r'
  · subst hreturn
    rw [munch_return] at hle herror
    rw [munch_return, munch_return]
    by_cases hfeed : ['\n'].isPrefixOf (r ++ e) = true
    · rw [if_pos hfeed] at hle
      rw [if_pos hfeed, if_pos (hkept (p := ['\n']) hle hfeed)]
    · rw [if_neg hfeed] at herror
      exact absurd rfl herror
  by_cases hslash : c = '\\'
  · subst hslash
    rw [munch_backslash] at hle herror
    rw [munch_backslash, munch_backslash]
    by_cases hfeed : ['\n'].isPrefixOf (r ++ e) = true
    · rw [if_pos hfeed] at hle
      rw [if_pos hfeed, if_pos (hkept (p := ['\n']) hle hfeed)]
    · rw [if_neg hfeed] at hle herror ⊢
      by_cases hboth : ['\r', '\n'].isPrefixOf (r ++ e) = true
      · rw [if_pos hboth] at hle
        have hboth' := hkept (p := ['\r', '\n']) hle hboth
        have hfeed' : ¬ ['\n'].isPrefixOf (r ++ e') = true := by
          rcases r with _ | ⟨x, r⟩
          · simp at hle
          · simp_all
        rw [if_pos hboth, if_neg hfeed', if_pos hboth']
      · rw [if_neg hboth] at herror
        exact absurd rfl herror
  have hreturn : (c == '\r') = false := beq_eq_false_iff_ne.2 hreturn
  have hslash : (c == '\\') = false := beq_eq_false_iff_ne.2 hslash
  simp only [munch, hreturn, hslash, Bool.false_eq_true, if_false] at hle herror ⊢
  by_cases hspace : isSpace c = true
  · simp only [hspace, if_true] at hle ⊢
    rw [h.space hspace hle]
  by_cases hfeed : (c == '\n') = true
  · simp only [hspace, hfeed, if_true, Bool.false_eq_true, if_false]
  by_cases hcomment : (c == '#') = true
  · simp only [hspace, hfeed, hcomment, if_true, Bool.false_eq_true, if_false] at hle ⊢
    rw [h.comment (beq_iff_eq.1 hcomment) hle]
  simp only [hspace, hfeed, hcomment, Bool.false_eq_true, if_false] at hle herror ⊢
  rw [← List.cons_append] at hle herror
  rw [← List.cons_append, ← List.cons_append]
  cases hfind : StringLiteral.find? (c :: r ++ e) with
  | some found =>
    obtain ⟨shape, l⟩ := found
    rw [hfind] at hle herror
    cases shape with
    | closed =>
      simp only at hle
      rw [h.closed l (by omega) hfind]
    | unclosed => exact absurd rfl herror
    | word => exact absurd hfind (h.notWord l)
  | none =>
    rw [h.none hfind, h.operator]
    rw [hfind] at hle
    dsimp only at hle ⊢
    by_cases hstart : isIdentifierStart c = true
    · rw [if_pos hstart] at hle
      have hrun := h.word hle
      have hwordLe : runLength isIdentifierContinue (r ++ e) ≤ r.length := hle
      rw [if_pos hstart, if_pos hstart, munchWord, munchWord, hrun,
        List.take_append_of_le_length hwordLe, List.take_append_of_le_length hwordLe]
    rw [if_neg hstart, if_neg hstart]
    by_cases hdigit : isAsciiDigit c = true
    · rw [if_pos hdigit, if_pos hdigit, h.number hdigit]
    rw [if_neg hdigit, if_neg hdigit]
    by_cases hpoint : c = '.'
    · rw [h.pointed hpoint]
    · have hpoint : (c == '.') = false := beq_eq_false_iff_ne.2 hpoint
      simp only [hpoint, Bool.false_and, Bool.false_eq_true, if_false]

/-- A token that ends before something that no word goes on with is the same in front of
anything else that no word goes on with; only trivia may go on there. -/
theorem munch_stops {c : Char} {r e e' : Text} (he : e.Stops) (he' : e'.Stops)
    (hle : (munch c (r ++ e)).2 ≤ r.length) (herror : (munch c (r ++ e)).1 ≠ .error)
    (htrivia : (munch c (r ++ e)).1.isTrivia = true → (munch c (r ++ e)).2 < r.length) :
    munch c (r ++ e') = munch c (r ++ e) := by
  have hletters {e : Text} (he : e.Stops) :
      runLength isIdentifierContinue (r ++ e) = runLength isIdentifierContinue r :=
    UpToStop.runLength_append (fun x hx => by
      have hall : ∀ x ∈ stops, isIdentifierContinue x = false := by decide
      obtain ⟨⟨y, u, rfl, hy⟩, -⟩ := he
      obtain rfl : y = x := by simpa using hx
      exact hall y hy) r
  have hquote {e : Text} (he : e.Stops) : ∀ x ∈ e.head?, StringLiteral.isQuote x = false := by
    have hall : ∀ x ∈ stops, StringLiteral.isQuote x = false := by decide
    obtain ⟨⟨y, u, rfl, hy⟩, -⟩ := he
    rintro _ ⟨⟩
    exact hall y hy
  have hlength := NumberLiteral.upToStop_lengthAfter c
  have hpointed := NumberLiteral.upToStop_pointedLength
  refine munch_cutsAlike ?_ hle herror
  exact {
    space := fun hc _ => by
      simp only [munch, hc, if_true] at htrivia
      exact runLength_transfer e' (htrivia rfl)
    comment := fun hc _ => by
      subst hc
      exact runLength_transfer e' (htrivia rfl)
    closed := fun l hl hfind => StringLiteral.find?_closed (hquote he) (hquote he') hfind hl
    notWord := fun l => StringLiteral.find?_ne_word he
    none := StringLiteral.find?_none he'
    word := fun _ => by rw [hletters he, hletters he']
    number := fun _ => by rw [hlength.eq he.endsNumber, hlength.eq he'.endsNumber]
    pointed := fun _ => by rw [hpointed.eq he.endsNumber, hpointed.eq he'.endsNumber]
    operator := by
      rw [List.cons_append, List.cons_append, operator?_eq he, operator?_eq he'] }

/-! ## Words -/

namespace Word

variable {w : Word} {ws : List Word} {r e e' : Text}

/-- A word that is cut off before something that no word goes on with is cut off before
anything else that no word goes on with. -/
theorem Cut.of_stops (h : w.Cut (r ++ e)) (he : e.Stops) (he' : e'.Stops) (hw : w.kind ≠ .error)
    (hr : r ≠ [] ∨ w.kind.isTrivia = false) : w.Cut (r ++ e') := by
  obtain ⟨c, cs, htext, hmunch⟩ := h
  refine ⟨c, cs, htext, ?_⟩
  rw [← List.append_assoc] at hmunch ⊢
  rw [← hmunch]
  refine munch_stops he he' ?_ ?_ ?_ <;> rw [hmunch]
  · simp
  · exact hw
  · intro ht
    have := List.length_pos_of_ne_nil (hr.resolve_right (by simp [ht]))
    simp only [List.length_append]
    omega

theorem AllCut.of_stops (h : AllCut ws e) (he : e.Stops) (he' : e'.Stops)
    (hws : ∀ w ∈ ws, w.kind ≠ .error) (hlast : ∀ w ∈ ws.getLast?, w.kind.isTrivia = false) :
    AllCut ws e' := by
  induction ws with
  | nil => trivial
  | cons w ws ih =>
    obtain ⟨hw, hmore⟩ := List.forall_mem_cons.1 hws
    obtain ⟨hcut, hrest⟩ := h
    refine ⟨hcut.of_stops he he' hw ?_, ih hrest hmore fun v hv => hlast v ?_⟩
    · cases ws with
      | nil => exact .inr (hlast w (by simp))
      | cons v ws =>
        obtain ⟨c, cs, htext, -⟩ := hrest.1
        exact .inl (by simp [htext])
    · cases ws with
      | nil => cases hv
      | cons v' ws => simpa [List.getLast?_cons_cons] using hv

end Word

end SceneGate
