/-
The tokens of a text with the default names renamed. `GRAY` becomes `GREY`, so a text and
the renamed one are the same but for letters `A` behind an `R`, which the one spells `E`
(`Text.Respelled`). Where one of these letters stands no token tells it from the other: it
may stand in a name, a string or a comment, but behind an `R` neither goes on a number, and no
reserved word holds an `R`. So the two texts have tokens of the same kinds, and both
are programs or neither (`ok_rename`).
-/
import SceneGate.Proofs.LikeLayouts
import SceneGate.Proofs.Renamings
import SceneGate.Proofs.TokenShapes

namespace SceneGate

/-- Texts that are the same but for letters `A` of the one that stand behind an `R` and that
the other spells `E`; whether an `R` stands in front is said first. -/
inductive Text.Respelled : Bool → Text → Text → Prop
  | nil {behind : Bool} : Respelled behind [] []
  | same {behind : Bool} {t u : Text} (c : Char) : Respelled (c == 'R') t u →
      Respelled behind (c :: t) (c :: u)
  | vowel {t u : Text} : Respelled false t u → Respelled true ('A' :: t) ('E' :: u)

namespace Text.Respelled

variable {behind : Bool} {t u : Text}

theorem refl (behind : Bool) : ∀ t : Text, Respelled behind t t
  | [] => .nil
  | c :: cs => .same c (refl _ cs)

theorem append {s s' : Text} (h : Respelled behind s s') (h' : ∀ behind, Respelled behind t u) :
    Respelled behind (s ++ t) (s' ++ u) := by
  induction h with
  | nil => exact h' _
  | same c _ ih => exact .same c ih
  | vowel _ ih => exact .vowel ih

/-- A text that is not behind an `R` may be behind one as well. -/
theorem of_false (h : Respelled false t u) (behind : Bool) : Respelled behind t u := by
  cases h with
  | nil => exact .nil
  | same c h => exact .same c h

theorem bytes_eq (h : Respelled behind t u) : t.bytes = u.bytes := by
  induction h with
  | nil => rfl
  | same c _ ih => rw [bytes_cons, bytes_cons, ih]
  | vowel _ ih => rw [bytes_cons, bytes_cons, ih]; rfl

theorem length_eq (h : Respelled behind t u) : t.length = u.length := by
  induction h with
  | nil => rfl
  | same c _ ih => rw [List.length_cons, List.length_cons, ih]
  | vowel _ ih => rw [List.length_cons, List.length_cons, ih]

theorem columnAfter_eq (h : Respelled behind t u) (column : Nat) :
    columnAfter column t = columnAfter column u := by
  induction h generalizing column with
  | nil => rfl
  | same c _ ih => exact ih _
  | vowel _ ih => exact ih _

theorem take (h : Respelled behind t u) (n : Nat) : Respelled behind (t.take n) (u.take n) := by
  induction h generalizing n with
  | nil => simpa using Respelled.nil
  | same c _ ih =>
    cases n with
    | zero => exact .nil
    | succ n => exact .same c (ih n)
  | vowel _ ih =>
    cases n with
    | zero => exact .nil
    | succ n => exact .vowel (ih n)

theorem drop (h : Respelled behind t u) (n : Nat) : ∃ behind, Respelled behind (t.drop n) (u.drop n) := by
  induction h generalizing n with
  | nil => exact ⟨false, by simpa using Respelled.nil⟩
  | @same behind _ _ c h ih =>
    cases n with
    | zero => exact ⟨behind, .same c h⟩
    | succ n => exact ih n
  | vowel h ih =>
    cases n with
    | zero => exact ⟨true, .vowel h⟩
    | succ n => exact ih n

/-- A class of characters that holds both letters or neither has runs of the same length. -/
theorem runLength_eq {p : Char → Bool} (hp : p 'A' = p 'E') (h : Respelled behind t u) :
    runLength p t = runLength p u := by
  have hcons (c : Char) (cs : Text) :
      runLength p (c :: cs) = if p c then runLength p cs + 1 else 0 := by
    unfold runLength
    rw [List.takeWhile_cons]
    split <;> rfl
  induction h with
  | nil => rfl
  | same c _ ih => rw [hcons, hcons, ih]
  | vowel _ ih => rw [hcons, hcons, ih, hp]

/-- Behind a run without an `R` no letter is told from the other. -/
theorem drop_run {p : Char → Bool} (hR : p 'R' = false) (hp : p 'A' = p 'E')
    (h : Respelled false t u) :
    Respelled false (t.drop (runLength p t)) (u.drop (runLength p u)) := by
  have hcons (c : Char) (cs : Text) : (c :: cs).drop (runLength p (c :: cs)) =
      if p c then cs.drop (runLength p cs) else c :: cs := by
    unfold runLength
    rw [List.takeWhile_cons]
    split <;> rfl
  rw [← h.runLength_eq hp]
  generalize hb : false = b at h ⊢
  induction h with
  | nil => exact .nil
  | @same b t u c h ih =>
    subst hb
    cases hc : p c with
    | false =>
      have hzero : runLength p (c :: t) = 0 := by simp [runLength, hc]
      rw [hzero]
      exact .same c h
    | true =>
      have hne : (c == 'R') = false := beq_eq_false_iff_ne.2 fun heq => by simp [heq, hR] at hc
      have hlen : runLength p (c :: t) = runLength p t + 1 := by simp [runLength, hc]
      rw [hlen]
      rw [hne] at h ih
      exact ih rfl
  | vowel => cases hb

end Text.Respelled

open Text

/-! ## Numbers -/

namespace NumberLiteral

variable {t u : Text} {behind : Bool}

theorem respelled_digits (h : Respelled behind t u) :
    runLength isDigitChar t = runLength isDigitChar u := h.runLength_eq (by decide)

theorem respelled_exponentLength (h : Respelled false t u) :
    exponentLength t = exponentLength u := by
  cases h with
  | nil => rfl
  | same e h =>
    cases he : e == 'e' || e == 'E' with
    | false => rw [exponentLength_of_other he, exponentLength_of_other he]
    | true =>
      have hR : (e == 'R') = false := beq_eq_false_iff_ne.2 (by rintro rfl; cases he)
      rw [hR] at h
      cases h with
      | nil => rfl
      | same c h =>
        cases hc : c == '+' || c == '-' with
        | true => rw [exponentLength_of_sign he hc, exponentLength_of_sign he hc, respelled_digits h]
        | false =>
          have hdigits : Respelled false (c :: _) (c :: _) := .same c h
          rw [exponentLength_of_digit he hc, exponentLength_of_digit he hc, respelled_digits hdigits]

theorem respelled_imaginaryLength (h : Respelled behind t u) :
    imaginaryLength t = imaginaryLength u := by
  cases h <;> rfl

theorem respelled_tailLength (h : Respelled false t u) : tailLength t = tailLength u := by
  obtain ⟨_, hdrop⟩ := h.drop (exponentLength t)
  rw [tailLength, tailLength, ← respelled_exponentLength h, respelled_imaginaryLength hdrop]

/-- What is measured behind digits. -/
theorem respelled_tail {f : Text → Nat} (h : Respelled false t u) (hf : ∀ {t u : Text},
    Respelled false t u → f t = f u) :
    runLength isDigitChar t + f (t.drop (runLength isDigitChar t)) =
      runLength isDigitChar u + f (u.drop (runLength isDigitChar u)) := by
  rw [hf (h.drop_run (by decide) (by decide)), respelled_digits h]

theorem respelled_fractionLength (h : Respelled false t u) :
    fractionLength t = fractionLength u ∧
      Respelled false (t.drop (fractionLength t)) (u.drop (fractionLength u)) := by
  cases h with
  | nil => exact ⟨rfl, .nil⟩
  | same c h =>
    by_cases hc : c = '.'
    · subst hc
      have hrun := respelled_digits h
      exact ⟨congrArg (· + 1) hrun, h.drop_run (by decide) (by decide)⟩
    · rw [fractionLength_of_other hc, fractionLength_of_other hc]
      exact ⟨rfl, .same c h⟩

theorem respelled_decimalLength (h : Respelled false t u) : decimalLength t = decimalLength u := by
  obtain ⟨hlen, hrest⟩ :=
    respelled_fractionLength (h.drop_run (p := isDigitChar) (by decide) (by decide))
  have htail := respelled_tailLength hrest
  rw [List.drop_drop, List.drop_drop] at htail
  simp only [decimalLength]
  rw [← htail, ← hlen, respelled_digits h]

theorem respelled_pointedLength (h : Respelled false t u) : pointedLength t = pointedLength u := by
  cases h with
  | nil => rfl
  | @same _ t u c h =>
    cases hc : isAsciiDigit c with
    | false => simp [pointedLength, hc]
    | true =>
      have hR : (c == 'R') = false := beq_eq_false_iff_ne.2 (by rintro rfl; cases hc)
      rw [hR] at h
      simp only [pointedLength, hc, if_true, Nat.add_sub_cancel]
      have htail := respelled_tailLength (h.drop_run (p := isDigitChar) (by decide) (by decide))
      rw [htail, respelled_digits h]

theorem respelled_basedLength (h : Respelled false t u) : basedLength t = basedLength u := by
  cases h with
  | nil => rfl
  | same base h =>
    simp only [basedLength]
    split
    · rename_i isDigit hbase
      have hboth : isDigit 'A' = isDigit 'E' := by
        unfold baseDigit? at hbase
        split at hbase
        · cases hbase; decide
        · split at hbase
          · cases hbase; decide
          · split at hbase <;> cases hbase
            decide
      rw [h.runLength_eq hboth]
    · rfl

theorem respelled_lengthAfter {c : Char} (hc : isAsciiDigit c = true) (h : Respelled (c == 'R') t u) :
    lengthAfter c t = lengthAfter c u := by
  have hR : (c == 'R') = false := beq_eq_false_iff_ne.2 (by rintro rfl; cases hc)
  rw [hR] at h
  rw [lengthAfter, lengthAfter, respelled_decimalLength h, respelled_basedLength h]

end NumberLiteral

/-! ## Strings -/

namespace StringLiteral

variable {t u : Text} {behind : Bool} {q : Char} {marks rest : Text}

/-- The two texts have the same characters that are neither of the two letters in front. -/
theorem Respelled.isPrefixOf_eq {p : Text} (hp : ∀ c ∈ p, c ≠ 'A' ∧ c ≠ 'E') (h : Respelled behind t u) :
    p.isPrefixOf t = p.isPrefixOf u := by
  induction p generalizing behind t u with
  | nil => rfl
  | cons c p ih =>
    obtain ⟨⟨hA, hE⟩, hp⟩ := List.forall_mem_cons.1 hp
    cases h with
    | nil => rfl
    | same d h => rw [List.isPrefixOf_cons_cons, List.isPrefixOf_cons_cons, ih hp h]
    | vowel =>
      rw [List.isPrefixOf_cons_cons, List.isPrefixOf_cons_cons, beq_eq_false_iff_ne.2 hA,
        beq_eq_false_iff_ne.2 hE]
      rfl

theorem respelled_shortBody (hq : isQuote q = true) (h : Respelled behind t u) :
    shortBody q t = shortBody q u := by
  induction hlen : t.length using Nat.strongRecOn generalizing t u behind with
  | ind _ ih =>
  subst hlen
  have hletters : q ≠ 'A' ∧ q ≠ 'E' := by rcases isQuote_iff.1 hq with rfl | rfl <;> decide
  cases h with
  | nil => rfl
  | @vowel t u h =>
    have hA : ('A' == q) = false := beq_eq_false_iff_ne.2 hletters.1.symm
    have hE : ('E' == q) = false := beq_eq_false_iff_ne.2 hletters.2.symm
    have hrest := ih t.length (by simp) h rfl
    simp [shortBody_cons, hA, hE, hrest]
  | @same _ t u c h =>
    by_cases hc : c = '\\'
    · subst hc
      generalize ('\\' == 'R') = b at h
      cases h with
      | nil => rfl
      | same d h => rw [shortBody_escape, shortBody_escape, ih _ (by simp only [List.length_cons]; omega) h rfl]
      | vowel h => rw [shortBody_escape, shortBody_escape, ih _ (by simp only [List.length_cons]; omega) h rfl]
    · rw [shortBody_cons hc, shortBody_cons hc, ih t.length (by simp) h rfl]

theorem respelled_longBody (hq : isQuote q = true) (h : Respelled behind t u) :
    longBody q t = longBody q u := by
  induction hlen : t.length using Nat.strongRecOn generalizing t u behind with
  | ind _ ih =>
  subst hlen
  have hletters : q ≠ 'A' ∧ q ≠ 'E' := by rcases isQuote_iff.1 hq with rfl | rfl <;> decide
  cases h with
  | nil => rfl
  | @vowel t u h =>
    have hrest := ih t.length (by simp) h rfl
    rw [longBody_cons (by decide) hletters.1.symm, longBody_cons (by decide) hletters.2.symm, hrest]
  | @same _ t u c h =>
    by_cases hc : c = '\\'
    · subst hc
      generalize ('\\' == 'R') = b at h
      cases h with
      | nil => rfl
      | same d h => rw [longBody_escape, longBody_escape, ih _ (by simp only [List.length_cons]; omega) h rfl]
      | vowel h => rw [longBody_escape, longBody_escape, ih _ (by simp only [List.length_cons]; omega) h rfl]
    by_cases hcq : c = q
    · subst hcq
      have hpre : [c, c].isPrefixOf t = [c, c].isPrefixOf u :=
        Respelled.isPrefixOf_eq (by simp [hletters]) h
      have hrest := ih t.length (by simp) h rfl
      have hopen (v : Text) : longBody c (c :: v) = if [c, c].isPrefixOf v then (0, true) else
          if longBody c v = (0, false) then (0, false)
          else ((longBody c v).1 + 1, (longBody c v).2) := by
        rw [longBody, if_pos (beq_self_eq_true c)]
        · split
          · rfl
          · split
            · rename_i hbody
              rw [if_pos hbody]
            · rename_i hother hbody
              rw [hbody, if_neg fun heq => hother (congrArg Prod.fst heq) (congrArg Prod.snd heq)]
        · exact fun heq => absurd heq hc
        · exact fun _ _ heq => absurd heq hc
      rw [hopen, hopen, hpre, hrest]
    · rw [longBody_cons hc hcq, longBody_cons hc hcq, ih t.length (by simp) h rfl]

theorem respelled_measure (hq : isQuote q = true) (marks : Nat) (h : Respelled behind t u) :
    measure marks q t = measure marks q u := by
  have hletters : q ≠ 'A' ∧ q ≠ 'E' := by rcases isQuote_iff.1 hq with rfl | rfl <;> decide
  have hslash : t = ['\\'] ↔ u = ['\\'] := by
    constructor
    · rintro rfl
      cases h with
      | same _ h =>
        generalize ('\\' == 'R') = b at h
        cases h
        rfl
    · rintro rfl
      cases h with
      | same _ h =>
        generalize ('\\' == 'R') = b at h
        cases h
        rfl
  obtain ⟨_, hdrop⟩ := h.drop 2
  simp only [measure, Respelled.isPrefixOf_eq (p := [q, q]) (by simp [hletters]) h,
    respelled_longBody hq hdrop, respelled_shortBody hq h, hslash]

/-- The two texts open the same literals. -/
theorem respelled_opening? (h : Respelled behind t u) {m : Nat} :
    (∃ rest, opening? t = some (m, q, rest)) ↔ ∃ rest, opening? u = some (m, q, rest) := by
  have hletters : ∀ x ∈ openers, x ≠ 'A' ∧ x ≠ 'E' := by decide
  have hopens (v : Text) : (∃ rest, opening? v = some (m, q, rest)) ↔
      ∃ marks, Opens q marks ∧ marks.length = m ∧ (marks ++ [q]).isPrefixOf v = true := by
    simp only [opening?_iff, List.isPrefixOf_iff_prefix]
    constructor
    · rintro ⟨rest, marks, hmarks, hlen, rfl⟩
      exact ⟨marks, hmarks, hlen, rest, by simp⟩
    · rintro ⟨marks, hmarks, hlen, rest, rfl⟩
      exact ⟨rest, marks, hmarks, hlen, List.append_assoc ..⟩
  rw [hopens, hopens]
  refine exists_congr fun marks => and_congr_right fun hmarks => and_congr_right fun _ => ?_
  rw [Respelled.isPrefixOf_eq (fun x hx => hletters x (hmarks.mem_openers x hx)) h]

/-- The literals that the two texts open have the same lengths. -/
theorem respelled_find? (h : Respelled behind t u) : find? t = find? u := by
  cases ht : opening? t with
  | none =>
    cases hu : opening? u with
    | none => rw [find?, find?, ht, hu]
    | some opening =>
      obtain ⟨rest, hrest⟩ := (respelled_opening? h).2 ⟨_, hu⟩
      rw [ht] at hrest
      cases hrest
  | some opening =>
    obtain ⟨m, q, rest⟩ := opening
    obtain ⟨rest', hu⟩ := (respelled_opening? h).1 ⟨rest, ht⟩
    have hdrop (v rest : Text) (hv : opening? v = some (m, q, rest)) :
        isQuote q = true ∧ v.drop (m + 1) = rest := by
      obtain ⟨marks, hmarks, rfl, rfl⟩ := opening?_iff.1 hv
      refine ⟨hmarks.isQuote, ?_⟩
      rw [← List.singleton_append, ← List.append_assoc]
      exact List.drop_left' (by simp)
    obtain ⟨hq, rfl⟩ := hdrop t rest ht
    obtain ⟨-, rfl⟩ := hdrop u rest' hu
    obtain ⟨_, hrest⟩ := h.drop (m + 1)
    rw [find?, find?, ht, hu]
    exact congrArg some (respelled_measure hq m hrest)

end StringLiteral

/-! ## Words and operators -/

/-- Respelled texts are the same, or they hold the two letters. -/
theorem Text.Respelled.eq_or {behind : Bool} {t u : Text} (h : Respelled behind t u) :
    t = u ∨ 'A' ∈ t ∧ 'E' ∈ u := by
  induction h with
  | nil => exact .inl rfl
  | same c _ ih => exact ih.imp (congrArg (c :: ·)) (.imp (List.mem_cons_of_mem c) (List.mem_cons_of_mem c))
  | vowel => exact .inr ⟨List.mem_cons_self, List.mem_cons_self⟩

/-- No reserved word holds one of the two letters. -/
theorem Kind.ofKeyword?_of_mem {w : Text} (h : 'A' ∈ w ∨ 'E' ∈ w) : Kind.ofKeyword? w = none := by
  have hall : ∀ entry ∈ Kind.keywords, 'A' ∉ entry.1 ∧ 'E' ∉ entry.1 := by decide
  refine List.lookup_eq_none_iff.2 fun entry hentry => bne_iff_ne.2 fun heq => ?_
  rw [heq] at h
  exact h.elim (hall entry hentry).1 (hall entry hentry).2

/-- No operator holds one of the two letters. -/
theorem operator?_respelled {t u : Text} {behind : Bool} (h : Respelled behind t u) :
    operator? t = operator? u := by
  have hall : ∀ entry ∈ operators, ∀ c ∈ entry.1, c ≠ 'A' ∧ c ≠ 'E' := by decide
  have hsame : ∀ entry ∈ operators, entry.1.isPrefixOf t = entry.1.isPrefixOf u :=
    fun entry hentry => StringLiteral.Respelled.isPrefixOf_eq (hall entry hentry) h
  rw [operator?, operator?, ← List.head?_filter, ← List.head?_filter, List.filter_congr hsame]

/-- The two texts begin with tokens of the same kind and length. -/
theorem munch_respelled {c d : Char} {cs ds : Text} {behind : Bool}
    (h : Respelled behind (c :: cs) (d :: ds)) : munch c cs = munch d ds := by
  have hfind := StringLiteral.respelled_find? h
  have hoperator := operator?_respelled h
  have hword : munchWord c cs = munchWord d ds := by
    obtain ⟨_, hrest⟩ := h.drop 1
    have hrun := hrest.runLength_eq (p := isIdentifierContinue) (by decide)
    have htake := h.take (runLength isIdentifierContinue cs + 1)
    rw [List.drop_one, List.drop_one, List.tail_cons, List.tail_cons] at hrun
    rw [List.take_succ_cons, List.take_succ_cons] at htake
    rw [munchWord, munchWord, ← hrun]
    rcases htake.eq_or with heq | ⟨hA, hE⟩
    · rw [heq]
    · rw [Kind.ofKeyword?_of_mem (.inl hA), Kind.ofKeyword?_of_mem (.inr hE)]
  cases h with
  | vowel h =>
    have hnone (v : Text) (x : Char) (hx : x = 'A' ∨ x = 'E') : munch x v = munchWord x v := by
      have hfind : StringLiteral.find? (x :: v) = none := by
        rcases hx with rfl | rfl <;>
          exact Option.map_eq_none_iff.2 (opening?_of_not_isMark (by decide) (by decide))
      have hstart : isIdentifierStart x = true := by rcases hx with rfl | rfl <;> decide
      rcases hx with rfl | rfl <;> simp [munch, hfind, hstart, isSpace]
    rw [hnone cs 'A' (.inl rfl), hnone ds 'E' (.inr rfl), hword]
  | same _ h =>
    have hfeed : ['\n'].isPrefixOf cs = ['\n'].isPrefixOf ds :=
      StringLiteral.Respelled.isPrefixOf_eq (by decide) h
    by_cases hreturn : c = '\r'
    · subst hreturn
      rw [munch_return, munch_return, hfeed]
    by_cases hslash : c = '\\'
    · subst hslash
      have hboth : ['\r', '\n'].isPrefixOf cs = ['\r', '\n'].isPrefixOf ds :=
        StringLiteral.Respelled.isPrefixOf_eq (by decide) h
      rw [munch_backslash, munch_backslash, hfeed, hboth]
    have hpoint (hc : (c == '.') = true) :
        NumberLiteral.pointedLength cs = NumberLiteral.pointedLength ds := by
      obtain rfl : c = '.' := by simpa using hc
      exact NumberLiteral.respelled_pointedLength h
    have hnumber (hc : isAsciiDigit c = true) := NumberLiteral.respelled_lengthAfter hc h
    simp only [munch, beq_eq_false_iff_ne.2 hreturn, beq_eq_false_iff_ne.2 hslash,
      Bool.false_eq_true, if_false, h.runLength_eq (p := isSpace) (by decide),
      h.runLength_eq (p := fun c => c != '\r' && c != '\n') (by decide), hfind, hword, hoperator]
    cases hdigit : isAsciiDigit c with
    | true => simp only [hnumber hdigit, if_true]
    | false =>
    cases hc : c == '.' with
    | true => simp only [hpoint hc, Bool.false_eq_true, if_false]
    | false => rfl

/-! ## Tokens -/

/-- Tokens of which the one is respelled in the other. -/
structure Token.Respelled (k l : Token) : Prop where
  kind : k.kind = l.kind
  text : ∃ behind, Text.Respelled behind k.text l.text

theorem Token.Respelled.like {k l : Token} (h : k.Respelled l) : k.Like Token.kind l where
  content := h.kind
  column _ column := by
    obtain ⟨_, htext⟩ := h.text
    exact htext.columnAfter_eq column

/-- The two texts have tokens of the same kinds, each of which is respelled. -/
theorem tokenizeFrom_respelled {t u : Text} (o : Nat) {behind : Bool} (h : Respelled behind t u) :
    List.Forall₂ Token.Respelled (tokenizeFrom o t) (tokenizeFrom o u) := by
  fun_induction tokenizeFrom o t generalizing u behind with
  | case1 =>
    cases h
    simp [tokenizeFrom]
  | case2 o c cs kind n hmunch text =>
    rename_i ih
    obtain ⟨d, ds, rfl⟩ : ∃ d ds, u = d :: ds := by cases h <;> exact ⟨_, _, rfl⟩
    have htext := h.take (n + 1)
    obtain ⟨_, hrest⟩ := h.drop (n + 1)
    rw [List.take_succ_cons, List.take_succ_cons] at htext
    rw [List.drop_succ_cons, List.drop_succ_cons] at hrest
    rw [tokenizeFrom, ← munch_respelled h, hmunch]
    have hbytes : Text.bytes (d :: ds.take n) = Text.bytes (c :: cs.take n) := htext.bytes_eq.symm
    simp only [hbytes]
    exact .cons ⟨rfl, _, htext⟩ (ih hrest)

/-- A text and a respelled one have trees of the same outline, and both are programs or
neither. -/
theorem outline_parse_respelled {t u : Text} {behind : Bool} (h : Respelled behind t u) :
    (parse t).tree.outline Token.kind = (parse u).tree.outline Token.kind ∧
      (parse t).ok = (parse u).ok := by
  have hlike : List.Forall₂ (Token.Like Token.kind) (tokenize t) (tokenize u) :=
    (tokenizeFrom_respelled 0 h).imp fun _ _ => Token.Respelled.like
  exact outline_parse_like id
    (Layout.Level.run id (congrArg Word.kind) (.refl (by simp [Layout.start])) hlike ..)

namespace DeprecatedNames

/-- The default names that are renamed. -/
def defaults : Renaming := kept ({} : Vocabulary).deprecatedNames

/-- Renaming the default names respells a text. -/
theorem respelled_rename (t : Text) : Respelled false t (rename defaults t) := by
  have hnames : defaults = [("GRAY".toList, "GREY".toList)] := by decide +kernel
  have hold : "GRAY".toList ≠ [] := by decide
  obtain ⟨s, segments, ht, hrenamed, -⟩ := exists_segments hold "GREY".toList t
  have hone : rename defaults t = t.replaceAll "GRAY".toList "GREY".toList := by rw [hnames]; rfl
  rw [hone, hrenamed, ht]
  generalize false = behind
  clear ht hrenamed
  induction segments generalizing s behind with
  | nil => simpa [joinWith] using Respelled.refl behind s
  | cons s' segments ih =>
    rw [joinWith_cons_cons, joinWith_cons_cons, List.append_assoc, List.append_assoc]
    refine (Respelled.refl behind s).append fun behind => ?_
    exact .same 'G' (.same 'R' (.vowel (.same 'Y' (ih s' _))))

/-- Renaming the default names neither breaks a program nor makes one. -/
theorem ok_rename (t : Text) : (parse (rename defaults t)).ok = (parse t).ok :=
  (outline_parse_respelled (respelled_rename t)).2.symm

end DeprecatedNames

end SceneGate
