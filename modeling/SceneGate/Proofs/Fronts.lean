/-
Words in front of a name that is called. Names are told from one another by their letters
alone, so a word that ends in front of one name and a bracket ends in front of any other, if
no number is written with its last character (`Word.Cut.of_calls`): an exponent would need a
digit, marks in front of a string a quote, and an operator goes on with no letter.
-/
import SceneGate.Proofs.Stops

namespace SceneGate

/-- A name and an opening bracket begin the text. The name does not begin with an underscore,
which could stand among digits. -/
def Text.BeginsCall (t : Text) : Prop :=
  ∃ x name u, t = x :: name ++ '(' :: u ∧ isIdentifierStart x = true ∧ x ≠ '_' ∧
    ∀ c ∈ name, isIdentifierContinue c = true

/-- No letter is a digit. -/
theorem isAsciiDigit_of_start {c : Char} (h : isIdentifierStart c = true) :
    isAsciiDigit c = false := by
  cases hdigit : isAsciiDigit c with
  | false => rfl
  | true =>
    simp only [isAsciiDigit, Bool.and_eq_true, decide_eq_true_eq] at hdigit
    have hlow : 48 ≤ c.toNat := hdigit.1
    have hhigh : c.toNat ≤ 57 := hdigit.2
    have hsmall : c.toNat < 128 := by omega
    rw [isIdentifierStart, if_pos hsmall] at h
    simp only [isAsciiLetter, Bool.or_eq_true, Bool.and_eq_true, decide_eq_true_eq,
      beq_iff_eq] at h
    rcases h with (⟨hletter, -⟩ | ⟨hletter, -⟩) | rfl
    · have : 65 ≤ c.toNat := hletter
      omega
    · have : 97 ≤ c.toNat := hletter
      omega
    · exact absurd hhigh (by decide)

namespace Text.BeginsCall

variable {e e' r u : Text} {c : Char}

theorem head (h : e.BeginsCall) :
    ∃ x u, e = x :: u ∧ isIdentifierStart x = true ∧ x ≠ '_' := by
  obtain ⟨x, name, u, rfl, hx, hne, -⟩ := h
  exact ⟨x, _, rfl, hx, hne⟩

/-- Characters that no name begins with. -/
theorem head?_ne (h : e.BeginsCall) {a : Char} (ha : isIdentifierStart a = false) :
    ∀ x ∈ e.head?, x ≠ a := by
  obtain ⟨x, u, rfl, hx, -⟩ := h.head
  rintro _ ⟨⟩ rfl
  rw [ha] at hx
  cases hx

/-- A run of a class that no letter is of ends in front of a name, and one of a class of all
letters is longer; so it tells no name from another. -/
theorem runLength_eq {p : Char → Bool} (yes : Bool)
    (hp : ∀ x, isIdentifierStart x = true → p x = yes) (h : e.BeginsCall) (h' : e'.BeginsCall)
    (hle : runLength p (r ++ e) ≤ r.length) : runLength p (r ++ e') = runLength p (r ++ e) := by
  obtain ⟨x, u, rfl, hx, -⟩ := h.head
  obtain ⟨y, v, rfl, hy, -⟩ := h'.head
  cases yes with
  | false =>
    have hends {z : Char} {w : Text} (hz : isIdentifierStart z = true) :
        runLength p (r ++ z :: w) = runLength p r := by
      refine UpToStop.runLength_append (fun c hc => ?_) r
      obtain rfl : z = c := by simpa using hc
      exact hp z hz
    rw [hends hx, hends hy]
  | true =>
    refine runLength_transfer _ (Nat.lt_of_le_of_ne hle fun heq => ?_)
    -- a run up to the name would take its first letter, too
    have hall : ∀ c ∈ r, p c = true := fun c hc => by
      have htake := mem_take_runLength (p := p) (t := r ++ x :: u) (c := c)
      rw [heq, List.take_left] at htake
      exact htake hc
    have hlong : r.length < runLength p (r ++ x :: u) := by
      rw [runLength, List.takeWhile_append_of_pos hall, List.takeWhile_cons_of_pos (hp x hx)]
      simp
    omega

/-- Marks and a quote that stand in front of a name lie in what is in front of it. -/
theorem opens_prefix {q : Char} {marks : Text} (h : e.BeginsCall)
    (hopens : StringLiteral.Opens q marks) (hpre : marks ++ [q] <+: r ++ e) :
    marks ++ [q] <+: r := by
  obtain ⟨x, name, u, rfl, hx, -, hname⟩ := h
  have hbracket : '(' ∉ marks ++ [q] := fun hmem =>
    absurd (hopens.mem_openers '(' hmem) (by decide)
  have hquote : q ∉ x :: name := fun hmem => by
    have hletter : isIdentifierContinue q = true := by
      rcases List.mem_cons.1 hmem with rfl | hmem
      · exact isIdentifierContinue_of_start hx
      · exact hname q hmem
    have hq : StringLiteral.isQuote q = true := by cases hopens <;> assumption
    rcases StringLiteral.isQuote_iff.1 hq with rfl | rfl <;> exact absurd hletter (by decide)
  rcases List.prefix_or_prefix_of_prefix hpre (List.prefix_append ..) with hshort | ⟨more, hmore⟩
  · exact hshort
  cases hlast : more.getLast? with
  | none =>
    rw [List.getLast?_eq_none_iff.1 hlast, List.append_nil] at hmore
    exact hmore ▸ List.prefix_refl _
  | some last =>
    -- the quote would be a letter of the name, or the bracket stand among the marks
    have hq : last = q := by
      have hend := congrArg List.getLast? hmore
      rw [List.getLast?_append, hlast, List.getLast?_concat] at hend
      exact Option.some.inj hend
    have hmem : q ∈ more := hq ▸ List.mem_of_getLast? hlast
    rw [← hmore, List.prefix_append_right_inj] at hpre
    rcases List.prefix_or_prefix_of_prefix hpre (List.prefix_append (x :: name) ('(' :: u))
      with hin | ⟨rest, rfl⟩
    · exact absurd (hin.subset hmem) hquote
    rw [List.prefix_append_right_inj] at hpre
    cases rest with
    | nil => exact absurd (by simpa using hmem) hquote
    | cons b rest =>
      obtain ⟨rfl, -⟩ := List.cons_prefix_cons.1 hpre
      exact absurd (by rw [← hmore]; simp) hbracket

theorem head?_isQuote (h : e.BeginsCall) : ∀ x ∈ e.head?, StringLiteral.isQuote x = false := by
  intro x hx
  have hdouble := h.head?_ne (a := '"') (by decide) x hx
  have hsingle := h.head?_ne (a := '\'') (by decide) x hx
  simp [StringLiteral.isQuote, hdouble, hsingle]

/-- No literal that is open in front of a name goes on with a backslash alone. -/
theorem find?_ne_word (h : e.BeginsCall) (l : Nat) :
    StringLiteral.find? (u ++ e) ≠ some (.word, l) := by
  obtain ⟨x, name, v, rfl, -⟩ := h
  intro hfind
  obtain ⟨⟨m, q, rest⟩, hopen, hmeasure⟩ := Option.map_eq_some_iff.1 hfind
  obtain ⟨marks, hopens, rfl, htext⟩ := StringLiteral.opening?_iff.1 hopen
  obtain ⟨-, rfl, -⟩ := StringLiteral.measure_eq_word.1
    (show StringLiteral.measure marks.length q rest = (.word, l) from hmeasure)
  have hmem : '(' ∈ (marks ++ [q]) ++ ['\\'] := by
    have hall : '(' ∈ u ++ (x :: name ++ '(' :: v) := by simp
    rw [htext] at hall
    simpa using hall
  rcases List.mem_append.1 hmem with hmem | hmem
  · exact absurd (hopens.mem_openers '(' hmem) (by decide)
  · exact absurd hmem (by decide)

/-- A number that ends in front of a character that no number is written with. -/
theorem upToStop_eq {f : Text → Nat} (hf : UpToStop f) (h : e.BeginsCall) (h' : e'.BeginsCall)
    (hlast : ∃ p ∈ r.getLast?, NumberLiteral.mayHold p = false) : f (r ++ e') = f (r ++ e) := by
  obtain ⟨p, hp, hmay⟩ := hlast
  obtain ⟨s, rfl⟩ := List.getLast?_eq_some_iff.1 hp
  have hends {e : Text} (h : e.BeginsCall) : Text.EndsNumber (p :: e) := by
    obtain ⟨x, u, rfl, hx, hne⟩ := h.head
    rintro _ _ ⟨⟩
    refine ⟨hmay, fun _ d hd => ?_⟩
    obtain rfl : x = d := by simpa using hd
    rw [NumberLiteral.isDigitChar, isAsciiDigit_of_start hx, Bool.false_or]
    exact beq_eq_false_iff_ne.2 hne
  rw [List.append_assoc, List.append_assoc, List.singleton_append, List.singleton_append,
    hf.eq (hends h), hf.eq (hends h')]

/-- Names cut off what stands in front of them alike, if no number is written with the last
character there. -/
theorem cutsAlike (h : e.BeginsCall) (h' : e'.BeginsCall)
    (hlast : ∀ p ∈ (c :: r).getLast?, NumberLiteral.mayHold p = false) : Text.CutsAlike c r e e' := by
  have hother {a : Char} (ha : isIdentifierStart a = false) {x : Char}
      (hx : isIdentifierStart x = true) : x ≠ a := by
    rintro rfl
    rw [ha] at hx
    cases hx
  have hnumber {f : Text → Nat} (hf : UpToStop f) (hc : NumberLiteral.mayHold c = true) :
      f (r ++ e') = f (r ++ e) := by
    refine upToStop_eq hf h h' ?_
    rcases List.eq_nil_or_concat' r with rfl | ⟨s, p, rfl⟩
    · rw [hlast c rfl] at hc
      cases hc
    · exact ⟨p, by simp, hlast p (by simp [List.getLast?_cons])⟩
  have hoperator {e : Text} (h : e.BeginsCall) : operator? (c :: (r ++ e)) = operator? (c :: r) := by
    have hall : ∀ entry ∈ operators, ∀ x ∈ entry.1.tail, isIdentifierStart x = false := by
      decide +kernel
    obtain ⟨x, u, rfl, hx, -⟩ := h.head
    refine operator?_append ?_
    rintro _ ⟨⟩ entry hentry hmem
    exact hother (hall entry hentry x hmem) hx rfl
  exact {
    space := fun _ => runLength_eq false (fun x hx => by
      simp [isSpace, hother (a := ' ') (by decide) hx, hother (a := '\t') (by decide) hx,
        hother (a := '\x0c') (by decide) hx]) h h'
    comment := fun _ => runLength_eq true (fun x hx => by
      simp [hother (a := '\r') (by decide) hx, hother (a := '\n') (by decide) hx]) h h'
    closed := fun l hl hfind =>
      StringLiteral.find?_closed h.head?_isQuote h'.head?_isQuote hfind hl
    notWord := h.find?_ne_word
    none := StringLiteral.find?_none_of h'.opens_prefix
    word := runLength_eq true (fun x => isIdentifierContinue_of_start) h h'
    number := fun hc => hnumber (NumberLiteral.upToStop_lengthAfter c)
      (by simp [NumberLiteral.mayHold, hc])
    pointed := fun hc => hnumber NumberLiteral.upToStop_pointedLength (by rw [hc]; decide)
    operator := by
      rw [List.cons_append, List.cons_append, hoperator h, hoperator h'] }

end Text.BeginsCall

namespace Word

variable {w : Word} {ws : List Word} {r e e' : Text}

/-- A word that is cut off in front of a name that is called is cut off in front of any other. -/
theorem Cut.of_calls (h : w.Cut (r ++ e)) (he : e.BeginsCall) (he' : e'.BeginsCall)
    (hw : w.kind ≠ .error) (hlast : ∀ p ∈ (w.text ++ r).getLast?, NumberLiteral.mayHold p = false) :
    w.Cut (r ++ e') := by
  obtain ⟨c, cs, htext, hmunch⟩ := h
  rw [htext, List.cons_append] at hlast
  refine ⟨c, cs, htext, ?_⟩
  rw [← List.append_assoc] at hmunch ⊢
  rw [← hmunch]
  refine munch_cutsAlike (he.cutsAlike he' hlast) ?_ ?_
  · rw [hmunch]
    simp
  · rw [hmunch]
    exact hw

end Word

end SceneGate
