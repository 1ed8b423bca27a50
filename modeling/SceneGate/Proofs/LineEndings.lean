/-
Line ends with carriage returns. Where a line ends, in a blank line, behind a backslash
and in a string between three quotes a carriage return may stand in front of the line
feed. But in a string between single quotes a backslash takes only the carriage return
with it, and the line feed ends the string. So a text is a program with the one line ends
if it is one with the others, provided that no such string goes on over a line
(`ok_withReturns`).
-/
import SceneGate.Proofs.LikeLayouts
import SceneGate.Proofs.LineFeeds

namespace SceneGate

namespace Text

/-- The text with a carriage return in front of every line feed. -/
def withReturns (t : Text) : Text := t.flatMap fun c => if c = '\n' then ['\r', '\n'] else [c]

variable {c : Char} {t u : Text}

@[simp] theorem withReturns_nil : withReturns [] = [] := rfl

@[simp] theorem withReturns_feed (t : Text) :
    withReturns ('\n' :: t) = '\r' :: '\n' :: withReturns t := rfl

theorem withReturns_cons (hc : c ≠ '\n') (t : Text) :
    withReturns (c :: t) = c :: withReturns t := by simp [withReturns, hc]

@[simp] theorem withReturns_append (t u : Text) :
    withReturns (t ++ u) = withReturns t ++ withReturns u := List.flatMap_append

theorem withReturns_of_notMem (h : '\n' ∉ t) : withReturns t = t := by
  induction t with
  | nil => rfl
  | cons c t ih =>
    simp only [List.mem_cons, not_or] at h
    rw [withReturns_cons (Ne.symm h.1), ih h.2]

theorem endsLine_withReturns (h : t.AtFeed) : t.withReturns.EndsLine := by
  rcases h.cases with rfl | ⟨u, rfl⟩ <;> simp [EndsLine]

/-- A text is cut in front of its first line feed. -/
theorem exists_atFeed (t : Text) : ∃ r e, t = r ++ e ∧ '\n' ∉ r ∧ e.AtFeed := by
  refine ⟨t.takeWhile (· != '\n'), t.dropWhile (· != '\n'), List.takeWhile_append_dropWhile.symm,
    fun h => ?_, fun x hx => ?_⟩
  · simpa using List.all_eq_true.1 List.all_takeWhile _ h
  · have := List.head?_dropWhile_not (· != '\n') t
    rw [Option.mem_def.1 hx] at this
    simpa using this

end Text

open Text

/-! ## Strings -/

namespace StringLiteral

variable {q : Char} {r u w : Text} {n m : Nat}

theorem isPrefixOf_withReturns {p : Text} (hp : ∀ c ∈ p, c ≠ '\n' ∧ c ≠ '\r') :
    p.isPrefixOf u.withReturns = p.isPrefixOf u := by
  induction p generalizing u with
  | nil => simp
  | cons x p ih =>
    obtain ⟨⟨hfeed, hreturn⟩, hp⟩ := List.forall_mem_cons.1 hp
    cases u with
    | nil => rfl
    | cons c u =>
      by_cases hc : c = '\n'
      · subst hc
        simp only [withReturns_feed, List.isPrefixOf_cons_cons, beq_eq_false_iff_ne.2 hfeed,
          beq_eq_false_iff_ne.2 hreturn, Bool.false_and]
      · rw [withReturns_cons hc, List.isPrefixOf_cons_cons, List.isPrefixOf_cons_cons, ih hp]

/-- A body that is closed behind some more characters. -/
theorem closed_behind {body : Nat × Bool} {k : Nat} :
    (body.1 + k, body.2) = (n, true) ↔ ∃ m, body = (m, true) ∧ n = m + k := by
  obtain ⟨m, closed⟩ := body
  constructor
  · rintro ⟨⟩
    exact ⟨m, rfl, rfl⟩
  · rintro ⟨m, ⟨⟩, rfl⟩
    rfl

/-- Characters that belong to a body between three quotes, whatever is behind them. -/
def Inside (q : Char) (x : Text) : Prop :=
  ∀ v, longBody q (x ++ v) = ((longBody q v).1 + x.length, (longBody q v).2)

theorem Inside.append {x y : Text} (hx : Inside q x) (hy : Inside q y) : Inside q (x ++ y) := by
  intro v
  rw [List.append_assoc, hx, hy, List.length_append]
  exact Prod.ext (by simp only; omega) rfl

theorem inside_escape (q c : Char) : Inside q ['\\', c] := longBody_escape q c

theorem inside_single {c : Char} (hc : c ≠ '\\') (hq : c ≠ q) : Inside q [c] :=
  longBody_cons hc hq

/-- What it means that a body between three quotes is closed in the text with carriage
returns where it is closed without them. -/
def SameClosed (q : Char) (u : Text) : Prop := ∀ n, longBody q u.withReturns = (n, true) ↔
  ∃ m, longBody q u = (m, true) ∧ n = (withReturns (u.take m)).length

theorem SameClosed.behind {x : Text} (h : SameClosed q u) (hx : Inside q x)
    (hx' : Inside q x.withReturns) : SameClosed q (x ++ u) := by
  intro n
  rw [withReturns_append, hx', hx, closed_behind]
  constructor
  · rintro ⟨k, hbody, rfl⟩
    obtain ⟨m, hclosed, rfl⟩ := (h k).1 hbody
    refine ⟨m + x.length, closed_behind.2 ⟨m, hclosed, rfl⟩, ?_⟩
    rw [Nat.add_comm m, List.take_length_add_append, withReturns_append, List.length_append,
      Nat.add_comm]
  · rintro ⟨k, hbody, rfl⟩
    obtain ⟨m, hclosed, rfl⟩ := closed_behind.1 hbody
    refine ⟨_, (h _).2 ⟨m, hclosed, rfl⟩, ?_⟩
    rw [Nat.add_comm m, List.take_length_add_append, withReturns_append, List.length_append,
      Nat.add_comm]

/-- Between three quotes it does not matter how lines end. -/
theorem longBody_withReturns (hq : isQuote q = true) (u : Text) : SameClosed q u := by
  have hslash : q ≠ '\\' := by rcases isQuote_iff.1 hq with rfl | rfl <;> decide
  have hfeed : '\n' ≠ q := by rcases isQuote_iff.1 hq with rfl | rfl <;> decide
  have hreturn : '\r' ≠ q := by rcases isQuote_iff.1 hq with rfl | rfl <;> decide
  induction hlen : u.length using Nat.strongRecOn generalizing u with
  | ind _ ih =>
  subst hlen
  rcases u with _ | ⟨c, u⟩
  · simp [SameClosed, longBody]
  by_cases hc : c = '\\'
  · subst hc
    rcases u with _ | ⟨d, u⟩
    · simp [SameClosed, longBody, withReturns]
    refine (ih u.length (by simp only [List.length_cons]; omega) u rfl).behind
      (inside_escape q d) ?_
    by_cases hd : d = '\n'
    · subst hd
      exact (inside_escape q '\r').append (inside_single (by decide) hfeed)
    · rw [withReturns_of_notMem (by simp [Ne.symm hd])]
      exact inside_escape q d
  have hrest := ih u.length (by simp) u rfl
  by_cases hcq : c = q
  · subst hcq
    have hquotes : ∀ x ∈ [c, c], x ≠ '\n' ∧ x ≠ '\r' := by simp [Ne.symm hfeed, Ne.symm hreturn]
    intro n
    rw [withReturns_cons (Ne.symm hfeed), longBody_quote hslash, isPrefixOf_withReturns hquotes]
    have hlength (k : Nat) : (withReturns ((c :: u).take (k + 1))).length =
        (withReturns (u.take k)).length + 1 := by
      rw [List.take_succ_cons, withReturns_cons (Ne.symm hfeed), List.length_cons]
    constructor
    · rintro (⟨hpre, rfl⟩ | ⟨hpre, k, hbody, rfl⟩)
      · exact ⟨0, (longBody_quote hslash).2 (.inl ⟨hpre, rfl⟩), rfl⟩
      · obtain ⟨m, hclosed, rfl⟩ := (hrest k).1 hbody
        exact ⟨m + 1, (longBody_quote hslash).2 (.inr ⟨hpre, m, hclosed, rfl⟩), (hlength m).symm⟩
    · rintro ⟨k, hbody, rfl⟩
      rcases (longBody_quote hslash).1 hbody with ⟨hpre, rfl⟩ | ⟨hpre, m, hclosed, rfl⟩
      · exact .inl ⟨hpre, rfl⟩
      · exact .inr ⟨hpre, _, (hrest _).2 ⟨m, hclosed, rfl⟩, hlength m⟩
  · refine hrest.behind (inside_single hc hcq) ?_
    by_cases hd : c = '\n'
    · subst hd
      exact (inside_single (by decide) hreturn).append (inside_single (by decide) hfeed)
    · rw [withReturns_of_notMem (by simp [Ne.symm hd])]
      exact inside_single hc hcq

/-- Between single quotes a string does not go on behind a carriage return and a line feed. -/
theorem shortBody_withReturns (hq : isQuote q = true) :
    shortBody q u.withReturns = (n, true) ↔ shortBody q u = (n, true) ∧ '\n' ∉ u.take n := by
  have hfeed : ('\n' == q) = false := by rcases isQuote_iff.1 hq with rfl | rfl <;> rfl
  have hreturn : ('\r' == q) = false := by rcases isQuote_iff.1 hq with rfl | rfl <;> rfl
  have hstop (v : Text) : shortBody q ('\n' :: v) = (0, false) := by
    rw [shortBody_cons (by decide), hfeed]
    rfl
  induction hlen : u.length using Nat.strongRecOn generalizing u n with
  | ind _ ih =>
  subst hlen
  rcases u with _ | ⟨c, u⟩
  · simp [shortBody]
  by_cases hc : c = '\\'
  · subst hc
    rcases u with _ | ⟨d, u⟩
    · simp [shortBody, withReturns]
    rw [withReturns_cons (by decide)]
    by_cases hd : d = '\n'
    · -- the backslash takes only the carriage return with it
      subst hd
      rw [withReturns_feed, shortBody_escape, hstop, shortBody_escape]
      constructor
      · rintro ⟨⟩
      · rintro ⟨hbody, hnot⟩
        obtain ⟨rfl, -⟩ := Prod.mk.inj hbody
        simp at hnot
    · have hrest (m : Nat) := ih u.length (by simp only [List.length_cons]; omega) (n := m) rfl
      have htake (m : Nat) : '\n' ∉ ('\\' :: d :: u).take (m + 2) ↔ '\n' ∉ u.take m := by
        simp [Ne.symm hd]
      rw [withReturns_cons hd, shortBody_escape, shortBody_escape, closed_behind, closed_behind]
      constructor
      · rintro ⟨m, hbody, rfl⟩
        obtain ⟨hbody, hnot⟩ := (hrest m).1 hbody
        exact ⟨⟨m, hbody, rfl⟩, (htake m).2 hnot⟩
      · rintro ⟨⟨m, hbody, rfl⟩, hnot⟩
        exact ⟨m, (hrest m).2 ⟨hbody, (htake m).1 hnot⟩, rfl⟩
  by_cases hfeed' : c = '\n'
  · subst hfeed'
    rw [withReturns_feed, shortBody_cons (by decide), hstop, hstop, hreturn]
    simp
  · rw [withReturns_cons hfeed', shortBody_cons hc, shortBody_cons hc]
    split
    · constructor
      · rintro ⟨⟩
        exact ⟨rfl, by simp⟩
      · exact fun h => h.1
    rw [if_neg (by simpa using hfeed'), if_neg (by simpa using hfeed'), closed_behind, closed_behind]
    have hrest (m : Nat) := ih u.length (by simp) (n := m) rfl
    have htake (m : Nat) : '\n' ∉ (c :: u).take (m + 1) ↔ '\n' ∉ u.take m := by
      simp [Ne.symm hfeed']
    constructor
    · rintro ⟨m, hbody, rfl⟩
      obtain ⟨hbody, hnot⟩ := (hrest m).1 hbody
      exact ⟨⟨m, hbody, rfl⟩, (htake m).2 hnot⟩
    · rintro ⟨⟨m, hbody, rfl⟩, hnot⟩
      exact ⟨m, (hrest m).2 ⟨hbody, (htake m).1 hnot⟩, rfl⟩

theorem length_of_closed (h : measure m q u = (.closed, n)) : ∃ k, n = m + 1 + k := by
  rcases measure_eq_closed.1 h with ⟨v, k, -, -, rfl⟩ | ⟨-, k, -, rfl⟩
  · exact ⟨k + 5, by omega⟩
  · exact ⟨k + 1, by omega⟩

theorem withReturns_eq_slash : u.withReturns = ['\\'] ↔ u = ['\\'] := by
  constructor
  · intro h
    rcases u with _ | ⟨c, u⟩
    · cases h
    by_cases hc : c = '\n'
    · subst hc
      cases h
    · rw [withReturns_cons hc] at h
      obtain ⟨rfl, h⟩ := List.cons.inj h
      rcases u with _ | ⟨d, u⟩
      · rfl
      · by_cases hd : d = '\n'
        · subst hd
          cases h
        · rw [withReturns_cons hd] at h
          cases h
  · rintro rfl
    rfl

/-- How long a body between three quotes is, with the quotes that are left. -/
theorem length_longBody (hq : isQuote q = true) {v : Text} (h : longBody q v = (n, true)) :
    (withReturns ((q :: q :: v).take (n + 5))).length = (withReturns (v.take n)).length + 5 := by
  have hslash : q ≠ '\\' := by rcases isQuote_iff.1 hq with rfl | rfl <;> decide
  have hfeed : q ≠ '\n' := by rcases isQuote_iff.1 hq with rfl | rfl <;> decide
  have htake : (q :: q :: v).take (n + 5) = [q, q] ++ (v.take n ++ [q, q, q]) := by
    rw [← take_longBody hslash h]
    rfl
  rw [htake]
  simp [withReturns_cons hfeed]

/-- How long a body between single quotes is, with the quote, if it lies on a line. -/
theorem length_shortBody (h : shortBody q u = (n, true)) (hline : '\n' ∉ u.take (n + 1)) :
    (withReturns (u.take (n + 1))).length = n + 1 := by
  have hle := shortBody_le q u
  simp only [h, Bool.toNat_true] at hle
  rw [withReturns_of_notMem hline, List.length_take_of_le hle]

/-- A string is a string with carriage returns, too, unless it goes on over a line between
single quotes. -/
theorem measure_withReturns (hq : isQuote q = true) : measure m q u.withReturns = (.closed, n) ↔
    ∃ k, measure m q u = (.closed, m + 1 + k) ∧ n = m + 1 + (withReturns (u.take k)).length ∧
      ([q, q].isPrefixOf (u.take k) = true ∨ '\n' ∉ u.take k) := by
  have hfeed : q ≠ '\n' := by rcases isQuote_iff.1 hq with rfl | rfl <;> decide
  have hquotes : ∀ x ∈ [q, q], x ≠ '\n' ∧ x ≠ '\r' := by
    rcases isQuote_iff.1 hq with rfl | rfl <;> decide
  cases hpre : [q, q].isPrefixOf u with
  | true =>
    obtain ⟨v, hv⟩ := List.isPrefixOf_iff_prefix.1 hpre
    obtain rfl : u = q :: q :: v := hv.symm
    have hwith : withReturns (q :: q :: v) = q :: q :: withReturns v := by
      simp [withReturns_cons hfeed]
    rw [hwith]
    constructor
    · intro h
      obtain ⟨i, hbody', rfl⟩ := measure_long.1 h
      obtain ⟨k, hbody, rfl⟩ := (longBody_withReturns hq v i).1 hbody'
      refine ⟨k + 5, measure_long.2 ⟨k, hbody, by omega⟩, ?_, .inl ?_⟩
      · rw [length_longBody hq hbody]
        omega
      · exact List.isPrefixOf_iff_prefix.2 ⟨v.take (k + 3), rfl⟩
    · rintro ⟨i, hclosed, rfl, -⟩
      obtain ⟨k, hbody, hi⟩ := measure_long.1 hclosed
      obtain rfl : i = k + 5 := by omega
      refine measure_long.2 ⟨_, (longBody_withReturns hq v _).2 ⟨k, hbody, rfl⟩, ?_⟩
      rw [length_longBody hq hbody]
      omega
  | false =>
    have hpre' : [q, q].isPrefixOf u.withReturns = false := by
      rw [isPrefixOf_withReturns hquotes, hpre]
    constructor
    · intro h
      obtain ⟨k, hbody', rfl⟩ := (measure_short hpre').1 h
      obtain ⟨hbody, hnot⟩ := (shortBody_withReturns hq).1 hbody'
      have hline : '\n' ∉ u.take (k + 1) := by
        have hclosed := take_shortBody (q := q) (t := u) (by rw [hbody])
        rw [hbody] at hclosed
        rw [hclosed]
        simp [hnot, Ne.symm hfeed]
      refine ⟨k + 1, (measure_short hpre).2 ⟨k, hbody, by omega⟩, ?_, .inr hline⟩
      rw [length_shortBody hbody hline]
      omega
    · rintro ⟨i, hclosed, rfl, hline⟩
      obtain ⟨k, hbody, hi⟩ := (measure_short hpre).1 hclosed
      obtain rfl : i = k + 1 := by omega
      have hline : '\n' ∉ u.take (k + 1) := by
        refine hline.resolve_left fun hlong => ?_
        have hfront := (List.isPrefixOf_iff_prefix.1 hlong).trans (List.take_prefix ..)
        rw [← List.isPrefixOf_iff_prefix, hpre] at hfront
        cases hfront
      have hnot : '\n' ∉ u.take k := fun hmem =>
        hline (List.mem_of_mem_take (i := k) (by rwa [List.take_take, min_eq_left (by omega)]))
      refine (measure_short hpre').2 ⟨k, (shortBody_withReturns hq).2 ⟨hbody, hnot⟩, ?_⟩
      rw [length_shortBody hbody hline]
      omega

end StringLiteral

/-! ## Tokens -/

/-- A string between single quotes that goes on over a line. -/
def Token.IsFolded (k : Token) : Prop :=
  k.kind = .string ∧ '\n' ∈ k.text ∧
    ∀ opening ∈ StringLiteral.opening? k.text,
      [opening.2.1, opening.2.1].isPrefixOf opening.2.2 = false

instance : DecidablePred Token.IsFolded := fun _ => inferInstanceAs (Decidable (_ ∧ _ ∧ _))

/-- What the lexer finds at the front of a text with carriage returns and of the text
without them. -/
structure SameFront (c : Char) (cs : Text) (c' : Char) (cs' : Text) : Prop where
  text : withReturns (c :: cs) = c' :: cs'
  error : (munch c' cs').1 ≠ .error ↔ (munch c cs).1 ≠ .error ∧
    ¬ Token.IsFolded ⟨(munch c cs).1, c :: cs.take (munch c cs).2, 0⟩
  found : (munch c' cs').1 ≠ .error → (munch c' cs').1 = (munch c cs).1 ∧
    (munch c' cs').2 + 1 = (withReturns (c :: cs.take (munch c cs).2)).length

theorem not_isFolded {q : Char} {marks v : Text} (h : StringLiteral.Opens q marks) (o : Nat) :
    ¬ Token.IsFolded ⟨.string, marks ++ q :: v, o⟩ ↔ [q, q].isPrefixOf v = true ∨ '\n' ∉ v := by
  have hopen : StringLiteral.opening? (marks ++ q :: v) = some (marks.length, q, v) :=
    StringLiteral.opening?_iff.2 ⟨marks, h, rfl, rfl⟩
  have hmem : '\n' ∈ marks ++ q :: v ↔ '\n' ∈ v := by
    have hfront : '\n' ∉ marks ++ [q] := fun hmem => h.not_stops _ hmem (by decide)
    rw [List.append_cons, List.mem_append]
    exact or_iff_right hfront
  constructor
  · intro hnot
    by_contra hboth
    rw [not_or, not_not, Bool.not_eq_true] at hboth
    refine hnot ⟨rfl, hmem.2 hboth.2, fun opening hopening => ?_⟩
    rw [hopen] at hopening
    cases hopening
    exact hboth.1
  · rintro hor ⟨-, hfeed, hshort⟩
    rcases hor with hlong | hnot
    · rw [hshort _ hopen] at hlong
      cases hlong
    · exact hnot (hmem.1 hfeed)

/-- The same token on a line. -/
theorem SameFront.of_onLine {c : Char} {cs : Text} (hc : c ≠ '\n')
    (h : munch c cs.withReturns = munch c cs) (hline : '\n' ∉ cs.take (munch c cs).2) :
    SameFront c cs c cs.withReturns where
  text := withReturns_cons hc cs
  error := by
    rw [h]
    refine ⟨fun hkind => ⟨hkind, fun hfolded => ?_⟩, fun hkind => hkind.1⟩
    rcases List.mem_cons.1 hfolded.2.1 with heq | hmem
    · exact hc heq.symm
    · exact hline hmem
  found _ := by
    refine ⟨by rw [h], ?_⟩
    rw [h, withReturns_cons hc, withReturns_of_notMem hline, List.length_cons,
      List.length_take_of_le (munch_le c cs)]

section

variable {c q : Char} {cs marks u : Text} {k n : Nat}

theorem take_opening (h : c :: cs = marks ++ q :: u) (k : Nat) :
    c :: cs.take (marks.length + 1 + k - 1) = marks ++ q :: u.take k := by
  have hlen : marks.length + 1 + k - 1 = marks.length + k := by omega
  rw [hlen, ← List.take_succ_cons, h, Nat.add_assoc, List.take_length_add_append,
    List.take_succ_cons]

/-- The same string, in front of the same quotes. -/
theorem SameFront.of_closed (hc : c ≠ '\n') (hopens : StringLiteral.Opens q marks)
    (htext : c :: cs = marks ++ q :: u) (h : munch c cs = (.string, marks.length + 1 + k - 1))
    (h' : munch c cs.withReturns = (.string, n - 1))
    (hn : n = marks.length + 1 + (withReturns (u.take k)).length)
    (hline : [q, q].isPrefixOf (u.take k) = true ∨ '\n' ∉ u.take k) :
    SameFront c cs c cs.withReturns where
  text := withReturns_cons hc cs
  error := by
    rw [h, h', take_opening htext]
    exact ⟨fun _ => ⟨by simp, (not_isFolded hopens 0).2 hline⟩, fun _ => by simp⟩
  found _ := by
    have hfront : '\n' ∉ marks ++ [q] := fun hmem => hopens.not_stops _ hmem (by decide)
    rw [h, h', take_opening htext, List.append_cons, withReturns_append,
      withReturns_of_notMem hfront]
    refine ⟨rfl, ?_⟩
    simp only [List.length_append, List.length_cons, List.length_nil]
    omega

/-- A string, or what opens like one. -/
theorem SameFront.of_opening (hc : c ≠ '\n') (hopens : StringLiteral.Opens q marks)
    (htext : c :: cs = marks ++ q :: u)
    (h : munch c cs = StringLiteral.token (StringLiteral.measure marks.length q u))
    (h' : munch c cs.withReturns =
      StringLiteral.token (StringLiteral.measure marks.length q u.withReturns)) :
    SameFront c cs c cs.withReturns := by
  rcases hmeasure' : StringLiteral.measure marks.length q u.withReturns with ⟨shape', n⟩
  cases shape' with
  | closed =>
    obtain ⟨k, hmeasure, hn, hline⟩ :=
      (StringLiteral.measure_withReturns hopens.isQuote).1 hmeasure'
    exact .of_closed hc hopens htext (by rw [h, hmeasure]; rfl) (by rw [h', hmeasure']; rfl) hn hline
  | word =>
    obtain ⟨hm, hu, rfl⟩ := StringLiteral.measure_eq_word.1 hmeasure'
    have hu := StringLiteral.withReturns_eq_slash.1 hu
    refine .of_onLine hc (by rw [h, h', hu]; rfl) fun hmem => ?_
    have hmem : '\n' ∈ c :: cs := List.mem_cons_of_mem _ (List.mem_of_mem_take hmem)
    have hfront : '\n' ∉ marks ++ [q] := fun hmem => hopens.not_stops _ hmem (by decide)
    rw [htext, hu, List.append_cons, List.mem_append] at hmem
    exact hfront (hmem.resolve_right (by decide))
  | unclosed =>
    have herror : (munch c cs.withReturns).1 = .error := by rw [h', hmeasure']; rfl
    refine ⟨withReturns_cons hc cs, ⟨fun hne => absurd herror hne, ?_⟩,
      fun hne => absurd herror hne⟩
    rintro ⟨hkind, hfolded⟩
    exfalso
    rcases hmeasure : StringLiteral.measure marks.length q u with ⟨shape, l⟩
    rw [hmeasure] at h
    cases shape with
    | closed =>
      obtain ⟨k, rfl⟩ := StringLiteral.length_of_closed hmeasure
      have hfound : munch c cs = (.string, marks.length + 1 + k - 1) := h
      rw [hfound, take_opening htext, not_isFolded hopens] at hfolded
      have := (StringLiteral.measure_withReturns hopens.isQuote).2 ⟨k, hmeasure, rfl, hfolded⟩
      rw [hmeasure'] at this
      cases this
    | word =>
      obtain ⟨hm, hu, -⟩ := StringLiteral.measure_eq_word.1 hmeasure
      have := (StringLiteral.measure_eq_word (q := q)).2
        ⟨hm, StringLiteral.withReturns_eq_slash.2 hu, rfl⟩
      rw [hmeasure'] at this
      cases this
    | unclosed =>
      rw [h] at hkind
      exact hkind rfl

end

theorem exists_sameFront {c : Char} {cs : Text} (h : '\r' ∉ c :: cs) :
    ∃ c' cs', SameFront c cs c' cs' := by
  by_cases hc : c = '\n'
  · subst hc
    have hfeed : munch '\n' cs = (.newline, 0) := rfl
    have hreturn : munch '\r' ('\n' :: cs.withReturns) = (.newline, 1) := rfl
    refine ⟨'\r', '\n' :: cs.withReturns, rfl, ?_, fun _ => ?_⟩
    · simp [hfeed, hreturn, Token.IsFolded]
    · simp [hfeed, hreturn]
  refine ⟨c, cs.withReturns, ?_⟩
  obtain ⟨hreturn, hreturns⟩ : c ≠ '\r' ∧ '\r' ∉ cs := by simpa [eq_comm] using h
  by_cases hslash : c = '\\'
  · subst hslash
    rcases cs with _ | ⟨x, cs⟩
    · exact .of_onLine hc rfl (by simp)
    by_cases hx : x = '\n'
    · subst hx
      have hfeed : munch '\\' ('\n' :: cs) = (.lineContinuation, 1) := rfl
      have hreturn : munch '\\' ('\r' :: '\n' :: withReturns cs) = (.lineContinuation, 2) := rfl
      refine ⟨rfl, ?_, fun _ => ?_⟩
      · simp [hfeed, hreturn, Token.IsFolded]
      · simp [hfeed, hreturn, withReturns_cons hc]
    · have hx' : x ≠ '\r' := by simpa [eq_comm] using fun h => hreturns (by simp [h])
      have herror (v : Text) : munch '\\' (x :: v) = (.error, 0) := by
        rw [munch_backslash]
        simp [List.isPrefixOf, Ne.symm hx, Ne.symm hx']
      refine .of_onLine hc ?_ ?_
      · rw [withReturns_cons hx, herror, herror]
      · simp [herror]
  cases hopen : StringLiteral.opening? (c :: cs) with
  | some opening =>
    obtain ⟨m, q, u⟩ := opening
    obtain ⟨marks, hopens, rfl, htext⟩ := StringLiteral.opening?_iff.1 hopen
    refine .of_opening hc hopens htext (munch_of_opening? hopen) (munch_of_opening? ?_)
    refine StringLiteral.opening?_iff.2 ⟨marks, hopens, rfl, ?_⟩
    have hfront : '\n' ∉ marks ++ [q] := fun hmem => hopens.not_stops _ hmem (by decide)
    rw [← withReturns_cons hc, htext, List.append_cons, withReturns_append,
      withReturns_of_notMem hfront, ← List.append_cons]
  | none =>
    obtain ⟨r, e, rfl, hr, he⟩ := exists_atFeed cs
    rw [← List.cons_append, he.endsLine.opening?, Option.map_eq_none_iff] at hopen
    have hsame := munch_endsLine he.endsLine hreturn hslash hopen
    refine .of_onLine hc ?_ ?_
    · rw [withReturns_append, withReturns_of_notMem hr, hsame,
        munch_endsLine (endsLine_withReturns he) hreturn hslash hopen]
    · rw [hsame, List.take_append_of_le_length (munch_le c r)]
      exact fun hmem => hr (List.mem_of_mem_take hmem)

/-- A text with carriage returns has no errors if the text without them has none and no
string between single quotes goes on over a line. Then its tokens are the same, with
carriage returns. -/
theorem tokenizeFrom_withReturns {t : Text} (h : '\r' ∉ t) (o o' : Nat) :
    ((∀ k ∈ tokenizeFrom o' t.withReturns, k.kind ≠ .error) ↔
      ∀ k ∈ tokenizeFrom o t, k.kind ≠ .error ∧ ¬ k.IsFolded) ∧
    ((∀ k ∈ tokenizeFrom o' t.withReturns, k.kind ≠ .error) →
      List.Forall₂ (fun k l : Token => l.kind = k.kind ∧ l.text = withReturns k.text)
        (tokenizeFrom o t) (tokenizeFrom o' t.withReturns)) := by
  fun_induction tokenizeFrom o t generalizing o' with
  | case1 => simp [tokenizeFrom]
  | case2 o c cs kind n hmunch text ih =>
    obtain ⟨c', cs', hfront⟩ := exists_sameFront h
    have hrest : '\r' ∉ cs.drop n := fun hmem =>
      h (List.mem_cons_of_mem _ (List.mem_of_mem_drop hmem))
    have herror := hfront.error
    rw [hmunch] at herror
    have hfolded : Token.IsFolded ⟨kind, text, o⟩ ↔ Token.IsFolded ⟨kind, text, 0⟩ := Iff.rfl
    rw [hfront.text, tokenizeFrom_cons (k := (munch c' cs').1) (n := (munch c' cs').2) rfl,
      List.forall_mem_cons, List.forall_mem_cons]
    by_cases hkind : (munch c' cs').1 ≠ .error
    · obtain ⟨hsame, hlength⟩ := hfront.found hkind
      rw [hmunch] at hsame hlength
      -- the token is cut off in the one text where it is in the other
      have hsplit : c' :: cs' = withReturns (c :: cs.take n) ++ withReturns (cs.drop n) := by
        rw [← withReturns_append, List.cons_append, List.take_append_drop, hfront.text]
      have htake : c' :: cs'.take (munch c' cs').2 = withReturns (c :: cs.take n) := by
        rw [← List.take_succ_cons, hlength, hsplit, List.take_left]
      have hdrop : cs'.drop (munch c' cs').2 = withReturns (cs.drop n) := by
        rw [← List.drop_succ_cons, hlength, hsplit, List.drop_left]
      obtain ⟨hiff, htokens⟩ := ih hrest (o' + Text.bytes (c' :: cs'.take (munch c' cs').2))
      rw [hdrop, hiff]
      refine ⟨⟨fun hall => ⟨herror.1 hkind, hall.2⟩, fun hall => ⟨hkind, hall.2⟩⟩, fun hall => ?_⟩
      exact .cons ⟨hsame, htake⟩ (htokens (hiff.2 hall.2))
    · refine ⟨⟨fun hall => absurd hall.1 hkind, fun hall => ?_⟩, fun hall => absurd hall.1 hkind⟩
      exact absurd (herror.2 hall.1) hkind

/-! ## Programs -/

/-- A text with carriage returns is a program if the text without them is one and no string
between single quotes goes on over a line. Then its words are of the same kinds. -/
theorem ok_withReturns {t : Text} (h : '\r' ∉ t) :
    ((parse t.withReturns).ok = true ↔
      (parse t).ok = true ∧ ∀ k ∈ tokenize t, ¬ k.IsFolded) ∧
    ((parse t.withReturns).ok = true →
      (significant (layout t.withReturns).tokens).map Token.kind =
        (significant (layout t).tokens).map Token.kind) := by
  obtain ⟨hiff, htokens⟩ := tokenizeFrom_withReturns h 0 0
  have hlike (hall : ∀ k ∈ tokenize t.withReturns, k.kind ≠ .error) :
      (layout t).Agrees Token.kind (layout t.withReturns) := by
    refine (Layout.Level.refl (s := Layout.start) (by simp [Layout.start])).run id
      (fun h => congrArg Word.kind h) ?_ _ _
    refine ((List.forall₂_and_left _ _).2 ⟨fun k hk => raw_tokenize hk, htokens hall⟩).imp ?_
    rintro k l ⟨hraw, hkind, htext⟩
    refine ⟨hkind.symm, fun hblank _ => ?_⟩
    rw [htext, withReturns_of_notMem (hraw.onLine hblank)]
  have hsame (hall : ∀ k ∈ tokenize t.withReturns, k.kind ≠ .error) :
      (parse t).ok = (parse t.withReturns).ok :=
    (outline_parse_like id (hlike hall)).2
  refine ⟨⟨fun hok => ?_, fun hboth => ?_⟩, fun hok => ?_⟩
  · have hall : ∀ k ∈ tokenize t.withReturns, k.kind ≠ .error := fun _ => kind_ne_error_of_ok hok
    exact ⟨(hsame hall).trans hok, fun k hk => (hiff.1 hall k hk).2⟩
  · obtain ⟨hok, hfolded⟩ := hboth
    have hall := hiff.2 fun k hk => ⟨kind_ne_error_of_ok hok hk, hfolded k hk⟩
    exact (hsame hall).symm.trans hok
  · exact (hlike fun _ => kind_ne_error_of_ok hok).words.symm

/-- A string between three quotes that goes on over a line, and an addition that does. -/
def longString : Text := "def f():\n    '''một\n    hai'''\n\n    return 1 + \\\n        2\n".toList

/-- Carriage returns where a line ends, in an empty line, in a string between three quotes
and behind a backslash. -/
theorem ok_withReturns_longString : '\r' ∉ longString ∧ (parse longString).ok = true ∧
    (∀ k ∈ tokenize longString, ¬ k.IsFolded) ∧ (parse longString.withReturns).ok = true ∧
    (significant (layout longString.withReturns).tokens).map Token.kind =
      (significant (layout longString).tokens).map Token.kind := by
  have hreturns : '\r' ∉ longString := by decide
  have hok : (parse longString).ok = true := by decide +kernel
  have hfolded : ∀ k ∈ tokenize longString, ¬ k.IsFolded := by decide +kernel
  have hwith := (ok_withReturns hreturns).1.2 ⟨hok, hfolded⟩
  exact ⟨hreturns, hok, hfolded, hwith, (ok_withReturns hreturns).2 hwith⟩

/-- A string between single quotes that goes on over a line. -/
def foldedString : Text := "x = 'a\\\nb'\n".toList

/-- With carriage returns such a string is no string. -/
theorem not_ok_foldedString : '\r' ∉ foldedString ∧ (parse foldedString).ok = true ∧
    (parse foldedString.withReturns).ok = false :=
  ⟨by decide, by decide +kernel, by decide +kernel⟩

end SceneGate
