/-
What the lexer sees of the end of a line. No word goes on over a line break, and a string
or a comment that ends before one ends there whatever follows; so a token in front of a
line break is the token at the end of a text (`munch_feed`), and behind a line break the
lexer begins anew (`tokenizeFrom_append`).
-/
import SceneGate.Proofs.TokenShapes

namespace SceneGate

/-! ## In front of the end of a line -/

/-- Nothing, or a text that begins with a line break. -/
def Text.EndsLine (e : Text) : Prop := ∀ x ∈ e.head?, x = '\n' ∨ x = '\r'

namespace Text.EndsLine

variable {e r p : Text}

theorem feed (u : Text) : EndsLine ('\n' :: u) := by simp [EndsLine]

theorem eq_nil_or_stops (h : EndsLine e) : e = [] ∨ e.Stops := by
  cases e with
  | nil => exact .inl rfl
  | cons x u =>
    right
    rcases h x rfl with rfl | rfl <;> exact ⟨⟨_, u, rfl, by decide⟩, by simp⟩

theorem isPrefixOf_eq (h : EndsLine e) (hp : ∀ x ∈ p, x ∉ stops) :
    p.isPrefixOf (r ++ e) = p.isPrefixOf r := by
  rcases h.eq_nil_or_stops with rfl | h
  · rw [List.append_nil]
  · exact h.isPrefixOf_eq hp

theorem upToStop {f : Text → Nat} (h : EndsLine e) (hf : UpToStop f) : f (r ++ e) = f r := by
  rcases h.eq_nil_or_stops with rfl | h
  · rw [List.append_nil]
  · exact hf.eq h.endsNumber

theorem runLength {f : Char → Bool} (h : EndsLine e) (hf : f '\n' = false ∧ f '\r' = false) :
    runLength f (r ++ e) = runLength f r := by
  unfold SceneGate.runLength
  induction r with
  | nil =>
    cases e with
    | nil => rfl
    | cons x u => rcases h x rfl with rfl | rfl <;> simp [hf]
  | cons x r ih =>
    rw [List.cons_append, List.takeWhile_cons, List.takeWhile_cons]
    split
    · simpa using ih
    · rfl

theorem operator? (h : EndsLine e) (c : Char) :
    operator? (c :: (r ++ e)) = operator? (c :: r) := by
  rcases h.eq_nil_or_stops with rfl | h
  · rw [List.append_nil]
  · exact operator?_eq h

/-- The opening of a string lies on its line. -/
theorem opening? {u : Text} (h : EndsLine e) : StringLiteral.opening? (u ++ e) =
    (StringLiteral.opening? u).map fun (marks, q, rest) => (marks, q, rest ++ e) := by
  cases hopen : StringLiteral.opening? u with
  | some opening =>
    obtain ⟨m, q, rest⟩ := opening
    obtain ⟨marks, hopens, rfl, rfl⟩ := StringLiteral.opening?_iff.1 hopen
    exact StringLiteral.opening?_iff.2 ⟨marks, hopens, rfl, by simp⟩
  | none =>
    refine Option.eq_none_iff_forall_ne_some.2 ?_
    rintro ⟨m, q, rest⟩ hopen'
    obtain ⟨marks, hopens, rfl, htext⟩ := StringLiteral.opening?_iff.1 hopen'
    have hfront : (marks ++ [q]).isPrefixOf (u ++ e) = true :=
      List.isPrefixOf_iff_prefix.2 ⟨rest, by simp [htext]⟩
    rw [h.isPrefixOf_eq hopens.not_stops] at hfront
    obtain ⟨v, rfl⟩ := List.isPrefixOf_iff_prefix.1 hfront
    have hsome : StringLiteral.opening? (marks ++ [q] ++ v) = some (marks.length, q, v) :=
      StringLiteral.opening?_iff.2 ⟨marks, hopens, rfl, (List.append_cons marks q v).symm⟩
    rw [hopen] at hsome
    cases hsome

end Text.EndsLine

/-- Where a string opens it is measured. -/
theorem munch_of_opening? {c q : Char} {cs rest : Text} {m : Nat}
    (h : StringLiteral.opening? (c :: cs) = some (m, q, rest)) :
    munch c cs = StringLiteral.token (StringLiteral.measure m q rest) := by
  obtain ⟨marks, hopens, -, htext⟩ := StringLiteral.opening?_iff.1 h
  have hc : c ∉ stops := by
    refine hopens.not_stops c ?_
    cases marks with
    | nil => exact List.mem_singleton.2 (List.cons.inj htext).1
    | cons x marks => exact List.mem_cons.2 (.inl (List.cons.inj htext).1)
  have hfind : StringLiteral.find? (c :: cs) = some (StringLiteral.measure m q rest) := by
    rw [StringLiteral.find?, h, Option.map_some]
  have hspace : isSpace c = false := by
    refine Bool.eq_false_iff.2 fun h => ?_
    simp only [isSpace, Bool.or_eq_true, beq_iff_eq] at h
    rcases h with (rfl | rfl) | rfl <;> exact hc (by decide)
  have hne {d : Char} (hd : d ∈ stops) : (c == d) = false :=
    beq_eq_false_iff_ne.2 fun h => hc (h ▸ hd)
  have hfeed := hne (d := '\n') (by decide)
  have hreturn := hne (d := '\r') (by decide)
  have hslash := hne (d := '\\') (by decide)
  have hhash := hne (d := '#') (by decide)
  simp only [munch, hfind, hspace, hfeed, hreturn, hslash, hhash, Bool.false_eq_true, if_false]
  obtain ⟨shape, n⟩ := StringLiteral.measure m q rest
  cases shape <;> rfl

/-- Unless a string opens there or a line is broken, what stands behind the line does not
matter for the first token. -/
theorem munch_endsLine {c : Char} {r e : Text} (he : e.EndsLine) (hreturn : c ≠ '\r')
    (hslash : c ≠ '\\') (hopen : StringLiteral.opening? (c :: r) = none) :
    munch c (r ++ e) = munch c r := by
  have hopen' : StringLiteral.opening? (c :: (r ++ e)) = none := by
    rw [← List.cons_append, he.opening?, hopen, Option.map_none]
  have hword : munchWord c (r ++ e) = munchWord c r := by
    have hrun : runLength isIdentifierContinue (r ++ e) = runLength isIdentifierContinue r :=
      he.runLength (by decide)
    rw [munchWord, munchWord, hrun, List.take_append_of_le_length (runLength_le _ r)]
  have hreturn : (c == '\r') = false := beq_eq_false_iff_ne.2 hreturn
  have hslash : (c == '\\') = false := beq_eq_false_iff_ne.2 hslash
  simp only [munch, StringLiteral.find?, hopen, hopen', hreturn, hslash, Option.map_none, hword,
    he.operator?, he.upToStop (NumberLiteral.upToStop_lengthAfter c),
    he.upToStop NumberLiteral.upToStop_pointedLength, he.runLength (f := isSpace) (by decide),
    he.runLength (f := fun c => c != '\r' && c != '\n') (by decide), Bool.false_eq_true, if_false]

/-! ## In front of a line feed -/

/-- Nothing, or a text that begins with a line feed. -/
def Text.AtFeed (e : Text) : Prop := ∀ x ∈ e.head?, x = '\n'

theorem Text.AtFeed.endsLine {e : Text} (h : e.AtFeed) : e.EndsLine := fun x hx => .inl (h x hx)

theorem Text.AtFeed.cases {e : Text} (h : e.AtFeed) : e = [] ∨ ∃ u, e = '\n' :: u := by
  cases e with
  | nil => exact .inl rfl
  | cons x u => exact .inr ⟨u, by rw [h x rfl]⟩

namespace StringLiteral

variable {q : Char} {u x e e' rest : Text} {n m : Nat} {closed : Bool}

/-- A body that ends in front of a line feed ends there in front of others, too. -/
theorem shortBody_feed (hq : q ≠ '\n') (he' : e'.AtFeed)
    (h : shortBody q (u ++ '\n' :: x) = (n, closed)) (hn : n + closed.toNat ≤ u.length) :
    shortBody q (u ++ e') = (n, closed) := by
  induction hlen : u.length using Nat.strongRecOn generalizing u n with
  | ind _ ih =>
  subst hlen
  have hstop (y : Text) : shortBody q ('\n' :: y) = (0, false) := by
    rw [shortBody_cons (by decide), if_neg (by simpa using hq.symm), if_pos (beq_self_eq_true _)]
  rcases u with _ | ⟨c, u⟩
  · rw [List.nil_append, hstop] at h
    rcases he'.cases with rfl | ⟨y, rfl⟩
    · exact h
    · rw [List.nil_append, hstop, h]
  simp only [List.length_cons] at hn
  by_cases hc : c = '\\'
  · subst hc
    rcases u with _ | ⟨d, u⟩
    · rw [List.cons_append, List.nil_append, shortBody_escape] at h
      cases h
      simp only [List.length_nil] at hn
      omega
    · simp only [List.length_cons] at hn
      simp only [List.cons_append, shortBody_escape] at h ⊢
      generalize hbody : shortBody q (u ++ '\n' :: x) = body at h
      obtain ⟨k, closed⟩ := body
      obtain ⟨rfl, rfl⟩ := Prod.mk.inj h
      rw [ih u.length (by simp only [List.length_cons]; omega) hbody (by omega) rfl]
  · simp only [List.cons_append, shortBody_cons hc] at h ⊢
    split
    · rename_i hquote
      rwa [if_pos hquote] at h
    · rename_i hquote
      rw [if_neg hquote] at h
      split
      · rename_i hfeed
        rwa [if_pos hfeed] at h
      · rename_i hfeed
        rw [if_neg hfeed] at h
        generalize hbody : shortBody q (u ++ '\n' :: x) = body at h
        obtain ⟨k, closed⟩ := body
        obtain ⟨rfl, rfl⟩ := Prod.mk.inj h
        rw [ih u.length (by simp) hbody (by omega) rfl]

/-- What is left behind a body that is never closed holds no line feed. -/
theorem lineFeed_notMem_of_longBody (hq : q ≠ '\n') (h : longBody q u = (n, false)) :
    '\n' ∉ u.drop n := by
  fun_induction longBody q u generalizing n with
  | case1 => simp
  | case2 =>
    cases h
    decide
  | case3 c u k closed hbody ih =>
    obtain ⟨rfl, rfl⟩ := Prod.mk.inj h
    exact ih hbody
  | case4 => cases h
  | case5 c u _ _ hquote _ hbody ih =>
    cases h
    have hrest := ih hbody
    rw [List.drop_zero] at hrest ⊢
    rw [beq_iff_eq.1 hquote]
    simpa [hq.symm] using hrest
  | case6 c u _ _ _ _ k closed _ hbody ih =>
    obtain ⟨rfl, rfl⟩ := Prod.mk.inj h
    exact ih hbody
  | case7 c u _ _ _ k closed hbody ih =>
    obtain ⟨rfl, rfl⟩ := Prod.mk.inj h
    exact ih hbody

/-- A literal that is not closed on its line ends with it. -/
theorem measure_unclosed (hq : isQuote q = true) (he' : e'.AtFeed)
    (h : measure m q (rest ++ '\n' :: x) = (.unclosed, n)) (hle : n ≤ m + 1 + rest.length) :
    measure m q (rest ++ e') = (.unclosed, n) := by
  have hfeed : q ≠ '\n' := by rcases isQuote_iff.1 hq with rfl | rfl <;> decide
  have hstops : ∀ y ∈ [q, q], y ∉ stops := by rcases isQuote_iff.1 hq with rfl | rfl <;> decide
  unfold measure at h ⊢
  rw [(Text.EndsLine.feed x).isPrefixOf_eq hstops] at h
  rw [he'.endsLine.isPrefixOf_eq hstops]
  cases hpre : [q, q].isPrefixOf rest with
  | true =>
    obtain ⟨v, rfl⟩ := List.isPrefixOf_iff_prefix.1 hpre
    have hdrop : ([q, q] ++ v ++ '\n' :: x).drop 2 = v ++ '\n' :: x := rfl
    rw [if_pos hpre, hdrop] at h
    rcases hbody : longBody q (v ++ '\n' :: x) with ⟨k, closed⟩
    rw [hbody] at h
    cases closed <;> cases h
    -- between three quotes it would take the line feed with it
    have hrest := lineFeed_notMem_of_longBody hfeed hbody
    simp only [List.cons_append, List.nil_append, List.length_cons] at hle
    rw [List.drop_append_of_le_length (by omega)] at hrest
    simp at hrest
  | false =>
    rw [hpre, if_neg (by simp)] at h
    rw [if_neg (by simp)]
    have hword : rest ++ '\n' :: x ≠ ['\\'] := by
      intro hslash
      rcases List.append_eq_singleton_iff.1 hslash with ⟨-, heq⟩ | ⟨-, heq⟩ <;> cases heq
    rcases hbody : shortBody q (rest ++ '\n' :: x) with ⟨k, closed⟩
    rw [hbody] at h
    simp only [hword, and_false, if_false] at h
    cases closed <;> cases h
    have hword' : rest ++ e' ≠ ['\\'] := by
      intro hslash
      rcases List.append_eq_singleton_iff.1 hslash with ⟨-, heq⟩ | ⟨rfl, -⟩
      · have := he' '\\' (by simp [heq])
        cases this
      · -- the backslash takes the line feed with it
        rw [List.cons_append, List.nil_append, shortBody_escape] at hbody
        obtain ⟨rfl, -⟩ := Prod.mk.inj hbody
        simp only [List.length_cons, List.length_nil] at hle
        omega
    have hlength : k + false.toNat ≤ rest.length := by
      rw [Bool.toNat_false]
      omega
    rw [shortBody_feed hfeed he' hbody hlength]
    simp only [hword', and_false, if_false]

/-- What is measured in front of a line feed or of the end of the text. -/
theorem measure_feed (hq : isQuote q = true) (he : e.AtFeed) (he' : e'.AtFeed)
    (hle : (measure m q (rest ++ e)).2 ≤ m + 1 + rest.length)
    (hend : e = [] → (measure m q rest).1 = .closed) :
    measure m q (rest ++ e') = measure m q (rest ++ e) := by
  have hslash : q ≠ '\\' := by rcases isQuote_iff.1 hq with rfl | rfl <;> decide
  have hstops : ∀ y ∈ [q, q], y ∉ stops := by rcases isQuote_iff.1 hq with rfl | rfl <;> decide
  rcases hmeasure : measure m q (rest ++ e) with ⟨shape, n⟩
  rw [hmeasure] at hle
  have hfeed (hopen : shape ≠ .closed) : ∃ x, e = '\n' :: x := by
    refine he.cases.resolve_left fun hnil => hopen ?_
    subst hnil
    rw [← hend rfl, ← List.append_nil rest, hmeasure]
  cases shape with
  | closed =>
    exact measure_closed hslash (he.endsLine.isPrefixOf_eq hstops)
      (he'.endsLine.isPrefixOf_eq hstops) hmeasure hle
  | word =>
    obtain ⟨x, rfl⟩ := hfeed (by simp)
    obtain ⟨-, hslash, -⟩ := measure_eq_word.1 hmeasure
    rcases List.append_eq_singleton_iff.1 hslash with ⟨-, heq⟩ | ⟨-, heq⟩ <;> cases heq
  | unclosed =>
    obtain ⟨x, rfl⟩ := hfeed (by simp)
    exact measure_unclosed hq he' hmeasure hle

end StringLiteral

section

variable {c : Char} {r e e' : Text}

theorem munch_return_feed (he : e.AtFeed) (hle : (munch '\r' (r ++ e)).2 ≤ r.length)
    (hend : e = [] → (munch '\r' r).1 ≠ .error) : munch '\r' (r ++ e') = munch '\r' (r ++ e) := by
  rw [munch_return] at hle
  rw [munch_return, munch_return]
  cases r with
  | cons x r => rfl
  | nil =>
    rcases he.cases with rfl | ⟨u, rfl⟩
    · exact absurd rfl (hend rfl)
    · simp at hle

theorem munch_backslash_feed (he : e.AtFeed) (hle : (munch '\\' (r ++ e)).2 ≤ r.length)
    (hend : e = [] → (munch '\\' r).1 ≠ .error) :
    munch '\\' (r ++ e') = munch '\\' (r ++ e) := by
  rw [munch_backslash] at hle
  rw [munch_backslash, munch_backslash]
  rcases r with _ | ⟨x, _ | ⟨y, r⟩⟩
  · rcases he.cases with rfl | ⟨u, rfl⟩
    · exact absurd rfl (hend rfl)
    · simp at hle
  · by_cases hx : x = '\n'
    · subst hx
      rfl
    have hx : '\n' ≠ x := Ne.symm hx
    rcases he.cases with rfl | ⟨u, rfl⟩
    · refine absurd ?_ (hend rfl)
      simp [munch_backslash, hx]
    · by_cases hx' : x = '\r'
      · subst hx'
        simp at hle
      · simp [hx, Ne.symm hx']
  · rfl

/-- A string, or what opens like one, in front of a line feed or of the end of the text. -/
theorem munch_opening_feed {q : Char} {marks rest : Text} (hopens : StringLiteral.Opens q marks)
    (htext : c :: r = marks ++ q :: rest) (he : e.AtFeed) (he' : e'.AtFeed)
    (hle : (munch c (r ++ e)).2 ≤ r.length)
    (hend : e = [] → (munch c r).1 ≠ .error ∧ r.drop (munch c r).2 ≠ ['\\']) :
    munch c (r ++ e') = munch c (r ++ e) := by
  have hfront (e : Text) : munch c (r ++ e) =
      StringLiteral.token (StringLiteral.measure marks.length q (rest ++ e)) :=
    munch_of_opening? (StringLiteral.opening?_iff.2 ⟨marks, hopens, rfl, by
      rw [← List.cons_append, htext, List.append_assoc, List.cons_append]⟩)
  have hlen : r.length = marks.length + rest.length := by
    have := congrArg List.length htext
    simp only [List.length_append, List.length_cons] at this
    omega
  rw [hfront e] at hle
  rw [hfront e, hfront e', StringLiteral.measure_feed hopens.isQuote he he']
  · generalize StringLiteral.measure marks.length q (rest ++ e) = found at hle ⊢
    obtain ⟨shape, n⟩ := found
    cases shape <;> simp only [StringLiteral.token] at hle <;> omega
  · rintro rfl
    obtain ⟨herror, hslash⟩ := hend rfl
    rw [← List.append_nil r, hfront, List.append_nil] at herror
    rcases hfound : StringLiteral.measure marks.length q rest with ⟨shape, n⟩
    rw [hfound] at herror
    cases shape with
    | closed => rfl
    | unclosed => exact absurd rfl herror
    | word =>
      refine absurd ?_ hslash
      have hmunch : munch c r = (.ident, n - 1) := by
        rw [← List.append_nil r, hfront, List.append_nil, hfound]
        rfl
      obtain ⟨-, rfl, rfl⟩ := StringLiteral.measure_eq_word.1 hfound
      rw [hmunch, ← List.drop_succ_cons, htext]
      exact List.drop_length_add_append ..

/-- A token in front of a line feed or of the end of the text is the token there in front
of others, too. But what is no token at the end of the text may become one, and marks of a
string may be a word only in front of a backslash there. -/
theorem munch_feed (he : e.AtFeed) (he' : e'.AtFeed) (hle : (munch c (r ++ e)).2 ≤ r.length)
    (hend : e = [] → (munch c r).1 ≠ .error ∧ r.drop (munch c r).2 ≠ ['\\']) :
    munch c (r ++ e') = munch c (r ++ e) := by
  by_cases hreturn : c = '\r'
  · subst hreturn
    exact munch_return_feed he hle fun hnil => (hend hnil).1
  by_cases hslash : c = '\\'
  · subst hslash
    exact munch_backslash_feed he hle fun hnil => (hend hnil).1
  cases hopen : StringLiteral.opening? (c :: r) with
  | none =>
    rw [munch_endsLine he'.endsLine hreturn hslash hopen,
      munch_endsLine he.endsLine hreturn hslash hopen]
  | some opening =>
    obtain ⟨marks, hopens, -, htext⟩ := StringLiteral.opening?_iff.1 hopen
    exact munch_opening_feed hopens htext he he' hle hend

end

/-! ## Behind the end of a line -/

/-- A line is broken by a line feed, perhaps behind a carriage return. -/
theorem Munches.of_newline {c : Char} {cs : Text} {found : Kind × Nat} (h : Munches c cs found)
    (hkind : found.1 = .newline) :
    c = '\n' ∧ found.2 = 0 ∨ c = '\r' ∧ ['\n'] <+: cs ∧ found.2 = 1 := by
  cases h with
  | lineFeed hc => exact .inl ⟨hc, rfl⟩
  | returnFeed hc hfeed => exact .inr ⟨hc, hfeed, rfl⟩
  | word hc =>
    have hword : (munchWord c cs).1 ≠ .newline :=
      Kind.of_ofKeyword (P := (· ≠ .newline)) (by decide) (by decide) _
    exact absurd hkind hword
  | operator hentry hfront =>
    have hall : ∀ e ∈ operators, e.2 ≠ .newline := by decide
    exact absurd hkind (hall _ hentry)
  | spaces | slashFeed | slashReturn | comment | string | lone | number | error => cases hkind

/-- If no token changes with what is put behind a text, the lexer begins anew there. -/
theorem tokenizeFrom_append_of {P : Text → Prop} {b : Text} (hstep : ∀ c cs, P (c :: cs) →
      munch c (cs ++ b) = munch c cs ∧ P (cs.drop (munch c cs).2)) {t : Text} (h : P t) (o : Nat) :
    tokenizeFrom o (t ++ b) = tokenizeFrom o t ++ tokenizeFrom (o + t.bytes) b := by
  fun_induction tokenizeFrom o t with
  | case1 => simp
  | case2 o c cs kind n hmunch text ih =>
    obtain ⟨hsame, hrest⟩ := hstep c cs h
    rw [hmunch] at hsame hrest
    have hle : n ≤ cs.length := by
      have := munch_le c cs
      rwa [hmunch] at this
    have hbytes : o + text.bytes + Text.bytes (cs.drop n) = o + Text.bytes (c :: cs) := by
      rw [Nat.add_assoc, ← Text.bytes_append, List.cons_append, List.take_append_drop]
    rw [List.cons_append, tokenizeFrom_cons hsame, List.take_append_of_le_length hle,
      List.drop_append_of_le_length hle, ih hrest, hbytes]
    rfl

/-- A text that ends with a line break, or is empty. -/
def Text.Finished (a : Text) : Prop := ∃ o, ∀ k ∈ (tokenizeFrom o a).getLast?, k.kind = .newline

theorem Text.Finished.step {c : Char} {cs : Text} (h : Finished (c :: cs)) :
    Finished (cs.drop (munch c cs).2) := by
  obtain ⟨o, h⟩ := h
  rw [tokenizeFrom_cons (k := (munch c cs).1) (n := (munch c cs).2) rfl] at h
  refine ⟨o + Text.bytes (c :: cs.take (munch c cs).2), fun k (hk : k ∈ List.getLast? _) => h k ?_⟩
  rw [List.getLast?_cons, Option.mem_def.1 hk]
  rfl

theorem Text.Finished.getLast? {a : Text} (h : Finished a) (ha : a ≠ []) : a.getLast? = some '\n' := by
  obtain ⟨o, h⟩ := h
  have hspelled := spelling_tokenizeFrom o a
  cases hlast : (tokenizeFrom o a).getLast? with
  | none =>
    rw [List.getLast?_eq_none_iff.1 hlast] at hspelled
    exact absurd hspelled.symm ha
  | some k =>
    obtain ⟨before, hbefore⟩ := List.getLast?_eq_some_iff.1 hlast
    have hraw := raw_tokenizeFrom o a k (by simp [hbefore])
    obtain ⟨v, hv⟩ := List.getLast?_eq_some_iff.1 (hraw.ends (.inl (h k hlast)))
    rw [← hspelled, hbefore, spelling_append, spelling_cons, hv, spelling_nil]
    simp

theorem Text.Finished.munch_append {c : Char} {cs : Text} (h : Finished (c :: cs)) (b : Text) :
    munch c (cs ++ b) = munch c cs := by
  have hle := munch_le c cs
  by_cases hrest : cs.drop (munch c cs).2 = []
  · -- the line break itself
    obtain ⟨o, h⟩ := h
    rw [tokenizeFrom_cons (k := (munch c cs).1) (n := (munch c cs).2) rfl, hrest] at h
    have hkind : (munch c cs).1 = .newline :=
      h ⟨_, c :: cs.take (munch c cs).2, o⟩ (by simp [tokenizeFrom])
    rcases (munches c cs).of_newline hkind with ⟨rfl, -⟩ | ⟨rfl, ⟨more, rfl⟩, -⟩ <;> rfl
  · obtain ⟨v, hv⟩ := List.getLast?_eq_some_iff.1 (h.step.getLast? hrest)
    have hcs : cs = cs.take (munch c cs).2 ++ v ++ ['\n'] := by
      rw [List.append_assoc, ← hv, List.take_append_drop]
    have hlt : (munch c cs).2 ≤ (cs.take (munch c cs).2 ++ v).length := by
      rw [List.length_append, List.length_take_of_le hle]
      omega
    generalize cs.take (munch c cs).2 ++ v = r at hcs hlt
    subst hcs
    rw [List.append_assoc]
    exact munch_feed (by simp [Text.AtFeed]) (by simp [Text.AtFeed]) hlt (by simp)

/-- Behind a line break the lexer begins anew. -/
theorem tokenizeFrom_append {a : Text} (b : Text) (o : Nat)
    (h : ∀ k ∈ (tokenizeFrom o a).getLast?, k.kind = .newline) :
    tokenizeFrom o (a ++ b) = tokenizeFrom o a ++ tokenizeFrom (o + a.bytes) b :=
  tokenizeFrom_append_of (P := Text.Finished) (fun _ _ h => ⟨h.munch_append b, h.step⟩) ⟨o, h⟩ o

theorem tokenizeFrom_feed (o : Nat) : tokenizeFrom o ['\n'] = [⟨.newline, ['\n'], o⟩] := by
  have hmunch : munch '\n' [] = (.newline, 0) := rfl
  simp [tokenizeFrom, hmunch]

/-! ## The tokens behind it -/

/-- The token as it lies in a text with `n` bytes more in front. -/
def Token.shift (n : Nat) (k : Token) : Token := { k with offset := n + k.offset }

/-- What the tokens are does not depend on where the text begins. -/
theorem tokenizeFrom_shift (n o : Nat) (t : Text) :
    tokenizeFrom (n + o) t = (tokenizeFrom o t).map (Token.shift n) := by
  fun_induction tokenizeFrom o t with
  | case1 => rw [tokenizeFrom, List.map_nil]
  | case2 o c cs kind m hmunch text ih =>
    rw [tokenizeFrom_cons hmunch, List.map_cons, ← ih, Nat.add_assoc]
    rfl

/-- A text whose last token is a line break, or that has none, is cut as if nothing came
behind it, and what comes behind is cut as if it came first. No string, comment or line
continuation of the first can take hold of the second. -/
theorem tokenize_append_restarts {a : Text} (b : Text)
    (h : ∀ k ∈ (tokenize a).getLast?, k.kind = .newline) :
    tokenize (a ++ b) = tokenize a ++ (tokenize b).map (Token.shift a.bytes) := by
  have htail : tokenizeFrom (0 + a.bytes) b = (tokenize b).map (Token.shift a.bytes) := by
    rw [Nat.add_comm]
    exact tokenizeFrom_shift a.bytes 0 b
  rw [tokenize, tokenizeFrom_append b 0 h, htail]
  rfl

/-- Behind a string that is not closed on its line, in front of three quotes. -/
theorem tokenize_append_restarts_quotes :
    (∀ k ∈ (tokenize "x = 'é
".toList).getLast?, k.kind = .newline) ∧
      tokenize "x = 'é
'''y".toList = tokenize "x = 'é
".toList ++ [⟨.error, "'''y".toList, 8⟩] := by
  have h : ∀ k ∈ (tokenize "x = 'é
".toList).getLast?, k.kind = .newline := by decide +kernel
  have htail : (tokenize "'''y".toList).map (Token.shift (Text.bytes "x = 'é
".toList)) = [⟨.error, "'''y".toList, 8⟩] := by decide +kernel
  exact ⟨h, by rw [← htail]; exact tokenize_append_restarts "'''y".toList h⟩

end SceneGate
