/-
What tokens are like. The lexer takes one of a few courses (`Munches`), and what is told
of the tokens of a kind follows from the courses that make tokens of the kind. The tokens
stand one behind the other and have the shape of their kinds (`tokens_have_shape`): a word
is an identifier and ends where no identifier goes on, and a line feed stands only where
a line ends, in a string or in an error.
-/
import SceneGate.Proofs.LayoutText
import SceneGate.Proofs.Stops

namespace SceneGate

/-! ## What stands at the front of a text -/

/-- Everything that the lexer can find at the front of a text. -/
inductive Munches (c : Char) (cs : Text) : Kind × Nat → Prop
  | spaces : isSpace c = true → Munches c cs (.whitespace, runLength isSpace cs)
  | lineFeed : c = '\n' → Munches c cs (.newline, 0)
  | returnFeed : c = '\r' → ['\n'] <+: cs → Munches c cs (.newline, 1)
  | slashFeed : c = '\\' → ['\n'] <+: cs → Munches c cs (.lineContinuation, 1)
  | slashReturn : c = '\\' → ['\r', '\n'] <+: cs → Munches c cs (.lineContinuation, 2)
  | comment : c = '#' → Munches c cs (.comment, runLength (fun c => c != '\r' && c != '\n') cs)
  | string {l : Nat} : StringLiteral.find? (c :: cs) = some (.closed, l) →
      Munches c cs (.string, l - 1)
  | lone {l : Nat} : StringLiteral.find? (c :: cs) = some (.word, l) → Munches c cs (.ident, l - 1)
  | word : isIdentifierStart c = true → Munches c cs (munchWord c cs)
  | number {f : Text → Nat} : UpToStop f → isAsciiDigit c = true ∨ c = '.' →
      Munches c cs (.number, f cs)
  | operator {spelling : Text} {kind : Kind} : (spelling, kind) ∈ operators →
      spelling <+: c :: cs → Munches c cs (kind, spelling.length - 1)
  | error (n : Nat) : Munches c cs (.error, n)

theorem munches (c : Char) (cs : Text) : Munches c cs (munch c cs) := by
  unfold munch
  split
  · rename_i hspace; exact .spaces hspace
  split
  · rename_i hfeed; exact .lineFeed (by simpa using hfeed)
  split
  · rename_i hreturn
    split
    · exact .returnFeed (by simpa using hreturn) ⟨_, rfl⟩
    · exact .error 0
  split
  · rename_i hslash
    split
    · exact .slashFeed (by simpa using hslash) ⟨_, rfl⟩
    · exact .slashReturn (by simpa using hslash) ⟨_, rfl⟩
    · exact .error 0
  split
  · rename_i hcomment; exact .comment (by simpa using hcomment)
  split
  · rename_i hfind; exact .string hfind
  · exact .error _
  · rename_i hfind; exact .lone hfind
  · split
    · rename_i hstart; exact .word hstart
    split
    · rename_i hdigit; exact .number (NumberLiteral.upToStop_lengthAfter c) (.inl hdigit)
    split
    · rename_i hpoint
      simp only [Bool.and_eq_true, beq_iff_eq] at hpoint
      exact .number NumberLiteral.upToStop_pointedLength (.inr hpoint.1)
    · unfold operator?
      cases hfind : operators.find? fun entry => entry.1.isPrefixOf (c :: cs) with
      | none => exact .error 0
      | some entry =>
        have hfront : entry.1.isPrefixOf (c :: cs) = true := by simpa using List.find?_some hfind
        exact .operator (List.mem_of_find?_eq_some hfind) (List.isPrefixOf_iff_prefix.1 hfront)

/-- What is measured up to what ends words holds no line feed. -/
theorem UpToStop.lineFeed_notMem {f : Text → Nat} (hf : UpToStop f) (t : Text) :
    '\n' ∉ t.take (f t) := by
  intro hmem
  have hfront : '\n' ∉ t.takeWhile (· != '\n') := fun h => by
    simpa using List.all_eq_true.1 List.all_takeWhile _ h
  have hsplit : t.takeWhile (· != '\n') ++ t.dropWhile (· != '\n') = t :=
    List.takeWhile_append_dropWhile
  generalize t.takeWhile (· != '\n') = r at hsplit hfront
  cases he : t.dropWhile (· != '\n') with
  | nil =>
    rw [he, List.append_nil] at hsplit
    exact hfront (hsplit ▸ List.mem_of_mem_take hmem)
  | cons x e =>
    have hx : x = '\n' := by
      have := List.head?_dropWhile_not (· != '\n') t
      simpa [he] using this
    have hstops : Text.Stops (x :: e) :=
      ⟨⟨x, e, rfl, by rw [hx]; decide⟩, by rw [hx]; simp⟩
    rw [he] at hsplit
    rw [← hsplit, hf.eq hstops.endsNumber, List.take_append_of_le_length (hf.le r)] at hmem
    exact hfront (List.mem_of_mem_take hmem)

/-! ## The shapes of tokens -/

namespace Text

/-- A text in which every line feed stands behind a backslash. -/
def FeedsEscaped (t : Text) : Prop :=
  ∀ before after, t = before ++ '\n' :: after → before.getLast? = some '\\'

/-- An identifier or a reserved word. -/
def IsWord (t : Text) : Prop :=
  ∃ c cs, t = c :: cs ∧ isIdentifierStart c = true ∧ ∀ x ∈ cs, isIdentifierContinue x = true

theorem feedsEscaped_of_notMem {t : Text} (h : '\n' ∉ t) : FeedsEscaped t := by
  rintro before after rfl
  simp at h

theorem FeedsEscaped.append {t u : Text} (ht : FeedsEscaped t) (hu : FeedsEscaped u) :
    FeedsEscaped (t ++ u) := by
  intro before after h
  rcases List.append_eq_append_iff.1 h with ⟨v, rfl, hv⟩ | ⟨v, rfl, hv⟩
  · have hlast := hu v after hv
    rw [List.getLast?_append, hlast]
    rfl
  · cases v with
    | nil =>
      have hlast := hu [] after (by simpa using hv.symm)
      cases hlast
    | cons x v =>
      obtain ⟨rfl, -⟩ := List.cons.inj hv
      exact ht before v rfl

end Text

namespace StringLiteral

variable {q : Char} {l : Nat} {t : Text}

theorem Opens.isQuote {marks : Text} (h : Opens q marks) : isQuote q = true := by
  cases h <;> assumption

/-- The body of a string between single quotes holds line feeds only behind a
backslash. -/
theorem feedsEscaped_shortBody (q : Char) (t : Text) :
    Text.FeedsEscaped (t.take (shortBody q t).1) := by
  have hnone : Text.FeedsEscaped [] := Text.feedsEscaped_of_notMem (by simp)
  induction hlen : t.length using Nat.strongRecOn generalizing t with
  | ind _ ih =>
  subst hlen
  rcases t with _ | ⟨c, t⟩
  · exact hnone
  by_cases hc : c = '\\'
  · subst hc
    rcases t with _ | ⟨d, t⟩
    · exact hnone
    have hpair : Text.FeedsEscaped ['\\', d] := by
      intro before after h
      rcases before with _ | ⟨x, _ | ⟨y, before⟩⟩
      · cases h
      · obtain ⟨rfl, -⟩ := List.cons.inj h
        rfl
      · simp at h
    rw [shortBody_escape]
    exact hpair.append (ih t.length (by simp only [List.length_cons]; omega) t rfl)
  · rw [shortBody_cons hc]
    split
    · exact hnone
    split
    · exact hnone
    · rename_i hfeed
      have hone : Text.FeedsEscaped [c] := Text.feedsEscaped_of_notMem fun h =>
        hfeed (beq_iff_eq.2 (List.mem_singleton.1 h).symm)
      exact hone.append (ih t.length (by simp) t rfl)

/-- Behind a body that is closed stands the quote. -/
theorem take_shortBody (h : (shortBody q t).2 = true) :
    t.take ((shortBody q t).1 + 1) = t.take (shortBody q t).1 ++ [q] := by
  induction hlen : t.length using Nat.strongRecOn generalizing t with
  | ind _ ih =>
  subst hlen
  rcases t with _ | ⟨c, t⟩
  · cases h
  by_cases hc : c = '\\'
  · subst hc
    rcases t with _ | ⟨d, t⟩
    · cases h
    rw [shortBody_escape] at h ⊢
    have hbody := ih t.length (by simp only [List.length_cons]; omega) h rfl
    simpa using hbody
  · rw [shortBody_cons hc] at h ⊢
    split
    · rename_i hq
      simp [beq_iff_eq.1 hq]
    · rename_i hq
      rw [if_neg hq] at h
      split
      · rename_i hfeed
        rw [if_pos hfeed] at h
        cases h
      · rename_i hfeed
        rw [if_neg hfeed] at h
        simpa using ih t.length (by simp) h rfl

/-- Behind a body between three quotes that is closed stand the quotes. -/
theorem take_longBody (hq : q ≠ '\\') (h : longBody q t = (l, true)) :
    t.take (l + 3) = t.take l ++ [q, q, q] := by
  induction hlen : t.length using Nat.strongRecOn generalizing t l with
  | ind _ ih =>
  subst hlen
  rcases t with _ | ⟨c, t⟩
  · cases h
  by_cases hc : c = '\\'
  · subst hc
    rcases t with _ | ⟨d, t⟩
    · cases h
    rw [longBody_escape] at h
    generalize hbody : longBody q t = body at h
    obtain ⟨k, closed⟩ := body
    obtain ⟨rfl, rfl⟩ := Prod.mk.inj h
    simpa using ih t.length (by simp only [List.length_cons]; omega) hbody rfl
  by_cases hcq : c = q
  · subst hcq
    rcases (longBody_quote hq).1 h with ⟨hpre, rfl⟩ | ⟨-, k, hk, rfl⟩
    · obtain ⟨u, rfl⟩ := List.isPrefixOf_iff_prefix.1 hpre
      rfl
    · simpa using ih t.length (by simp) hk rfl
  · rw [longBody_cons hc hcq] at h
    generalize hbody : longBody q t = body at h
    obtain ⟨k, closed⟩ := body
    obtain ⟨rfl, rfl⟩ := Prod.mk.inj h
    simpa using ih t.length (by simp) hbody rfl

/-- Marks and a quote that are read as a word stand in front of the backslash that ends
the text. -/
theorem eq_of_find?_word (h : find? t = some (.word, l)) :
    ∃ marks q, Opens q marks ∧ marks ≠ [] ∧ t = marks ++ [q, '\\'] ∧ l = marks.length + 1 := by
  obtain ⟨⟨m, q, rest⟩, hopen, hmeasure⟩ := Option.map_eq_some_iff.1 h
  obtain ⟨marks, hopens, rfl, rfl⟩ := opening?_iff.1 hopen
  have hmeasure : measure marks.length q rest = (.word, l) := hmeasure
  obtain ⟨hmarks, rfl, rfl⟩ := measure_eq_word.1 hmeasure
  exact ⟨marks, q, hopens, fun hnil => hmarks (by simp [hnil]), rfl, rfl⟩

/-- A string: marks, quotes, a body, and the quotes again. -/
theorem of_find?_closed (h : find? t = some (.closed, l)) :
    ∃ marks q rest, Opens q marks ∧ t = marks ++ q :: rest ∧
      ((∃ u n, rest = q :: q :: u ∧ longBody q u = (n, true) ∧
          t.take l = marks ++ q :: q :: q :: u.take n ++ [q, q, q]) ∨
        ∃ n, shortBody q rest = (n, true) ∧ t.take l = marks ++ q :: rest.take n ++ [q]) := by
  obtain ⟨⟨m, q, rest⟩, hopen, hmeasure⟩ := Option.map_eq_some_iff.1 h
  obtain ⟨marks, hopens, rfl, rfl⟩ := opening?_iff.1 hopen
  have hmeasure : measure marks.length q rest = (.closed, l) := hmeasure
  have hslash : q ≠ '\\' := by rcases isQuote_iff.1 hopens.isQuote with rfl | rfl <;> decide
  have htake (n : Nat) : (marks ++ q :: rest).take (marks.length + n + 1) =
      marks ++ q :: rest.take n := by
    rw [Nat.add_assoc, List.take_length_add_append]
    rfl
  refine ⟨marks, q, rest, hopens, rfl, ?_⟩
  rcases measure_eq_closed.1 hmeasure with ⟨u, n, rfl, hbody, rfl⟩ | ⟨-, n, hbody, rfl⟩
  · have hlen : marks.length + n + 6 = marks.length + (n + 3 + 2) + 1 := by omega
    have hbehind : (q :: q :: u).take (n + 3 + 2) = q :: q :: u.take (n + 3) := rfl
    refine .inl ⟨u, n, rfl, hbody, ?_⟩
    rw [hlen, htake, hbehind, take_longBody hslash hbody]
    simp
  · have hlen : marks.length + n + 2 = marks.length + (n + 1) + 1 := by omega
    have hclosed := take_shortBody (q := q) (t := rest) (by rw [hbody])
    rw [hbody] at hclosed
    refine .inr ⟨n, hbody, ?_⟩
    rw [hlen, htake, hclosed]
    simp

/-- A string ends in a quote. -/
theorem quote_of_find? (h : find? t = some (.closed, l)) :
    ∃ q, isQuote q = true ∧ (t.take l).getLast? = some q := by
  obtain ⟨marks, q, rest, hopens, -, ⟨u, n, -, -, htake⟩ | ⟨n, -, htake⟩⟩ := of_find?_closed h
  all_goals exact ⟨q, hopens.isQuote, by rw [htake, List.getLast?_append]; rfl⟩

/-- A string opens with its quotes, and holds line feeds only behind a backslash, unless
three quotes open it. -/
theorem string_of_find? (h : find? t = some (.closed, l)) :
    ∃ marks q body, opening? (t.take l) = some (marks, q, body) ∧
      ([q, q].isPrefixOf body = true ∨ Text.FeedsEscaped (t.take l)) := by
  obtain ⟨marks, q, rest, hopens, -, ⟨u, n, -, -, htake⟩ | ⟨n, hbody, htake⟩⟩ := of_find?_closed h
  · refine ⟨marks.length, q, q :: q :: (u.take n ++ [q, q, q]), ?_, .inl ?_⟩
    · exact opening?_iff.2 ⟨marks, hopens, rfl, by simp [htake]⟩
    · exact List.isPrefixOf_iff_prefix.2 ⟨u.take n ++ [q, q, q], rfl⟩
  · refine ⟨marks.length, q, rest.take n ++ [q], ?_, .inr ?_⟩
    · exact opening?_iff.2 ⟨marks, hopens, rfl, by simp [htake]⟩
    · have hfront : '\n' ∉ marks ++ [q] := fun hmem => hopens.not_stops _ hmem (by decide)
      have hescaped := feedsEscaped_shortBody q rest
      rw [hbody] at hescaped
      have hsplit : marks ++ q :: rest.take n ++ [q] = marks ++ [q] ++ rest.take n ++ [q] := by simp
      rw [htake, hsplit]
      exact ((Text.feedsEscaped_of_notMem hfront).append hescaped).append
        (Text.feedsEscaped_of_notMem fun hmem => hfront (List.mem_append_right _ hmem))

end StringLiteral

/-- What a token is like that stands in front of the text `behind`. -/
structure Token.Shaped (k : Token) (behind : Text) : Prop where
  /-- A word is an identifier that cannot go on. Only marks of a string and its quote may
  be taken for a word, in front of the backslash that ends the text. -/
  word : k.kind = .ident ∨ k.kind.isKeyword = true →
    (k.text.IsWord ∨ behind = ['\\'] ∧
      ∃ marks q, StringLiteral.Opens q marks ∧ marks ≠ [] ∧ k.text = marks ++ [q]) ∧
    ∀ c ∈ behind.head?, isIdentifierContinue c = false
  /-- Of the words, those of the table are reserved. -/
  reserved : k.kind = .ident ∨ k.kind.isKeyword = true →
    k.kind = (Kind.ofKeyword? k.text).getD .ident
  lineFeed : '\n' ∈ k.text → k.kind ∈ [.newline, .lineContinuation, .string, .error]
  /-- A string opens with a quote; if it is a single one, line feeds stand behind
  backslashes. -/
  string : k.kind = .string → ∃ marks q body,
    StringLiteral.opening? k.text = some (marks, q, body) ∧
      ([q, q].isPrefixOf body = true ∨ k.text.FeedsEscaped)

/-- A kind of tokens that are no words and no strings. -/
def Kind.isSign (k : Kind) : Bool := k != .ident && k != .string && !k.isKeyword

namespace Token.Shaped

variable {k : Token} {behind : Text}

theorem of_isSign (hkind : k.kind.isSign = true)
    (hfeed : '\n' ∈ k.text → k.kind ∈ [.newline, .lineContinuation, .string, .error]) :
    k.Shaped behind := by
  simp only [Kind.isSign, Bool.and_eq_true, bne_iff_ne, Bool.not_eq_true'] at hkind
  exact ⟨fun h => by simp [hkind] at h, fun h => by simp [hkind] at h, hfeed,
    fun h => absurd h hkind.1.2⟩

/-- A string at the front of a text. -/
theorem string_front {c : Char} {cs : Text} {l : Nat}
    (h : StringLiteral.find? (c :: cs) = some (.closed, l)) (o : Nat) :
    Token.Shaped ⟨.string, c :: cs.take (l - 1), o⟩ behind := by
  have htake : c :: cs.take (l - 1) = (c :: cs).take l := by
    cases l with
    | zero =>
      obtain ⟨marks, q, body, hopen, -⟩ := StringLiteral.string_of_find? h
      cases hopen
    | succ l => rfl
  rw [htake]
  exact ⟨fun h => by simp [Kind.isKeyword, Kind.keywords] at h,
    fun h => by simp [Kind.isKeyword, Kind.keywords] at h, by simp,
    fun _ => StringLiteral.string_of_find? h⟩

/-- Marks and a quote that are read as a word. -/
theorem lone_front {c : Char} {cs : Text} {l : Nat}
    (h : StringLiteral.find? (c :: cs) = some (.word, l)) (o : Nat) :
    Token.Shaped ⟨.ident, c :: cs.take (l - 1), o⟩ (cs.drop (l - 1)) := by
  obtain ⟨marks, q, hopens, hne, htext, rfl⟩ := StringLiteral.eq_of_find?_word h
  have hlone : c :: cs.take (marks.length + 1 - 1) = marks ++ [q] := by
    have : (c :: cs).take (marks.length + 1) = marks ++ [q] := by
      rw [htext, List.take_length_add_append]
      rfl
    exact this
  have hbehind : cs.drop (marks.length + 1 - 1) = ['\\'] := by
    have : (c :: cs).drop (marks.length + 1) = ['\\'] := by
      rw [htext, List.drop_length_add_append]
      rfl
    exact this
  have hquote : q ∈ marks ++ [q] := by simp
  rw [hlone, hbehind]
  refine ⟨fun _ => ⟨.inr ⟨rfl, marks, q, hopens, hne, rfl⟩, ?_⟩, fun _ => ?_, fun hmem => ?_,
    by simp⟩
  · decide
  · -- no reserved word holds a quote
    have hletters : ∀ e ∈ Kind.keywords, ∀ x ∈ e.1, StringLiteral.isQuote x = false := by
      decide +kernel
    cases hword : Kind.ofKeyword? (marks ++ [q]) with
    | none => rfl
    | some kind =>
      have := hletters _ (Kind.mem_keywords hword) q hquote
      rw [hopens.isQuote] at this
      cases this
  · exact absurd hmem fun hmem => hopens.not_stops _ hmem (by decide)

/-- An identifier or a reserved word at the front of a text. -/
theorem word_front {c : Char} (cs : Text) (hc : isIdentifierStart c = true) (o : Nat) :
    Token.Shaped ⟨(munchWord c cs).1, c :: cs.take (munchWord c cs).2, o⟩
      (cs.drop (munchWord c cs).2) := by
  have hall : ∀ x ∈ cs.take (munchWord c cs).2, isIdentifierContinue x = true :=
    fun x hx => mem_take_runLength hx
  refine ⟨fun _ => ⟨.inl ⟨c, _, rfl, hc, hall⟩, ?_⟩, fun _ => rfl, fun hmem => ?_, fun h => ?_⟩
  · show ∀ x ∈ (cs.drop (runLength isIdentifierContinue cs)).head?, _
    rw [QuoteWords.drop_runLength]
    intro x hx
    have := List.head?_dropWhile_not isIdentifierContinue cs
    rw [Option.mem_def.1 hx] at this
    simpa using this
  · rcases List.mem_cons.1 hmem with rfl | hmem
    · exact absurd hc (by decide)
    · exact absurd (hall _ hmem) (by decide)
  · have hne : (munchWord c cs).1 ≠ .string :=
      Kind.of_ofKeyword (P := (· ≠ .string)) (by decide) (by decide) _
    exact absurd h hne

end Token.Shaped

/-- What the lexer finds at the front of a text has the shape of its kind. -/
theorem Munches.shaped {c : Char} {cs : Text} {found : Kind × Nat} (h : Munches c cs found)
    (o : Nat) : Token.Shaped ⟨found.1, c :: cs.take found.2, o⟩ (cs.drop found.2) := by
  cases h with
  | spaces hspace =>
    refine .of_isSign rfl fun hmem => ?_
    rcases List.mem_cons.1 hmem with rfl | hmem
    · exact absurd hspace (by decide)
    · exact absurd (mem_take_runLength hmem) (by decide)
  | lineFeed => exact .of_isSign rfl (by simp)
  | returnFeed => exact .of_isSign rfl (by simp)
  | slashFeed => exact .of_isSign rfl (by simp)
  | slashReturn => exact .of_isSign rfl (by simp)
  | comment hhash =>
    refine .of_isSign rfl fun hmem => ?_
    rcases List.mem_cons.1 hmem with rfl | hmem
    · exact absurd hhash (by decide)
    · exact absurd (mem_take_runLength hmem) (by decide)
  | string hfind => exact .string_front hfind o
  | lone hfind => exact .lone_front hfind o
  | word hc => exact .word_front cs hc o
  | @number f hf hc =>
    refine .of_isSign rfl fun hmem => ?_
    rcases List.mem_cons.1 hmem with rfl | hmem
    · rcases hc with hc | hc <;> exact absurd hc (by decide)
    · exact absurd hmem (hf.lineFeed_notMem cs)
  | @operator spelling kind hentry hfront =>
    have hspelled : ∀ e ∈ operators, e.1 ≠ [] ∧ '\n' ∉ e.1 ∧ e.2.isSign = true := by decide +kernel
    obtain ⟨hne, hfeed, hkind⟩ := hspelled _ hentry
    refine .of_isSign hkind fun hmem => ?_
    obtain ⟨x, s, rfl⟩ := List.exists_cons_of_ne_nil hne
    obtain ⟨rfl, ⟨rest, rfl⟩⟩ := List.cons_prefix_cons.1 hfront
    simp only [List.length_cons, Nat.add_sub_cancel, List.take_left] at hmem
    exact absurd hmem hfeed
  | error n => exact .of_isSign rfl (by simp)

/-! ## The tokens of a text -/

theorem shaped_tokenizeFrom (o : Nat) (t : Text) : ∀ before k after,
    tokenizeFrom o t = before ++ k :: after → k.Shaped (spelling after) := by
  fun_induction tokenizeFrom o t with
  | case1 => simp
  | case2 o c cs kind n hmunch text ih =>
    intro before k after h
    cases before with
    | nil =>
      obtain ⟨rfl, rfl⟩ := List.cons.inj h
      have hfound := (munches c cs).shaped o
      rw [hmunch] at hfound
      rwa [spelling_tokenizeFrom]
    | cons j before => exact ih before k after (List.cons.inj h).2

/-- Tokens partition the text and have the shape of their kind. None is empty, each
begins where those before it end, and together they spell the text. A word is an
identifier that cannot go on, and is reserved if the table says so; but marks of a string
and its quote are a word in front of a backslash that ends the text. Of all tokens only
ends of lines, strings and errors hold line feeds, and a string between single quotes
holds one only behind a backslash. -/
theorem tokens_have_shape (t : Text) :
    spelling (tokenize t) = t ∧
    ∀ before k after, tokenize t = before ++ k :: after →
      k.text ≠ [] ∧ k.offset = (spelling before).bytes ∧ k.Shaped (spelling after) := by
  refine ⟨spelling_tokenize t, fun before k after h => ⟨?_, ?_, ?_⟩⟩
  · exact (raw_tokenize (t := t) (by simp [h])).text_ne
  · have hchained := chained_tokenizeFrom 0 t
    rw [show tokenizeFrom 0 t = before ++ k :: after from h] at hchained
    simpa using offset_eq hchained
  · exact shaped_tokenizeFrom 0 t before k after h

/-- A text that ends in marks of a string, a quote and a backslash. -/
def loneMarks : Text := "x=rb'\\".toList

theorem tokens_have_shape_lone :
    tokenize loneMarks = [⟨.ident, "x".toList, 0⟩, ⟨.eq, "=".toList, 1⟩] ++
        ⟨.ident, "rb'".toList, 2⟩ :: [⟨.error, "\\".toList, 5⟩] ∧
      Token.Shaped ⟨.ident, "rb'".toList, 2⟩ ['\\'] := by
  have htokens : tokenize loneMarks = [⟨.ident, "x".toList, 0⟩, ⟨.eq, "=".toList, 1⟩] ++
      ⟨.ident, "rb'".toList, 2⟩ :: [⟨.error, "\\".toList, 5⟩] := by decide +kernel
  obtain ⟨-, -, hshaped⟩ := (tokens_have_shape loneMarks).2 _ _ _ htokens
  exact ⟨htokens, hshaped⟩

end SceneGate
