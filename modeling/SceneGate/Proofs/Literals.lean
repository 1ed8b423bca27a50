/-
String literals. Between single quotes stand characters and escapes, and between three also
one or two quotes in front of one of these. The two readers of bodies read such items up to
the first closing quotes and nothing else (`shortBody_eq_closed`, `longBody_eq_closed`), so
the strings in front of a text are those that are spelled like this, whatever else could be
read there (`tokenizeFrom_string_iff`).
-/
import SceneGate.Proofs.LineFeeds
import SceneGate.Proofs.TokenShapes

namespace SceneGate

namespace StringLiteral

variable {q : Char} {p t rest : Text} {items : List Text} {Item : Text → Prop} {close : Text}
  {n l : Nat}

/-! ## Marks -/

/-- The letters that may stand in front of the quotes. -/
def stringMarks : List Text :=
  [[], ['r'], ['R'], ['u'], ['U'], ['b'], ['B'], ['f'], ['F'],
    ['b', 'r'], ['b', 'R'], ['B', 'r'], ['B', 'R'], ['r', 'b'], ['r', 'B'], ['R', 'b'], ['R', 'B'],
    ['f', 'r'], ['f', 'R'], ['F', 'r'], ['F', 'R'], ['r', 'f'], ['r', 'F'], ['R', 'f'], ['R', 'F']]

theorem opens_iff {marks : Text} : Opens q marks ↔ marks ∈ stringMarks ∧ isQuote q = true := by
  constructor
  · intro h
    refine ⟨?_, h.isQuote⟩
    cases h with
    | bare => exact List.mem_cons_self
    | one ha =>
      have hone : ∀ a ∈ "rRuUbBfF".toList, [a] ∈ stringMarks := by decide
      exact hone _ (by simpa [isMark] using ha)
    | two hab =>
      have htwo : ∀ a ∈ "rRuUbBfF".toList, ∀ b ∈ "rRuUbBfF".toList,
          areMarks a b = true → [a, b] ∈ stringMarks := by decide
      obtain ⟨ha, hb⟩ := isMark_of_areMarks hab
      exact htwo _ (by simpa [isMark] using ha) _ (by simpa [isMark] using hb) hab
  · rintro ⟨hmarks, hq⟩
    have hopen : ∀ q ∈ ['"', '\''], ∀ marks ∈ stringMarks,
        opening? (marks ++ [q]) = some (marks.length, q, []) := by decide
    obtain ⟨marks', hopens, -, heq⟩ :=
      opening?_iff.1 (hopen q (by simpa using isQuote_iff.1 hq) marks hmarks)
    exact List.append_cancel_right heq ▸ hopens

/-! ## Bodies -/

/-- A character that is written as it is between quotes `q`, or any one behind a backslash. -/
inductive Piece (q : Char) : Text → Prop
  | plain {c : Char} : c ≠ q → c ≠ '\\' → Piece q [c]
  | escaped (c : Char) : Piece q ['\\', c]

/-- What may stand between single quotes: a line feed only behind a backslash. -/
def ShortItem (q : Char) (item : Text) : Prop := Piece q item ∧ item ≠ ['\n']

/-- What may stand between three quotes: one or two quotes in front of something else. -/
inductive LongItem (q : Char) : Text → Prop
  | bare {p : Text} : Piece q p → LongItem q p
  | one {p : Text} : Piece q p → LongItem q (q :: p)
  | two {p : Text} : Piece q p → LongItem q (q :: q :: p)

/-- A text begins with items of `n` characters, and behind them with what closes a string. -/
inductive Itemized (Item : Text → Prop) (close : Text) : Text → Nat → Prop
  | nil (rest : Text) : Itemized Item close (close ++ rest) 0
  | cons {p t : Text} {n : Nat} : Item p → Itemized Item close t n →
      Itemized Item close (p ++ t) (n + p.length)

theorem itemized_iff : Itemized Item close t n ↔
    ∃ (items : List Text) (rest : Text), (∀ i ∈ items, Item i) ∧
      t = items.flatten ++ close ++ rest ∧ n = items.flatten.length := by
  constructor
  · intro h
    induction h with
    | nil rest => exact ⟨[], rest, List.forall_mem_nil _, rfl, rfl⟩
    | @cons p t n hp _ ih =>
      obtain ⟨items, rest, hitems, rfl, rfl⟩ := ih
      exact ⟨p :: items, rest, List.forall_mem_cons.2 ⟨hp, hitems⟩, by simp,
        by rw [List.flatten_cons, List.length_append, Nat.add_comm]⟩
  · rintro ⟨items, rest, hitems, rfl, rfl⟩
    induction items with
    | nil => exact .nil rest
    | cons p items ih =>
      obtain ⟨hp, hitems⟩ := List.forall_mem_cons.1 hitems
      rw [List.flatten_cons, List.append_assoc p, List.append_assoc p, List.length_append,
        Nat.add_comm]
      exact .cons hp (ih hitems)

/-- A reader that passes over an item in front of a text reads items if it does behind it. -/
theorem Itemized.behind {f : Text → Nat × Bool} (hf : f (p ++ t) = ((f t).1 + p.length, (f t).2))
    (hp : Item p) (h : f (p ++ t) = (n, true))
    (ih : ∀ k, f t = (k, true) → Itemized Item close t k) : Itemized Item close (p ++ t) n := by
  rw [hf] at h
  generalize hbody : f t = body at h
  obtain ⟨k, closed⟩ := body
  obtain ⟨rfl, rfl⟩ := Prod.mk.inj h
  exact .cons hp (ih k hbody)

theorem ne_backslash (hq : isQuote q = true) : q ≠ '\\' := by
  rcases isQuote_iff.1 hq with rfl | rfl <;> decide

theorem Piece.exists_cons (h : Piece q p) (hq : isQuote q = true) : ∃ c u, p = c :: u ∧ q ≠ c := by
  cases h with
  | plain hc => exact ⟨_, [], rfl, hc.symm⟩
  | escaped c => exact ⟨'\\', [c], rfl, ne_backslash hq⟩

theorem shortBody_item (h : ShortItem q p) (t : Text) :
    shortBody q (p ++ t) = ((shortBody q t).1 + p.length, (shortBody q t).2) := by
  obtain ⟨hp, hfeed⟩ := h
  cases hp with
  | plain hc hslash =>
    rw [List.singleton_append, shortBody_cons hslash, if_neg (by simpa using hc),
      if_neg (by simpa using hfeed)]
    rfl
  | escaped c => exact shortBody_escape q c t

/-- A body between single quotes goes up to the first quote that is part of no item. -/
theorem shortBody_eq_closed (hq : isQuote q = true) :
    shortBody q t = (n, true) ↔ Itemized (ShortItem q) [q] t n := by
  constructor
  · intro h
    induction hlen : t.length using Nat.strongRecOn generalizing t n with
    | ind _ ih =>
    subst hlen
    have hbehind {p u : Text} (hp : ShortItem q p) (hne : p ≠ []) (ht : t = p ++ u) :
        Itemized (ShortItem q) [q] t n := by
      subst ht
      have hpos := List.length_pos_iff.2 hne
      exact .behind (shortBody_item hp u) hp h fun k hk =>
        ih u.length (by rw [List.length_append]; omega) hk rfl
    rcases t with _ | ⟨c, u⟩
    · cases h
    by_cases hslash : c = '\\'
    · subst hslash
      rcases u with _ | ⟨d, u⟩
      · cases h
      · exact hbehind ⟨.escaped d, by simp⟩ (List.cons_ne_nil _ _) rfl
    by_cases hc : c = q
    · subst hc
      rw [shortBody_cons hslash, if_pos (beq_self_eq_true c)] at h
      obtain ⟨rfl, -⟩ := Prod.mk.inj h
      exact .nil u
    by_cases hfeed : c = '\n'
    · rw [shortBody_cons hslash, if_neg (by simpa using hc), if_pos (by simpa using hfeed)] at h
      cases h
    · exact hbehind (p := [c]) ⟨.plain hc hslash, by simpa using hfeed⟩ (List.cons_ne_nil _ _) rfl
  · intro h
    induction h with
    | nil rest =>
      rw [List.singleton_append, shortBody_cons (ne_backslash hq), if_pos (beq_self_eq_true q)]
    | cons hp _ ih => rw [shortBody_item hp, ih]

theorem longBody_piece (h : Piece q p) (t : Text) :
    longBody q (p ++ t) = ((longBody q t).1 + p.length, (longBody q t).2) := by
  cases h with
  | plain hc hslash => exact longBody_cons hslash hc t
  | escaped c => exact longBody_escape q c t

theorem longBody_item (hq : isQuote q = true) (hp : LongItem q p) (h : longBody q t = (n, true)) :
    longBody q (p ++ t) = (n + p.length, true) := by
  have hpiece {p : Text} (hp : Piece q p) : longBody q (p ++ t) = (n + p.length, true) := by
    rw [longBody_piece hp, h]
  have hone {p : Text} (hp : Piece q p) : longBody q (q :: p ++ t) = (n + p.length + 1, true) := by
    refine (longBody_quote (ne_backslash hq)).2 (.inr ⟨?_, _, hpiece hp, rfl⟩)
    obtain ⟨c, u, rfl, hc⟩ := hp.exists_cons hq
    simp [List.isPrefixOf, hc]
  cases hp with
  | bare hp => exact hpiece hp
  | one hp => exact hone hp
  | two hp =>
    refine (longBody_quote (ne_backslash hq)).2 (.inr ⟨?_, _, hone hp, rfl⟩)
    obtain ⟨c, u, rfl, hc⟩ := hp.exists_cons hq
    simp [List.isPrefixOf, hc]

/-- A body between three quotes goes up to the first three quotes behind items. -/
theorem longBody_eq_closed (hq : isQuote q = true) :
    longBody q t = (n, true) ↔ Itemized (LongItem q) [q, q, q] t n := by
  constructor
  · intro h
    induction hlen : t.length using Nat.strongRecOn generalizing t n with
    | ind _ ih =>
    subst hlen
    have hbehind {p u : Text} (hp : Piece q p) (hne : p ≠ []) (ht : t = p ++ u) :
        Itemized (LongItem q) [q, q, q] t n := by
      subst ht
      have hpos := List.length_pos_iff.2 hne
      exact .behind (longBody_piece hp u) (.bare hp) h fun k hk =>
        ih u.length (by rw [List.length_append]; omega) hk rfl
    rcases t with _ | ⟨c, u⟩
    · cases h
    by_cases hslash : c = '\\'
    · subst hslash
      rcases u with _ | ⟨d, u⟩
      · cases h
      · exact hbehind (.escaped d) (List.cons_ne_nil _ _) rfl
    by_cases hc : c = q
    · subst hc
      rcases (longBody_quote hslash).1 h with ⟨hpre, rfl⟩ | ⟨hpre, k, hbody, rfl⟩
      · obtain ⟨v, rfl⟩ := List.isPrefixOf_iff_prefix.1 hpre
        exact .nil v
      · -- the quote belongs to the item behind it, which has fewer than two of its own
        cases ih u.length (by simp) hbody rfl with
        | nil rest => simp [List.isPrefixOf] at hpre
        | @cons p t n hp hrest =>
          have hmore (hp : LongItem c (c :: p)) :
              Itemized (LongItem c) [c, c, c] (c :: (p ++ t)) (n + p.length + 1) :=
            .cons hp hrest
          cases hp with
          | bare hp => exact hmore (.one hp)
          | one hp => exact hmore (.two hp)
          | two hp => simp [List.isPrefixOf] at hpre
    · exact hbehind (p := [c]) (.plain hc hslash) (List.cons_ne_nil _ _) rfl
  · intro h
    induction h with
    | nil rest =>
      exact (longBody_quote (ne_backslash hq)).2 (.inl ⟨by simp [List.isPrefixOf], rfl⟩)
    | cons hp _ ih => exact longBody_item hq hp ih

/-! ## Strings -/

/-- A string that stands in front of a text: marks, and items between single quotes or three.
No items between single quotes in front of another quote would open three. -/
inductive Spelled (rest : Text) : Text → Prop
  | short {marks : Text} {q : Char} {items : List Text} : marks ∈ stringMarks →
      isQuote q = true → (∀ i ∈ items, ShortItem q i) → items ≠ [] ∨ rest.head? ≠ some q →
      Spelled rest (marks ++ q :: items.flatten ++ [q])
  | long {marks : Text} {q : Char} {items : List Text} : marks ∈ stringMarks →
      isQuote q = true → (∀ i ∈ items, LongItem q i) →
      Spelled rest (marks ++ q :: q :: q :: items.flatten ++ [q, q, q])

theorem Spelled.ne_nil {s : Text} (h : Spelled rest s) : s ≠ [] := by
  cases h <;> simp

/-- What is measured as closed at the front of a text is a string that is spelled there. -/
theorem spelled_of_find? (h : find? t = some (.closed, l)) :
    ∃ s rest, t = s ++ rest ∧ s.length = l ∧ Spelled rest s := by
  obtain ⟨⟨m, q, u⟩, hopen, hmeasure⟩ := Option.map_eq_some_iff.1 h
  obtain ⟨marks, hopens, rfl, rfl⟩ := opening?_iff.1 hopen
  have hmeasure : measure marks.length q u = (.closed, l) := hmeasure
  obtain ⟨hmarks, hq⟩ := opens_iff.1 hopens
  rcases measure_eq_closed.1 hmeasure with ⟨v, k, rfl, hbody, rfl⟩ | ⟨hpre, k, hbody, rfl⟩
  · obtain ⟨items, rest, hitems, rfl, rfl⟩ := itemized_iff.1 ((longBody_eq_closed hq).1 hbody)
    refine ⟨_, rest, ?_, ?_, .long hmarks hq hitems⟩
    · simp
    · simp only [List.length_append, List.length_cons, List.length_nil]
      omega
  · obtain ⟨items, rest, hitems, rfl, rfl⟩ := itemized_iff.1 ((shortBody_eq_closed hq).1 hbody)
    refine ⟨_, rest, ?_, ?_, .short hmarks hq hitems ?_⟩
    · simp
    · simp only [List.length_append, List.length_cons, List.length_nil]
      omega
    · -- without items, another quote would open three
      rcases Decidable.em (items = []) with rfl | hne
      · refine .inr fun hrest => ?_
        obtain ⟨rest, rfl⟩ := List.head?_eq_some_iff.1 hrest
        simp [List.isPrefixOf] at hpre
      · exact .inl hne

theorem Spelled.find? {s : Text} (h : Spelled rest s) :
    StringLiteral.find? (s ++ rest) = some (.closed, s.length) := by
  cases h with
  | @short marks q items hmarks hq hitems hrest =>
    have hopen : opening? (marks ++ q :: items.flatten ++ [q] ++ rest) =
        some (marks.length, q, items.flatten ++ [q] ++ rest) :=
      opening?_iff.2 ⟨marks, opens_iff.2 ⟨hmarks, hq⟩, rfl, by simp⟩
    have hpre : [q, q].isPrefixOf (items.flatten ++ [q] ++ rest) = false := by
      rcases items with _ | ⟨i, items⟩
      · cases rest with
        | nil => simp [List.isPrefixOf]
        | cons c rest =>
          have hc : q ≠ c := fun hc => hrest.resolve_left (fun h => h rfl) (hc ▸ rfl)
          simp [List.isPrefixOf, hc]
      · obtain ⟨c, u, rfl, hc⟩ := (List.forall_mem_cons.1 hitems).1.1.exists_cons hq
        simp [List.isPrefixOf, hc]
    have hbody := (shortBody_eq_closed hq).2 (itemized_iff.2 ⟨items, rest, hitems, rfl, rfl⟩)
    rw [StringLiteral.find?, hopen, Option.map_some]
    refine congrArg some (measure_eq_closed.2 (.inr ⟨hpre, _, hbody, ?_⟩))
    simp only [List.length_append, List.length_cons, List.length_nil]
    omega
  | @long marks q items hmarks hq hitems =>
    have hopen : opening? (marks ++ q :: q :: q :: items.flatten ++ [q, q, q] ++ rest) =
        some (marks.length, q, q :: q :: (items.flatten ++ [q, q, q] ++ rest)) :=
      opening?_iff.2 ⟨marks, opens_iff.2 ⟨hmarks, hq⟩, rfl, by simp⟩
    have hbody := (longBody_eq_closed hq).2 (itemized_iff.2 ⟨items, rest, hitems, rfl, rfl⟩)
    rw [StringLiteral.find?, hopen, Option.map_some]
    refine congrArg some (measure_eq_closed.2 (.inl ⟨_, _, rfl, hbody, ?_⟩))
    simp only [List.length_append, List.length_cons, List.length_nil]
    omega

end StringLiteral

open StringLiteral

variable {c : Char} {cs : Text} {l n : Nat}

theorem munch_of_find? (h : find? (c :: cs) = some (.closed, l)) :
    munch c cs = (.string, l - 1) := by
  obtain ⟨⟨m, q, u⟩, hopen, hmeasure⟩ := Option.map_eq_some_iff.1 h
  have hmeasure : measure m q u = (.closed, l) := hmeasure
  rw [munch_of_opening? hopen, hmeasure]
  rfl

theorem find?_of_munch (h : munch c cs = (.string, n)) :
    ∃ l, find? (c :: cs) = some (.closed, l) ∧ n = l - 1 := by
  have hfound := munches c cs
  generalize munch c cs = found at h hfound
  cases hfound with
  | string hfind =>
    cases h
    exact ⟨_, hfind, rfl⟩
  | word =>
    have hne : (munchWord c cs).1 ≠ .string :=
      Kind.of_ofKeyword (P := (· ≠ .string)) (by decide) (by decide) _
    exact absurd (congrArg Prod.fst h) hne
  | operator hentry =>
    have hkinds : ∀ e ∈ operators, e.2 ≠ .string := by decide +kernel
    exact absurd (congrArg Prod.fst h) (hkinds _ hentry)
  | _ => cases h

/-- Strings are recognised exactly: what is one token at the front of a text, and a string,
is spelled with marks that are allowed and items between quotes, and whatever is spelled like
this is one token, whatever the text goes on with. Only two quotes with nothing between them
are no string in front of a third. -/
theorem tokenizeFrom_string_iff (o : Nat) (s rest : Text) :
    tokenizeFrom o (s ++ rest) = ⟨.string, s, o⟩ :: tokenizeFrom (o + s.bytes) rest ↔
      Spelled rest s := by
  constructor
  · intro h
    obtain ⟨c, cs, htext⟩ : ∃ c cs, s ++ rest = c :: cs :=
      List.exists_cons_of_ne_nil fun hnil => by
        rw [hnil, tokenizeFrom] at h
        cases h
    have hmunch : munch c cs = ((munch c cs).1, (munch c cs).2) := rfl
    rw [htext, tokenizeFrom_cons hmunch] at h
    obtain ⟨hkind, hs, -⟩ := Token.mk.inj (List.cons.inj h).1
    have hstring : munch c cs = (.string, (munch c cs).2) := Prod.ext hkind rfl
    obtain ⟨l, hfind, hn⟩ := find?_of_munch hstring
    obtain ⟨s', rest', htext', rfl, hspelled⟩ := spelled_of_find? hfind
    obtain ⟨d, ds, rfl⟩ := List.exists_cons_of_ne_nil hspelled.ne_nil
    rw [List.cons_append] at htext'
    obtain ⟨rfl, rfl⟩ := List.cons.inj htext'
    rw [List.length_cons, Nat.add_sub_cancel] at hn
    obtain rfl : c :: ds = s := by rw [← hs, hn, List.take_left]
    obtain rfl : rest = rest' := List.append_cancel_left (List.cons.inj htext).2
    exact hspelled
  · intro h
    obtain ⟨c, cs, rfl⟩ := List.exists_cons_of_ne_nil h.ne_nil
    have hmunch : munch c (cs ++ rest) = (.string, cs.length) := munch_of_find? h.find?
    rw [List.cons_append, tokenizeFrom_cons hmunch, List.take_left, List.drop_left]

end SceneGate
