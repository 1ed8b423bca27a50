/-
What quoting does to tokens. If the text with quotes is a program, each of its
tokens is a token of the text without them, but that a name may be a string there
(`twin_tokenize`). Quotes that are put into a string end it, and behind it is a
name then, which no program has; quotes in a comment stay in the comment.
-/
import SceneGate.Proofs.Munching
import SceneGate.Proofs.Neighbours
import Mathlib.Data.List.Find

namespace SceneGate

open QuoteWords

variable {words : List Text} {before t p : Text} {c : Char}

namespace Quotes

theorem step (hc : isGap c = false) (h : Quotes (Apart words) (c :: before) t p) :
    t = [] ∧ p = [] ∨ ∃ x t' p', t = x :: t' ∧ p = x :: p' ∧
      Quotes (Apart words) (x :: c :: before) t' p' := by
  generalize hb : c :: before = b at h
  cases h with
  | nil => exact .inl ⟨rfl, rfl⟩
  | same h => exact .inr ⟨_, _, _, rfl, rfl, hb ▸ h⟩
  | word hmay =>
    have hgap := hmay.before c (by simp [← hb])
    rw [hc] at hgap
    cases hgap

/-- Behind a character that is no gap nothing changes before the next gap. -/
theorem agree (hc : isGap c = false) (h : Quotes (Apart words) (c :: before) t p) : Agree t p := by
  induction t generalizing c before p with
  | nil =>
    rcases h.step hc with ⟨-, rfl⟩ | ⟨x, t', p', heq, -⟩
    · exact .nil
    · cases heq
  | cons x t ih =>
    rcases h.step hc with ⟨heq, -⟩ | ⟨x, t', p', heq, rfl, h⟩
    · cases heq
    · cases heq
      cases hx : isGap x with
      | true => exact .gap hx
      | false => exact .cons hx (ih hx h)

theorem agree_behind {w : Text} (hw : ProseWord w)
    (h : Quotes (Apart words) (w.reverse ++ before) t p) : Agree t p := by
  obtain ⟨c, u, hcu, hc⟩ := hw.plain.reverse.exists_cons
  rw [hcu] at h
  refine agree ?_ h
  obtain ⟨hblank, -, hsign⟩ := isPlain_iff.1 hc
  rw [isGap, hblank, hsign, Bool.or_self]

theorem drop (hc : isGap c = false) (h : Quotes (Apart words) (c :: before) t p) {n : Nat}
    (hn : ∀ x ∈ t.take n, isGap x = false) :
    t.take n = p.take n ∧ ∃ b, Quotes (Apart words) b (t.drop n) (p.drop n) := by
  induction n generalizing c before t p with
  | zero => exact ⟨rfl, _, h⟩
  | succ n ih =>
    rcases h.step hc with ⟨rfl, rfl⟩ | ⟨x, t, p, rfl, rfl, hrest⟩
    · exact ⟨rfl, [], .nil⟩
    · obtain ⟨htake, hdrop⟩ := ih (hn x (by simp)) hrest fun y hy => hn y (by simp [hy])
      exact ⟨by simp [htake], hdrop⟩

section Words

variable (hW : ∀ w ∈ words, ProseWord w)

include hW

/-- A text that neither holds quotes nor begins a word is in front of both texts, or
of neither. -/
theorem isPrefixOf {s : Text} (hs : ∀ x ∈ s, x ≠ '"' ∧ isIdentifierStart x = false)
    (h : Quotes (Apart words) before t p) :
    s.isPrefixOf t = s.isPrefixOf p ∧ (s.isPrefixOf p = true →
      ∃ b, Quotes (Apart words) b (t.drop s.length) (p.drop s.length)) := by
  induction s generalizing before t p with
  | nil => exact ⟨rfl, fun _ => ⟨_, h⟩⟩
  | cons x s ih =>
    obtain ⟨hq, hstart⟩ := hs x (by simp)
    cases h with
    | nil => exact ⟨rfl, fun hp => by cases hp⟩
    | @same c _ t p h =>
      obtain ⟨heq, hdrop⟩ := ih (fun y hy => hs y (by simp [hy])) h
      refine ⟨by simp only [List.isPrefixOf, heq], fun hp => ?_⟩
      simp only [List.isPrefixOf, Bool.and_eq_true] at hp
      exact hdrop hp.2
    | @word _ w t p hmay h =>
      obtain ⟨d, cs, rfl, hd, -⟩ := (hW w hmay.mem).spelled
      have hxd : (x == d) = false := by
        refine beq_eq_false_iff_ne.2 ?_
        rintro rfl
        rw [hd] at hstart
        cases hstart
      have hxq : (x == '"') = false := beq_eq_false_iff_ne.2 hq
      simp [List.isPrefixOf, quoted, hxd, hxq]

/-- A run of characters that neither are quotes nor begin a word. -/
theorem run {f : Char → Bool} (hq : f '"' = false)
    (hf : ∀ x, isIdentifierStart x = true → f x = false) (h : Quotes (Apart words) before t p) :
    t.takeWhile f = p.takeWhile f ∧
      ∃ b, Quotes (Apart words) b (t.dropWhile f) (p.dropWhile f) := by
  induction h with
  | nil => exact ⟨rfl, [], .nil⟩
  | @same c b t p h ih =>
    rw [List.takeWhile_cons, List.takeWhile_cons, List.dropWhile_cons, List.dropWhile_cons]
    split
    · exact ⟨by rw [ih.1], ih.2⟩
    · exact ⟨rfl, b, .same h⟩
  | @word b w t p hmay h =>
    obtain ⟨d, cs, hw, hd, -⟩ := (hW w hmay.mem).spelled
    have hfd := hf d hd
    have hstop : (w ++ t).dropWhile f = w ++ t := by simp [hw, hfd]
    have hstop' : (quoted w ++ p).dropWhile f = quoted w ++ p := by simp [quoted, hq]
    rw [hstop, hstop']
    exact ⟨by simp [hw, quoted, hq, hfd], b, .word hmay h⟩

/-- A run of characters among which are quotes and letters. -/
theorem runThrough {f : Char → Bool} (hq : f '"' = true)
    (hf : ∀ x, isIdentifierContinue x = true → f x = true) (h : Quotes (Apart words) before t p) :
    ∃ b, Quotes (Apart words) b (t.dropWhile f) (p.dropWhile f) := by
  induction h with
  | nil => exact ⟨[], .nil⟩
  | @same c b t p h ih =>
    rw [List.dropWhile_cons, List.dropWhile_cons]
    split
    · exact ih
    · exact ⟨b, .same h⟩
  | @word b w t p hmay h ih =>
    have hw : ∀ x ∈ w, f x = true := fun x hx => hf x ((hW w hmay.mem).isIdentifierContinue x hx)
    have hquoted : ∀ x ∈ quoted w, f x = true := by
      intro x hx
      simp only [quoted, List.cons_append, List.mem_cons, List.mem_append, List.not_mem_nil,
        or_false] at hx
      rcases hx with rfl | hx | rfl
      · exact hq
      · exact hw x hx
      · exact hq
    rw [List.dropWhile_append_of_pos hw, List.dropWhile_append_of_pos hquoted]
    exact ih

end Words

end Quotes

/-! ## String literals -/

namespace StringLiteral

variable {q : Char} {m : Nat}

theorem shortBody_escape (q c : Char) (cs : Text) : shortBody q ('\\' :: c :: cs) =
    ((shortBody q cs).1 + 2, (shortBody q cs).2) := by
  rw [shortBody]

theorem shortBody_cons (hc : c ≠ '\\') (cs : Text) : shortBody q (c :: cs) =
    if c == q then (0, true) else if c == '\n' then (0, false)
    else ((shortBody q cs).1 + 1, (shortBody q cs).2) := by
  rw [shortBody]
  · intro h
    exact absurd h hc
  · intro _ _ h
    exact absurd h hc

theorem longBody_escape (q c : Char) (cs : Text) : longBody q ('\\' :: c :: cs) =
    ((longBody q cs).1 + 2, (longBody q cs).2) := by
  rw [longBody]

theorem longBody_cons (hc : c ≠ '\\') (hq : c ≠ q) (cs : Text) : longBody q (c :: cs) =
    ((longBody q cs).1 + 1, (longBody q cs).2) := by
  rw [longBody]
  · simp [hq]
  · intro h
    exact absurd h hc
  · intro _ _ h
    exact absurd h hc

theorem longBody_quote (hq : q ≠ '\\') {cs : Text} : longBody q (q :: cs) = (m, true) ↔
    [q, q].isPrefixOf cs = true ∧ m = 0 ∨
      [q, q].isPrefixOf cs = false ∧ ∃ k, longBody q cs = (k, true) ∧ m = k + 1 := by
  rw [longBody]
  · rw [if_pos (beq_self_eq_true q)]
    split
    · rename_i h
      simp [h, eq_comm]
    · rename_i h
      simp only [h, Bool.false_eq_true, false_and, false_or, true_and]
      generalize longBody q cs = r
      obtain ⟨n, closed⟩ := r
      cases n <;> cases closed <;> simp [eq_comm]
  · intro h
    exact absurd h hq
  · intro _ _ h
    exact absurd h hq

theorem shortBody_append {u : Text} (hu : ∀ x ∈ u, x ≠ '\\' ∧ x ≠ q ∧ x ≠ '\n') (p : Text) :
    shortBody q (u ++ p) = ((shortBody q p).1 + u.length, (shortBody q p).2) := by
  induction u with
  | nil => rfl
  | cons x u ih =>
    obtain ⟨hslash, hq, hfeed⟩ := hu x (by simp)
    rw [List.cons_append, shortBody_cons hslash, ih fun y hy => hu y (by simp [hy])]
    simp [hq, hfeed, Nat.add_assoc]

theorem longBody_append {u : Text} (hu : ∀ x ∈ u, x ≠ '\\' ∧ x ≠ q) (p : Text) :
    longBody q (u ++ p) = ((longBody q p).1 + u.length, (longBody q p).2) := by
  induction u with
  | nil => rfl
  | cons x u ih =>
    obtain ⟨hslash, hq⟩ := hu x (by simp)
    rw [List.cons_append, longBody_cons hslash hq, ih fun y hy => hu y (by simp [hy])]
    simp [Nat.add_assoc]

theorem isQuote_iff : isQuote q = true ↔ q = '"' ∨ q = '\'' := by
  simp [isQuote]

theorem not_isGap_of_isQuote (h : isQuote q = true) : isGap q = false := by
  rcases isQuote_iff.1 h with rfl | rfl <;> decide

theorem mem_proseWord {w : Text} (h : ProseWord w) {x : Char} (hx : x ∈ w) :
    x ≠ '\\' ∧ x ≠ '"' ∧ x ≠ '\'' ∧ x ≠ '\n' := by
  have hc := h.isIdentifierContinue x hx
  exact ⟨ne_of_isIdentifierContinue hc (by decide), ne_of_isIdentifierContinue hc (by decide),
    ne_of_isIdentifierContinue hc (by decide), ne_of_isIdentifierContinue hc (by decide)⟩

theorem mem_quoted {w : Text} {x : Char} : x ∈ quoted w ↔ x = '"' ∨ x ∈ w := by
  simp [quoted]
  tauto

theorem drop_behind (k l : Nat) (u v : Text) :
    (u ++ v).drop (k + u.length + l) = v.drop (k + l) := by
  rw [Nat.add_right_comm, Nat.add_comm (k + l), List.drop_length_add_append]

/-- Of a literal between single quote characters that closes in the text with quotes:
it closes in the text without them, unless quotes were put into it. -/
theorem of_shortBody (hW : ∀ w ∈ words, ProseWord w) (hq : isQuote q = true)
    (h : Quotes (Apart words) before t p) (hp : shortBody q p = (m, true)) :
    (∃ n b, shortBody q t = (n, true) ∧
        Quotes (Apart words) b (t.drop (n + 1)) (p.drop (m + 1))) ∨
      ∃ w ∈ words, ∃ r, p.drop (m + 1) = w ++ '"' :: r := by
  induction hn : p.length using Nat.strongRecOn generalizing before t p m with
  | _ n ih =>
    cases p with
    | nil => simp [shortBody] at hp
    | cons x p =>
      have hlt : p.length < n := by rw [← hn]; exact Nat.lt_succ_self _
      rcases h.of_cons_right with ⟨t, rfl, hrest⟩ | ⟨w, t, p', rfl, heq, hmay, hrest⟩
      · by_cases hslash : x = '\\'
        · subst hslash
          -- a backslash takes the next character with it, which is the same in both texts
          rcases hrest.step (by decide) with ⟨rfl, rfl⟩ | ⟨y, t, p, rfl, rfl, hrest'⟩
          · simp [shortBody] at hp
          · rw [shortBody_escape] at hp ⊢
            simp only [Prod.mk.injEq] at hp
            obtain ⟨rfl, hclosed⟩ := hp
            have hlt : p.length < n := by simp at hlt; omega
            rcases ih _ hlt hrest' (Prod.ext rfl hclosed) rfl with ⟨k, b, ht, hend⟩ | hbroken
            · exact .inl ⟨k + 2, b, by rw [ht], hend⟩
            · exact .inr hbroken
        · rw [shortBody_cons hslash] at hp ⊢
          split at hp
          · rename_i hx
            cases hp
            exact .inl ⟨0, _, by rw [if_pos hx], hrest⟩
          · rename_i hx
            split at hp
            · cases hp
            · rename_i hfeed
              simp only [Prod.mk.injEq] at hp
              obtain ⟨rfl, hclosed⟩ := hp
              rcases ih _ hlt hrest (Prod.ext rfl hclosed) rfl with ⟨k, b, ht, hend⟩ | hbroken
              · exact .inl ⟨k + 1, b, by rw [if_neg hx, if_neg hfeed, ht], hend⟩
              · exact .inr hbroken
      · have hw := hW w hmay.mem
        have hquoted : x :: p = '"' :: (w ++ '"' :: p') := by
          rw [heq, quoted]
          simp
        rcases isQuote_iff.1 hq with rfl | rfl
        · -- the quotes close the literal
          rw [hquoted, shortBody_cons (by decide), if_pos (beq_self_eq_true _)] at hp
          cases hp
          exact .inr ⟨w, hmay.mem, p', by rw [hquoted]; rfl⟩
        · have hinside : ∀ y ∈ quoted w, y ≠ '\\' ∧ y ≠ '\'' ∧ y ≠ '\n' := by
            intro y hy
            rcases mem_quoted.1 hy with rfl | hy
            · decide
            · obtain ⟨h₁, -, h₂, h₃⟩ := mem_proseWord hw hy
              exact ⟨h₁, h₂, h₃⟩
          have hword : ∀ y ∈ w, y ≠ '\\' ∧ y ≠ '\'' ∧ y ≠ '\n' :=
            fun y hy => hinside y (mem_quoted.2 (.inr hy))
          rw [heq, shortBody_append hinside] at hp
          simp only [Prod.mk.injEq] at hp
          obtain ⟨rfl, hclosed⟩ := hp
          have hlt : p'.length < n := by
            rw [← hn, heq]
            simp [quoted]
            omega
          rw [shortBody_append hword, heq, drop_behind]
          rcases ih _ hlt hrest (Prod.ext rfl hclosed) rfl with ⟨k, b, ht, hend⟩ | hbroken
          · exact .inl ⟨k + w.length, b, by rw [ht], by rw [drop_behind]; exact hend⟩
          · exact .inr hbroken

/-- Between three quote characters quotes may be put: behind them is a gap, so they
stand alone. -/
theorem of_longBody (hW : ∀ w ∈ words, ProseWord w) (hq : isQuote q = true)
    (h : Quotes (Apart words) before t p) (hp : longBody q p = (m, true)) :
    ∃ n b, longBody q t = (n, true) ∧
      Quotes (Apart words) b (t.drop (n + 3)) (p.drop (m + 3)) := by
  induction hn : p.length using Nat.strongRecOn generalizing before t p m with
  | _ n ih =>
    cases p with
    | nil => simp [longBody] at hp
    | cons x p =>
      have hlt : p.length < n := by rw [← hn]; exact Nat.lt_succ_self _
      rcases h.of_cons_right with ⟨t, rfl, hrest⟩ | ⟨w, t, p', rfl, heq, hmay, hrest⟩
      · by_cases hslash : x = '\\'
        · subst hslash
          rcases hrest.step (by decide) with ⟨rfl, rfl⟩ | ⟨y, t, p, rfl, rfl, hrest'⟩
          · simp [longBody] at hp
          · rw [longBody_escape] at hp ⊢
            simp only [Prod.mk.injEq] at hp
            obtain ⟨rfl, hclosed⟩ := hp
            have hlt : p.length < n := by simp at hlt; omega
            obtain ⟨k, b, ht, hend⟩ := ih _ hlt hrest' (Prod.ext rfl hclosed) rfl
            exact ⟨k + 2, b, by rw [ht], hend⟩
        · by_cases hx : x = q
          · subst hx
            have hgap := not_isGap_of_isQuote hq
            have hfront : [x, x].isPrefixOf t = [x, x].isPrefixOf p :=
              (hrest.agree hgap).isPrefixOf (by simp [hgap])
            rcases (longBody_quote hslash).1 hp with ⟨hthree, rfl⟩ | ⟨hthree, k, hk, rfl⟩
            · rw [hthree] at hfront
              have htwo : ∀ y ∈ t.take 2, isGap y = false := by
                obtain ⟨tail, htail⟩ := List.isPrefixOf_iff_prefix.1 hfront
                simp [← htail, hgap]
              obtain ⟨-, b, hend⟩ := hrest.drop hgap htwo
              exact ⟨0, b, (longBody_quote hslash).2 (.inl ⟨hfront, rfl⟩), hend⟩
            · rw [hthree] at hfront
              obtain ⟨j, b, ht, hend⟩ := ih _ hlt hrest hk rfl
              exact ⟨j + 1, b, (longBody_quote hslash).2 (.inr ⟨hfront, j, ht, rfl⟩), hend⟩
          · rw [longBody_cons hslash hx] at hp ⊢
            simp only [Prod.mk.injEq] at hp
            obtain ⟨rfl, hclosed⟩ := hp
            obtain ⟨k, b, ht, hend⟩ := ih _ hlt hrest (Prod.ext rfl hclosed) rfl
            exact ⟨k + 1, b, by rw [ht], hend⟩
      · have hw := hW w hmay.mem
        have hlt : p'.length < n := by
          rw [← hn, heq]
          simp [quoted]
          omega
        have hword : ∀ y ∈ w, y ≠ '\\' ∧ y ≠ q := by
          intro y hy
          obtain ⟨h₁, h₂, h₃, -⟩ := mem_proseWord hw hy
          rcases isQuote_iff.1 hq with rfl | rfl
          · exact ⟨h₁, h₂⟩
          · exact ⟨h₁, h₃⟩
        -- what is left of the literal in the text with quotes, behind the word
        obtain ⟨k, hk, rfl⟩ : ∃ k, longBody q p' = (k, true) ∧ m = k + (quoted w).length := by
          rw [heq] at hp
          rcases isQuote_iff.1 hq with rfl | rfl
          · obtain ⟨d, cs, hd, -⟩ := hw.spelled
            have hdq : d ≠ '"' := (hword d (by simp [hd])).2
            have hopen : ['"', '"'].isPrefixOf (w ++ '"' :: p') = false := by
              simp [hd, List.isPrefixOf, Ne.symm hdq]
            have hclose : ['"', '"'].isPrefixOf p' = false := by
              rw [← (hrest.agree_behind hw).isPrefixOf (by decide)]
              cases t with
              | nil => rfl
              | cons g t =>
                have hg : '"' ≠ g := by
                  rintro rfl
                  exact absurd (hmay.after '"' (by simp)) (by decide)
                simp [List.isPrefixOf, hg]
            rw [show quoted w ++ p' = '"' :: (w ++ '"' :: p') by simp [quoted]] at hp
            rcases (longBody_quote (by decide)).1 hp with ⟨h₁, -⟩ | ⟨-, k, hk, rfl⟩
            · rw [hopen] at h₁
              cases h₁
            · rw [longBody_append hword] at hk
              simp only [Prod.mk.injEq] at hk
              obtain ⟨rfl, hclosed⟩ := hk
              have hinner : longBody '"' ('"' :: p') = ((longBody '"' ('"' :: p')).fst, true) :=
                Prod.ext rfl hclosed
              rcases (longBody_quote (by decide)).1 hinner with ⟨h₂, -⟩ | ⟨-, k, hk, hlen⟩
              · rw [hclose] at h₂
                cases h₂
              · refine ⟨k, hk, ?_⟩
                simp only [quoted, List.cons_append, List.length_cons, List.length_append,
                  List.length_nil]
                omega
          · have hinside : ∀ y ∈ quoted w, y ≠ '\\' ∧ y ≠ '\'' := by
              intro y hy
              rcases mem_quoted.1 hy with rfl | hy
              · decide
              · exact hword y hy
            rw [longBody_append hinside] at hp
            simp only [Prod.mk.injEq] at hp
            exact ⟨_, Prod.ext rfl hp.2, hp.1.symm⟩
        obtain ⟨j, b, ht, hend⟩ := ih _ hlt hrest hk rfl
        refine ⟨j + w.length, b, by rw [longBody_append hword, ht], ?_⟩
        rw [heq, drop_behind, drop_behind]
        exact hend

theorem not_isGap_of_isMark (h : isMark c = true) : isGap c = false := by
  have hall : ∀ c ∈ "rRuUbBfF".toList, isGap c = false := by decide +kernel
  exact hall c (by simpa [isMark] using h)

/-- The same literal opens in both texts, or in neither. -/
theorem opening?_twin (h : Quotes (Apart words) (c :: before) t p) :
    opening? (c :: t) = none ∧ opening? (c :: p) = none ∨
      ∃ marks q b, isQuote q = true ∧ isGap c = false ∧ (∀ x ∈ t.take marks, isGap x = false) ∧
        opening? (c :: t) = some (marks, q, t.drop marks) ∧
        opening? (c :: p) = some (marks, q, p.drop marks) ∧
        Quotes (Apart words) (q :: b) (t.drop marks) (p.drop marks) := by
  by_cases hc : isQuote c = true
  · right
    exact ⟨0, c, before, hc, not_isGap_of_isQuote hc, by simp, by simp [opening?, hc],
      by simp [opening?, hc], h⟩
  · rw [Bool.not_eq_true] at hc
    cases hm : isMark c with
    | false => exact .inl ⟨opening?_of_not_isMark hc hm, opening?_of_not_isMark hc hm⟩
    | true =>
      have hgap := not_isGap_of_isMark hm
      rcases h.step hgap with ⟨rfl, rfl⟩ | ⟨x, t, p, rfl, rfl, hrest⟩
      · exact .inl ⟨by simp [opening?, hc], by simp [opening?, hc]⟩
      · by_cases hx : isQuote x = true
        · right
          exact ⟨1, x, _, hx, hgap, by simp [not_isGap_of_isQuote hx],
            by simp [opening?, hc, hm, hx], by simp [opening?, hc, hm, hx], hrest⟩
        · rw [Bool.not_eq_true] at hx
          cases htwo : areMarks c x with
          | false =>
            exact .inl ⟨by cases t <;> simp [opening?, hc, hx, htwo],
              by cases p <;> simp [opening?, hc, hx, htwo]⟩
          | true =>
            have hxgap := not_isGap_of_isMark (isMark_of_areMarks htwo).2
            rcases hrest.step hxgap with ⟨rfl, rfl⟩ | ⟨y, t, p, rfl, rfl, hrest'⟩
            · exact .inl ⟨by simp [opening?, hc, hx], by simp [opening?, hc, hx]⟩
            · by_cases hy : isQuote y = true
              · right
                exact ⟨2, y, _, hy, hgap, by simp [hxgap, not_isGap_of_isQuote hy],
                  by simp [opening?, hc, hx, htwo, hy], by simp [opening?, hc, hx, htwo, hy], hrest'⟩
              · rw [Bool.not_eq_true] at hy
                exact .inl ⟨by simp [opening?, hc, hx, hy], by simp [opening?, hc, hx, hy]⟩

end StringLiteral

/-! ## One token -/

/-- What comes of the first tokens of two texts, behind a first character that they
share: they are the same; or a literal or a comment, in which there may be more
quotes in the second text; or there is an error token in the second text, or a
string that ends before a word. -/
inductive Munched (words : List Text) (t p : Text) : Kind × Nat → Kind × Nat → Prop
  | same : t.take n = p.take n → Quotes (Apart words) b (t.drop n) (p.drop n) →
      Munched words t p (k, n) (k, n)
  | inside : k = .string ∨ k = .comment → Quotes (Apart words) b (t.drop n) (p.drop m) →
      Munched words t p (k, n) (k, m)
  | error : Munched words t p a (.error, m)
  | broken : w ∈ words → p.drop m = w ++ '"' :: r → Munched words t p a (.string, m)

namespace StringLiteral

variable {q : Char} {marks : Nat}

/-- The token that a literal becomes, behind its first character. -/
def token : Shape × Nat → Kind × Nat
  | (.closed, n) => (.string, n - 1)
  | (.unclosed, n) => (.error, n - 1)
  | (.word, n) => (.ident, n - 1)

theorem measure_twin (hW : ∀ w ∈ words, ProseWord w) (hq : isQuote q = true) (hc : isGap c = false)
    (hmarks : ∀ x ∈ t.take marks, isGap x = false) (h : Quotes (Apart words) (c :: before) t p)
    (hrest : Quotes (Apart words) (q :: b) (t.drop marks) (p.drop marks)) :
    Munched words t p (token (measure marks q (t.drop marks)))
      (token (measure marks q (p.drop marks))) := by
  have hgap := not_isGap_of_isQuote hq
  have hfront : [q, q].isPrefixOf (t.drop marks) = [q, q].isPrefixOf (p.drop marks) :=
    (hrest.agree hgap).isPrefixOf (by simp [hgap])
  unfold measure
  rw [hfront]
  split
  · rename_i hthree
    have htwo : ∀ y ∈ (t.drop marks).take 2, isGap y = false := by
      obtain ⟨tail, htail⟩ := List.isPrefixOf_iff_prefix.1 (hfront.trans hthree)
      simp [← htail, hgap]
    obtain ⟨-, b', hbody⟩ := hrest.drop hgap htwo
    cases hp : longBody q ((p.drop marks).drop 2) with
    | mk m closed =>
      cases closed with
      | false => exact .error
      | true =>
        obtain ⟨n, b', ht, hend⟩ := of_longBody hW hq hbody hp
        have hlen (k : Nat) : marks + k + 6 - 1 = marks + 2 + (k + 3) := by omega
        rw [ht]
        refine .inside (.inl rfl) (b := b') ?_
        rw [hlen, hlen]
        simpa only [List.drop_drop, Nat.add_assoc] using hend
  · have hlen (k : Nat) : marks + k + 2 - 1 = marks + (k + 1) := by omega
    cases hp : shortBody q (p.drop marks) with
    | mk m closed =>
      cases closed with
      | true =>
        rcases of_shortBody hW hq hrest hp with ⟨n, b', ht, hend⟩ | ⟨w, hw, r, hbroken⟩
        · rw [ht]
          refine .inside (.inl rfl) (b := b') ?_
          rw [hlen, hlen]
          simpa only [List.drop_drop, Nat.add_assoc] using hend
        · refine .broken hw (r := r) ?_
          rw [hlen, ← List.drop_drop]
          exact hbroken
      | false =>
        by_cases hword : marks ≠ 0 ∧ p.drop marks = ['\\']
        · have ht : t.drop marks = ['\\'] := by
            rw [hword.2] at hrest
            rcases hrest.step hgap with ⟨-, heq⟩ | ⟨x, u, v, hu, heq, hend⟩
            · cases heq
            · cases heq
              rw [hu, hend.of_nil_right]
          have hshort : shortBody q ['\\'] = (0, false) := by rw [shortBody]
          obtain ⟨htake, b', hdrop⟩ := h.drop hc hmarks
          rw [ht, hshort]
          simp only [hword.2, hword.1, ne_eq, not_false_eq_true, and_self, if_true]
          exact .same htake hdrop
        · dsimp only
          rw [if_neg hword]
          exact .error

end StringLiteral

section Munched

variable {k : Kind} (hW : ∀ w ∈ words, ProseWord w) (h : Quotes (Apart words) (c :: before) t p)

include hW h

/-- A run of spaces. -/
theorem Munched.spaces : Munched words t p (k, runLength isSpace t) (k, runLength isSpace p) := by
  have hstart : ∀ x, isIdentifierStart x = true → isSpace x = false := by
    intro x hx
    have hx := isIdentifierContinue_of_start hx
    simp only [isSpace, Bool.or_eq_false_iff, beq_eq_false_iff_ne]
    exact ⟨⟨ne_of_isIdentifierContinue hx (by decide), ne_of_isIdentifierContinue hx (by decide)⟩,
      ne_of_isIdentifierContinue hx (by decide)⟩
  obtain ⟨hrun, b, hdrop⟩ := h.run hW (f := isSpace) (by decide) hstart
  have hlen : runLength isSpace t = runLength isSpace p := by rw [runLength, hrun, runLength]
  rw [← drop_runLength, ← drop_runLength, ← hlen] at hdrop
  rw [← hlen]
  refine .same ?_ hdrop
  rw [take_runLength, hrun, hlen, take_runLength]

/-- A run of characters up to the end of the line. -/
theorem Munched.toLineEnd (hk : k = .comment) :
    Munched words t p (k, runLength (fun c => c != '\r' && c != '\n') t)
      (k, runLength (fun c => c != '\r' && c != '\n') p) := by
  have hletter : ∀ x, isIdentifierContinue x = true → (x != '\r' && x != '\n') = true := by
    intro x hx
    simp only [Bool.and_eq_true, bne_iff_ne]
    exact ⟨ne_of_isIdentifierContinue hx (by decide), ne_of_isIdentifierContinue hx (by decide)⟩
  obtain ⟨b, hdrop⟩ := h.runThrough hW (by decide) hletter
  rw [← drop_runLength, ← drop_runLength] at hdrop
  exact .inside (.inr hk) hdrop

/-- Signs and line breaks. -/
theorem Munched.spelled {s : Text} (hs : ∀ x ∈ s, x ≠ '"' ∧ isIdentifierStart x = false)
    (hp : s.isPrefixOf p = true) : Munched words t p (k, s.length) (k, s.length) := by
  obtain ⟨heq, hdrop⟩ := h.isPrefixOf hW hs
  obtain ⟨b, hdrop⟩ := hdrop hp
  refine .same ?_ hdrop
  have hs {u : Text} (hu : s.isPrefixOf u = true) : u.take s.length = s :=
    (List.prefix_iff_eq_take.1 (List.isPrefixOf_iff_prefix.1 hu)).symm
  rw [hs (heq.trans hp), hs hp]

omit hW in
/-- Words and numbers. -/
theorem Munched.upToGap {f : Text → Nat} (hf : Local f) (hc : isGap c = false) :
    Munched words t p (k, f t) (k, f p) := by
  obtain ⟨htake, b, hdrop⟩ := h.drop hc hf.inside
  rw [← hf.eq (h.agree hc)]
  exact .same htake hdrop

end Munched

theorem munch_return (t : Text) :
    munch '\r' t = if ['\n'].isPrefixOf t then (.newline, 1) else (.error, 0) := by
  cases t with
  | nil => rfl
  | cons x t =>
    by_cases hx : x = '\n'
    · subst hx
      rfl
    · simp [munch, isSpace, List.isPrefixOf, hx, Ne.symm hx]

theorem munch_backslash (t : Text) :
    munch '\\' t = if ['\n'].isPrefixOf t then (.lineContinuation, 1)
      else if ['\r', '\n'].isPrefixOf t then (.lineContinuation, 2) else (.error, 0) := by
  cases t with
  | nil => rfl
  | cons x t =>
    by_cases hx : x = '\n'
    · subst hx
      rfl
    · by_cases hr : x = '\r'
      · subst hr
        cases t with
        | nil => rfl
        | cons y t =>
          by_cases hy : y = '\n'
          · subst hy
            rfl
          · simp [munch, isSpace, List.isPrefixOf, hy, Ne.symm hy]
      · simp [munch, isSpace, List.isPrefixOf, hx, Ne.symm hx, hr, Ne.symm hr]

/-- Line breaks, within and between logical lines. -/
theorem munched_break (hW : ∀ w ∈ words, ProseWord w)
    (h : Quotes (Apart words) (c :: before) t p) (hc : c = '\r' ∨ c = '\\') :
    Munched words t p (munch c t) (munch c p) := by
  have hfeed := h.isPrefixOf hW (s := ['\n']) (by decide)
  have hreturn := h.isPrefixOf hW (s := ['\r', '\n']) (by decide)
  rcases hc with rfl | rfl
  · rw [munch_return, munch_return, hfeed.1]
    split
    · rename_i hp
      exact .spelled hW h (by decide) hp
    · exact .error
  · rw [munch_backslash, munch_backslash, hfeed.1, hreturn.1]
    split
    · rename_i hp
      exact .spelled hW h (by decide) hp
    split
    · rename_i hp
      exact .spelled hW h (s := ['\r', '\n']) (by decide) hp
    · exact .error

/-- Operators are spelled with other characters than quotes and letters. -/
theorem munched_operator (hW : ∀ w ∈ words, ProseWord w)
    (h : Quotes (Apart words) (c :: before) t p) :
    Munched words t p ((operator? (c :: t)).getD (.error, 0))
      ((operator? (c :: p)).getD (.error, 0)) := by
  have hspelled : ∀ e ∈ operators, ∀ x ∈ e.1, x ≠ '"' ∧ isIdentifierStart x = false := by
    decide +kernel
  have hfind : operators.find? (fun e => e.1.isPrefixOf (c :: t)) =
      operators.find? (fun e => e.1.isPrefixOf (c :: p)) := by
    refine List.find?_congr fun e he => ?_
    exact (h.same.isPrefixOf hW (hspelled e he)).1
  unfold operator?
  rw [hfind]
  cases hp : operators.find? fun e => e.1.isPrefixOf (c :: p) with
  | none => exact .error
  | some e =>
    obtain ⟨spelling, k⟩ := e
    have hfront : spelling.isPrefixOf (c :: p) = true := by simpa using List.find?_some hp
    have hmem := List.mem_of_find?_eq_some hp
    cases spelling with
    | nil =>
      have hne : ∀ e ∈ operators, e.1 ≠ [] := by decide +kernel
      exact absurd rfl (hne _ hmem)
    | cons x s =>
      simp only [List.isPrefixOf, Bool.and_eq_true] at hfront
      exact .spelled hW h (fun y hy => hspelled _ hmem y (by simp [hy])) hfront.2

theorem munched_munchWord (h : Quotes (Apart words) (c :: before) t p)
    (hc : isIdentifierContinue c = true) : Munched words t p (munchWord c t) (munchWord c p) := by
  have hgap := isGap_of_isIdentifierContinue hc
  have hlocal : Local (runLength isIdentifierContinue) :=
    .runLength fun _ => isGap_of_isIdentifierContinue
  obtain ⟨htake, b, hdrop⟩ := h.drop hgap hlocal.inside
  have hlen := hlocal.eq (h.agree hgap)
  unfold munchWord
  dsimp only
  rw [← hlen, ← htake]
  exact .same htake hdrop

/-- The token at the front of a text and the one at the front of the text with
quotes. -/
theorem munched (hW : ∀ w ∈ words, ProseWord w) (h : Quotes (Apart words) (c :: before) t p) :
    Munched words t p (munch c t) (munch c p) := by
  by_cases hspace : isSpace c = true
  · have hmunch (u : Text) : munch c u = (.whitespace, runLength isSpace u) := by
      simp [munch, hspace]
    rw [hmunch, hmunch]
    exact .spaces hW h
  by_cases hfeed : c = '\n'
  · have hmunch (u : Text) : munch c u = (.newline, 0) := by simp [munch, hfeed, isSpace]
    rw [hmunch, hmunch]
    exact .same rfl h
  by_cases hreturn : c = '\r'
  · exact munched_break hW h (.inl hreturn)
  by_cases hslash : c = '\\'
  · exact munched_break hW h (.inr hslash)
  by_cases hhash : c = '#'
  · have hmunch (u : Text) :
        munch c u = (.comment, runLength (fun c => c != '\r' && c != '\n') u) := by
      simp [munch, hhash, isSpace]
    rw [hmunch, hmunch]
    exact .toLineEnd hW h rfl
  -- what is left to tell apart: literals, words, numbers and operators
  have hmunch (u : Text) : munch c u =
      ((StringLiteral.opening? (c :: u)).map fun opening =>
        StringLiteral.token (StringLiteral.measure opening.1 opening.2.1 opening.2.2)).getD
        (if isIdentifierStart c then munchWord c u
        else if isAsciiDigit c then (.number, NumberLiteral.lengthAfter c u)
        else if c == '.' && NumberLiteral.pointedLength u != 0 then
          (.number, NumberLiteral.pointedLength u)
        else (operator? (c :: u)).getD (.error, 0)) := by
    unfold munch StringLiteral.find?
    simp only [hspace, beq_iff_eq, hfeed, hreturn, hslash, hhash, if_false, Bool.false_eq_true]
    cases StringLiteral.opening? (c :: u) with
    | none => rfl
    | some opening =>
      obtain ⟨marks, q, rest⟩ := opening
      simp only [Option.map_some]
      generalize StringLiteral.measure marks q rest = measured
      obtain ⟨shape, n⟩ := measured
      cases shape <;> rfl
  rw [hmunch, hmunch]
  rcases StringLiteral.opening?_twin h with ⟨ht, hp⟩ | ⟨marks, q, b, hq, hc, hmarks, ht, hp, hrest⟩
  · rw [ht, hp]
    simp only [Option.map_none, Option.getD_none]
    split
    · rename_i hstart
      exact munched_munchWord h (isIdentifierContinue_of_start hstart)
    split
    · rename_i hdigit
      have hcont := NumberLiteral.isIdentifierContinue_of_isAsciiDigit hdigit
      exact .upToGap h (NumberLiteral.local_lengthAfter c) (isGap_of_isIdentifierContinue hcont)
    by_cases hdot : c = '.'
    · subst hdot
      have hlen := NumberLiteral.local_pointedLength.eq (h.agree (by decide))
      rw [hlen]
      split
      · have hnumber : Munched words t p (.number, NumberLiteral.pointedLength t)
            (.number, NumberLiteral.pointedLength p) :=
          .upToGap h NumberLiteral.local_pointedLength (by decide)
        rwa [hlen] at hnumber
      · exact munched_operator hW h
    · simp only [beq_eq_false_iff_ne.2 hdot, Bool.false_and, Bool.false_eq_true, if_false]
      exact munched_operator hW h
  · rw [ht, hp]
    exact StringLiteral.measure_twin hW hq hc hmarks h hrest

/-! ## All tokens -/

/-- The tokens that go together in a text and in the text with quotes: tokens of the
same kind, with the same characters unless they are strings or comments; or a word
and a string. -/
def Token.Requoted (words : List Text) (k l : Token) : Prop :=
  k.kind = l.kind ∧ (k.kind = .string ∨ k.kind = .comment ∨ k.text = l.text) ∨
    k.kind = .ident ∧ l.kind = .string ∧ k.text ∈ words

theorem tokenizeFrom_cons {o n : Nat} {k : Kind} {cs : Text} (h : munch c cs = (k, n)) :
    tokenizeFrom o (c :: cs) = ⟨k, c :: cs.take n, o⟩ ::
      tokenizeFrom (o + Text.bytes (c :: cs.take n)) (cs.drop n) := by
  rw [tokenizeFrom, h]

/-- A word in quotes is one token. -/
theorem munch_quoted {w : Text} (hw : ProseWord w) (r : Text) :
    munch '"' (w ++ '"' :: r) = (.string, w.length + 1) := by
  have hinside : ∀ x ∈ w, x ≠ '\\' ∧ x ≠ '"' ∧ x ≠ '\n' := by
    intro x hx
    obtain ⟨h₁, h₂, -, h₃⟩ := StringLiteral.mem_proseWord hw hx
    exact ⟨h₁, h₂, h₃⟩
  have hopen : ['"', '"'].isPrefixOf (w ++ '"' :: r) = false := by
    obtain ⟨d, cs, rfl, -⟩ := hw.spelled
    simp [List.isPrefixOf, Ne.symm (hinside d (by simp)).2.1]
  have hbody : StringLiteral.shortBody '"' ('"' :: r) = (0, true) :=
    StringLiteral.shortBody_cons (by decide) r
  have hmeasure : StringLiteral.measure 0 '"' (w ++ '"' :: r) = (.closed, w.length + 2) := by
    rw [StringLiteral.measure, hopen, StringLiteral.shortBody_append hinside, hbody]
    simp
  simp [munch, isSpace, StringLiteral.find?, StringLiteral.opening?, StringLiteral.isQuote, hmeasure]

/-- Each token of a text with quotes is one of the text without them, if that is what
the tokens of a program may be. The induction is on how much of the text is left. -/
theorem requoted_tokenizeFrom (hW : ∀ w ∈ words, ProseWord w)
    (h : Quotes (Apart words) before t p) (o o' : Nat)
    (hn : Neighbours ((tokenizeFrom o' p).map Token.kind)) :
    List.Forall₂ (Token.Requoted words) (tokenizeFrom o t) (tokenizeFrom o' p) := by
  induction hlen : p.length using Nat.strongRecOn generalizing before t p o o' with
  | _ len ih =>
    cases h with
    | nil =>
      rw [tokenizeFrom, tokenizeFrom]
      exact .nil
    | @same c before t p h =>
      have hm := munched hW h
      generalize ht : munch c t = a at hm
      generalize hp : munch c p = b at hm
      have hshort (m : Nat) : (p.drop m).length < len := by
        simp at hlen ⊢
        omega
      cases hm with
      | @same n b k htake hdrop =>
        rw [tokenizeFrom_cons hp, List.map_cons] at hn
        rw [tokenizeFrom_cons ht, tokenizeFrom_cons hp]
        refine .cons (.inl ⟨rfl, .inr (.inr (by simp [htake]))⟩) ?_
        exact ih _ (hshort n) hdrop _ _ hn.tail rfl
      | @inside k b n m hk hdrop =>
        rw [tokenizeFrom_cons hp, List.map_cons] at hn
        rw [tokenizeFrom_cons ht, tokenizeFrom_cons hp]
        refine .cons (.inl ⟨rfl, hk.imp id .inl⟩) ?_
        exact ih _ (hshort m) hdrop _ _ hn.tail rfl
      | error =>
        rw [tokenizeFrom_cons hp] at hn
        exact absurd (by simp) hn.noError
      | @broken w m r a hw hdrop =>
        -- the next token is a name
        obtain ⟨d, cs, rfl, -⟩ := (hW w hw).spelled
        have hword := munch_word (hW _ hw) (r := '"' :: r) (by simp; decide)
        rw [tokenizeFrom_cons hp, hdrop, List.cons_append, tokenizeFrom_cons hword] at hn
        exact absurd hn.apart (by simp)
    | @word before w t p hmay h =>
      have hw := hW w hmay.mem
      obtain ⟨d, cs, rfl, -⟩ := hw.spelled
      have hafter : ∀ x ∈ t.head?, isIdentifierContinue x = false :=
        fun x hx => isIdentifierContinue_of_isGap (hmay.after x hx)
      have ht := munch_word hw hafter
      have hp := munch_quoted hw p
      have htext : quoted (d :: cs) ++ p = '"' :: (d :: cs ++ '"' :: p) := by simp [quoted]
      rw [htext, tokenizeFrom_cons hp] at hn
      rw [htext, List.cons_append, tokenizeFrom_cons ht, tokenizeFrom_cons hp]
      rw [List.take_left, List.drop_left]
      have hdrop : (d :: cs ++ '"' :: p).drop ((d :: cs).length + 1) = p := by
        rw [List.drop_length_add_append]
        rfl
      rw [hdrop] at hn ⊢
      refine .cons (.inr ⟨rfl, rfl, hmay.mem⟩) ?_
      refine ih p.length ?_ h _ _ (Neighbours.tail hn) rfl
      rw [← hlen, htext]
      simp
      omega

end SceneGate
