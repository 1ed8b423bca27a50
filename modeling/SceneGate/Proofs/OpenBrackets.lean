/-
The brackets that nothing closes, told without a stack: behind such a bracket the closing
brackets never outnumber the opening ones (`mem_unclosed`). An opening bracket of a text is
one character, told by the bracket that is to close it (`text_of_closer?`), and no two open
at one place (`eq_of_offset_eq`).
-/
import SceneGate.Proofs.Brackets
import SceneGate.Proofs.LaidOut
import SceneGate.Proofs.TokenShapes

namespace SceneGate

/-- Whether a token of the kind opens a bracket. -/
def Kind.opens (k : Kind) : Bool := k.closer?.isSome

theorem Kind.opens_of_closer? {k close : Kind} (h : k.closer? = some close) : k.opens = true := by
  rw [Kind.opens, h]
  rfl

/-- Whether a token of the kind closes a bracket. -/
def Kind.closes (k : Kind) : Bool := [Kind.rParen, .rBracket, .rBrace].contains k

/-- However far one reads in the tokens, no more brackets have been closed than were opened
in them and `n` before. -/
def Outlasts (n : Nat) (ts : List Token) : Prop :=
  ∀ p, p <+: ts → p.countP (·.kind.closes) ≤ p.countP (·.kind.opens) + n

section

variable {n o : Nat} {k : Token} {ts : List Token} {stack : List Nat}

theorem outlasts_nil : Outlasts n [] := by
  intro p hp
  rw [List.prefix_nil.1 hp]
  exact Nat.zero_le _

theorem outlasts_cons_iff : Outlasts n (k :: ts) ↔ ∀ p, p <+: ts →
    p.countP (·.kind.closes) + k.kind.closes.toNat ≤
      p.countP (·.kind.opens) + k.kind.opens.toNat + n := by
  have hcount (f : Kind → Bool) (p : List Token) :
      (k :: p).countP (fun k => f k.kind) = p.countP (fun k => f k.kind) + (f k.kind).toNat := by
    rw [List.countP_cons]
    cases f k.kind <;> rfl
  constructor
  · intro h p hp
    have := h (k :: p) (List.cons_prefix_cons.2 ⟨rfl, hp⟩)
    rwa [hcount, hcount] at this
  · intro h p hp
    rcases List.prefix_cons_iff.1 hp with rfl | ⟨p, rfl, hp⟩
    · exact Nat.zero_le _
    · have := h p (List.cons_prefix_cons.1 hp).2
      rwa [hcount, hcount]

theorem Kind.closes_of_opens {k : Kind} (h : k.opens = true) : k.closes = false := by
  revert h
  cases k <;> decide

theorem outlasts_opens (hk : k.kind.opens = true) : Outlasts n (k :: ts) ↔ Outlasts (n + 1) ts := by
  rw [outlasts_cons_iff, hk, Kind.closes_of_opens hk]
  refine forall₂_congr fun p _ => ?_
  simp only [Bool.toNat_true, Bool.toNat_false]
  omega

theorem outlasts_closes (ho : k.kind.opens = false) (hk : k.kind.closes = true) :
    Outlasts n (k :: ts) ↔ ∃ m, n = m + 1 ∧ Outlasts m ts := by
  rw [outlasts_cons_iff, hk, ho]
  simp only [Bool.toNat_true, Bool.toNat_false]
  constructor
  · intro h
    have hfirst := h [] (List.nil_prefix)
    simp only [List.countP_nil] at hfirst
    refine ⟨n - 1, by omega, fun p hp => ?_⟩
    have := h p hp
    omega
  · rintro ⟨m, rfl, h⟩ p hp
    have := h p hp
    omega

theorem outlasts_other (ho : k.kind.opens = false) (hk : k.kind.closes = false) :
    Outlasts n (k :: ts) ↔ Outlasts n ts := by
  rw [outlasts_cons_iff, hk, ho]
  exact Iff.rfl

theorem openBrackets_cons : openBrackets stack (k :: ts) =
    if k.kind.opens then openBrackets (k.offset :: stack) ts
    else if k.kind.closes then openBrackets (stack.drop 1) ts
    else openBrackets stack ts := by
  rw [openBrackets]
  cases k.kind <;> rfl

/-- Somewhere in the tokens a bracket opens at `o` that none of those behind it closes. -/
def LeavesOpen (o : Nat) (ts : List Token) : Prop :=
  ∃ before k after, ts = before ++ k :: after ∧ k.kind.opens = true ∧ k.offset = o ∧
    Outlasts 0 after

theorem leavesOpen_cons : LeavesOpen o (k :: ts) ↔
    k.kind.opens = true ∧ k.offset = o ∧ Outlasts 0 ts ∨ LeavesOpen o ts := by
  constructor
  · rintro ⟨_ | ⟨j, before⟩, k', after, heq, hopens, ho, hafter⟩
    · obtain ⟨rfl, rfl⟩ := List.cons.inj heq
      exact .inl ⟨hopens, ho, hafter⟩
    · exact .inr ⟨before, k', after, (List.cons.inj heq).2, hopens, ho, hafter⟩
  · rintro (⟨hopens, ho, hafter⟩ | ⟨before, k', after, rfl, h⟩)
    · exact ⟨[], k, ts, rfl, hopens, ho, hafter⟩
    · exact ⟨k :: before, k', after, rfl, h⟩

/-- What is open in the end was open before and has outlasted the tokens, or was opened
among them. -/
theorem mem_openBrackets : o ∈ openBrackets stack ts ↔
    (∃ n, stack[n]? = some o ∧ Outlasts n ts) ∨ LeavesOpen o ts := by
  induction ts generalizing stack with
  | nil => simp [openBrackets, List.mem_iff_getElem?, outlasts_nil, LeavesOpen]
  | cons k ts ih =>
    rw [openBrackets_cons, leavesOpen_cons]
    split
    · rename_i hopens
      simp only [ih, outlasts_opens hopens, hopens, true_and, ← or_assoc]
      refine or_congr_left ⟨?_, ?_⟩
      · rintro ⟨_ | n, hn, hout⟩
        · exact .inr ⟨Option.some.inj hn, hout⟩
        · exact .inl ⟨n, hn, hout⟩
      · rintro (⟨n, hn, hout⟩ | ⟨rfl, hout⟩)
        · exact ⟨n + 1, hn, hout⟩
        · exact ⟨0, rfl, hout⟩
    · rename_i hopens
      rw [Bool.not_eq_true] at hopens
      split
      · rename_i hcloses
        simp only [ih, outlasts_closes hopens hcloses, hopens, Bool.false_eq_true, false_and,
          false_or, List.getElem?_drop]
        refine or_congr_left ⟨?_, ?_⟩
        · rintro ⟨n, hn, hout⟩
          exact ⟨1 + n, hn, n, Nat.add_comm 1 n, hout⟩
        · rintro ⟨_, hn, m, rfl, hout⟩
          exact ⟨m, by rwa [Nat.add_comm], hout⟩
      · rename_i hcloses
        rw [Bool.not_eq_true] at hcloses
        simp only [ih, outlasts_other hopens hcloses, hopens, Bool.false_eq_true, false_and,
          false_or]

/-- The brackets that nothing closes. -/
theorem mem_unclosed : o ∈ (Surroundings.ofTokens ts).unclosed ↔ LeavesOpen o ts := by
  simp [Surroundings.ofTokens, mem_openBrackets]

end

/-! ## Brackets of a text -/

section

variable {k l : Token} {close : Kind} {o : Nat} {t : Text}

theorem Munches.of_closer? {c : Char} {cs : Text} {found : Kind × Nat} (h : Munches c cs found)
    (hk : found.1.closer? = some close) : c :: cs.take found.2 = [openerOf close] := by
  cases h with
  | word hc =>
    have hword : (munchWord c cs).1.closer? = none :=
      Kind.of_ofKeyword (P := fun kind => kind.closer? = none) rfl (by decide) _
    rw [hword] at hk
    cases hk
  | @operator spelling kind hentry hfront =>
    have hall : ∀ e ∈ operators, ∀ close ∈ e.2.closer?, e.1 = [openerOf close] := by decide
    obtain rfl := hall _ hentry close hk
    obtain ⟨rfl, -⟩ := List.cons_prefix_cons.1 hfront
    rfl
  | spaces | lineFeed | returnFeed | slashFeed | slashReturn | comment | string | lone | number
  | error => cases hk

theorem text_of_closer?_tokenizeFrom (hk : k.kind.closer? = some close) (h : k ∈ tokenizeFrom o t) :
    k.text = [openerOf close] := by
  fun_induction tokenizeFrom o t with
  | case1 => simp at h
  | case2 o c cs kind n hmunch text ih =>
    rcases List.mem_cons.1 h with rfl | h
    · have hfound := munches c cs
      rw [hmunch] at hfound
      exact hfound.of_closer? hk
    · exact ih h

/-- An opening bracket is the one character that a bracket of the kind closes. -/
theorem text_of_closer? (hk : k.kind.closer? = some close) (h : k ∈ (layout t).tokens) :
    k.text = [openerOf close] := by
  rcases Layout.mem_run h with hmade | hheld | hraw
  · have hnone : ∀ kind ∈ Layout.made, kind.closer? = none := by decide
    rw [hnone _ hmade] at hk
    cases hk
  · simp [Layout.start, Layout.held] at hheld
  · exact text_of_closer?_tokenizeFrom hk hraw

theorem isWord_of_opens (hopens : k.kind.opens = true) (h : k ∈ (layout t).tokens) :
    k.isWord = true := by
  obtain ⟨close, hclose⟩ := Option.isSome_iff_exists.1 hopens
  have htrivia : k.isTrivia = false := by
    unfold Token.isTrivia
    cases hk : k.kind <;> simp_all [Kind.closer?, Kind.isTrivia]
  simp [Token.isWord, htrivia, text_of_closer? hclose h]

/-- Of tokens that stand one behind the other, each begins where those in front have ended. -/
theorem Chained.apart {ts : List Token} (h : Chained o ts) :
    ts.Pairwise fun j k => j.stop ≤ k.offset := by
  induction ts generalizing o with
  | nil => exact .nil
  | cons k ts ih =>
    obtain ⟨rfl, hts⟩ := h
    exact List.pairwise_cons.2 ⟨fun l hl => (hts.range l hl).1, ih hts⟩

/-- No two brackets open at one place. -/
theorem eq_of_offset_eq (hk : k ∈ (layout t).tokens) (hl : l ∈ (layout t).tokens)
    (hopens : k.kind.opens = true) (hopens' : l.kind.opens = true) (ho : k.offset = l.offset) :
    k = l := by
  have hlt := Token.offset_lt_stop (isWord_of_opens hopens hk)
  have hlt' := Token.offset_lt_stop (isWord_of_opens hopens' hl)
  have hapart := List.pairwise_iff_getElem.1 (chained_layout t).apart
  obtain ⟨i, hi, rfl⟩ := List.getElem_of_mem hk
  obtain ⟨j, hj, rfl⟩ := List.getElem_of_mem hl
  rcases Nat.lt_trichotomy i j with hij | rfl | hij
  · have := hapart i j hi hj hij
    omega
  · rfl
  · have := hapart j i hj hi hij
    omega

end

end SceneGate
