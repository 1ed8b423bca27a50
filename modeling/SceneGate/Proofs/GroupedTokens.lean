/-
What grouping changes in the words of a text. In each call that is grouped the name of the
group and an opening bracket stand before the first argument, a closing bracket stands
behind the last one that is given by position, and a comma behind the last argument is left
out; all other words are kept (`Word.Inserted`, `inserted_regroup`).
-/
import Mathlib.Algebra.GroupWithZero.Nat
import SceneGate.Proofs.NestedCalls
import SceneGate.Proofs.RegroupedTrees

namespace SceneGate

/-! ## Signs -/

/-- A sign is what the lexer takes for an operator. -/
theorem operator?_of_munch {c : Char} {cs : Text} {k : Kind} (hk : k ∈ [.lParen, .rParen, .comma]) :
    (munch c cs).1 = k → operator? (c :: cs) = some (munch c cs) := by
  have hstops : k.stops = true := by
    have hall : ∀ k ∈ [Kind.lParen, Kind.rParen, Kind.comma], k.stops = true := by decide
    exact hall k hk
  simp only [List.mem_cons, List.not_mem_nil, or_false] at hk
  unfold munch
  split
  · rintro rfl; simp at hk
  split
  · rintro rfl; simp at hk
  split
  · split <;> (rintro rfl; simp at hk)
  split
  · split <;> (rintro rfl; simp at hk)
  split
  · rintro rfl; simp at hk
  split
  · rintro rfl; simp at hk
  · rintro rfl; simp at hk
  · rintro rfl; simp at hk
  · split
    · rintro rfl
      rw [munchWord, Kind.stops_ofKeyword] at hstops
      cases hstops
    split
    · rintro rfl; simp at hk
    split
    · rintro rfl; simp at hk
    · cases operator? (c :: cs) with
      | none => rintro rfl; simp at hk
      | some e => exact fun _ => rfl

namespace Word

variable {w : Word} {ws vs us : List Word} {rest e : Text}

/-- A word of a sign's kind is the sign. -/
theorem Cut.eq_sign (h : w.Cut rest) {s : Word} (hs : s ∈ signs) (hk : w.kind = s.kind) :
    w = s := by
  obtain ⟨c, cs, htext, hmunch⟩ := h
  have hspelled : ∀ s ∈ signs, s.kind ∈ [.lParen, .rParen, .comma] ∧ ∀ e ∈ operators,
      e.2 = s.kind → e.1 = s.text ∧ s.text.length = 1 := by decide
  obtain ⟨hkind, hone⟩ := hspelled s hs
  have hoperator : operator? (c :: (cs ++ rest)) = some (munch c (cs ++ rest)) :=
    operator?_of_munch hkind (by rw [hmunch, hk])
  obtain ⟨⟨spelling, k⟩, hfind, heq⟩ := Option.map_eq_some_iff.1 hoperator
  have hprefix := List.find?_some hfind
  rw [hmunch, Prod.mk.injEq] at heq
  obtain ⟨hspelling, hlength⟩ := hone _ (List.mem_of_find?_eq_some hfind) (heq.1.trans hk)
  obtain ⟨x, hx⟩ := List.length_eq_one_iff.1 hlength
  obtain rfl : spelling = [x] := hspelling.trans hx
  obtain rfl : x = c := by simpa using hprefix
  obtain rfl : cs = [] := List.eq_nil_of_length_eq_zero heq.2.symm
  cases w
  cases s
  simp_all

theorem exists_cut_of_mem (h : AllCut ws e) (hw : w ∈ ws) : ∃ rest, w.Cut rest := by
  induction ws with
  | nil => cases hw
  | cons v ws ih =>
    rcases List.mem_cons.1 hw with rfl | hw
    · exact ⟨_, h.1⟩
    · exact ih h.2 hw

/-- Signs in a text that is laid out. -/
theorem Placed.eq_sign (h : Placed ws) (hw : w ∈ ws) {s : Word} (hs : s ∈ signs)
    (hk : w.kind = s.kind) : w = s := by
  have hall : ∀ s ∈ signs, s.kind ∉ [.newline, .indent, .dedent] ∧ s.kind ≠ .whitespace := by decide
  obtain ⟨hkind, hblank⟩ := hall s hs
  have htext : w.text ≠ [] := h.text_ne hw (hk ▸ hkind)
  have hraw : w.raw = [w] := raw_self htext (joins_eq_false (hk ▸ hblank))
  obtain ⟨e, hcut⟩ := h.allCut
  have hmem : w ∈ rawOf ws := List.mem_flatMap.2 ⟨w, hw, by simp [hraw]⟩
  obtain ⟨rest, hcut⟩ := exists_cut_of_mem hcut hmem
  exact hcut.eq_sign hs hk

/-! ## Words that are added and left out -/

/-- Words, and what comes of them when `n` calls are grouped: in each of them the group's
name and a bracket before the arguments and a bracket between them, without the comma that
may stand before the closing bracket. -/
inductive Inserted (G : Identifier) : (n : Nat) → List Word → List Word → Prop
  | nil : Inserted G 0 [] []
  | keep {n : Nat} {ws vs : List Word} (w : Word) : Inserted G n ws vs →
      Inserted G n (w :: ws) (w :: vs)
  | group {j k l : Nat} {positional keywords ws positional' keywords' vs trailing : List Word} :
      trailing = [] ∨ trailing = [.comma] → Inserted G j positional positional' →
      Inserted G k keywords keywords' → Inserted G l ws vs →
      Inserted G (j + k + l + 1)
        (.leftParen :: (positional ++ keywords ++ trailing ++ .rightParen :: ws))
        (.leftParen :: G.word :: .leftParen ::
          (positional' ++ .rightParen :: (keywords' ++ .rightParen :: vs)))

/-- Words with commas between them. -/
def separated (pieces : List (List Word)) : List Word := (pieces.intersperse [.comma]).flatten

/-- Words with a comma before each. -/
def continued (pieces : List (List Word)) : List Word := pieces.flatMap fun ws => .comma :: ws

theorem separated_cons (ws : List Word) (pieces : List (List Word)) :
    separated (ws :: pieces) = ws ++ continued pieces := by
  induction pieces generalizing ws with
  | nil => simp [separated, continued]
  | cons vs pieces ih =>
    have hrest := ih vs
    rw [separated] at hrest ⊢
    rw [List.intersperse_cons_cons, List.flatten_cons, List.flatten_cons, hrest]
    rfl

theorem continued_append (pieces pieces' : List (List Word)) :
    continued (pieces ++ pieces') = continued pieces ++ continued pieces' := List.flatMap_append ..

namespace Inserted

variable {G : Identifier} {n m : Nat} {ws' vs' : List Word}

theorem cast (h : Inserted G n ws vs) (hn : n = m) : Inserted G m ws vs := hn ▸ h

theorem refl (G : Identifier) : ∀ ws : List Word, Inserted G 0 ws ws
  | [] => .nil
  | w :: ws => .keep w (refl G ws)

theorem append (h : Inserted G n ws vs) (h' : Inserted G m ws' vs') :
    Inserted G (n + m) (ws ++ ws') (vs ++ vs') := by
  induction h with
  | nil => exact h'.cast (Nat.zero_add m).symm
  | keep w _ ih => exact .keep w ih
  | group htrailing hpositional hkeywords _ _ _ ih =>
    have := Inserted.group htrailing hpositional hkeywords ih
    simp only [List.cons_append, List.append_assoc] at this ⊢
    exact this.cast (by omega)

theorem continued {α : Type} {c : α → Nat} {f g : α → List Word} {as : List α}
    (h : ∀ a ∈ as, Inserted G (c a) (f a) (g a)) :
    Inserted G (as.map c).sum (Word.continued (as.map f)) (Word.continued (as.map g)) := by
  induction as with
  | nil => exact .nil
  | cons a as ih =>
    obtain ⟨ha, has⟩ := List.forall_mem_cons.1 h
    exact (Inserted.keep .comma ha).append (ih has)

theorem separated {α : Type} {c : α → Nat} {f g : α → List Word} {a : α} {as : List α}
    (h : ∀ b ∈ a :: as, Inserted G (c b) (f b) (g b)) :
    Inserted G ((a :: as).map c).sum (Word.separated ((a :: as).map f))
      (Word.separated ((a :: as).map g)) := by
  obtain ⟨ha, has⟩ := List.forall_mem_cons.1 h
  rw [List.map_cons, List.map_cons, List.map_cons, separated_cons, separated_cons]
  exact ha.append (Inserted.continued has)

theorem flatMap {α : Type} {c : α → Nat} {f g : α → List Word} {as : List α}
    (h : ∀ a ∈ as, Inserted G (c a) (f a) (g a)) :
    Inserted G (as.map c).sum (as.flatMap f) (as.flatMap g) := by
  induction as with
  | nil => exact .nil
  | cons a as ih =>
    obtain ⟨ha, has⟩ := List.forall_mem_cons.1 h
    exact ha.append (ih has)

end Inserted

end Word

/-! ## Words of arguments -/

namespace Outline

variable {after : Bool} {os : List (Outline Word)}

theorem wordsOf_commas (os : List (Outline Word)) :
    wordsOf (commas os) = Word.separated (os.map words) := by
  cases os with
  | nil => rfl
  | cons o os =>
    induction os generalizing o with
    | nil => simp [commas, Word.separated]
    | cons p os ih =>
      have hrest := ih p
      rw [commas, Word.separated] at hrest ⊢
      simp [List.intersperse_cons_cons, hrest]

/-- Behind an argument that is passed by a name, none is given by position. -/
theorem AreArguments.positional_behind (h : AreArguments true os) : os.filter (isOf .arg) = [] := by
  generalize hafter : true = after at h
  induction h with
  | none => rfl
  | last ho => subst hafter; cases ho <;> rfl
  | more ho _ _ ih =>
    subst hafter
    cases ho <;> exact ih rfl

/-- The words of arguments of which none is unpacked: those of the arguments given by
position, then those of the arguments passed by names, with commas between them, and
perhaps one behind them. -/
theorem AreArguments.wordsOf_eq (h : AreArguments after os)
    (hplain : ∀ o ∈ os, isOf .starredArg o = false ∧ isOf .doubleStarredArg o = false)
    (hcommas : ∀ w, .word w ∈ os → w = .comma) :
    ∃ trailing, (trailing = [] ∨ trailing = [Word.comma]) ∧ wordsOf os = Word.separated
      ((os.filter (isOf .arg) ++ os.filter (isOf .keywordArg)).map words) ++ trailing ∧
      (os.filter (isOf .arg) ++ os.filter (isOf .keywordArg) = [] → os = []) := by
  induction h with
  | none => exact ⟨[], .inl rfl, rfl, fun _ => rfl⟩
  | @last _ _ o ho =>
    refine ⟨[], .inl rfl, ?_⟩
    have hone := hplain o (by simp)
    cases ho with
    | positional | keyword => simp [isOf, Word.separated]
    | starred | doubleStarred => simp [isOf] at hone
  | @more after next o w os ho hw hos ih =>
    obtain ⟨hone, -, hrest⟩ : _ ∧ _ ∧ ∀ o ∈ os, _ := by simpa using hplain
    obtain rfl := hcommas w (by simp)
    obtain ⟨trailing, htrailing, hwords, hnone⟩ := ih hrest fun w hw => hcommas w (by simp [hw])
    -- the argument stands before those that follow it, of whichever sort it is
    have hfirst : (o :: .word .comma :: os).filter (isOf .arg) ++
        (o :: .word .comma :: os).filter (isOf .keywordArg) =
          o :: (os.filter (isOf .arg) ++ os.filter (isOf .keywordArg)) := by
      cases ho with
      | positional => simp [isOf]
      | keyword => simp [isOf, hos.positional_behind]
      | starred | doubleStarred => simp [isOf] at hone
    rw [hfirst]
    generalize os.filter (isOf .arg) ++ os.filter (isOf .keywordArg) = pieces at hwords hnone ⊢
    cases pieces with
    | nil =>
      obtain rfl := hnone rfl
      exact ⟨[.comma], .inr rfl, by simp [Word.separated], by simp⟩
    | cons p pieces =>
      rw [List.map_cons, Word.separated_cons] at hwords
      refine ⟨trailing, htrailing, ?_, by simp⟩
      rw [wordsOf_cons, wordsOf_cons, hwords, List.map_cons, List.map_cons, Word.separated_cons]
      simp [Word.continued]

end Outline

namespace Tree

/-- The words of a tree, without trivia. -/
def bareWords (t : Tree) : List Word := (significant t.tokens).map Token.word

theorem wordsOf_outline (t : Tree) : Outline.wordsOf (t.outline Token.word) = t.bareWords :=
  words_outline t

theorem wordsOf_outlines (ts : List Tree) :
    Outline.wordsOf (outlines Token.word ts) = ts.flatMap bareWords := by
  induction ts with
  | nil => rfl
  | cons t ts ih =>
    rw [outlines_cons, Outline.wordsOf_append, ih, wordsOf_outline, List.flatMap_cons]

theorem bareWords_node (kind : Kind) (ts : List Tree) :
    (node kind ts).bareWords = ts.flatMap bareWords := by
  rw [← wordsOf_outline, outline_node, Outline.wordsOf_cons, Outline.words_node,
    Outline.wordsOf_nil, List.append_nil, wordsOf_outlines]

end Tree

namespace GroupTargets

open SceneGate.Tree

variable {v : Vocabulary} {G : Identifier} {n : Nat} {kind : Kind} {ts : List Tree} {t : Tree}

theorem map_words_outlines (h : ∀ t ∈ ts, t.isNode = true) :
    (outlines Token.word ts).map Outline.words = ts.map bareWords := by
  induction ts with
  | nil => rfl
  | cons t ts ih =>
    obtain ⟨ht, hts⟩ := List.forall_mem_cons.1 h
    obtain ⟨o, ho⟩ := outline_of_isNode ht
    have hwords := wordsOf_outline t
    rw [ho, Outline.wordsOf_cons, Outline.wordsOf_nil, List.append_nil] at hwords
    rw [outlines_cons, ho, List.singleton_append, List.map_cons, ih hts, hwords, List.map_cons]

theorem bareWords_argumentList (h : ∀ t ∈ ts, t.isNode = true) : (Tree.argumentList ts).bareWords =
    .leftParen :: (Word.separated (ts.map bareWords) ++ [.rightParen]) := by
  rw [← wordsOf_outline, outline_argumentList h, Outline.argumentList]
  simp [Outline.wordsOf_commas, map_words_outlines h]

theorem bareWords_callOf (G : Identifier) (h : ∀ t ∈ ts, t.isNode = true) :
    (callOf G.word.text ts).bareWords =
      G.word :: .leftParen :: (Word.separated (ts.map bareWords) ++ [.rightParen]) := by
  have hname : (⟨.ident, G.word.text⟩ : Word) = G.word := rfl
  rw [← wordsOf_outline, outline_callOf G h, Outline.callOf, Outline.argumentList]
  simp [Outline.wordsOf_commas, map_words_outlines h, Identifier.ref]

mutual

/-- How many calls are to be grouped that lie in fewer than `n` others. -/
def groupedCalls (v : Vocabulary) : (n : Nat) → Tree → Nat
  | _, .leaf _ => 0
  | n, .node kind ts =>
    if isEligible v (.node kind ts) then
      match n with
      | 0 => 0
      | n + 1 => groupedCallsAll v n ts + 1
    else groupedCallsAll v n ts

/-- How many such calls there are in trees that stand side by side. -/
def groupedCallsAll (v : Vocabulary) : (n : Nat) → List Tree → Nat
  | _, [] => 0
  | n, t :: ts => groupedCalls v n t + groupedCallsAll v n ts

end

theorem groupedCallsAll_eq_sum (n : Nat) (ts : List Tree) :
    groupedCallsAll v n ts = (ts.map (groupedCalls v n)).sum := by
  induction ts with
  | nil => rw [groupedCallsAll]; rfl
  | cons t ts ih => rw [groupedCallsAll, ih, List.map_cons, List.sum_cons]

@[simp] theorem groupedCalls_leaf (k : Token) : groupedCalls v n (.leaf k) = 0 := by
  rw [groupedCalls]

theorem groupedCalls_node (h : isEligible v (.node kind ts) = false) :
    groupedCalls v n (.node kind ts) = (ts.map (groupedCalls v n)).sum := by
  rw [groupedCalls.eq_def]
  simp [h, groupedCallsAll_eq_sum]

theorem groupedCalls_call (h : isEligible v (.node kind ts) = true) :
    groupedCalls v (n + 1) (.node kind ts) = (ts.map (groupedCalls v n)).sum + 1 := by
  rw [groupedCalls.eq_def]
  simp [h, groupedCallsAll_eq_sum]

/-- The calls among the arguments of which none is unpacked. -/
theorem sum_groupedCalls_of_plain {mid : List Tree}
    (h : Outline.AreArguments false (outlines Token.word mid))
    (hplain : mid.any isUnpacked = false) :
    (mid.map (groupedCalls v n)).sum = ((argumentsOf .arg mid).map (groupedCalls v n)).sum +
      ((argumentsOf .keywordArg mid).map (groupedCalls v n)).sum := by
  have hkinds : ∀ t ∈ mid, t.isNode = true → t.kind = .arg ∨ t.kind = .keywordArg := by
    intro t ht hnode
    have hkind := node_of_areArguments h ht hnode
    have hpacked := List.any_eq_false.1 hplain t ht
    simp only [Kind.arguments, List.mem_cons, List.not_mem_nil, or_false] at hkind
    rcases hkind with hk | hk | hk | hk
    · exact .inl hk
    · exact .inr hk
    · simp [isUnpacked, hnode, hk] at hpacked
    · simp [isUnpacked, hnode, hk] at hpacked
  clear h hplain
  induction mid with
  | nil => rfl
  | cons t mid ih =>
    obtain ⟨ht, hmid⟩ := List.forall_mem_cons.1 hkinds
    have hrest := ih hmid
    rw [argumentsOf, argumentsOf] at hrest ⊢
    cases hnode : t.isNode with
    | false =>
      cases t with
      | leaf k => simp [isNode, hrest]
      | node => cases hnode
    | true => rcases ht hnode with hk | hk <;> simp [hnode, hk, hrest] <;> omega

section Calls

variable {callee first : Tree} {gap : List Token} {o c : Token} {mid more : List Tree}
  (hp : CallParts ts callee gap o mid c) (h : (Tree.node .callExpr ts).InProgram)
  (hplain : mid.any isUnpacked = false)

include hp h

/-- The brackets and commas of a call are these signs. -/
theorem CallParts.eq_sign {w s : Word} (hw : w ∈ o.word :: (wordsOf mid ++ [c.word]))
    (hs : s ∈ Word.signs) (hk : w.kind = s.kind) : w = s := by
  refine h.placed.eq_sign ?_ hs hk
  rw [← written, hp.written_eq]
  exact List.mem_append_right _ (List.mem_append_right _ hw)

include hplain

/-- The words between the brackets of a call of which no argument is unpacked. -/
theorem CallParts.wordsOf_mid (hargs : argumentsOf .arg mid = first :: more) :
    ∃ trailing, (trailing = [] ∨ trailing = [Word.comma]) ∧ mid.flatMap bareWords =
      Word.separated ((first :: more).map bareWords) ++
        Word.continued ((argumentsOf .keywordArg mid).map bareWords) ++ trailing := by
  have hnone {k : Kind} (hk : k = .starredArg ∨ k = .doubleStarredArg) :
      ∀ p ∈ outlines Token.word mid, Outline.isOf k p = false := by
    have hempty : argumentsOf k mid = [] := by
      refine List.filter_eq_nil_iff.2 fun t ht => ?_
      have hpacked := List.any_eq_false.1 hplain t ht
      rcases hk with rfl | rfl <;> simp_all [isUnpacked]
    have hfilter := outlines_argumentsOf k mid
    rw [hempty, outlines_nil] at hfilter
    simpa using List.filter_eq_nil_iff.1 hfilter.symm
  have hcommas : ∀ w, Outline.word w ∈ outlines Token.word mid → w = .comma := by
    intro w hw
    have hkind : w.kind = .comma := by
      rcases hp.holds.mem hw with ⟨_, hw, hk⟩ | ⟨_, _, hw, -⟩ <;> cases hw
      exact hk
    have hmem : w ∈ wordsOf mid := by
      obtain ⟨front, back, hsplit⟩ := List.append_of_mem hw
      have hwords := words_outlines mid
      rw [hsplit] at hwords
      have hin : w ∈ (significant (tokensOf mid)).map Token.word := by
        rw [← hwords]
        simp
      obtain ⟨k, hk, rfl⟩ := List.mem_map.1 hin
      exact List.mem_map_of_mem (List.mem_filter.1 hk).1
    exact hp.eq_sign h (by simp [hmem]) (by simp [Word.signs]) hkind
  obtain ⟨trailing, htrailing, hwords, -⟩ :=
    hp.holds.wordsOf_eq (fun p hp => ⟨hnone (.inl rfl) p hp, hnone (.inr rfl) p hp⟩) hcommas
  refine ⟨trailing, htrailing, ?_⟩
  rw [← wordsOf_outlines, hwords, ← outlines_argumentsOf, ← outlines_argumentsOf, List.map_append,
    map_words_outlines fun _ => isNode_of_mem_argumentsOf,
    map_words_outlines fun _ => isNode_of_mem_argumentsOf, hargs, List.map_cons, List.cons_append,
    Word.separated_cons, Word.separated_cons, Word.continued_append, ← List.append_assoc]

/-- The words of a call of which no argument is unpacked. -/
theorem CallParts.bareWords_eq (hargs : argumentsOf .arg mid = first :: more) :
    ∃ trailing, (trailing = [] ∨ trailing = [Word.comma]) ∧ (Tree.node .callExpr ts).bareWords =
      callee.bareWords ++ .leftParen :: (Word.separated ((first :: more).map bareWords) ++
        Word.continued ((argumentsOf .keywordArg mid).map bareWords) ++ trailing ++
          .rightParen :: []) := by
  obtain ⟨trailing, htrailing, hmid⟩ := hp.wordsOf_mid h hplain hargs
  refine ⟨trailing, htrailing, ?_⟩
  have hleaf {k : Token} {w : Word} (hk : k.word = w) (ht : w.kind.isTrivia = false) :
      (Tree.leaf k).bareWords = [w] := by
    have htrivia : k.isTrivia = false := by
      rw [← hk] at ht
      exact ht
    rw [← wordsOf_outline, outline_leaf _ htrivia, hk]
    simp
  have hopen : o.word = .leftParen := hp.eq_sign h (by simp) (by simp [Word.signs]) hp.opens
  have hclose : c.word = .rightParen := hp.eq_sign h (by simp) (by simp [Word.signs]) hp.closes
  have hgap : (gap.map Tree.leaf).flatMap bareWords = [] := by
    rw [← wordsOf_outlines, outlines_trivia _ hp.gap]
    rfl
  have hlist : (Tree.node .argList (.leaf o :: mid ++ [.leaf c])).bareWords =
      .leftParen :: (mid.flatMap bareWords ++ [.rightParen]) := by
    rw [bareWords_node]
    simp [hleaf hopen rfl, hleaf hclose rfl]
  rw [bareWords_node, hp.eq, List.flatMap_append, List.flatMap_cons, hgap, List.append_nil,
    List.flatMap_singleton, hlist, hmid]

end Calls

/-- In a call that is grouped words are inserted, if they are in its parts. -/
theorem inserted_call {callee : Tree} {gap : List Token} {o c : Token} {mid : List Tree}
    (hG : v.groupConstructor = G.word.text) (hp : CallParts ts callee gap o mid c)
    (h : (Tree.node .callExpr ts).InProgram) (he : isEligible v (.node .callExpr ts) = true)
    (hcallee : Word.Inserted G (groupedCalls v n callee) callee.bareWords
      (regroup v n callee).bareWords)
    (hmid : ∀ t ∈ mid, Word.Inserted G (groupedCalls v n t) t.bareWords (regroup v n t).bareWords) :
    Word.Inserted G (groupedCalls v (n + 1) (.node .callExpr ts)) (Tree.node .callExpr ts).bareWords
      (regroup v (n + 1) (.node .callExpr ts)).bareWords := by
  obtain ⟨-, hplain, first, second, more, hargs, -⟩ := hp.isEligible_iff.1 he
  obtain ⟨trailing, htrailing, hwords⟩ := hp.bareWords_eq h hplain hargs
  have hsort {k : Kind} {t : Tree} (ht : t ∈ argumentsOf k mid) : t ∈ mid :=
    (List.mem_filter.1 ht).1
  have hnodes (k : Kind) : ∀ t ∈ (argumentsOf k mid).map (regroup v n), t.isNode = true := by
    intro t ht
    obtain ⟨u, hu, rfl⟩ := List.mem_map.1 ht
    rw [isNode_regroup, isNode_of_mem_argumentsOf hu]
  have hgrouped : (regroup v (n + 1) (.node .callExpr ts)).bareWords =
      (regroup v n callee).bareWords ++ .leftParen :: G.word :: .leftParen ::
        (Word.separated ((first :: second :: more).map fun t => (regroup v n t).bareWords) ++
          .rightParen :: (Word.continued ((argumentsOf .keywordArg mid).map fun t =>
            (regroup v n t).bareWords) ++ .rightParen :: [])) := by
    rw [regroup_call he, (hp.regroup n).groupCall_eq, argumentsOf_map_regroup,
      argumentsOf_map_regroup, hG, bareWords_node, List.flatMap_cons, List.flatMap_singleton,
      bareWords_argumentList (List.forall_mem_cons.2 ⟨rfl, hnodes _⟩), List.map_cons,
      bareWords_callOf G (hnodes _), Word.separated_cons, ← hargs]
    simp [Function.comp_def]
  have hpositional : ∀ t ∈ first :: second :: more,
      Word.Inserted G (groupedCalls v n t) t.bareWords (regroup v n t).bareWords :=
    fun t ht => hmid t (hsort (k := .arg) (hargs ▸ ht))
  have hkeywords : ∀ t ∈ argumentsOf .keywordArg mid,
      Word.Inserted G (groupedCalls v n t) t.bareWords (regroup v n t).bareWords :=
    fun t ht => hmid t (hsort ht)
  have hcount : groupedCalls v (n + 1) (.node .callExpr ts) = groupedCalls v n callee +
      (((first :: second :: more).map (groupedCalls v n)).sum +
        ((argumentsOf .keywordArg mid).map (groupedCalls v n)).sum + 0 + 1) := by
    have hlist : groupedCalls v n (.node .argList (.leaf o :: mid ++ [.leaf c])) =
        (mid.map (groupedCalls v n)).sum := by
      rw [groupedCalls_node (isEligible_of_kind (by decide) _)]
      simp
    have hgap : ((gap.map leaf).map (groupedCalls v n)).sum = 0 := by
      rw [List.map_map]
      simp [Function.comp_def]
    rw [groupedCalls_call he, hp.eq, List.map_append, List.map_cons, List.map_singleton,
      List.sum_append, List.sum_cons, List.sum_singleton, hgap, hlist,
      sum_groupedCalls_of_plain hp.holds hplain, hargs]
    omega
  have hgroup := Word.Inserted.group htrailing (Word.Inserted.separated hpositional)
    (Word.Inserted.continued hkeywords) .nil
  rw [hcount, hwords, hgrouped]
  exact hcallee.append hgroup

/-- Grouping calls inserts the names of groups and brackets, and leaves out commas. -/
theorem inserted_regroup (hG : v.groupConstructor = G.word.text) (n : Nat) (t : Tree)
    (h : t.InProgram) :
    Word.Inserted G (groupedCalls v n t) t.bareWords (regroup v n t).bareWords := by
  match n, t with
  | n, .leaf k =>
    rw [regroup_leaf, groupedCalls_leaf]
    exact .refl G _
  | n, .node k ts =>
    cases he : isEligible v (.node k ts) with
    | false =>
      rw [regroup_node he, groupedCalls_node he, bareWords_node, bareWords_node, List.flatMap_map]
      exact .flatMap fun t ht => inserted_regroup hG n t (h.part ht)
    | true =>
    obtain rfl : k = .callExpr := kind_of_isEligible he
    match n with
    | 0 =>
      rw [regroup_zero, groupedCalls.eq_def]
      simpa [he] using Word.Inserted.refl G _
    | n + 1 =>
      obtain ⟨callee, gap, o, mid, c, hp⟩ := exists_callParts h
      have hlist : Tree.node .argList (.leaf o :: mid ++ [.leaf c]) ∈ ts := by simp [hp.eq]
      have hfirst : callee ∈ ts := by simp [hp.eq]
      exact inserted_call hG hp h he (inserted_regroup hG n callee (h.part hfirst))
        fun t ht => inserted_regroup hG n t (hp.inProgram h ht)
termination_by sizeOf t
decreasing_by
  · have := List.sizeOf_lt_of_mem ht
    simp only [Tree.node.sizeOf_spec]
    omega
  · have := List.sizeOf_lt_of_mem hfirst
    simp only [Tree.node.sizeOf_spec]
    omega
  · have hmem : t ∈ .leaf o :: mid ++ [.leaf c] := by simp [ht]
    have hin := List.sizeOf_lt_of_mem hmem
    have hout := List.sizeOf_lt_of_mem hlist
    simp only [Tree.node.sizeOf_spec] at hout ⊢
    omega

end GroupTargets

end SceneGate
