/-
Words of calls whose targets are grouped. Behind the name that is called the words of a
list of arguments give way to those of the list in which the positional arguments are
grouped, so grouping the outermost calls exchanges words behind the names of effects
(`reworded_regroup`).
-/
import SceneGate.Proofs.Regrouping

namespace SceneGate

namespace Tree

/-- The words of a tree, trivia included. -/
def written (t : Tree) : List Word := t.tokens.map Token.word

theorem wordsOf_eq_flatMap (ts : List Tree) : wordsOf ts = ts.flatMap written := by
  induction ts with
  | nil => rfl
  | cons t ts ih => rw [wordsOf_cons, ih]; rfl

theorem written_node (kind : Kind) (ts : List Tree) : (node kind ts).written = wordsOf ts := by
  rw [written, tokens_node, wordsOf]

@[simp] theorem written_leaf (k : Token) : (leaf k).written = [k.word] := by simp [written]

@[simp] theorem written_ofWord (w : Word) : (ofWord w).written = [w] := by simp [ofWord]

/-- The text of a tree is what its words spell. -/
theorem spell_written (t : Tree) : Word.spell t.written = t.text := by
  simp [Word.spell, written, text, spelling, List.flatMap_map, Token.word]

theorem wordsOf_behindCommas (ts : List Tree) :
    wordsOf (behindCommas ts) = Word.behindCommas (ts.map written) := by
  induction ts with
  | nil => rfl
  | cons t ts ih =>
    rw [behindCommas_cons]
    simp [ih, Word.behindCommas, ofWord, written]

end Tree

namespace GroupTargets

open SceneGate.Tree Word

variable {v : Vocabulary} {G : Identifier} {kind : Kind} {ts : List Tree} {t first : Tree}
  {more keywords : List Tree} {callee : Tree} {gap : List Token} {o c : Token} {mid : List Tree}

/-- The words of a grouped list of arguments. -/
theorem written_grouped (G : Identifier) (first : Tree) (more keywords : List Tree) :
    (argumentList (callOf G.word.text (first :: more) :: keywords)).written =
      leftParen :: (grouping G first.written (more.map written) (keywords.map written) ++
        [rightParen]) := by
  have hmore := wordsOf_behindCommas more
  have hkeywords := wordsOf_behindCommas keywords
  rw [wordsOf] at hmore hkeywords
  have hname : (⟨.ident, G.word.text⟩ : Word) = G.word := rfl
  simp [argumentList, callOf, grouping, ofWord, written, hmore, hkeywords, hname]

/-! ## The words of a call -/

namespace CallParts

variable (hp : CallParts ts callee gap o mid c) (h : (Tree.node .callExpr ts).InProgram)

include hp

theorem written_eq : (Tree.node .callExpr ts).written =
    callee.written ++ (gap.map Token.word ++ o.word :: (wordsOf mid ++ [c.word])) := by
  simp [hp.eq, written, wordsOf]

include h

theorem callee_inProgram : callee.InProgram := h.part (by simp [hp.eq])

theorem inProgram {t : Tree} (ht : t ∈ mid) : t.InProgram := by
  have hlist : (Tree.node .argList (.leaf o :: mid ++ [.leaf c])).InProgram :=
    h.part (by simp [hp.eq])
  exact hlist.part (by simp [ht])

/-- The words of an argument. What follows it ends words. -/
theorem piece {t : Tree} (ht : t ∈ mid) (hnode : t.isNode = true) :
    Piece t.written ∧ ∃ front back, wordsOf mid = front ++ t.written ++ back ∧
      ∀ w ∈ back.head?, w.text ≠ [] ∧ w.kind.stops = true := by
  have hprogram := hp.inProgram h ht
  have htrivia : t.isTrivia = false := by
    cases t with
    | leaf => cases hnode
    | node => rfl
  have hbracket : t.isBracket = false := by
    cases t with
    | leaf => cases hnode
    | node => rfl
  obtain ⟨⟨k, ks, hfirst, hk⟩, ls, l, hlast, hl⟩ := hprogram.edges htrivia
  obtain ⟨front, back, hmid⟩ := List.append_of_mem ht
  have hinside : ∀ k ∈ t.tokens, k.text ≠ [] := fun k hk =>
    (hp.inside k.word (by simp [wordsOf, hmid, List.mem_map_of_mem hk])).text_ne
  refine ⟨⟨⟨k.word, ks.map Token.word, by simp [written, hfirst], hinside k (by simp [hfirst]), hk⟩,
    ⟨ls.map Token.word, l.word, by simp [written, hlast], hinside l (by simp [hlast]), hl⟩, ?_,
    hprogram.even t hbracket⟩, wordsOf front, wordsOf back, by simp [hmid, written], ?_⟩
  · intro w hw
    obtain ⟨k, hk, rfl⟩ := List.mem_map.1 hw
    exact hprogram.sound k hk
  · cases back with
    | nil => simp
    | cons u back =>
      obtain ⟨k, rfl, hk⟩ := behind_of_areArguments hp.holds hmid hnode u rfl
      intro w hw
      obtain rfl : k.word = w := by simpa using hw
      exact ⟨(hp.inside k.word (by simp [wordsOf, hmid])).text_ne, hk⟩

/-- The words of a list of arguments, some of which are given by position or by name. -/
theorem lists (hargs : argumentsOf .arg mid = first :: more) : Lists (wordsOf mid)
    (first.written :: (more.map written ++ (argumentsOf .keywordArg mid).map written)) := by
  have hmem {t : Tree} {kind : Kind} (ht : t ∈ argumentsOf kind mid) :
      t ∈ mid ∧ t.isNode = true := ⟨(List.mem_filter.1 ht).1, isNode_of_mem_argumentsOf ht⟩
  refine ⟨hp.even, fun p hpiece => ?_⟩
  obtain ⟨t, ht, rfl⟩ : ∃ t, (t ∈ argumentsOf .arg mid ∨ t ∈ argumentsOf .keywordArg mid) ∧
      t.written = p := by
    rw [← List.cons_append, ← List.map_cons, ← List.map_append, ← hargs] at hpiece
    obtain ⟨t, ht, rfl⟩ := List.mem_map.1 hpiece
    exact ⟨t, List.mem_append.1 ht, rfl⟩
  obtain ⟨hmid, hnode⟩ := ht.elim hmem hmem
  exact hp.piece h hmid hnode

/-- The list of arguments may give way to the one in which the positional arguments are
grouped. -/
theorem exchange (G : Identifier) (hargs : argumentsOf .arg mid = first :: more) :
    Exchange (gap.map Token.word ++ o.word :: (wordsOf mid ++ [c.word]))
      (argumentList
        (callOf G.word.text (first :: more) :: argumentsOf .keywordArg mid)).written := by
  have htext {w : Word} (hw : w ∈ (Tree.node .callExpr ts).written)
      (hk : w.kind ∉ [.newline, .indent, .dedent]) : w.text ≠ [] := h.placed.text_ne hw hk
  rw [hp.written_eq] at htext
  have hgap : ∀ w ∈ gap.map Token.word, w.Between := by
    intro w hw
    obtain ⟨k, hk, rfl⟩ := List.mem_map.1 hw
    have htrivia : k.word.kind.isTrivia = true := hp.gap k hk
    refine ⟨htext (by simp [List.mem_map_of_mem hk]) fun hmem => ?_, htrivia⟩
    simp only [List.mem_cons, List.not_mem_nil, or_false] at hmem
    rcases hmem with hk | hk | hk <;> rw [hk] at htrivia <;> cases htrivia
  rw [written_grouped]
  exact exchange_grouping hgap hp.opens
    (htext (by simp) (by rw [show o.word.kind = _ from hp.opens]; decide)) hp.closes
    (htext (by simp) (by rw [show c.word.kind = _ from hp.closes]; decide)) (hp.lists h hargs)

end CallParts

/-! ## The words of a program -/

theorem reworded_wordsOf {names : Text → Bool} {f : Tree → Tree}
    (h : ∀ t ∈ ts, Reworded names t.written (f t).written) :
    Reworded names (wordsOf ts) (wordsOf (ts.map f)) := by
  induction ts with
  | nil => exact .nil
  | cons t ts ih =>
    obtain ⟨ht, hts⟩ := List.forall_mem_cons.1 h
    rw [List.map_cons, wordsOf_cons, wordsOf_cons]
    exact ht.append (ih hts)

/-- A call that is to be grouped, by its parts. -/
theorem regroup_one (h : (Tree.node .callExpr ts).InProgram)
    (he : isEligible v (.node .callExpr ts) = true) :
    ∃ callee gap o mid c first second more, CallParts ts callee gap o mid c ∧
      argumentsOf .arg mid = first :: second :: more ∧
      (∃ name, callee.tailName? = some name ∧ v.isSingleTargetEffect name = true) ∧
      regroup v 1 (.node .callExpr ts) = .node .callExpr [callee,
        argumentList (callOf v.groupConstructor (first :: second :: more) ::
          argumentsOf .keywordArg mid)] := by
  obtain ⟨callee, gap, o, mid, c, hp⟩ := exists_callParts h
  obtain ⟨hname, -, first, second, more, hargs, -⟩ := hp.isEligible_iff.1 he
  refine ⟨callee, gap, o, mid, c, first, second, more, hp, hargs,
    by simpa [Option.any_eq_true] using hname, ?_⟩
  rw [regroup_one_call he, hp.groupCall_eq, hargs]

/-- Grouping the outermost calls of a program exchanges words behind the names of effects. -/
theorem reworded_regroup (hG : v.groupConstructor = G.word.text) (t : Tree) (h : t.InProgram) :
    Reworded v.isSingleTargetEffect t.written (regroup v 1 t).written := by
  match t with
  | .leaf j =>
    rw [regroup_leaf]
    exact .refl ..
  | .node j ts =>
    cases he : isEligible v (.node j ts) with
    | false =>
      rw [regroup_node he, written_node, written_node]
      exact reworded_wordsOf fun t ht => reworded_regroup hG t (h.part ht)
    | true =>
      obtain rfl : j = .callExpr := kind_of_isEligible he
      obtain ⟨callee, gap, o, mid, c, first, second, more, hp, hargs, hcalled, heq⟩ :=
        regroup_one h he
      obtain ⟨name, hname, heffect⟩ := hcalled
      obtain ⟨front, k, hcallee, hk, rfl⟩ :=
        exists_tailName (hp.callee_inProgram h) hp.isNode hname
      have htext : k.word.text ≠ [] := (hp.callee_inProgram h).placed.text_ne
        (by simp [hcallee]) (by rw [show k.word.kind = _ from hk]; decide)
      have hexchange := hp.exchange h G hargs
      rw [heq, hp.written_eq, hG, written_node, wordsOf_cons, wordsOf_cons, wordsOf_nil,
        List.append_nil]
      have hbehind : Reworded v.isSingleTargetEffect _ _ :=
        .behind hk htext heffect hexchange .nil
      rw [List.append_nil, List.append_nil] at hbehind
      simpa [written, hcallee] using (Reworded.refl _ (front.map Token.word)).append hbehind
termination_by sizeOf t
decreasing_by
  have := List.sizeOf_lt_of_mem ht
  simp only [Tree.node.sizeOf_spec]
  omega

end GroupTargets

end SceneGate
