/-
Texts whose calls are grouped. The outlines of a list of arguments and of the one in which
the positional arguments are grouped may be exchanged (`Outline.Regrouped`), and the words
of the grouped tree are laid out as they stand. So the text of the grouped tree is a program
again, and its tree is the grouped tree (`parse_regroup`).
-/
import SceneGate.Proofs.RegroupedWords
import SceneGate.Proofs.Rewriting

namespace SceneGate

open Progress

/-! ## Outlines of lists of arguments -/

namespace Outline

/-- A list of arguments, and the one in which the positional arguments are grouped. -/
def Regrouped (G : Identifier) (o p : Outline Word) : Prop :=
  ∃ v os w, v.kind = .lParen ∧ w.kind = .rParen ∧ AreArguments false os ∧
    o = .node .argList (.word v :: (os ++ [.word w])) ∧ p = argumentList (grouped G os)

/-- Grouped arguments are read wherever arguments are. -/
theorem argumentSwaps_regrouped (G : Identifier) : ArgumentSwaps (Regrouped G) := by
  rintro _ _ ⟨v, os, w, hv, -, hos, rfl, rfl⟩
  refine ⟨⟨v, _, rfl, hv⟩, .leftParen, wordsOf (grouped G os) ++ [.rightParen], rfl, fun b vs => ?_⟩
  have hread := (hos.grouped G).answers (v := .leftParen) (w := .rightParen) rfl b vs
  simpa [argumentList] using hread

end Outline

namespace GroupTargets

open SceneGate.Tree

variable {v : Vocabulary} {G : Identifier} {kind : Kind} {ts : List Tree} {t : Tree}

theorem outline_ofWord {w : Word} (h : w.kind.isTrivia = false) :
    (ofWord w).outline Token.word = [.word w] := outline_leaf _ h

theorem outline_of_isNode (h : t.isNode = true) : ∃ o, t.outline Token.word = [o] := by
  cases t with
  | leaf => cases h
  | node kind ts => exact ⟨_, outline_node ..⟩

/-- The commas between arguments are those between their outlines. -/
theorem outlines_behindCommas (o : Outline Word) (h : ∀ t ∈ ts, t.isNode = true) :
    o :: outlines Token.word (behindCommas ts) = Outline.commas (o :: outlines Token.word ts) := by
  induction ts generalizing o with
  | nil => rfl
  | cons t ts ih =>
    obtain ⟨ht, hts⟩ := List.forall_mem_cons.1 h
    obtain ⟨p, hp⟩ := outline_of_isNode ht
    have hblank : (ofWord .blank).outline Token.word = [] := rfl
    have hcommas := ih p hts
    rw [Outline.commas] at hcommas ⊢
    rw [behindCommas_cons, outlines_cons, outline_ofWord rfl, outlines_cons, hblank, outlines_cons,
      outlines_cons, hp, List.nil_append, List.singleton_append, List.singleton_append,
      List.singleton_append, hcommas, List.intersperse_cons_cons]

/-- The outline of arguments in brackets. -/
theorem outline_argumentList (h : ∀ t ∈ ts, t.isNode = true) :
    (Tree.argumentList ts).outline Token.word =
      [Outline.argumentList (Outline.commas (outlines Token.word ts))] := by
  have hopen : (ofWord .leftParen).outline Token.word = [.word .leftParen] := outline_ofWord rfl
  have hclose : (ofWord .rightParen).outline Token.word = [.word .rightParen] := outline_ofWord rfl
  cases ts with
  | nil => simp [Tree.argumentList, hopen, hclose, Outline.argumentList, Outline.commas]
  | cons t ts =>
    obtain ⟨ht, hts⟩ := List.forall_mem_cons.1 h
    obtain ⟨o, ho⟩ := outline_of_isNode ht
    have hcommas := outlines_behindCommas o hts
    simp [Tree.argumentList, hopen, hclose, Outline.argumentList, ho, ← hcommas]

theorem outline_callOf (G : Identifier) (h : ∀ t ∈ ts, t.isNode = true) :
    (callOf G.word.text ts).outline Token.word =
      [Outline.callOf G (Outline.commas (outlines Token.word ts))] := by
  have hname : (⟨.ident, G.word.text⟩ : Word) = G.word := rfl
  simp [callOf, outline_argumentList h, hname, outline_ofWord (w := G.word) rfl, Outline.callOf,
    Identifier.ref]

/-- The arguments of a sort in an outline. -/
theorem outlines_argumentsOf (kind : Kind) (ts : List Tree) :
    outlines Token.word (argumentsOf kind ts) =
      (outlines Token.word ts).filter (Outline.isOf kind) := by
  induction ts with
  | nil => rfl
  | cons t ts ih =>
    rw [argumentsOf] at ih ⊢
    rw [List.filter_cons, outlines_cons, List.filter_append, ← ih]
    cases t with
    | leaf k =>
      have hnone : ((leaf k).outline Token.word).filter (Outline.isOf kind) = [] := by
        cases hk : k.isTrivia <;> simp [outline, hk, Outline.isOf]
      rw [hnone]
      rfl
    | node k us => by_cases hk : k = kind <;> simp [isNode, Tree.kind, Outline.isOf, hk]

/-- The outline of grouped arguments. -/
theorem outline_grouped (G : Identifier) (mid : List Tree) :
    (Tree.argumentList (callOf G.word.text (argumentsOf .arg mid) ::
        argumentsOf .keywordArg mid)).outline Token.word =
      [Outline.argumentList (Outline.grouped G (outlines Token.word mid))] := by
  have hnodes (k : Kind) : ∀ t ∈ argumentsOf k mid, t.isNode = true :=
    fun _ => isNode_of_mem_argumentsOf
  have hall : ∀ t ∈ callOf G.word.text (argumentsOf .arg mid) :: argumentsOf .keywordArg mid,
      t.isNode = true := List.forall_mem_cons.2 ⟨rfl, hnodes _⟩
  rw [outline_argumentList hall, outlines_cons, outline_callOf G (hnodes _), outlines_argumentsOf,
    outlines_argumentsOf, List.singleton_append]
  rfl

/-- Grouping calls exchanges lists of arguments. -/
theorem swap_regroup (hG : v.groupConstructor = G.word.text) (t : Tree) (h : t.InProgram) :
    List.Forall₂ (Outline.Swap (Outline.Regrouped G)) (t.outline Token.word)
      ((regroup v 1 t).outline Token.word) := by
  match t with
  | .leaf k =>
    rw [regroup_leaf]
    exact Outline.forall₂_swap_refl _
  | .node k ts =>
    cases he : isEligible v (.node k ts) with
    | false =>
      rw [regroup_node he, outline_node, outline_node]
      exact .cons (.node (forall₂_swap_outlines fun t ht => swap_regroup hG t (h.part ht))) .nil
    | true =>
      obtain rfl : k = .callExpr := kind_of_isEligible he
      obtain ⟨callee, gap, o, mid, c, first, second, more, hp, hargs, -, heq⟩ := regroup_one h he
      have ho : o.isTrivia = false := by rw [Token.isTrivia, hp.opens]; rfl
      have hc : c.isTrivia = false := by rw [Token.isTrivia, hp.closes]; rfl
      have hlist : (Tree.node .argList (.leaf o :: mid ++ [.leaf c])).outline Token.word =
          [.node .argList (.word o.word :: (outlines Token.word mid ++ [.word c.word]))] := by
        simp [outline_leaf _ ho, outline_leaf _ hc]
      have hswap : Outline.Swap (Outline.Regrouped G)
          (.node .argList (.word o.word :: (outlines Token.word mid ++ [.word c.word])))
          (Outline.argumentList (Outline.grouped G (outlines Token.word mid))) :=
        .here ⟨o.word, _, c.word, hp.opens, hp.closes, hp.holds, rfl, rfl⟩
      rw [heq, hp.eq, ← hargs, hG, outline_node, outline_node, outlines_append, outlines_cons,
        outlines_trivia Token.word hp.gap, List.append_nil, outlines_cons, outlines_cons,
        outlines_cons, hlist, outline_grouped, outlines_nil]
      exact .cons (.node (List.rel_append (Outline.forall₂_swap_refl _) (.cons hswap .nil))) .nil
termination_by sizeOf t
decreasing_by
  have := List.sizeOf_lt_of_mem ht
  simp only [Tree.node.sizeOf_spec]
  omega

/-! ## Where trivia stands -/

theorem isTrivia_regroup (n : Nat) (t : Tree) : (regroup v n t).isTrivia = t.isTrivia := by
  cases t with
  | leaf k => rw [regroup_leaf]
  | node kind ts =>
    have hnode : (regroup v n (.node kind ts)).isNode = true := by
      rw [isNode_regroup]
      rfl
    rw [isTrivia_of_isNode hnode, isTrivia_of_isNode rfl]

/-- A list of trimmed arguments is trimmed. -/
theorem trimmed_argumentList (h : ∀ t ∈ ts, t.Each Trimmed) :
    (Tree.argumentList ts).Each Trimmed := by
  rw [Tree.argumentList.eq_def, each_node]
  exact ⟨(trim_singleton (t := ofWord .leftParen) rfl).append _
    (trim_singleton (t := ofWord .rightParen) rfl), forall_mem_argumentList each_leaf h⟩

theorem trimmed_callOf (name : Text) (h : ∀ t ∈ ts, t.Each Trimmed) :
    (callOf name ts).Each Trimmed := by
  have hname : (Tree.node .nameRef [ofWord ⟨.ident, name⟩]).Each Trimmed :=
    each_node.2 ⟨trim_singleton rfl, by simp [ofWord]⟩
  refine each_node.2 ⟨trim_singleton rfl, List.forall_mem_singleton.2 (each_node.2 ⟨?_, ?_⟩)⟩
  · exact (trim_singleton rfl).append [] (trim_singleton rfl)
  · exact List.forall_mem_cons.2 ⟨hname, List.forall_mem_singleton.2 (trimmed_argumentList h)⟩

/-- Grouping calls leaves no trivia at the edges of nodes. -/
theorem trimmed_regroup (t : Tree) (h : t.InProgram) : (regroup v 1 t).Each Trimmed := by
  match t with
  | .leaf k =>
    rw [regroup_leaf]
    exact each_leaf k
  | .node k ts =>
    cases he : isEligible v (.node k ts) with
    | false =>
      rw [regroup_node he, each_node]
      refine ⟨h.node.trim.of_map_eq ?_, fun t ht => ?_⟩
      · rw [List.map_map]
        exact List.map_congr_left fun u _ => isTrivia_regroup 1 u
      · obtain ⟨u, hu, rfl⟩ := List.mem_map.1 ht
        exact trimmed_regroup u (h.part hu)
    | true =>
      obtain rfl : k = .callExpr := kind_of_isEligible he
      obtain ⟨callee, gap, o, mid, c, first, second, more, hp, hargs, -, heq⟩ := regroup_one h he
      have hmid {k : Kind} : ∀ t ∈ argumentsOf k mid, t.Each Trimmed := fun t ht =>
        (hp.inProgram h (List.mem_filter.1 ht).1).each.imp fun _ _ => ProgramNode.trim
      have hcallee : callee.Each Trimmed :=
        (hp.callee_inProgram h).each.imp fun _ _ => ProgramNode.trim
      rw [heq, ← hargs, each_node]
      refine ⟨(trim_singleton (isTrivia_of_isNode hp.isNode)).append [] (trim_singleton rfl), ?_⟩
      exact List.forall_mem_cons.2 ⟨hcallee, List.forall_mem_singleton.2 (trimmed_argumentList
        (List.forall_mem_cons.2 ⟨trimmed_callOf _ hmid, hmid⟩))⟩
termination_by sizeOf t
decreasing_by
  have := List.sizeOf_lt_of_mem hu
  simp only [Tree.node.sizeOf_spec]
  omega

end GroupTargets

/-! ## Reading the text again -/

namespace GroupTargets

variable {v : Vocabulary} {G : Identifier} {t : Text}

/-- The text of a program whose outermost calls are grouped is a program, and its tree is
the one in which they are grouped. -/
theorem parse_regroup (hG : v.groupConstructor = G.word.text) (h : (parse t).ok = true) :
    (parse (regroup v 1 (parse t).tree).text).ok = true ∧
      (parse (regroup v 1 (parse t).tree).text).tree.unplaced =
        (regroup v 1 (parse t).tree).unplaced := by
  obtain ⟨parts, hroot⟩ := parse_root t
  have hprogram := inProgram_parse h
  rw [hroot, Tree.parts] at hprogram
  have hgrouped : regroup v 1 (parse t).tree = .node .sourceFile (parts.map (regroup v 1)) := by
    rw [hroot, regroup_node (isEligible_of_kind (by decide) _)]
  have hreworded : Word.Reworded v.isSingleTargetEffect (Tree.wordsOf parts)
      (Tree.wordsOf (parts.map (regroup v 1))) :=
    reworded_wordsOf fun u hu => reworded_regroup hG u (hprogram u hu)
  have hswap : List.Forall₂ (Outline.Swap (Outline.Regrouped G))
      (Tree.outlines Token.word parts) (Tree.outlines Token.word (parts.map (regroup v 1))) :=
    Tree.forall₂_swap_outlines fun u hu => swap_regroup hG u (hprogram u hu)
  rw [hgrouped]
  refine parse_rewritten (Outline.argumentSwaps_regrouped G) h hroot hswap hreworded.recast
    (hreworded.allCut (sound_words hprogram)) fun u hu => ?_
  obtain ⟨w, hw, rfl⟩ := List.mem_map.1 hu
  exact trimmed_regroup w (hprogram w hw)

end GroupTargets

end SceneGate
