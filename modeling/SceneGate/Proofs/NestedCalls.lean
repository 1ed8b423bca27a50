/-
Calls to be grouped that lie in one another. Once the outermost of them are grouped, the
others are to be grouped as before (`isEligible_regroup`), so grouping them level by level
comes to the same as grouping them at once (`regroup_regroup`). Each time they lie in one
another less deep (`nesting_regroup_le`), and where they lie in one another less deep than
is grouped, no more happens (`regroup_of_nesting_le`).
-/
import SceneGate.Proofs.RegroupedWords

namespace SceneGate

namespace GroupTargets

open SceneGate.Tree

variable {v : Vocabulary} {G : Identifier} {n m : Nat} {kind : Kind} {ts us : List Tree}
  {t callee : Tree}

/-! ## What is left to group -/

section Left

variable (hG : v.groupConstructor = G.word.text)
  (heffect : v.isSingleTargetEffect G.word.text = false)

include hG heffect

/-- Grouping calls makes no other argument begin with a group. -/
theorem begins_regroup (h : t.InProgram) :
    (v.groupConstructor ++ ['(']).isPrefixOf (regroup v 1 t).text =
      (v.groupConstructor ++ ['(']).isPrefixOf t.text := by
  have hreworded := reworded_regroup hG t h
  obtain ⟨e, hcut⟩ := h.placed.allCut
  have hsound : ∀ w ∈ t.written, w.kind ≠ .error := by
    intro w hw
    obtain ⟨k, hk, rfl⟩ := List.mem_map.1 hw
    exact h.sound k hk
  have hiff := hreworded.prefix_iff heffect hcut (hreworded.allCut hsound hcut)
  rw [spell_written, spell_written] at hiff
  rw [hG, Bool.eq_iff_iff, List.isPrefixOf_iff_prefix, List.isPrefixOf_iff_prefix, hiff]

/-- A call is to be grouped after other calls were if it was before. -/
theorem isEligible_regroup (h : (Tree.node kind ts).InProgram) :
    isEligible v (.node kind (ts.map (regroup v 1))) = isEligible v (.node kind ts) := by
  by_cases hkind : kind = .callExpr
  · subst hkind
    obtain ⟨callee, gap, o, mid, c, hp⟩ := exists_callParts h
    have hcallee := tailName?_regroup (v := v) 1 (hp.callee_inProgram h) hp.isNode
    rw [Bool.eq_iff_iff, hp.isEligible_iff, (hp.regroup 1).isEligible_iff, hcallee,
      any_isUnpacked_map_regroup, argumentsOf_map_regroup]
    refine and_congr_right fun _ => and_congr_right fun _ => ?_
    rcases hargs : argumentsOf .arg mid with _ | ⟨first, _ | ⟨second, more⟩⟩
    · simp
    · simp
    · have hfirst : first ∈ mid := (List.mem_filter.1 (hargs ▸ List.mem_cons_self ..)).1
      simp [begins_regroup hG heffect (hp.inProgram h hfirst)]
  · rw [isEligible_of_kind hkind, isEligible_of_kind hkind]

end Left

/-! ## A grouped call -/

theorem argumentsOf_behindCommas (kind : Kind) (ts : List Tree) :
    argumentsOf kind (behindCommas ts) = argumentsOf kind ts := by
  induction ts with
  | nil => rfl
  | cons t ts ih =>
    have hword (w : Word) : (ofWord w).isNode = false := rfl
    rw [argumentsOf, argumentsOf] at ih
    rw [behindCommas_cons, argumentsOf, argumentsOf]
    simp only [List.filter_cons, hword, Bool.false_and, Bool.false_eq_true, if_false, ih]

theorem map_regroup_behindCommas (ts : List Tree) :
    (behindCommas ts).map (regroup v n) = behindCommas (ts.map (regroup v n)) := by
  simp [behindCommas, ofWord, List.map_flatMap, List.flatMap_map]

/-- Grouping targets in the arguments of a list. -/
theorem regroup_argumentList (ts : List Tree) :
    regroup v n (argumentList ts) = argumentList (ts.map (regroup v n)) := by
  cases ts with
  | nil =>
    rw [argumentList, regroup_node (isEligible_of_kind (by decide) _)]
    simp [ofWord, argumentList]
  | cons t ts =>
    rw [argumentList_cons, regroup_node (isEligible_of_kind (by decide) _), List.map_cons,
      argumentList_cons]
    simp [map_regroup_behindCommas]

/-- The arguments of one sort are of no other. -/
theorem argumentsOf_argumentsOf {k l : Kind} (h : k ≠ l) (ts : List Tree) :
    argumentsOf k (argumentsOf l ts) = [] := by
  rw [argumentsOf, argumentsOf, List.filter_filter, List.filter_eq_nil_iff]
  intro t _
  cases hk : t.kind == k with
  | false => simp
  | true => simp [beq_iff_eq.1 hk, h]

/-- A call whose first argument is all that is given by position is not to be grouped. -/
theorem not_isEligible_grouped {first : Tree} {keywords : List Tree} (hnode : callee.isNode = true)
    (hkind : callee.kind ≠ .argList) (hkeywords : argumentsOf .arg keywords = []) :
    isEligible v (.node .callExpr [callee, argumentList (first :: keywords)]) = false := by
  have hp : CallShape [callee, argumentList (first :: keywords)] callee []
      Word.leftParen.token (first :: behindCommas keywords) Word.rightParen.token :=
    ⟨by rw [argumentList_cons]; rfl, hnode, hkind⟩
  cases he : isEligible v (.node .callExpr [callee, argumentList (first :: keywords)]) with
  | false => rfl
  | true =>
    obtain ⟨-, -, one, two, more, hargs, -⟩ := hp.isEligible_iff.1 he
    have hlength : (argumentsOf .arg (first :: behindCommas keywords)).length ≤ 1 := by
      have hrest : argumentsOf .arg (behindCommas keywords) = [] := by
        rw [argumentsOf_behindCommas, hkeywords]
      rw [argumentsOf] at hrest ⊢
      rw [List.filter_cons]
      split <;> simp [hrest]
    simp [hargs] at hlength

/-- A call of a name that is no effect is not to be grouped. -/
theorem not_isEligible_callOf {name : Text} (heffect : v.isSingleTargetEffect name = false)
    (list : Tree) :
    isEligible v (.node .callExpr [.node .nameRef [ofWord ⟨.ident, name⟩], list]) = false := by
  have hname : (Tree.node .nameRef [ofWord ⟨.ident, name⟩]).tailName? = some name := by
    simp [tailName?, Tree.kind, bareText, ofWord, Word.token, Token.isTrivia, Kind.isTrivia,
      spelling]
  have hcallee (ts : List Tree) :
      Call.callee? (.node .callExpr (.node .nameRef [ofWord ⟨.ident, name⟩] :: ts)) =
        some (.node .nameRef [ofWord ⟨.ident, name⟩]) := by
    simp [Call.callee?, Tree.children, Tree.parts, Tree.isNode]
  simp [isEligible, Call.calleeName?, hcallee, hname, heffect]

/-- Grouping targets in the arguments of a group. -/
theorem regroup_callOf {name : Text} (heffect : v.isSingleTargetEffect name = false)
    (ts : List Tree) : regroup v n (callOf name ts) = callOf name (ts.map (regroup v n)) := by
  have hname : regroup v n (.node .nameRef [ofWord ⟨.ident, name⟩]) =
      .node .nameRef [ofWord ⟨.ident, name⟩] := by
    rw [regroup_node (isEligible_of_kind (by decide) _)]
    simp [ofWord]
  rw [callOf, regroup_node (isEligible_of_kind (by decide) _), List.map_singleton,
    regroup_node (not_isEligible_callOf heffect _), List.map_cons, List.map_singleton, hname,
    regroup_argumentList]
  rfl

/-- Grouping targets in a grouped call. -/
theorem regroup_grouped {name : Text} (heffect : v.isSingleTargetEffect name = false)
    {positional keywords : List Tree} (hnode : callee.isNode = true)
    (hkind : callee.kind ≠ .argList) (hkeywords : argumentsOf .arg keywords = []) :
    regroup v n (.node .callExpr [callee, argumentList (callOf name positional :: keywords)]) =
      .node .callExpr [regroup v n callee, argumentList
        (callOf name (positional.map (regroup v n)) :: keywords.map (regroup v n))] := by
  rw [regroup_node (not_isEligible_grouped hnode hkind hkeywords), List.map_cons,
    List.map_singleton, regroup_argumentList, List.map_cons, regroup_callOf heffect]

/-! ## Level by level -/

/-- Grouping the outermost calls and then those that lie in fewer than `n` others is
grouping the calls that lie in fewer than `n + 1`. -/
theorem regroup_regroup (hG : v.groupConstructor = G.word.text)
    (heffect : v.isSingleTargetEffect G.word.text = false) (n : Nat) (t : Tree) (h : t.InProgram) :
    regroup v n (regroup v 1 t) = regroup v (n + 1) t := by
  match t with
  | .leaf k => simp
  | .node k ts =>
    cases he : isEligible v (.node k ts) with
    | false =>
      have he' : isEligible v (.node k (ts.map (regroup v 1))) = false := by
        rw [isEligible_regroup hG heffect h, he]
      rw [regroup_node he, regroup_node he', regroup_node he, List.map_map]
      exact congrArg _ (List.map_congr_left fun t ht =>
        regroup_regroup hG heffect n t (h.part ht))
    | true =>
      obtain rfl : k = .callExpr := kind_of_isEligible he
      obtain ⟨callee, gap, o, mid, c, first, second, more, hp, hargs, -, heq⟩ := regroup_one h he
      rw [heq, regroup_grouped (hG ▸ heffect) hp.isNode hp.kind
          (argumentsOf_argumentsOf (by decide) mid),
        regroup_call he, (hp.regroup n).groupCall_eq, argumentsOf_map_regroup,
        argumentsOf_map_regroup, hargs]
termination_by sizeOf t
decreasing_by
  have := List.sizeOf_lt_of_mem ht
  simp only [Tree.node.sizeOf_spec]
  omega

/-! ## How deep calls lie in one another -/

theorem nesting_le_of_mem (h : t ∈ ts) : nesting v t ≤ nestingAll v ts := by
  induction ts with
  | nil => cases h
  | cons u ts ih =>
    rw [nestingAll]
    rcases List.mem_cons.1 h with rfl | h
    · exact Nat.le_max_left ..
    · exact Nat.le_trans (ih h) (Nat.le_max_right ..)

theorem nestingAll_le (h : ∀ t ∈ ts, nesting v t ≤ n) : nestingAll v ts ≤ n := by
  induction ts with
  | nil =>
    rw [nestingAll]
    exact Nat.zero_le n
  | cons t ts ih =>
    obtain ⟨ht, hts⟩ := List.forall_mem_cons.1 h
    rw [nestingAll]
    exact Nat.max_le.2 ⟨ht, ih hts⟩

theorem nesting_node (kind : Kind) (ts : List Tree) : nesting v (.node kind ts) =
    (if isEligible v (.node kind ts) then 1 else 0) + nestingAll v ts := by
  rw [nesting]

@[simp] theorem nesting_leaf (k : Token) : nesting v (.leaf k) = 0 := by
  rw [nesting]

/-- Where calls lie in one another no deeper than is grouped, all are grouped. -/
theorem regroup_of_nesting_le (t : Tree) :
    ∀ {n m : Nat}, nesting v t ≤ n → n ≤ m → regroup v m t = regroup v n t := by
  intro n m h hle
  match t with
  | .leaf k => simp
  | .node k ts =>
    rw [nesting_node] at h
    cases he : isEligible v (.node k ts) with
    | false =>
      simp only [he, Bool.false_eq_true, if_false, Nat.zero_add] at h
      rw [regroup_node he, regroup_node he]
      exact congrArg _ (List.map_congr_left fun t ht =>
        regroup_of_nesting_le t (Nat.le_trans (nesting_le_of_mem ht) h) hle)
    | true =>
      obtain rfl : k = .callExpr := kind_of_isEligible he
      simp only [he, if_true] at h
      obtain ⟨n, rfl⟩ : ∃ k, n = k + 1 := ⟨n - 1, by omega⟩
      obtain ⟨m, rfl⟩ : ∃ k, m = k + 1 := ⟨m - 1, by omega⟩
      have hall : nestingAll v ts ≤ n := by omega
      rw [regroup_call he, regroup_call he]
      exact congrArg (fun us => groupCall _ (.node _ us)) (List.map_congr_left fun t ht =>
        regroup_of_nesting_le t (Nat.le_trans (nesting_le_of_mem ht) hall) (by omega))
termination_by sizeOf t
decreasing_by
  all_goals
    have := List.sizeOf_lt_of_mem ht
    simp only [Tree.node.sizeOf_spec]
    omega

theorem nesting_argumentList (h : ∀ t ∈ ts, nesting v t ≤ n) : nesting v (argumentList ts) ≤ n := by
  rw [argumentList.eq_def, nesting_node, isEligible_of_kind (by decide)]
  simp only [Bool.false_eq_true, if_false, Nat.zero_add]
  exact nestingAll_le (forall_mem_argumentList (P := fun t => nesting v t ≤ n) (by simp) h)

/-- Once the outermost calls are grouped, the others lie in one another less deep. -/
theorem nesting_regroup_le (hG : v.groupConstructor = G.word.text)
    (heffect : v.isSingleTargetEffect G.word.text = false) (t : Tree) (h : t.InProgram) :
    nesting v (regroup v 1 t) ≤ nesting v t - 1 := by
  match t with
  | .leaf k => simp
  | .node k ts =>
    cases he : isEligible v (.node k ts) with
    | false =>
      have he' : isEligible v (.node k (ts.map (regroup v 1))) = false := by
        rw [isEligible_regroup hG heffect h, he]
      rw [regroup_node he, nesting_node, nesting_node, he, he']
      simp only [Bool.false_eq_true, if_false, Nat.zero_add]
      refine nestingAll_le fun u hu => ?_
      obtain ⟨t, ht, rfl⟩ := List.mem_map.1 hu
      have hle := nesting_regroup_le hG heffect t (h.part ht)
      have := nesting_le_of_mem (v := v) ht
      omega
    | true =>
      obtain rfl : k = .callExpr := kind_of_isEligible he
      obtain ⟨callee, gap, o, mid, c, first, second, more, hp, hargs, -, heq⟩ := regroup_one h he
      have hmid {t : Tree} {k : Kind} (ht : t ∈ argumentsOf k mid) :
          nesting v t ≤ nestingAll v ts := by
        have hlist : nesting v (.node .argList (.leaf o :: mid ++ [.leaf c])) ≤ nestingAll v ts :=
          nesting_le_of_mem (by simp [hp.eq])
        rw [nesting_node, isEligible_of_kind (by decide)] at hlist
        have ht : t ∈ .leaf o :: mid ++ [.leaf c] := by simp [(List.mem_filter.1 ht).1]
        have := nesting_le_of_mem (v := v) ht
        simp only [Bool.false_eq_true, if_false, Nat.zero_add] at hlist
        omega
      have hcallOf : nesting v (callOf v.groupConstructor (first :: second :: more)) ≤
          nestingAll v ts := by
        rw [callOf, nesting_node, isEligible_of_kind (by decide)]
        simp only [Bool.false_eq_true, if_false, Nat.zero_add]
        refine nestingAll_le fun t ht => ?_
        obtain rfl := List.mem_singleton.1 ht
        rw [nesting_node, not_isEligible_callOf (hG ▸ heffect)]
        simp only [Bool.false_eq_true, if_false, Nat.zero_add]
        refine nestingAll_le fun t ht => ?_
        have ht : t = .node .nameRef [ofWord ⟨.ident, v.groupConstructor⟩] ∨
            t = argumentList (first :: second :: more) := by simpa using ht
        rcases ht with rfl | rfl
        · rw [nesting_node, isEligible_of_kind (by decide)]
          simp [ofWord, nestingAll]
        · exact nesting_argumentList fun t ht => hmid (hargs ▸ ht)
      rw [heq, nesting_node, nesting_node, he, not_isEligible_grouped hp.isNode hp.kind
        (argumentsOf_argumentsOf (by decide) mid)]
      simp only [Bool.false_eq_true, if_false, if_true, Nat.zero_add, Nat.add_sub_cancel_left]
      refine nestingAll_le fun t ht => ?_
      have ht : t = callee ∨
          t = argumentList (callOf v.groupConstructor (first :: second :: more) ::
            argumentsOf .keywordArg mid) := by simpa using ht
      rcases ht with rfl | rfl
      · exact nesting_le_of_mem (by simp [hp.eq])
      · exact nesting_argumentList (List.forall_mem_cons.2 ⟨hcallOf, fun t ht => hmid ht⟩)
termination_by sizeOf t
decreasing_by
  have := List.sizeOf_lt_of_mem ht
  simp only [Tree.node.sizeOf_spec]
  omega

end GroupTargets

end SceneGate
