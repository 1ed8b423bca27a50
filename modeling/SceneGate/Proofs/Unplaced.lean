/-
Where the tokens of a tree stand plays no part in grouping targets: what is to be grouped
in a tree without places is what is to be grouped in the tree (`regroup_unplaced`).
-/
import SceneGate.Proofs.NestedCalls

namespace SceneGate

/-- A located tree, without the places of its tokens. -/
def Located.unplaced (l : Located) : Located := { l with tree := l.tree.unplaced }

namespace Tree

variable {t : Tree} {ts : List Tree}

mutual

theorem tokens_unplaced : ∀ t : Tree, t.unplaced.tokens = t.tokens.map Token.unplaced
  | .leaf k => by simp
  | .node kind ts => by rw [unplaced_node, tokens_node, tokens_node, tokensOf_unplaced ts]

theorem tokensOf_unplaced : ∀ ts : List Tree,
    tokensOf (ts.map unplaced) = (tokensOf ts).map Token.unplaced
  | [] => by simp
  | t :: ts => by
    rw [List.map_cons, tokensOf_cons, tokensOf_cons, tokens_unplaced t, tokensOf_unplaced ts,
      List.map_append]

end

@[simp] theorem text_unplaced (t : Tree) : t.unplaced.text = t.text := by
  simp [text, spelling, tokens_unplaced, List.flatMap_map, Token.unplaced, Token.word, Word.token]

@[simp] theorem bareText_unplaced (t : Tree) : t.unplaced.bareText = t.bareText := by
  rw [bareText, bareText, tokens_unplaced, List.filter_map]
  simp [spelling, List.flatMap_map, Function.comp_def, Token.unplaced, Token.word, Word.token,
    Token.isTrivia]

@[simp] theorem isNode_unplaced (t : Tree) : t.unplaced.isNode = t.isNode := by
  cases t <;> simp [isNode]

@[simp] theorem kind_unplaced (t : Tree) : t.unplaced.kind = t.kind := by
  cases t <;> simp [kind, Token.unplaced, Token.word, Word.token]

theorem children_unplaced (t : Tree) : t.unplaced.children = t.children.map unplaced := by
  cases t with
  | leaf => rfl
  | node kind ts =>
    simp [children, parts, List.filter_map, Function.comp_def]

theorem child?_unplaced (k : Kind) (t : Tree) :
    t.unplaced.child? k = (t.child? k).map unplaced := by
  simp [child?, children_unplaced, List.find?_map]

theorem tailName?_unplaced (t : Tree) : t.unplaced.tailName? = t.tailName? := by
  unfold tailName?
  rw [kind_unplaced]
  split <;> simp [child?_unplaced, Function.comp_def]

mutual

theorem locate_unplaced (o d : Nat) : ∀ t : Tree,
    t.unplaced.locate o d = (t.locate o d).map Located.unplaced
  | .leaf k => by simp [locate, Located.unplaced]
  | .node kind ts => by
    rw [unplaced_node, locate, locate, locateAll_unplaced o (d + 1) ts, List.map_cons,
      Located.unplaced, unplaced_node]

theorem locateAll_unplaced (o d : Nat) : ∀ ts : List Tree,
    locateAll o d (ts.map unplaced) = (locateAll o d ts).map Located.unplaced
  | [] => by simp [locateAll]
  | t :: ts => by
    rw [List.map_cons, locateAll, locateAll, List.map_append, locate_unplaced o d t, bytes, text_unplaced,
      ← bytes, locateAll_unplaced _ d ts]

end

theorem findAll_unplaced (k : Kind) (t : Tree) :
    t.unplaced.findAll k = (t.findAll k).map Located.unplaced := by
  simp [findAll, locate_unplaced, List.filter_map, Function.comp_def, Located.unplaced]

end Tree

namespace GroupTargets

open SceneGate.Tree

variable {v : Vocabulary} {n : Nat} {t : Tree} {ts : List Tree}

theorem argumentsOf_unplaced (kind : Kind) (ts : List Tree) :
    argumentsOf kind (ts.map unplaced) = (argumentsOf kind ts).map unplaced := by
  simp [argumentsOf, List.filter_map, Function.comp_def]

theorem parts_unplaced (t : Tree) : t.unplaced.parts = t.parts.map unplaced := by
  cases t with
  | leaf => rfl
  | node kind ts => simp [parts]

theorem isEligible_unplaced (t : Tree) : isEligible v t.unplaced = isEligible v t := by
  simp only [isEligible, isNode_unplaced, kind_unplaced, Call.calleeName?, Call.callee?,
    Call.argumentList?, children_unplaced, child?_unplaced, List.head?_map]
  congr 1
  · congr 1
    cases t.children.head? <;> simp [tailName?_unplaced]
  · cases t.child? .argList with
    | none => rfl
    | some list =>
      simp only [Option.map_some, Option.any_some, any_isUnpacked_eq, positional_eq,
        parts_unplaced, argumentsOf_unplaced, List.length_map, List.head?_map, List.any_map]
      congr 1
      · congr 2
        exact congrArg list.parts.any (funext fun t => by simp [isUnpacked])
      · cases (argumentsOf .arg list.parts).head? <;> simp

theorem unplaced_ofWord (w : Word) : (ofWord w).unplaced = ofWord w := by
  simp [ofWord, Token.unplaced]

theorem unplaced_argumentList (ts : List Tree) :
    (argumentList ts).unplaced = argumentList (ts.map unplaced) := by
  have hcommas (ts : List Tree) :
      (behindCommas ts).map unplaced = behindCommas (ts.map unplaced) := by
    simp [behindCommas, List.map_flatMap, List.flatMap_map, unplaced_ofWord]
  cases ts with
  | nil => simp [argumentList, unplaced_ofWord]
  | cons t ts => simp [argumentList, unplaced_ofWord, hcommas]

theorem unplaced_callOf (name : Text) (ts : List Tree) :
    (callOf name ts).unplaced = callOf name (ts.map unplaced) := by
  simp [callOf, unplaced_ofWord, unplaced_argumentList]

theorem groupCall_unplaced (group : Text) (t : Tree) :
    groupCall group t.unplaced = (groupCall group t).unplaced := by
  unfold groupCall
  simp only [Call.callee?, Call.argumentList?, children_unplaced, child?_unplaced, List.head?_map]
  cases t.children.head? with
  | none => rfl
  | some callee =>
    cases t.child? .argList with
    | none => rfl
    | some list =>
      simp [unplaced_argumentList, unplaced_callOf, positional_eq, keywords_eq, parts_unplaced,
        argumentsOf_unplaced]

/-- Grouping targets does not depend on where tokens stand. -/
theorem regroup_unplaced (n : Nat) (t : Tree) :
    regroup v n t.unplaced = (regroup v n t).unplaced := by
  match t with
  | .leaf k => simp
  | .node k ts =>
    have hall (n : Nat) :
        (ts.map unplaced).map (regroup v n) = (ts.map (regroup v n)).map unplaced := by
      rw [List.map_map, List.map_map]
      exact List.map_congr_left fun t ht => regroup_unplaced n t
    have he' := isEligible_unplaced (v := v) (.node k ts)
    rw [unplaced_node] at he' ⊢
    cases he : isEligible v (.node k ts) with
    | false =>
      rw [he] at he'
      rw [regroup_node he, regroup_node he', hall, unplaced_node]
    | true =>
      rw [he] at he'
      cases n with
      | zero => rw [regroup_zero, regroup_zero, unplaced_node]
      | succ n =>
        rw [regroup_call he, regroup_call he', hall, ← unplaced_node, groupCall_unplaced]
termination_by sizeOf t
decreasing_by
  have := List.sizeOf_lt_of_mem ht
  simp only [Tree.node.sizeOf_spec]
  omega

theorem nesting_unplaced (t : Tree) : nesting v t.unplaced = nesting v t := by
  match t with
  | .leaf k => simp
  | .node k ts =>
    have he := isEligible_unplaced (v := v) (.node k ts)
    rw [unplaced_node] at he ⊢
    rw [nesting_node, nesting_node, he]
    congr 1
    refine Nat.le_antisymm (nestingAll_le fun u hu => ?_) (nestingAll_le fun t ht => ?_)
    · obtain ⟨t, ht, rfl⟩ := List.mem_map.1 hu
      rw [nesting_unplaced t]
      exact nesting_le_of_mem ht
    · rw [← nesting_unplaced t]
      exact nesting_le_of_mem (List.mem_map_of_mem ht)
termination_by sizeOf t
decreasing_by
  all_goals
    have := List.sizeOf_lt_of_mem ht
    simp only [Tree.node.sizeOf_spec]
    omega

end GroupTargets

end SceneGate
