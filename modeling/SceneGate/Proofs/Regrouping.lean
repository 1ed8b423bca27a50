/-
Grouping the targets of calls, told on trees. A call may be grouped if it calls an effect
for a single target with two positional arguments or more (`isEligible`); `regroup` groups
all calls of a tree that may be and lie in fewer than a number of others.
-/
import SceneGate.Proofs.GroupedWords
import SceneGate.Proofs.ProgramTrees
import SceneGate.Rules.GroupTargets

namespace SceneGate

namespace Tree

/-- A word as a leaf of a tree. -/
def ofWord (w : Word) : Tree := .leaf w.token

/-- Trees with a comma in front of each. -/
def behindCommas (ts : List Tree) : List Tree :=
  ts.flatMap fun t => [ofWord .comma, ofWord .blank, t]

/-- Trees with commas between them, in brackets. -/
def argumentList (ts : List Tree) : Tree :=
  .node .argList (ofWord .leftParen ::
    (match ts with
      | [] => []
      | t :: ts => t :: behindCommas ts) ++ [ofWord .rightParen])

theorem behindCommas_cons (t : Tree) (ts : List Tree) :
    behindCommas (t :: ts) = ofWord .comma :: ofWord .blank :: t :: behindCommas ts := rfl

/-- A list of arguments, by its parts. -/
theorem argumentList_cons (t : Tree) (ts : List Tree) : argumentList (t :: ts) =
    .node .argList (.leaf Word.leftParen.token :: (t :: behindCommas ts) ++
      [.leaf Word.rightParen.token]) := rfl

/-- The parts of a list of arguments are the arguments and leaves. -/
theorem forall_mem_argumentList {P : Tree → Prop} {ts : List Tree} (hleaf : ∀ k, P (.leaf k))
    (h : ∀ t ∈ ts, P t) : ∀ t ∈ (argumentList ts).parts, P t := by
  cases ts with
  | nil => exact List.forall_mem_cons.2 ⟨hleaf _, List.forall_mem_singleton.2 (hleaf _)⟩
  | cons t ts =>
    obtain ⟨ht, hts⟩ := List.forall_mem_cons.1 h
    have hcommas : ∀ u ∈ behindCommas ts, P u := by
      intro u hu
      obtain ⟨t, ht, hu⟩ := List.mem_flatMap.1 hu
      have hu : u = ofWord .comma ∨ u = ofWord .blank ∨ u = t := by simpa using hu
      rcases hu with rfl | rfl | rfl
      · exact hleaf _
      · exact hleaf _
      · exact hts u ht
    rw [argumentList_cons, parts]
    simp only [List.cons_append, List.forall_mem_cons, List.forall_mem_append]
    exact ⟨hleaf _, ht, hcommas, hleaf _, by simp⟩

/-- The arguments in a list that are given by position. -/
def positional (list : Tree) : List Tree :=
  (list.arguments.filter Argument.isPositional).map Argument.tree

/-- The arguments in a list that are passed by a name. -/
def keywords (list : Tree) : List Tree :=
  (list.arguments.filter Argument.isKeyword).map Argument.tree

end Tree

namespace GroupTargets

open SceneGate.Tree

/-- Whether the targets of a call are to be grouped: it calls an effect that takes a single
target, none of its arguments is unpacked, two or more are positional, and the first of
these does not begin with a group. -/
def isEligible (v : Vocabulary) (t : Tree) : Bool :=
  t.isNode && t.kind == .callExpr && (Call.calleeName? t).any v.isSingleTargetEffect &&
    (Call.argumentList? t).any fun list =>
      !list.arguments.any Argument.isUnpacked && 2 ≤ list.positional.length &&
        !list.positional.head?.any fun first => (v.groupConstructor ++ ['(']).isPrefixOf first.text

/-- A call of a name as an argument. -/
def callOf (name : Text) (ts : List Tree) : Tree :=
  .node .arg [.node .callExpr [.node .nameRef [ofWord ⟨.ident, name⟩], argumentList ts]]

/-- A call with its positional arguments grouped. -/
def groupCall (group : Text) (t : Tree) : Tree :=
  match Call.callee? t, Call.argumentList? t with
  | some callee, some list =>
    .node .callExpr [callee, argumentList (callOf group list.positional :: list.keywords)]
  | _, _ => t

mutual

/-- Groups the targets of the calls that lie in fewer than `n` others whose targets are to
be grouped. -/
def regroup (v : Vocabulary) : (n : Nat) → Tree → Tree
  | _, .leaf k => .leaf k
  | n, .node kind ts =>
    if isEligible v (.node kind ts) then
      match n with
      | 0 => .node kind ts
      | n + 1 => groupCall v.groupConstructor (.node kind (regroupAll v n ts))
    else .node kind (regroupAll v n ts)

/-- Groups targets in trees that stand side by side. -/
def regroupAll (v : Vocabulary) : (n : Nat) → List Tree → List Tree
  | _, [] => []
  | n, t :: ts => regroup v n t :: regroupAll v n ts

end

mutual

/-- How deep calls whose targets are to be grouped lie in one another. -/
def nesting (v : Vocabulary) : Tree → Nat
  | .leaf _ => 0
  | .node kind ts => (if isEligible v (.node kind ts) then 1 else 0) + nestingAll v ts

/-- How deep they lie in trees that stand side by side. -/
def nestingAll (v : Vocabulary) : List Tree → Nat
  | [] => 0
  | t :: ts => max (nesting v t) (nestingAll v ts)

end

variable {v : Vocabulary} {n : Nat} {kind : Kind} {ts us : List Tree} {t : Tree}

@[simp] theorem regroup_leaf (k : Token) : regroup v n (.leaf k) = .leaf k := by
  rw [regroup]

theorem regroupAll_eq_map (n : Nat) (ts : List Tree) :
    regroupAll v n ts = ts.map (regroup v n) := by
  induction ts with
  | nil => rw [regroupAll, List.map_nil]
  | cons t ts ih => rw [regroupAll, ih, List.map_cons]

theorem regroup_node (h : isEligible v (.node kind ts) = false) :
    regroup v n (.node kind ts) = .node kind (ts.map (regroup v n)) := by
  rw [regroup.eq_def]
  simp [h, regroupAll_eq_map]

theorem regroup_call (h : isEligible v (.node kind ts) = true) :
    regroup v (n + 1) (.node kind ts) =
      groupCall v.groupConstructor (.node kind (ts.map (regroup v n))) := by
  rw [regroup.eq_def]
  simp [h, regroupAll_eq_map]

mutual

theorem regroup_zero (v : Vocabulary) : ∀ t : Tree, regroup v 0 t = t
  | .leaf k => by simp
  | .node kind ts => by
    cases h : isEligible v (.node kind ts) with
    | true => rw [regroup.eq_def]; simp [h]
    | false => rw [regroup.eq_def]; simp [h, regroupAll_zero v ts]

theorem regroupAll_zero (v : Vocabulary) : ∀ ts : List Tree, regroupAll v 0 ts = ts
  | [] => by rw [regroupAll]
  | t :: ts => by rw [regroupAll, regroup_zero v t, regroupAll_zero v ts]

end

/-- The outermost calls are grouped as they are. -/
theorem regroup_one_call (h : isEligible v (.node kind ts) = true) :
    regroup v 1 (.node kind ts) = groupCall v.groupConstructor (.node kind ts) := by
  rw [regroup_call h, ← regroupAll_eq_map, regroupAll_zero]

theorem kind_of_isEligible (h : isEligible v t = true) : t.kind = .callExpr := by
  simp only [isEligible, Bool.and_eq_true, beq_iff_eq] at h
  exact h.1.1.2

theorem isEligible_of_kind (h : kind ≠ .callExpr) (ts : List Tree) :
    isEligible v (.node kind ts) = false := by
  cases he : isEligible v (.node kind ts) with
  | false => rfl
  | true => exact absurd (kind_of_isEligible he) h

/-- Grouping targets leaves a call a call. -/
theorem groupCall_node (group : Text) (ts : List Tree) :
    ∃ us, groupCall group (.node .callExpr ts) = .node .callExpr us := by
  unfold groupCall
  split <;> exact ⟨_, rfl⟩

theorem regroup_node' (n : Nat) (kind : Kind) (ts : List Tree) :
    ∃ us, regroup v n (.node kind ts) = .node kind us := by
  cases h : isEligible v (.node kind ts) with
  | false => exact ⟨_, regroup_node h⟩
  | true =>
    obtain rfl : kind = .callExpr := kind_of_isEligible h
    cases n with
    | zero => exact ⟨ts, regroup_zero v _⟩
    | succ n => rw [regroup_call h]; exact groupCall_node ..

@[simp] theorem isNode_regroup (n : Nat) (t : Tree) : (regroup v n t).isNode = t.isNode := by
  cases t with
  | leaf k => simp
  | node kind ts =>
    obtain ⟨us, h⟩ := regroup_node' (v := v) n kind ts
    rw [h]; rfl

@[simp] theorem kind_regroup (n : Nat) (t : Tree) : (regroup v n t).kind = t.kind := by
  cases t with
  | leaf k => simp
  | node kind ts =>
    obtain ⟨us, h⟩ := regroup_node' (v := v) n kind ts
    rw [h]; rfl

/-! ## The parts of a call -/

/-- The arguments of a kind among the parts of a list. -/
def argumentsOf (kind : Kind) (ts : List Tree) : List Tree :=
  ts.filter fun t => t.isNode && t.kind == kind

theorem isNode_of_mem_argumentsOf (h : t ∈ argumentsOf kind ts) : t.isNode = true :=
  (Bool.and_eq_true_iff.1 (List.mem_filter.1 h).2).1

/-- Arguments of a sort are the nodes of a kind. -/
theorem map_tree_filter {p : Argument → Bool} {kind : Kind} (list : Tree)
    (hp : ∀ t, ((Argument.ofTree? t).filter p).map Argument.tree =
      if t.kind == kind then some t else none) :
    (list.arguments.filter p).map Argument.tree = argumentsOf kind list.parts := by
  have hguard : (fun t => if t.kind == kind then some t else none) =
      Option.guard fun t : Tree => t.kind == kind := by
    funext t
    simp [Option.guard]
  rw [arguments, List.filter_filterMap, List.map_filterMap, List.filterMap_congr fun t _ => hp t,
    hguard, List.filterMap_eq_filter, Tree.children, List.filter_filter]
  exact List.filter_congr fun t _ => Bool.and_comm ..

theorem positional_eq (list : Tree) : list.positional = argumentsOf .arg list.parts :=
  map_tree_filter list fun t => by
    unfold Argument.ofTree?
    split <;> simp_all [Argument.isPositional, Argument.tree]

theorem keywords_eq (list : Tree) : list.keywords = argumentsOf .keywordArg list.parts :=
  map_tree_filter list fun t => by
    unfold Argument.ofTree?
    split <;> simp_all [Argument.isKeyword, Argument.tree]

/-- Arguments that stand for several. -/
def isUnpacked (t : Tree) : Bool :=
  t.isNode && (t.kind == .starredArg || t.kind == .doubleStarredArg)

theorem any_isUnpacked_eq (list : Tree) :
    list.arguments.any Argument.isUnpacked = list.parts.any isUnpacked := by
  have hone (t : Tree) : ((Argument.ofTree? t).any Argument.isUnpacked) =
      (t.kind == .starredArg || t.kind == .doubleStarredArg) := by
    unfold Argument.ofTree?
    split <;> simp_all [Argument.isUnpacked]
  rw [arguments, List.any_filterMap, Tree.children, List.any_filter]
  refine congrArg list.parts.any (funext fun t => ?_)
  rw [isUnpacked, ← hone]
  cases Argument.ofTree? t <;> rfl

/-- The parts of a call: what is called, trivia, and between brackets the parts of the
list. -/
structure CallShape (ts : List Tree) (callee : Tree) (gap : List Token) (o : Token)
    (mid : List Tree) (c : Token) : Prop where
  eq : ts = callee :: gap.map leaf ++ [.node .argList (.leaf o :: mid ++ [.leaf c])]
  isNode : callee.isNode = true
  kind : callee.kind ≠ .argList

/-- The parts of a call in a program. -/
structure CallParts (ts : List Tree) (callee : Tree) (gap : List Token) (o : Token)
    (mid : List Tree) (c : Token) : Prop extends CallShape ts callee gap o mid c where
  gap : ∀ k ∈ gap, k.isTrivia = true
  opens : o.kind = .lParen
  closes : c.kind = .rParen
  remains : Outline.RemainArguments false (outlines Token.word mid)
  even : Word.Even (wordsOf mid)
  inside : ∀ w ∈ wordsOf mid, w.Inside

/-- What stands between the brackets are arguments. -/
theorem CallParts.holds {callee : Tree} {gap : List Token} {o : Token} {mid : List Tree} {c : Token}
    (h : CallParts ts callee gap o mid c) : Outline.AreArguments false (outlines Token.word mid) :=
  h.remains.are

theorem exists_callParts (h : (Tree.node .callExpr ts).InProgram) :
    ∃ callee gap o mid c, CallParts ts callee gap o mid c := by
  obtain ⟨callee, gap, list, rfl, hgap, hnode, hkind, hlist, hargs⟩ := h.node.call
  cases list with
  | leaf => cases hlist
  | node kind us =>
    obtain rfl : kind = .argList := hargs
    have hus := h.part (t := .node .argList us) (by simp)
    obtain ⟨o, mid, c, rfl, ho, hc, hmid, heven, hinside⟩ := hus.argumentList
    exact ⟨callee, gap, o, mid, c, ⟨rfl, hnode, by simp_all⟩, hgap, ho, hc, hmid, heven, hinside⟩

theorem argumentsOf_brackets (kind : Kind) (o c : Token) (mid : List Tree) :
    argumentsOf kind (.leaf o :: mid ++ [.leaf c]) = argumentsOf kind mid := by
  simp [argumentsOf, Tree.isNode]

theorem any_isUnpacked_brackets (o c : Token) (mid : List Tree) :
    (leaf o :: mid ++ [leaf c]).any isUnpacked = mid.any isUnpacked := by
  simp [isUnpacked, Tree.isNode]

section Parts

variable {callee : Tree} {gap : List Token} {o c : Token} {mid : List Tree} {f : Tree → Tree}
  (hp : CallShape ts callee gap o mid c)

include hp

theorem CallShape.children : (Tree.node .callExpr ts).children =
    [callee, .node .argList (.leaf o :: mid ++ [.leaf c])] := by
  have hgap : (gap.map leaf).filter Tree.isNode = [] := by
    simp [List.filter_eq_nil_iff, Tree.isNode]
  rw [hp.eq, Tree.children, Tree.parts, List.filter_append, List.filter_cons_of_pos hp.isNode, hgap]
  rfl

theorem CallShape.callee? : Call.callee? (.node .callExpr ts) = some callee := by
  rw [Call.callee?, hp.children]
  rfl

theorem CallShape.argumentList? : Call.argumentList? (.node .callExpr ts) =
    some (.node .argList (.leaf o :: mid ++ [.leaf c])) := by
  have hne : (callee.kind == .argList) = false := beq_eq_false_iff_ne.2 hp.kind
  rw [Call.argumentList?, Tree.child?, hp.children, List.find?_cons, hne]
  rfl

/-- When a call is grouped, by its parts. -/
theorem CallShape.isEligible_iff : isEligible v (.node .callExpr ts) = true ↔
    callee.tailName?.any v.isSingleTargetEffect = true ∧ mid.any isUnpacked = false ∧
      ∃ first second more, argumentsOf .arg mid = first :: second :: more ∧
        (v.groupConstructor ++ ['(']).isPrefixOf first.text = false := by
  rw [isEligible, Call.calleeName?, hp.callee?, hp.argumentList?, Option.bind_some, Option.any_some,
    any_isUnpacked_eq, positional_eq, Tree.parts, argumentsOf_brackets, any_isUnpacked_brackets]
  rcases argumentsOf .arg mid with _ | ⟨first, _ | ⟨second, more⟩⟩ <;>
    simp [Tree.isNode, Tree.kind, and_assoc]

/-- A grouped call, by its parts. -/
theorem CallShape.groupCall_eq (group : Text) : groupCall group (.node .callExpr ts) =
    .node .callExpr [callee,
      argumentList (callOf group (argumentsOf .arg mid) :: argumentsOf .keywordArg mid)] := by
  rw [groupCall, hp.callee?, hp.argumentList?]
  simp only [positional_eq, keywords_eq, Tree.parts, argumentsOf_brackets]

end Parts

/-- Grouping targets in the parts of a call. -/
theorem CallShape.regroup {callee : Tree} {gap : List Token} {o c : Token} {mid : List Tree}
    (hp : CallShape ts callee gap o mid c) (n : Nat) :
    CallShape (ts.map (regroup v n)) (regroup v n callee) gap o (mid.map (regroup v n)) c where
  eq := by
    have hlist (us : List Tree) : GroupTargets.regroup v n (.node .argList us) =
        .node .argList (us.map (GroupTargets.regroup v n)) :=
      regroup_node (isEligible_of_kind (by decide) us)
    simp [hp.eq, hlist, Function.comp_def]
  isNode := by simpa using hp.isNode
  kind := by simpa using hp.kind

theorem argumentsOf_map_regroup (kind : Kind) (mid : List Tree) :
    argumentsOf kind (mid.map (regroup v n)) = (argumentsOf kind mid).map (regroup v n) := by
  rw [argumentsOf, List.filter_map, argumentsOf]
  exact congrArg _ (List.filter_congr fun t _ => by simp)

theorem any_isUnpacked_map_regroup (mid : List Tree) :
    (mid.map (regroup v n)).any isUnpacked = mid.any isUnpacked := by
  rw [List.any_map]
  exact congrArg mid.any (funext fun t => by simp [isUnpacked])

/-! ## What is called -/

/-- A name of a program stays as it is. -/
theorem regroup_name (h : (Tree.node kind ts).InProgram) (hk : kind = .name ∨ kind = .nameRef) :
    ∃ k, ts = [.leaf k] ∧ k.kind = .ident ∧ regroup v n (.node kind ts) = .node kind ts := by
  obtain ⟨k, rfl, hident⟩ := h.node.name hk
  refine ⟨k, rfl, hident, ?_⟩
  rw [regroup_node (isEligible_of_kind (by rcases hk with rfl | rfl <;> decide) _)]
  simp

/-- The name of an attribute. -/
theorem child?_name {operand ending : Tree} {mid : List Tree} (hoperand : operand.kind ≠ .name)
    (hmid : ∀ t ∈ mid, t.isNode = false) (hnode : ending.isNode = true)
    (hkind : ending.kind = .name) :
    (Tree.node kind (operand :: mid ++ [ending])).child? .name = some ending := by
  have hskip : mid.find? (fun t => decide (t.isNode = true ∧ (t.kind == .name) = true)) = none :=
    List.find?_eq_none.2 fun t ht => by simp [hmid t ht]
  rw [child?, Tree.children, Tree.parts, List.find?_filter, List.cons_append, List.find?_cons,
    List.find?_append, hskip]
  simp [hoperand, hnode, hkind]

/-- The name that is called is the last word of what is called. -/
theorem exists_tailName {callee : Tree} {name : Text} (h : callee.InProgram)
    (hnode : callee.isNode = true) (hn : callee.tailName? = some name) :
    ∃ front k, callee.tokens = front ++ [k] ∧ k.kind = .ident ∧ k.text = name := by
  have bare {kind : Kind} {k : Token} (hk : k.kind = .ident) :
      (Tree.node kind [.leaf k]).bareText = k.text := by
    simp [bareText, Token.isTrivia, hk, Kind.isTrivia, spelling]
  cases callee with
  | leaf => cases hnode
  | node kind ts =>
    simp only [tailName?, Tree.kind] at hn
    split at hn
    · obtain ⟨k, rfl, hk⟩ := h.node.name (.inr rfl)
      exact ⟨[], k, by simp, hk, by simpa [bare hk] using hn⟩
    · obtain ⟨operand, mid, ending, rfl, hoperand, hmid, hending, hkind⟩ := h.node.attributeOf
      rw [child?_name hoperand hmid hending hkind] at hn
      have hprogram := h.part (t := ending) (by simp)
      cases ending with
      | leaf => cases hending
      | node kind us =>
        obtain ⟨k, rfl, hk⟩ := hprogram.node.name (.inl hkind)
        exact ⟨operand.tokens ++ tokensOf mid, k, by simp, hk, by simpa [bare hk] using hn⟩
    · cases hn

/-- Grouping targets leaves the name that is called. -/
theorem tailName?_regroup {callee : Tree} (n : Nat) (h : callee.InProgram)
    (hnode : callee.isNode = true) :
    (regroup v n callee).tailName? = callee.tailName? := by
  cases callee with
  | leaf => cases hnode
  | node kind ts =>
    by_cases hname : kind = .nameRef
    · obtain ⟨-, -, -, heq⟩ := regroup_name (v := v) (n := n) h (.inr hname)
      rw [heq]
    by_cases hattribute : kind = .attributeExpr
    · subst hattribute
      obtain ⟨operand, mid, ending, rfl, hoperand, hmid, hending, hkind⟩ := h.node.attributeOf
      have hprogram := h.part (t := ending) (by simp)
      have hsame : regroup v n ending = ending := by
        cases ending with
        | leaf => cases hending
        | node kind us =>
          obtain ⟨-, -, -, heq⟩ := regroup_name (v := v) (n := n) hprogram (.inl hkind)
          exact heq
      rw [regroup_node (isEligible_of_kind (by decide) _), List.map_append, List.map_cons,
        List.map_singleton, hsame]
      simp only [tailName?, Tree.kind]
      rw [child?_name hoperand hmid hending hkind, child?_name (by simpa using hoperand)
        (by simpa using hmid) hending hkind]
    · obtain ⟨us, heq⟩ := regroup_node' (v := v) n kind ts
      rw [heq]
      simp only [tailName?, Tree.kind]

end GroupTargets

end SceneGate
