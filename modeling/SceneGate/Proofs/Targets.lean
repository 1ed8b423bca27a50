/-
What programs assign to. Words of prose are quoted by what surrounds them on
their lines, and no place of a value tells a value from a target: a name of prose
that is assigned to becomes a string, which the grammar lets stand as a target.
It is the only way in which repair makes a string a target (`repaired_targets`).
-/
import SceneGate.Proofs.Acceptance
import SceneGate.Proofs.Names
import SceneGate.Proofs.QuotedTrees

namespace SceneGate

open QuoteWords

/-! ## Targets -/

/-- The sign behind the target of an assignment. -/
def Kind.assignsBy? : Kind → Option Kind
  | .assignStmt => some .eq
  | .augAssignStmt => some .augAssign
  | .annAssignStmt => some .colon
  | _ => none

/-- Nodes that put targets together: `x, y`, `[x, y]`, `(x)` and `*x`. -/
def Kind.gathers : Kind → Bool
  | .tupleExpr | .listExpr | .parenExpr | .starredExpr => true
  | _ => false

namespace Tree

/-- Whether a tree is a sign. -/
def isSign (sign : Kind) : Tree → Bool
  | .leaf k => k.kind == sign
  | .node _ _ => false

/-- The nodes that stand before a sign: `x` and `y` in `x = y = 1`. -/
def before (sign : Kind) : List Tree → List Tree
  | [] => []
  | t :: ts =>
    if t.isNode && ts.any (isSign sign) then t :: before sign ts else before sign ts

/-- What a statement assigns to. -/
def assigned (t : Tree) : List Tree :=
  match t.kind.assignsBy? with
  | some sign => before sign t.parts
  | none => []

mutual

/-- What is picked at the nodes of a tree, inside those that are entered. -/
def collect (pick : Tree → List Tree) (enters : Kind → Bool) : Tree → List Tree
  | .leaf _ => []
  | .node kind ts =>
    pick (.node kind ts) ++ if enters kind then collectAll pick enters ts else []

/-- What is picked in trees that stand side by side. -/
def collectAll (pick : Tree → List Tree) (enters : Kind → Bool) : List Tree → List Tree
  | [] => []
  | t :: ts => t.collect pick enters ++ collectAll pick enters ts

end

/-- The targets of all assignments in a tree. -/
def targets (t : Tree) : List Tree := t.collect assigned fun _ => true

/-- A target that is not put together of others. -/
def whole (t : Tree) : List Tree := if t.kind.gathers then [] else [t]

/-- The targets of all assignments in a tree, taken apart: `x` and `y` in
`(x, *y) = z`. -/
def targetPlaces (t : Tree) : List Tree := t.targets.flatMap fun u => u.collect whole Kind.gathers

end Tree

/-- Some of the trees are string literals. -/
def HasLiteral (ts : List Tree) : Prop := ∃ t ∈ ts, t.kind = .stringLiteral

/-- Some of the trees are names that hold a letter of prose. -/
def HasProse (ts : List Tree) : Prop := ∃ t ∈ ts, t.kind = .nameRef ∧ t.bareText.hasProse = true

instance (ts : List Tree) : Decidable (HasLiteral ts) :=
  inferInstanceAs (Decidable (∃ t ∈ ts, t.kind = .stringLiteral))

instance (ts : List Tree) : Decidable (HasProse ts) :=
  inferInstanceAs (Decidable (∃ t ∈ ts, t.kind = .nameRef ∧ t.bareText.hasProse = true))

/-! ## Targets are nodes of the tree -/

section Nodes

variable {P : Kind → List Tree → Prop} {pick : Tree → List Tree} {enters : Kind → Bool}
  {t u : Tree} {ts : List Tree}

namespace Tree

theorem mem_before {sign : Kind} (h : u ∈ before sign ts) : u ∈ ts ∧ u.isNode = true := by
  induction ts with
  | nil => cases h
  | cons t ts ih =>
    unfold before at h
    split at h
    · rename_i hsign
      rw [Bool.and_eq_true] at hsign
      rcases List.mem_cons.1 h with rfl | h
      · exact ⟨List.mem_cons_self, hsign.1⟩
      · exact ⟨List.mem_cons_of_mem t (ih h).1, (ih h).2⟩
    · exact ⟨List.mem_cons_of_mem t (ih h).1, (ih h).2⟩

theorem Each.of_mem_assigned {kind : Kind} (h : (node kind ts).Each P)
    (hu : u ∈ (node kind ts).assigned) : u.isNode = true ∧ u.Each P := by
  unfold assigned at hu
  split at hu
  · obtain ⟨hmem, hnode⟩ := mem_before hu
    exact ⟨hnode, (each_node.1 h).2 u hmem⟩
  · cases hu

theorem Each.of_mem_whole {kind : Kind} (h : (node kind ts).Each P)
    (hu : u ∈ (node kind ts).whole) : u.isNode = true ∧ u.Each P := by
  unfold whole at hu
  split at hu
  · cases hu
  · obtain rfl := List.mem_singleton.1 hu
    exact ⟨rfl, h⟩

end Tree

mutual

theorem Tree.Each.of_mem_collect (hpick : ∀ {kind ts u}, (Tree.node kind ts).Each P →
    u ∈ pick (.node kind ts) → u.isNode = true ∧ u.Each P) : ∀ {t : Tree}, t.Each P →
    u ∈ t.collect pick enters → u.isNode = true ∧ u.Each P
  | .leaf k, _, hu => by simp [Tree.collect] at hu
  | .node kind ts, h, hu => by
    rw [Tree.collect] at hu
    rcases List.mem_append.1 hu with hu | hu
    · exact hpick h hu
    · split at hu
      · exact Tree.EachOf.of_mem_collectAll hpick h.2 hu
      · cases hu

theorem Tree.EachOf.of_mem_collectAll (hpick : ∀ {kind ts u}, (Tree.node kind ts).Each P →
    u ∈ pick (.node kind ts) → u.isNode = true ∧ u.Each P) : ∀ {ts : List Tree},
    Tree.EachOf P ts → u ∈ Tree.collectAll pick enters ts → u.isNode = true ∧ u.Each P
  | [], _, hu => by simp [Tree.collectAll] at hu
  | t :: ts, h, hu => by
    rw [Tree.collectAll] at hu
    rcases List.mem_append.1 hu with hu | hu
    · exact Tree.Each.of_mem_collect hpick h.1 hu
    · exact Tree.EachOf.of_mem_collectAll hpick h.2 hu

end

theorem Tree.Each.of_mem_targets (h : t.Each P) (hu : u ∈ t.targets) :
    u.isNode = true ∧ u.Each P :=
  h.of_mem_collect Each.of_mem_assigned hu

theorem Tree.Each.of_mem_targetPlaces (h : t.Each P) (hu : u ∈ t.targetPlaces) :
    u.isNode = true ∧ u.Each P := by
  obtain ⟨target, htarget, hu⟩ := List.mem_flatMap.1 hu
  exact (h.of_mem_targets htarget).2.of_mem_collect Each.of_mem_whole hu

end Nodes

/-! ## Twins have twin targets -/

section Twin

variable {words : List Text} {pick : Tree → List Tree} {enters : Kind → Bool} {t u : Tree}
  {ts us : List Tree} {sign : Kind}

namespace Tree

theorem Twin.isNode_eq (h : Twin (Token.Requoted words) t u) : t.isNode = u.isNode := by
  cases h <;> rfl

theorem Twin.isSign_eq (h : Twin (Token.Requoted words) t u) (hi : sign ≠ .ident)
    (hs : sign ≠ .string) : isSign sign t = isSign sign u := by
  cases h with
  | leaf hkl =>
    rw [Bool.eq_iff_iff, isSign, isSign, beq_iff_eq, beq_iff_eq]
    exact hkl.twin.eq_iff hi hs
  | node | word => rfl

theorem any_isSign_eq (h : List.Forall₂ (Twin (Token.Requoted words)) ts us)
    (hi : sign ≠ .ident) (hs : sign ≠ .string) :
    ts.any (isSign sign) = us.any (isSign sign) := by
  induction h with
  | nil => rfl
  | cons htu _ ih => rw [List.any_cons, List.any_cons, htu.isSign_eq hi hs, ih]

theorem before_twin (h : List.Forall₂ (Twin (Token.Requoted words)) ts us)
    (hi : sign ≠ .ident) (hs : sign ≠ .string) :
    List.Forall₂ (Twin (Token.Requoted words)) (before sign ts) (before sign us) := by
  induction h with
  | nil => exact .nil
  | cons htu h ih =>
    rw [before, before, htu.isNode_eq, any_isSign_eq h hi hs]
    split
    · exact .cons htu ih
    · exact ih

/-- The signs that assign are the same beside a name and beside a string. -/
theorem Twin.assigned (h : Twin (Token.Requoted words) t u) :
    List.Forall₂ (Twin (Token.Requoted words)) t.assigned u.assigned := by
  cases h with
  | leaf =>
    unfold Tree.assigned
    split <;> split <;> exact .nil
  | node hparts =>
    unfold Tree.assigned
    dsimp only [kind, parts]
    split
    · rename_i sign hsign
      have hne : sign ≠ .ident ∧ sign ≠ .string := by
        unfold Kind.assignsBy? at hsign
        split at hsign <;> cases hsign <;> decide
      exact before_twin hparts hne.1 hne.2
    · exact .nil
  | word => exact .nil

theorem Twin.gathers_eq (h : Twin (Token.Requoted words) t u) :
    t.kind.gathers = u.kind.gathers := by
  cases h with
  | leaf hkl =>
    rcases hkl.twin with h | ⟨hk, hl⟩
    · rw [kind, kind, h]
    · rw [kind, kind, hk, hl]
      rfl
  | node | word => rfl

theorem Twin.whole (h : Twin (Token.Requoted words) t u) :
    List.Forall₂ (Twin (Token.Requoted words)) t.whole u.whole := by
  rw [Tree.whole, Tree.whole, h.gathers_eq]
  split
  · exact .nil
  · exact .cons h .nil

end Tree

mutual

theorem Tree.Twin.collect (hpick : ∀ {t u}, Tree.Twin (Token.Requoted words) t u →
    List.Forall₂ (Tree.Twin (Token.Requoted words)) (pick t) (pick u)) : ∀ {t u : Tree},
    Tree.Twin (Token.Requoted words) t u →
    List.Forall₂ (Tree.Twin (Token.Requoted words)) (t.collect pick enters) (u.collect pick enters)
  | .leaf k, u, h => by
    cases h
    rw [Tree.collect, Tree.collect]
    exact .nil
  | .node kind ts, u, h => by
    have hself := hpick h
    cases h with
    | node hparts =>
      rw [Tree.collect, Tree.collect]
      refine List.rel_append hself ?_
      split
      · exact Tree.Twin.collectAll hpick hparts
      · exact .nil
    | word =>
      rw [Tree.collect, Tree.collect]
      refine List.rel_append hself ?_
      split <;> split <;> exact .nil

theorem Tree.Twin.collectAll (hpick : ∀ {t u}, Tree.Twin (Token.Requoted words) t u →
    List.Forall₂ (Tree.Twin (Token.Requoted words)) (pick t) (pick u)) : ∀ {ts us : List Tree},
    List.Forall₂ (Tree.Twin (Token.Requoted words)) ts us →
    List.Forall₂ (Tree.Twin (Token.Requoted words)) (Tree.collectAll pick enters ts)
      (Tree.collectAll pick enters us)
  | [], us, h => by
    cases h
    exact .nil
  | t :: ts, us, h => by
    cases h with
    | cons htu h =>
      rw [Tree.collectAll, Tree.collectAll]
      exact List.rel_append (Tree.Twin.collect hpick htu) (Tree.Twin.collectAll hpick h)

end

theorem Tree.Twin.targets (h : Tree.Twin (Token.Requoted words) t u) :
    List.Forall₂ (Tree.Twin (Token.Requoted words)) t.targets u.targets :=
  h.collect Twin.assigned

theorem Tree.Twin.targetPlaces (h : Tree.Twin (Token.Requoted words) t u) :
    List.Forall₂ (Tree.Twin (Token.Requoted words)) t.targetPlaces u.targetPlaces :=
  List.rel_flatMap h.targets fun _ _ h => h.collect Twin.whole

end Twin

/-! ## What becomes a literal -/

section Literals

variable {words : List Text} {t u : Tree} {ts us : List Tree}

theorem Tree.node_kind_parts (h : t.isNode = true) : node t.kind t.parts = t := by
  cases t with
  | leaf k => cases h
  | node kind ts => rfl

/-- A node for a name holds no letter of prose. -/
def NoProse (kind : Kind) (ts : List Tree) : Prop :=
  kind = .nameRef → (Tree.node kind ts).bareText.hasProse = false

/-- What has passed the gate has no prose for a name. -/
theorem SceneProgram.noProse_parse {v : Vocabulary} (p : SceneProgram v) :
    (parse p.text).tree.Each NoProse := by
  refine (Tree.each_iff_locate 0 0 _).2 fun l hl hnode hkind => ?_
  rw [Tree.node_kind_parts hnode]
  exact p.accepted.noProse l (List.mem_filter.2 ⟨hl, by simp [hnode, hkind]⟩)

theorem Token.Requoted.mem_words {k l : Token} (h : k.Requoted words l) (hk : k.kind = .ident)
    (hl : l.kind = .string) : k.text ∈ words := by
  rcases h with ⟨hkl, -⟩ | ⟨-, -, hmem⟩
  · rw [hk, hl] at hkl
    cases hkl
  · exact hmem

/-- Of two twins the second is a literal if the first is one or is a name of prose:
prose does not stay a name. -/
theorem Tree.Twin.isLiteral_iff (h : Tree.Twin (Token.Requoted words) t u)
    (hwords : ∀ w ∈ words, w.hasProse = true) (hnode : t.isNode = true) (ht : t.Each NameAlone)
    (hu : u.Each NameAlone) (hprose : u.Each NoProse) :
    u.kind = .stringLiteral ↔
      t.kind = .stringLiteral ∨ t.kind = .nameRef ∧ t.bareText.hasProse = true := by
  cases h with
  | leaf => cases hnode
  | @node kind ts us hparts =>
    refine ⟨.inl, ?_⟩
    rintro (hkind | ⟨hkind, htext⟩)
    · exact hkind
    obtain ⟨k, hk, htree, hbare⟩ := ht.1.exists_ident (t := .node kind ts) rfl hkind
    obtain ⟨l, hl, htree', hbare'⟩ := hu.1.exists_ident (t := .node kind us) rfl hkind
    cases htree
    cases htree'
    obtain ⟨hkl, -⟩ := List.forall₂_cons.1 hparts
    cases hkl with
    | leaf hkl =>
      have heq : k.text = l.text := hkl.text_eq (by simp [hl]) (by simp [hl])
      have hnone := hprose.1 rfl
      rw [hbare', ← heq, ← hbare, htext] at hnone
      cases hnone
  | @word k l hkl hk hl =>
    refine ⟨fun _ => .inr ⟨rfl, ?_⟩, fun _ => rfl⟩
    obtain ⟨j, -, htree, hbare⟩ := ht.1.exists_ident (t := .node .nameRef [.leaf k]) rfl rfl
    cases htree
    rw [hbare]
    exact hwords _ (hkl.mem_words hk hl)

theorem hasLiteral_iff (h : List.Forall₂ (Tree.Twin (Token.Requoted words)) ts us)
    (hwords : ∀ w ∈ words, w.hasProse = true)
    (ht : ∀ t ∈ ts, t.isNode = true ∧ t.Each NameAlone)
    (hu : ∀ u ∈ us, u.isNode = true ∧ u.Each NameAlone)
    (hprose : ∀ u ∈ us, u.isNode = true ∧ u.Each NoProse) :
    HasLiteral us ↔ HasLiteral ts ∨ HasProse ts := by
  induction h with
  | nil => simp [HasLiteral, HasProse]
  | @cons t u ts us htu _ ih =>
    obtain ⟨⟨hnode, ht⟩, hts⟩ := List.forall_mem_cons.1 ht
    obtain ⟨⟨-, hu⟩, hus⟩ := List.forall_mem_cons.1 hu
    obtain ⟨⟨-, hprose⟩, hproses⟩ := List.forall_mem_cons.1 hprose
    have hfirst := htu.isLiteral_iff hwords hnode ht hu hprose
    have hrest := ih hts hus hproses
    simp only [HasLiteral, HasProse, List.exists_mem_cons_iff] at hrest ⊢
    rw [hfirst, hrest]
    exact or_or_or_comm

end Literals

/-! ## Repair -/

/-- When repair makes a program of a program, a target is a string literal just if one
was before or if a name of prose was assigned to; and so is what targets are put
together of. -/
theorem repaired_targets {v : Vocabulary} {t : Text} {p : SceneProgram v}
    (h : repair v t = .repaired p) (hok : (parse t).ok = true) :
    (HasLiteral (parse p.text).tree.targets ↔
        HasLiteral (parse t).tree.targets ∨ HasProse (parse t).tree.targets) ∧
      (HasLiteral (parse p.text).tree.targetPlaces ↔
        HasLiteral (parse t).tree.targetPlaces ∨ HasProse (parse t).tree.targetPlaces) := by
  obtain ⟨-, -, hp⟩ := repair_eq_repaired h
  have hwords : ∀ w ∈ StrayProse.names (parse t), ProseWord w := fun w => proseWord_of_mem_names
  have hquotes : Quotes (Apart (StrayProse.names (parse t))) [] t p.text := by
    rw [hp]
    exact quotes_quote (fun w hw => (hwords w hw).plain) t
  have htwin := twin_parse hwords hquotes hok p.accepted.isProgram
  have hnames := nameAlone_parse t
  have hnames' := nameAlone_parse p.text
  have hprose := p.noProse_parse
  constructor
  · exact hasLiteral_iff htwin.targets (fun w hw => (hwords w hw).prose)
      (fun _ => hnames.of_mem_targets) (fun _ => hnames'.of_mem_targets)
      fun _ => hprose.of_mem_targets
  · exact hasLiteral_iff htwin.targetPlaces (fun w hw => (hwords w hw).prose)
      (fun _ => hnames.of_mem_targetPlaces) (fun _ => hnames'.of_mem_targetPlaces)
      fun _ => hprose.of_mem_targetPlaces

/-- A scene that assigns to a name of prose. -/
def assigning : Text :=
  "from manimlib import *\n\nclass Demo(Scene):\n    def construct(self):\n        ket_luận = 5\n".toList

/-- The scene that repair makes of it. -/
def assigningToString : Text :=
  "from manimlib import *\n\nclass Demo(Scene):\n    def construct(self):\n        \"ket_luận\" = 5\n".toList

theorem repair_assigning :
    ∃ p : SceneProgram {}, repair {} assigning = .repaired p ∧ p.text = assigningToString := by
  have hrun : (repair {} assigning).wasRepaired = true ∧
      (repair {} assigning).program?.map SceneProgram.text = some assigningToString := by
    decide +kernel
  revert hrun
  cases repair {} assigning with
  | repaired p => exact fun h => ⟨p, rfl, Option.some.inj h.2⟩
  | valid p => exact fun h => by cases h.1
  | failed findings => exact fun h => by cases h.1

theorem targets_assigning : (parse assigning).ok = true ∧
    HasProse (parse assigning).tree.targets ∧ ¬ HasLiteral (parse assigning).tree.targets := by
  decide +kernel

theorem repaired_targets_assigning : ∃ p : SceneProgram {}, repair {} assigning = .repaired p ∧
    HasProse (parse assigning).tree.targets ∧ HasLiteral (parse p.text).tree.targets := by
  obtain ⟨p, hp, -⟩ := repair_assigning
  obtain ⟨hok, hprose, -⟩ := targets_assigning
  exact ⟨p, hp, hprose, (repaired_targets hp hok).1.2 (.inr hprose)⟩

/-- Repair quotes a target, although the grammar makes none of the text's own targets a
string. -/
theorem repair_quotes_target : ∃ p : SceneProgram {}, repair {} assigning = .repaired p ∧
    ¬ HasLiteral (parse assigning).tree.targets ∧ HasLiteral (parse p.text).tree.targets := by
  obtain ⟨p, hp, htext⟩ := repair_assigning
  obtain ⟨-, -, hnone⟩ := targets_assigning
  have hsome : HasLiteral (parse assigningToString).tree.targets := by decide +kernel
  exact ⟨p, hp, hnone, by rwa [htext]⟩

end SceneGate
