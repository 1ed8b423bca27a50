/-
What nodes are made of, as their views take it for granted. In the tree of a program every
call, definition, argument, parameter and binary operation has the parts that it is asked
for, and each part is found where the view looks for it (`typed_views_complete`). A part has
a role in the node that it is in, and there are few rows of roles that the parts of a node
can have (`Role.rows`, `rows_parse`).
-/
import SceneGate.Proofs.GroupedTokens
import SceneGate.Proofs.Tallies
import SceneGate.Source.View

namespace SceneGate

/-! ## Roles -/

/-- What a part is for the node that it is in. -/
inductive Role where
  | value
  | name
  | arguments
  | parameters
  | block
  /-- A word that has a role by itself. -/
  | word (k : Kind)
  /-- A star or a slash: an operator, or a parameter that is no name. -/
  | sign
  /-- Another operator between two values. -/
  | operator
deriving DecidableEq, Repr

namespace Role

/-- Words that have a role by themselves. -/
def marks : List Kind := [.asyncKw, .defKw, .classKw, .arrow, .colon, .eq]

/-- Words that are signs. -/
def signs : List Kind := [.star, .slash]

/-- Words that are other operators. -/
def operators : List Kind := [
  .pipe, .caret, .amp, .ltLt, .gtGt, .plus, .minus, .slashSlash, .percent, .atSign, .starStar]

/-- Nodes that have a role other than that of a value. -/
def places : List Kind := [.name, .argList, .paramList, .block, .decorator]

/-- The kind of the nodes that have the role, if only nodes of one kind have it. -/
def kind? : Role → Option Kind
  | name => some .name
  | arguments => some .argList
  | parameters => some .paramList
  | block => some .block
  | _ => none

/-- The part has the role. -/
def Fits : Role → Tree → Prop
  | value, t => t.isNode = true ∧ t.kind ∉ places
  | name, t => t.isNode = true ∧ t.kind = .name
  | arguments, t => t.isNode = true ∧ t.kind = .argList
  | parameters, t => t.isNode = true ∧ t.kind = .paramList
  | block, t => t.isNode = true ∧ t.kind = .block
  | word k, t => ∃ token, t = .leaf token ∧ token.kind = k
  | sign, t => ∃ token, t = .leaf token ∧ token.kind ∈ signs
  | operator, t => ∃ token, t = .leaf token ∧ token.kind ∈ operators

/-- The roles of the parts of a parameter with a name. -/
def parameterRows : List (List Role) :=
  [[sign], []].flatMap fun star => [[operator], []].flatMap fun stars =>
    [[word .colon, value], []].flatMap fun annotation => [[word .eq, value], []].map fun preset =>
      star ++ stars ++ [name] ++ annotation ++ preset

/-- What may stand before the word `def`. -/
def beforeDef : List (List Role) := [[word .asyncKw], []]

/-- What may stand behind the parameters of a function. -/
def results : List (List Role) := [[word .arrow, value], []]

/-- What may stand behind the name of a class. -/
def bases : List (List Role) := [[arguments], []]

/-- The rows of roles that the parts of a node can have. No row is given where other parts
may be among them. -/
def rows : Kind → List (List Role)
  | .arg => [[value]]
  | .keywordArg => [[name, word .eq, value], [name, value]]
  | .binExpr => [[value, sign, value], [value, operator, value]]
  | .functionDef => beforeDef.flatMap fun before => results.map fun result =>
    before ++ [word .defKw] ++ name :: parameters :: (result ++ [word .colon]) ++ [block]
  | .classDef => bases.map fun base => word .classKw :: name :: (base ++ [word .colon]) ++ [block]
  | .param => [sign] :: parameterRows
  | _ => []

/-- Kinds of nodes in which decorators and line breaks may stand in front of the row. -/
def decorated : List Kind := [.functionDef, .classDef]

/-- All rows of roles. -/
def allRows : List (List Role) :=
  [.arg, .keywordArg, .binExpr, .functionDef, .classDef, .param].flatMap rows

end Role

/-- What parts in a row are: their roles, and whether decorators and line breaks stand in
front of them. -/
inductive Run where
  /-- Other parts are among them, or decorators and line breaks further behind. -/
  | mixed
  | roles (behindLines : Bool) (rs : List Role)
deriving DecidableEq, Repr

namespace Run

/-- One behind the other. -/
def append : Run → Run → Run
  | roles lines rs, roles false ts => roles lines (rs ++ ts)
  | roles _ [], roles true ts => roles true ts
  | _, _ => mixed

instance : Monoid Run where
  mul := append
  one := roles false []
  mul_assoc a b c := by
    change append (append a b) c = append a (append b c)
    rcases a with _ | ⟨_, _ | ⟨r, rs⟩⟩ <;> rcases b with _ | ⟨_ | _, _ | ⟨s, ss⟩⟩ <;>
      rcases c with _ | ⟨_ | _, ts⟩ <;> simp [append]
  one_mul a := by
    change append (roles false []) a = a
    rcases a with _ | ⟨_ | _, rs⟩ <;> rfl
  mul_one a := by
    change append a (roles false []) = a
    rcases a with _ | ⟨lines, rs⟩ <;> simp [append]

/-- A part that has a role. -/
def one (r : Role) : Run := roles false [r]

/-- Decorators and line breaks. -/
def lines : Run := roles true []

/-- What parts are. -/
def tally : Tally Run where
  words := (.newline, lines) :: Role.marks.map (fun k => (k, one (.word k))) ++
    Role.signs.map (fun k => (k, one .sign)) ++ Role.operators.map fun k => (k, one .operator)
  rest := mixed
  node
    | .name => one .name
    | .argList => one .arguments
    | .paramList => one .parameters
    | .block => one .block
    | .decorator => lines
    | _ => one .value

/-- Whether the roles stand in a row somewhere. -/
def keep : Run → Bool
  | mixed => false
  | roles _ rs => Role.allRows.any fun row => row.tails.any rs.isPrefixOf

/-- What the parts of nodes are, where it is told. -/
def allowed (kind : Kind) : Option (List Run) :=
  if Role.rows kind = [] then none
  else some ((Role.rows kind).map (roles false) ++
    if kind ∈ Role.decorated then (Role.rows kind).map (roles true) else [])

/-- What phrases build. -/
def phrase : Phrase → List (Option Run)
  | .name => [some (one .name)]
  | .arguments => [some (one .arguments)]
  | .parameters => [some (one .parameters)]
  | .block => [some (one .block)]
  | .function => (Role.rows .functionDef).map fun rs => some (roles false rs)
  | .classParts => (Role.rows .classDef).map fun rs => some (roles false rs)
  | .nameRef | .assignedValue | .expression | .namedExpression | .starExpressions
  | .starExpression | .starTargets | .starTarget | .starNamed | .starred | .yieldExpression
  | .lambda | .disjunction | .conjunction | .inversion | .comparison | .bitOr | .bitXor | .bitAnd
  | .shift | .sum | .product | .factor | .power | .primary | .atom | .parenthesized | .list
  | .braced => [some (one .value)]
  | _ => [none]

variable {t : Tree} {ts : List Tree} {r : Role} {rs : List Role} {k : Kind}

/-- A decorator or a line break. -/
def IsLine (t : Tree) : Prop := t.kind = .decorator ∨ ∃ token, t = .leaf token ∧ token.kind = .newline

/-- A part has a role, or is a decorator or a line break, or is another part. -/
theorem part_cases (t : Tree) : tally.part t = mixed ∨ (tally.part t = lines ∧ IsLine t) ∨
    ∃ r : Role, tally.part t = one r ∧ r.Fits t := by
  cases t with
  | leaf token =>
    rw [Tally.part]
    rcases tally.word_cases token.kind with hmem | ⟨-, hrest⟩
    · generalize tally.word token.kind = m at hmem ⊢
      simp only [tally, List.cons_append, List.mem_cons, List.mem_append, List.mem_map,
        Prod.mk.injEq] at hmem
      rcases hmem with ⟨hkind, rfl⟩ | (⟨k, -, hkind, rfl⟩ | ⟨k, hk, hkind, rfl⟩) | ⟨k, hk, hkind, rfl⟩
      · exact .inr (.inl ⟨rfl, .inr ⟨token, rfl, hkind⟩⟩)
      · exact .inr (.inr ⟨_, rfl, token, rfl, hkind.symm⟩)
      · exact .inr (.inr ⟨_, rfl, token, rfl, hkind ▸ hk⟩)
      · exact .inr (.inr ⟨_, rfl, token, rfl, hkind ▸ hk⟩)
    · exact .inl hrest
  | node kind ts =>
    by_cases hplace : kind ∈ Role.places
    · simp only [Role.places, List.mem_cons, List.not_mem_nil, or_false] at hplace
      rcases hplace with rfl | rfl | rfl | rfl | rfl
      · exact .inr (.inr ⟨.name, rfl, rfl, rfl⟩)
      · exact .inr (.inr ⟨.arguments, rfl, rfl, rfl⟩)
      · exact .inr (.inr ⟨.parameters, rfl, rfl, rfl⟩)
      · exact .inr (.inr ⟨.block, rfl, rfl, rfl⟩)
      · exact .inr (.inl ⟨rfl, .inl rfl⟩)
    · refine .inr (.inr ⟨.value, ?_, rfl, hplace⟩)
      cases kind <;> first | rfl | exact absurd (by decide) hplace

/-- Parts that come to roles have these roles, and in front of them are decorators and line
breaks, if any. -/
theorem exists_of_prod {behind : Bool} (h : (ts.map tally.part).prod = roles behind rs) :
    ∃ front back, ts = front ++ back ∧ (∀ t ∈ front, IsLine t) ∧
      (behind = false → front = []) ∧ List.Forall₂ Role.Fits rs back := by
  induction ts generalizing behind rs with
  | nil =>
    cases h
    exact ⟨[], [], rfl, by simp, fun _ => rfl, .nil⟩
  | cons t ts ih =>
    rw [List.map_cons, List.prod_cons] at h
    generalize hmore : (ts.map tally.part).prod = more at h
    change append (tally.part t) more = _ at h
    rcases part_cases t with hpart | ⟨hpart, hline⟩ | ⟨r, hpart, hfits⟩
    · rw [hpart] at h
      cases h
    · rw [hpart] at h
      cases more with
      | mixed => cases h
      | roles b us =>
        obtain ⟨front, back, rfl, hfront, -, hback⟩ := ih hmore
        obtain ⟨rfl, rfl⟩ : behind = true ∧ rs = us := by
          cases b <;> cases h <;> exact ⟨rfl, rfl⟩
        exact ⟨t :: front, back, rfl, List.forall_mem_cons.2 ⟨hline, hfront⟩, by simp, hback⟩
    · rw [hpart] at h
      cases more with
      | mixed => cases h
      | roles b us =>
        cases b with
        | true => cases h
        | false =>
          cases h
          obtain ⟨front, back, rfl, -, hnone, hback⟩ := ih hmore
          obtain rfl := hnone rfl
          exact ⟨[], t :: back, rfl, by simp, fun _ => rfl, .cons hfits hback⟩

end Run

theorem Phrase.roles_fit (p : Phrase) :
    (Run.tally.account Run.keep Run.allowed Run.phrase).fitsPhrase Watch.faultless p = true := by
  revert p
  decide +kernel

/-! ## Rows -/

/-- The parts of a node stand in a row of roles; decorators and line breaks may stand in front
of them in a definition. -/
def InRow (kind : Kind) (ts : List Tree) : Prop :=
  Role.rows kind ≠ [] → ∃ rs ∈ Role.rows kind, ∃ front back, Tree.solid ts = front ++ back ∧
    (∀ t ∈ front, Run.IsLine t) ∧ (kind ∉ Role.decorated → front = []) ∧
      List.Forall₂ Role.Fits rs back

theorem Run.inRow {kind : Kind} {ts : List Tree} (h : tally.Allows allowed kind ts) :
    InRow kind ts := by
  intro hrows
  have hmem := h _ (by rw [allowed, if_neg hrows])
  rcases List.mem_append.1 hmem with hmem | hmem
  · obtain ⟨rs, hrs, hsum⟩ := List.mem_map.1 hmem
    obtain ⟨front, back, hsolid, hfront, hnone, hfits⟩ := exists_of_prod hsum.symm
    exact ⟨rs, hrs, front, back, hsolid, hfront, fun _ => hnone rfl, hfits⟩
  · split at hmem
    · rename_i hkind
      obtain ⟨rs, hrs, hsum⟩ := List.mem_map.1 hmem
      obtain ⟨front, back, hsolid, hfront, -, hfits⟩ := exists_of_prod hsum.symm
      exact ⟨rs, hrs, front, back, hsolid, hfront, fun hnot => absurd hkind hnot, hfits⟩
    · cases hmem

/-- In a program, the parts of nodes stand in rows of roles. -/
theorem rows_parse {t : Text} (h : (parse t).ok = true) : (parse t).tree.Each InRow :=
  (Run.tally.sound.each_of_ok Phrase.roles_fit rfl h).imp fun _ _ => Run.inRow

/-! ## Where the views look -/

section Views

variable {kind k : Kind} {t : Tree} {ts front mid back : List Tree} {r : Role} {rs : List Role}

theorem Tree.children_node (kind : Kind) (ts : List Tree) :
    (Tree.node kind ts).children = (solid ts).filter isNode := by
  rw [children, parts, solid, List.filter_filter]
  refine List.filter_congr fun t _ => ?_
  cases t <;> simp [isNode, isTrivia]

theorem Tree.child?_node (kind k : Kind) (ts : List Tree) :
    (Tree.node kind ts).child? k = (solid ts).find? fun t => t.isNode && t.kind == k := by
  rw [child?, children_node, List.find?_filter]
  congr 1
  funext t
  rw [Bool.decide_and, Bool.decide_coe, Bool.decide_coe]

namespace Role

/-- Where only nodes of one kind have a role, the nodes of this kind are those in the role. -/
theorem Fits.isOf (h : r.Fits t) (hk : k ∈ places) :
    (t.isNode && t.kind == k) = (r.kind? == some k) := by
  cases r with
  | value =>
    have hne : t.kind ≠ k := fun he => h.2 (he ▸ hk)
    simp [hne, kind?]
  | name | arguments | parameters | block => simp [h.1, h.2, kind?]
  | word | sign | operator =>
    obtain ⟨token, rfl, -⟩ := h
    rfl

theorem exists_of_mem (h : List.Forall₂ Fits rs ts) (ht : t ∈ ts) : ∃ r ∈ rs, r.Fits t := by
  induction h with
  | nil => cases ht
  | cons hr _ ih =>
    rcases List.mem_cons.1 ht with rfl | ht
    · exact ⟨_, List.mem_cons_self, hr⟩
    · obtain ⟨r, hmem, hfits⟩ := ih ht
      exact ⟨r, List.mem_cons_of_mem _ hmem, hfits⟩

theorem mem_places (h : r.kind? = some k) : k ∈ places := by
  cases r <;> cases h <;> decide

/-- The words that have a role by themselves are those in the role. -/
theorem Fits.eq_word {token : Token} (h : r.Fits (.leaf token)) (hk : token.kind ∈ marks) :
    r = .word token.kind := by
  cases r with
  | value | name | arguments | parameters | block => cases h.1
  | word k =>
    obtain ⟨_, ht, rfl⟩ := h
    cases ht
    rfl
  | sign =>
    obtain ⟨_, ht, hsign⟩ := h
    cases ht
    have hnone : ∀ k ∈ signs, k ∉ marks := by decide
    exact absurd hk (hnone _ hsign)
  | operator =>
    obtain ⟨_, ht, hoperator⟩ := h
    cases ht
    have hnone : ∀ k ∈ operators, k ∉ marks := by decide
    exact absurd hk (hnone _ hoperator)

/-- A word that has a role by itself stands where the row has this role. -/
theorem word_mem {token : Token} (h : List.Forall₂ Fits rs ts) (hmem : .leaf token ∈ ts)
    (hk : token.kind ∈ marks) : .word token.kind ∈ rs := by
  obtain ⟨r, hr, hfits⟩ := exists_of_mem h hmem
  exact hfits.eq_word hk ▸ hr

/-- What stands before the parts of a function that a view looks for. -/
theorem of_function_row {before result : List Role} (hbefore : before ∈ beforeDef)
    (hresult : result ∈ results) :
    (∀ r ∈ before ++ [word .defKw], r.kind? ≠ some .name) ∧
      (∀ r ∈ before ++ [word .defKw] ++ [name], r.kind? ≠ some .paramList) ∧
      (∀ r ∈ before ++ [word .defKw] ++ name :: parameters :: (result ++ [word .colon]),
        r.kind? ≠ some .block) ∧
      word .defKw ∉ before ∧ word .defKw ∉ result ++ [word .colon] ∧
      (word .asyncKw ∈ before ++ [word .defKw] ++
        name :: parameters :: (result ++ [word .colon]) ++ [block] → before = [word .asyncKw]) := by
  revert result
  revert before
  decide +kernel

end Role

theorem Run.IsLine.isOf (h : IsLine t) (hr : r.kind? = some k) : (t.isNode && t.kind == k) = false := by
  rcases h with hkind | ⟨token, rfl, -⟩
  · have hne : k ≠ .decorator := by rintro rfl; cases r <;> cases hr
    simp [hkind, hne.symm]
  · rfl

theorem Run.IsLine.leaf_notMem {token : Token} (h : IsLine (.leaf token)) :
    token.kind ∉ Role.marks := by
  rcases h with hkind | ⟨_, ht, hkind⟩
  · rw [show token.kind = .decorator from hkind]
    decide
  · cases ht
    rw [hkind]
    decide

/-- The child of a kind that has a role by itself is the first part in this role. -/
theorem child?_of_row (hsolid : Tree.solid ts = front ++ (mid ++ t :: back))
    (hfront : ∀ u ∈ front, Run.IsLine u) (hmid : List.Forall₂ Role.Fits rs mid) (ht : r.Fits t)
    (hr : r.kind? = some k) (hrs : ∀ s ∈ rs, s.kind? ≠ some k) :
    (Tree.node kind ts).child? k = some t := by
  have hk := Role.mem_places hr
  have hbefore : ∀ u ∈ front ++ mid, (u.isNode && u.kind == k) = false := by
    refine List.forall_mem_append.2 ⟨fun u hu => (hfront u hu).isOf hr, fun u hu => ?_⟩
    obtain ⟨s, hs, hfits⟩ := Role.exists_of_mem hmid hu
    rw [hfits.isOf hk, beq_eq_false_iff_ne]
    exact hrs s hs
  rw [Tree.child?_node, List.find?_eq_some_iff_append]
  refine ⟨by rw [ht.isOf hk, hr]; simp, front ++ mid, back, by rw [hsolid, List.append_assoc], ?_⟩
  intro u hu
  rw [hbefore u hu]
  rfl

theorem word_mem_of_row {token : Token} (hsolid : Tree.solid ts = front ++ back)
    (hfront : ∀ u ∈ front, Run.IsLine u) (hfits : List.Forall₂ Role.Fits rs back)
    (hmem : .leaf token ∈ ts) (hk : token.kind ∈ Role.marks) : .word token.kind ∈ rs := by
  have htrivia : token.isTrivia = false := by
    have hnone : ∀ k ∈ Role.marks, k.isTrivia = false := by decide
    exact hnone _ hk
  have hmem : .leaf token ∈ Tree.solid ts := List.mem_filter.2 ⟨hmem, by simp [Tree.isTrivia, htrivia]⟩
  rw [hsolid] at hmem
  rcases List.mem_append.1 hmem with hmem | hmem
  · exact absurd hk (hfront _ hmem).leaf_notMem
  · exact Role.word_mem hfits hmem hk

end Views

/-! ## Views -/

/-- A tree has what its views take for granted. -/
structure Tree.Complete (t : Tree) : Prop where
  /-- A call has two children: what is called, and the list of arguments. -/
  call : t.kind = .callExpr → ∃ callee list, t.children = [callee, list] ∧
    Call.callee? t = some callee ∧ Call.argumentList? t = some list
  /-- An argument has a value. -/
  positional : t.kind = .arg → ∃ value, t.children = [value] ∧
    (Argument.positional t).value? = some value
  /-- An argument that is passed by a name has the name and a value. -/
  keyword : t.kind = .keywordArg → ∃ name value, t.children = [name, value] ∧
    t.child? .name = some name ∧ (Argument.keyword t).value? = some value
  /-- An attribute has what it is taken of and a name. -/
  attributeOf : t.kind = .attributeExpr → ∃ receiver name, t.children = [receiver, name] ∧
    receiver.kind ≠ .name ∧ t.child? .name = some name
  /-- A binary operation has two operands with one word between them. -/
  binary : t.kind = .binExpr → ∃ left op right, solid t.parts = [left, .leaf op, right] ∧
    t.children = [left, right] ∧ op.kind ∈ Role.signs ++ Role.operators
  /-- A function has one `def`, a name and parameters behind it, and a block at the end. It
  is asynchronous if and only if `async` stands right before `def`. -/
  function : t.kind = .functionDef → ∃ front d name list back body,
    solid t.parts = front ++ .leaf d :: name :: list :: back ++ [body] ∧ d.kind = .defKw ∧
      (∀ k : Token, .leaf k ∈ front ++ back → k.kind ≠ .defKw) ∧ t.child? .name = some name ∧
      FunctionDef.parameters? t = some (list.children.filter fun c => c.kind == .param) ∧
      FunctionDef.body? t = some body ∧
      (FunctionDef.isAsync t = true ↔ ∃ a, front.getLast? = some (.leaf a) ∧ a.kind = .asyncKw)
  /-- A class has a name behind the word `class`, and a block at the end. -/
  classDef : t.kind = .classDef → ∃ front c name back body,
    solid t.parts = front ++ .leaf c :: name :: back ++ [body] ∧ c.kind = .classKw ∧
      t.child? .name = some name ∧ ClassDef.body? t = some body
  /-- A parameter without a name is a star or a slash. -/
  param : t.kind = .param → t.name? = none →
    ∃ k, solid t.parts = [.leaf k] ∧ (k.kind = .star ∨ k.kind = .slash)
  /-- No argument that stands by position is behind one that has a name or that brings
  names. -/
  argList : t.kind = .argList → t.children.Pairwise fun a b =>
    a.kind = .keywordArg ∨ a.kind = .doubleStarredArg → b.kind ≠ .arg

section Kinds

variable {kind : Kind} {ts : List Tree}

/-- Without decorators, the parts stand in a row. -/
theorem InRow.plain (h : InRow kind ts) (hrows : Role.rows kind ≠ []) (hkind : kind ∉ Role.decorated) :
    ∃ rs ∈ Role.rows kind, List.Forall₂ Role.Fits rs (Tree.solid ts) := by
  obtain ⟨rs, hrs, front, back, hsolid, -, hnone, hfits⟩ := h hrows
  rw [hnone hkind, List.nil_append] at hsolid
  exact ⟨rs, hrs, hsolid ▸ hfits⟩

theorem InRow.positional (h : InRow .arg ts) :
    ∃ value, Tree.solid ts = [value] ∧ value.isNode = true := by
  obtain ⟨rs, hrs, hfits⟩ := h.plain (by decide) (by decide)
  obtain rfl := List.mem_singleton.1 hrs
  simp only [List.forall₂_cons_left_iff, List.forall₂_nil_left_iff] at hfits
  obtain ⟨value, _, hvalue, rfl, hsolid⟩ := hfits
  exact ⟨value, hsolid, hvalue.1⟩

theorem InRow.keyword (h : InRow .keywordArg ts) : ∃ name value,
    (Tree.solid ts).filter Tree.isNode = [name, value] ∧ name.kind = .name ∧ value.kind ≠ .name := by
  obtain ⟨rs, hrs, hfits⟩ := h.plain (by decide) (by decide)
  have hother {t : Tree} (h : Role.value.Fits t) : t.kind ≠ .name := fun he => h.2 (he ▸ by decide)
  simp only [Role.rows, List.mem_cons, List.not_mem_nil, or_false] at hrs
  rcases hrs with rfl | rfl <;>
    simp only [List.forall₂_cons_left_iff, List.forall₂_nil_left_iff] at hfits
  · obtain ⟨name, _, hname, ⟨_, _, ⟨eq, rfl, -⟩, ⟨value, _, hvalue, rfl, rfl⟩, rfl⟩, hsolid⟩ := hfits
    refine ⟨name, value, ?_, hname.2, hother hvalue⟩
    have heq : (Tree.leaf eq).isNode = false := rfl
    simp [hsolid, hname.1, hvalue.1, heq]
  · obtain ⟨name, _, hname, ⟨value, _, hvalue, rfl, rfl⟩, hsolid⟩ := hfits
    refine ⟨name, value, ?_, hname.2, hother hvalue⟩
    simp [hsolid, hname.1, hvalue.1]

theorem InRow.binary (h : InRow .binExpr ts) : ∃ left op right,
    Tree.solid ts = [left, .leaf op, right] ∧ left.isNode = true ∧ right.isNode = true ∧
      op.kind ∈ Role.signs ++ Role.operators := by
  obtain ⟨rs, hrs, hfits⟩ := h.plain (by decide) (by decide)
  simp only [Role.rows, List.mem_cons, List.not_mem_nil, or_false] at hrs
  rcases hrs with rfl | rfl <;>
    simp only [List.forall₂_cons_left_iff, List.forall₂_nil_left_iff] at hfits <;>
    obtain ⟨left, _, hleft, ⟨_, _, ⟨op, rfl, hop⟩, ⟨right, _, hright, rfl, rfl⟩, rfl⟩, hsolid⟩ := hfits
  · exact ⟨left, op, right, hsolid, hleft.1, hright.1, List.mem_append_left _ hop⟩
  · exact ⟨left, op, right, hsolid, hleft.1, hright.1, List.mem_append_right _ hop⟩

/-- A parameter is a star or a slash, or it has a name. -/
theorem InRow.parameter (h : InRow .param ts) :
    (∃ k, Tree.solid ts = [.leaf k] ∧ k.kind ∈ Role.signs) ∨
      ∃ name, (Tree.node .param ts).child? .name = some name := by
  obtain ⟨rs, hrs, hfits⟩ := h.plain (by decide) (by decide)
  rcases List.mem_cons.1 hrs with rfl | hrs
  · simp only [List.forall₂_cons_left_iff, List.forall₂_nil_left_iff] at hfits
    obtain ⟨_, _, ⟨k, rfl, hk⟩, rfl, hsolid⟩ := hfits
    exact .inl ⟨k, hsolid, hk⟩
  · obtain ⟨before, after, rfl, hbefore⟩ : ∃ before after, rs = before ++ .name :: after ∧
        ∀ r ∈ before, r.kind? ≠ some .name := by
      have hall : ∀ rs ∈ Role.parameterRows,
          (rs.find? fun r => r.kind? == some .name) = some .name := by decide
      obtain ⟨-, before, after, rfl, hbefore⟩ := List.find?_eq_some_iff_append.1 (hall rs hrs)
      exact ⟨before, after, rfl, by simpa using hbefore⟩
    obtain ⟨mid, back, hsolid, hmid, hback⟩ := forall₂_append hfits
    obtain ⟨name, _, hname, -, rfl⟩ := List.forall₂_cons_left_iff.1 hback
    have hsolid : Tree.solid ts = [] ++ (mid ++ name :: _) := hsolid
    exact .inr ⟨name, child?_of_row hsolid (by simp) hmid hname rfl hbefore⟩

theorem isAsync_iff : FunctionDef.isAsync (.node kind ts) = true ↔
    ∃ a : Token, .leaf a ∈ ts ∧ a.kind = .asyncKw := by
  simp only [FunctionDef.isAsync, Tree.ownTokens, Tree.parts, List.any_eq_true, List.mem_filterMap,
    beq_iff_eq]
  constructor
  · rintro ⟨a, ⟨t, ht, hleaf⟩, ha⟩
    cases t with
    | leaf token =>
      obtain rfl := Option.some.inj hleaf
      exact ⟨token, ht, ha⟩
    | node => cases hleaf
  · rintro ⟨a, hmem, ha⟩
    exact ⟨a, ⟨_, hmem, rfl⟩, ha⟩

/-- The parts of a function, cut where some of them may be left out. -/
theorem InRow.cut (h : InRow .functionDef ts) :
    ∃ before ∈ Role.beforeDef, ∃ result ∈ Role.results, ∃ lines words d name list back body,
      Tree.solid ts = lines ++ (words ++ [.leaf d] ++ name :: list :: back ++ [body]) ∧
        (∀ t ∈ lines, Run.IsLine t) ∧ List.Forall₂ Role.Fits before words ∧
        d.kind = .defKw ∧ Role.name.Fits name ∧ Role.parameters.Fits list ∧
        List.Forall₂ Role.Fits (result ++ [.word .colon]) back ∧ Role.block.Fits body := by
  obtain ⟨rs, hrs, lines, row, hsolid, hlines, -, hfits⟩ := h (by decide)
  simp only [Role.rows, List.mem_flatMap, List.mem_map] at hrs
  obtain ⟨before, hbefore, result, hresult, rfl⟩ := hrs
  obtain ⟨most, _, rfl, hmost, hend⟩ := forall₂_append hfits
  obtain ⟨start, _, rfl, hstart, hmore⟩ := forall₂_append hmost
  obtain ⟨words, _, rfl, hwords, hdef⟩ := forall₂_append hstart
  obtain ⟨name, _, hname, hafter, rfl⟩ := List.forall₂_cons_left_iff.1 hmore
  obtain ⟨list, back, hlist, hback, rfl⟩ := List.forall₂_cons_left_iff.1 hafter
  simp only [List.forall₂_cons_left_iff, List.forall₂_nil_left_iff] at hend hdef
  obtain ⟨body, _, hbody, rfl, rfl⟩ := hend
  obtain ⟨_, _, ⟨d, rfl, hd⟩, rfl, rfl⟩ := hdef
  exact ⟨before, hbefore, result, hresult, lines, words, d, name, list, back, body, hsolid, hlines,
    hwords, hd, hname, hlist, hback, hbody⟩

theorem InRow.function (h : InRow .functionDef ts) : ∃ front d name list back body,
    Tree.solid ts = front ++ .leaf d :: name :: list :: back ++ [body] ∧ d.kind = .defKw ∧
      (∀ k : Token, .leaf k ∈ front ++ back → k.kind ≠ .defKw) ∧
      (Tree.node .functionDef ts).child? .name = some name ∧
      (Tree.node .functionDef ts).child? .paramList = some list ∧
      (Tree.node .functionDef ts).child? .block = some body ∧
      (FunctionDef.isAsync (.node .functionDef ts) = true ↔
        ∃ a, front.getLast? = some (.leaf a) ∧ a.kind = .asyncKw) := by
  obtain ⟨before, hbefore, result, hresult, lines, words, d, name, list, back, body, hsolid, hlines,
    hwords, hd, hname, hlist, hback, hbody⟩ := h.cut
  obtain ⟨hnoName, hnoList, hnoBlock, hfirst, hlast, hasync⟩ :=
    Role.of_function_row hbefore hresult
  have hparts : Tree.solid ts = lines ++ words ++ .leaf d :: name :: list :: back ++ [body] := by
    simp [hsolid]
  have hcutName : Tree.solid ts =
      lines ++ (words ++ [.leaf d] ++ name :: (list :: back ++ [body])) := by simp [hsolid]
  have hcutList : Tree.solid ts =
      lines ++ (words ++ [.leaf d] ++ [name] ++ list :: (back ++ [body])) := by simp [hsolid]
  have hdef : Role.Fits (.word .defKw) (.leaf d) := ⟨d, rfl, hd⟩
  have hstart := List.rel_append hwords (.cons hdef .nil)
  have hmost := List.rel_append hstart (.cons hname (.cons hlist hback))
  have hrow := List.rel_append hmost (.cons hbody .nil)
  refine ⟨lines ++ words, d, name, list, back, body, hparts, hd, ?_, ?_, ?_, ?_, ?_⟩
  · intro k hk hkind
    have hmark : k.kind ∈ Role.marks := hkind ▸ by decide
    rw [List.append_assoc] at hk
    rcases List.mem_append.1 hk with hk | hk
    · exact (hlines _ hk).leaf_notMem hmark
    · rcases List.mem_append.1 hk with hk | hk
      · exact hfirst (hkind ▸ Role.word_mem hwords hk hmark)
      · exact hlast (hkind ▸ Role.word_mem hback hk hmark)
  · exact child?_of_row hcutName hlines hstart hname rfl hnoName
  · exact child?_of_row hcutList hlines (List.rel_append hstart (.cons hname .nil)) hlist rfl
      hnoList
  · exact child?_of_row hsolid hlines hmost hbody rfl hnoBlock
  · rw [isAsync_iff]
    constructor
    · rintro ⟨a, ha, hkind⟩
      have hmem := word_mem_of_row hsolid hlines hrow ha (hkind ▸ by decide)
      rw [hkind] at hmem
      obtain rfl := hasync hmem
      simp only [List.forall₂_cons_left_iff, List.forall₂_nil_left_iff] at hwords
      obtain ⟨_, _, ⟨a, rfl, ha⟩, rfl, rfl⟩ := hwords
      exact ⟨a, by simp, ha⟩
    · rintro ⟨a, hlast, hkind⟩
      have hmem : .leaf a ∈ Tree.solid ts := by
        rw [hparts, List.append_assoc]
        exact List.mem_append_left _ (List.mem_of_mem_getLast? hlast)
      exact ⟨a, List.mem_of_mem_filter hmem, hkind⟩

theorem InRow.classDef (h : InRow .classDef ts) : ∃ front c name back body,
    Tree.solid ts = front ++ .leaf c :: name :: back ++ [body] ∧ c.kind = .classKw ∧
      (Tree.node .classDef ts).child? .name = some name ∧
      (Tree.node .classDef ts).child? .block = some body := by
  obtain ⟨rs, hrs, lines, row, hsolid, hlines, -, hfits⟩ := h (by decide)
  simp only [Role.rows, List.mem_map] at hrs
  obtain ⟨base, hbase, rfl⟩ := hrs
  obtain ⟨most, _, rfl, hmost, hend⟩ := forall₂_append hfits
  obtain ⟨_, _, ⟨c, rfl, hc⟩, hmore, rfl⟩ := List.forall₂_cons_left_iff.1 hmost
  obtain ⟨name, back, hname, hback, rfl⟩ := List.forall₂_cons_left_iff.1 hmore
  simp only [List.forall₂_cons_left_iff, List.forall₂_nil_left_iff] at hend
  obtain ⟨body, _, hbody, rfl, rfl⟩ := hend
  have hparts : Tree.solid ts = lines ++ .leaf c :: name :: back ++ [body] := by simp [hsolid]
  have hbefore : Tree.solid ts = lines ++ ([.leaf c] ++ name :: (back ++ [body])) := by simp [hsolid]
  have hfirst : List.Forall₂ Role.Fits [.word .classKw] [.leaf c] := .cons ⟨c, rfl, hc⟩ .nil
  have hblock : ∀ base ∈ Role.bases, ∀ r ∈ Role.word .classKw :: .name :: (base ++ [.word .colon]),
      r.kind? ≠ some .block := by decide +kernel
  refine ⟨lines, c, name, back, body, hparts, hc, ?_, ?_⟩
  · exact child?_of_row hbefore hlines hfirst hname rfl (by decide)
  · exact child?_of_row hsolid hlines hmost hbody rfl (hblock base hbase)

/-- Behind an argument that has a name, or that brings names, none stands by position. -/
theorem Outline.AreArguments.ordered {after : Bool} {os : List (Outline Word)}
    (h : AreArguments after os) : os.Pairwise fun o p =>
      isOf .keywordArg o = true ∨ isOf .doubleStarredArg o = true → isOf .arg p = false := by
  induction h with
  | none => exact .nil
  | last => exact List.pairwise_singleton ..
  | @more after next o w os ho _ hos ih =>
    refine .cons (fun p hp hnamed => ?_) (.cons (fun p _ hnamed => by simp [isOf] at hnamed) ih)
    rcases List.mem_cons.1 hp with rfl | hp
    · rfl
    · obtain rfl : next = true := by cases ho <;> simp_all [isOf]
      simpa using List.filter_eq_nil_iff.1 hos.positional_behind p hp

theorem Tree.outlines_eq_flatMap {α : Type} (content : Token → α) (ts : List Tree) :
    outlines content ts = ts.flatMap (outline content) := by
  induction ts with
  | nil => simp
  | cons t ts ih => simp [ih]

theorem HoldsArguments.ordered (h : HoldsArguments .argList ts) :
    (Tree.node .argList ts).children.Pairwise fun a b =>
      a.kind = .keywordArg ∨ a.kind = .doubleStarredArg → b.kind ≠ .arg := by
  obtain ⟨v, os, w, houtlines, -, hos⟩ := h rfl
  have hordered : (Tree.outlines Token.word ts).Pairwise fun o p =>
      Outline.isOf .keywordArg o = true ∨ Outline.isOf .doubleStarredArg o = true →
        Outline.isOf .arg p = false := by
    rw [houtlines]
    refine .cons (fun p _ hnamed => by simp [Outline.isOf] at hnamed) ?_
    exact List.pairwise_append.2 ⟨hos.are.ordered, List.pairwise_singleton .., by simp [Outline.isOf]⟩
  rw [Tree.outlines_eq_flatMap, List.pairwise_flatMap] at hordered
  refine List.pairwise_filter.2 (hordered.2.imp fun {a b} hab ha hb => ?_)
  cases a with
  | leaf => cases ha
  | node kind us =>
    cases b with
    | leaf => cases hb
    | node kind' vs => simpa [Outline.isOf, Tree.kind] using hab

end Kinds

/-- A tree of which all nodes are as in a program has what its views take for granted. -/
theorem Tree.complete {kind : Kind} {ts : List Tree} (hmold : kind.mold.Tells ts)
    (hholds : HoldsArguments kind ts) (hrow : InRow kind ts) : (Tree.node kind ts).Complete where
  call hkind := by
    obtain rfl : kind = .callExpr := hkind
    obtain ⟨callee, list, hsolid, hcallee, hother, hlist, hargs⟩ := Mold.tells_call hmold
    have hchildren : (Tree.node .callExpr ts).children = [callee, list] := by
      simp [children_node, hsolid, hcallee, hlist]
    have hne : callee.kind ≠ .argList := fun he => hother (by simp [he])
    refine ⟨callee, list, hchildren, by rw [Call.callee?, hchildren]; rfl, ?_⟩
    simp [Call.argumentList?, child?, hchildren, hne, hargs]
  positional hkind := by
    obtain rfl : kind = .arg := hkind
    obtain ⟨value, hsolid, hvalue⟩ := hrow.positional
    have hchildren : (Tree.node .arg ts).children = [value] := by
      simp [children_node, hsolid, hvalue]
    exact ⟨value, hchildren, by rw [Argument.value?, hchildren]; rfl⟩
  keyword hkind := by
    obtain rfl : kind = .keywordArg := hkind
    obtain ⟨name, value, hnodes, hname, hvalue⟩ := hrow.keyword
    have hchildren : (Tree.node .keywordArg ts).children = [name, value] := by
      rw [children_node, hnodes]
    refine ⟨name, value, hchildren, ?_, ?_⟩
    · simp [child?, hchildren, hname]
    · simp [Argument.value?, hchildren, hname, hvalue]
  attributeOf hkind := by
    obtain rfl : kind = .attributeExpr := hkind
    obtain ⟨receiver, dot, name, hsolid, hreceiver, hother, hname, hnameKind⟩ :=
      Mold.tells_attribute hmold
    have hdot : (Tree.leaf dot).isNode = false := rfl
    have hchildren : (Tree.node .attributeExpr ts).children = [receiver, name] := by
      simp [children_node, hsolid, hreceiver, hdot, hname]
    have hne : receiver.kind ≠ .name := fun he => hother (by simp [he])
    exact ⟨receiver, name, hchildren, hne, by simp [child?, hchildren, hne, hnameKind]⟩
  binary hkind := by
    obtain rfl : kind = .binExpr := hkind
    obtain ⟨left, op, right, hsolid, hleft, hright, hop⟩ := hrow.binary
    have hword : (Tree.leaf op).isNode = false := rfl
    exact ⟨left, op, right, hsolid, by simp [children_node, hsolid, hleft, hword, hright], hop⟩
  function hkind := by
    obtain rfl : kind = .functionDef := hkind
    obtain ⟨front, d, name, list, back, body, hsolid, hd, honly, hname, hlist, hbody, hasync⟩ :=
      hrow.function
    refine ⟨front, d, name, list, back, body, hsolid, hd, honly, hname, ?_, hbody, hasync⟩
    rw [FunctionDef.parameters?, hlist]
    rfl
  classDef hkind := by
    obtain rfl : kind = .classDef := hkind
    exact hrow.classDef
  param hkind hname := by
    obtain rfl : kind = .param := hkind
    rcases hrow.parameter with ⟨k, hsolid, hk⟩ | ⟨name, hchild⟩
    · exact ⟨k, hsolid, by simpa [Role.signs] using hk⟩
    · rw [Tree.name?, hchild] at hname
      cases hname
  argList hkind := by
    obtain rfl : kind = .argList := hkind
    exact hholds.ordered

/-- The views of the tree of a program find what they look for. -/
theorem typed_views_complete {t : Text} (h : (parse t).ok = true) :
    ∀ l ∈ (parse t).tree.locate 0 0, l.tree.isNode = true → l.tree.Complete := by
  have heach := (molded_parse h).and ((holdsArguments_parse h).and (rows_parse h))
  rintro ⟨start, depth, tree⟩ hl hnode
  obtain ⟨hmold, hholds, hrow⟩ := (Tree.each_iff_locate 0 0 _).1 heach _ hl hnode
  cases tree with
  | leaf => cases hnode
  | node kind ts => exact Tree.complete hmold hholds hrow

/-- A program with definitions, calls, arguments and an operation. -/
def defining : Text := "@d\nasync def f(a, *, b=1):\n g(a, k=b).c\nclass D(B):\n x = a + 1\n".toList

theorem typed_views_complete_defining : (parse defining).ok = true ∧
    ∀ l ∈ (parse defining).tree.locate 0 0, l.tree.isNode = true → l.tree.Complete := by
  have hok : (parse defining).ok = true := by decide +kernel
  exact ⟨hok, typed_views_complete hok⟩

end SceneGate
