/-
What stands between braces. One reading of a display decides by its first item whether it is
a dictionary: then each item is an entry, or an element without a value, which is not
rejected. In a set the items are elements, or unpacked mappings, which are not rejected
either; an entry with a key never stands in a set (`displays_parse`). That an element is one
node is told by a tally (`Found.tally`); how an item is read depends on the answers of the
phrases before it, so the forms of displays are taken apart by hand.
-/
import SceneGate.Proofs.NodeParts

namespace SceneGate

open Progress

/-! ## Elements -/

/-- The kinds of nodes that an element of a display can be. -/
def Kind.elements : List Kind := [
  .nameRef, .literal, .stringLiteral, .callExpr, .attributeExpr, .subscriptExpr, .parenExpr,
  .tupleExpr, .listExpr, .setExpr, .dictExpr, .binExpr, .boolExpr, .compareExpr, .unaryExpr,
  .awaitExpr, .lambdaExpr, .condExpr, .namedExpr, .starredExpr]

namespace Tree

/-- An element of a display. -/
def IsElement (t : Tree) : Prop := t.isNode = true ∧ t.kind ∈ Kind.elements

/-- An entry of a dictionary. -/
def IsEntry (t : Tree) : Prop := t.isNode = true ∧ t.kind = .dictEntry

/-- An entry that unpacks a mapping: it begins with two stars. -/
def IsUnpacking (t : Tree) : Prop :=
  ∃ k ts, t = .node .dictEntry (.leaf k :: ts) ∧ k.kind = .starStar

/-- A comprehension over an item with the property: the item, and the clauses behind it. -/
def IsOver (P : Tree → Prop) (t : Tree) : Prop :=
  t.isNode = true ∧ t.kind = .comprehension ∧ ∃ item clauses, t.children = item :: clauses ∧
    P item ∧ ∀ c ∈ clauses, c.isNode = true ∧ c.kind = .compFor

theorem IsUnpacking.isEntry {t : Tree} (h : IsUnpacking t) : IsEntry t := by
  obtain ⟨k, ts, rfl, -⟩ := h
  exact ⟨rfl, rfl⟩

end Tree

/-- What nodes stand among some parts, as far as elements go. -/
inductive Found where
  | nothing
  | element
  /-- More than one node, or a node that is no element. -/
  | more
deriving DecidableEq, Repr

namespace Found

/-- One behind the other. -/
def append : Found → Found → Found
  | nothing, b => b
  | a, nothing => a
  | _, _ => more

instance : Monoid Found where
  mul := append
  one := nothing
  mul_assoc a b c := by cases a <;> cases b <;> cases c <;> rfl
  one_mul _ := rfl
  mul_one a := by cases a <;> rfl

/-- What nodes are; words do not count. -/
def tally : Tally Found where
  words := []
  rest := nothing
  node kind := if kind ∈ Kind.elements then element else more

/-- What phrases build. -/
def phrase : Phrase → List (Option Found)
  | .nameRef | .expression | .namedExpression | .starNamed | .starred | .lambda | .disjunction
  | .conjunction | .inversion | .comparison | .bitOr | .bitXor | .bitAnd | .shift | .sum
  | .product | .factor | .power | .primary | .atom | .parenthesized | .list | .braced =>
    [some element]
  | _ => [none]

/-- The account of what nodes are built. -/
def account : Account (List (Option Found)) :=
  tally.account (fun _ => true) (fun _ => none) phrase

theorem sound : account.Sound tally.Tells (tally.Allows fun _ => none) := Tally.sound

/-- Parts that come to one element have one node, which is an element. -/
theorem filter_of_prod {ts : List Tree} :
    ((ts.map tally.part).prod = nothing → ts.filter Tree.isNode = []) ∧
      ((ts.map tally.part).prod = element →
        ∃ n, Tree.IsElement n ∧ ts.filter Tree.isNode = [n]) := by
  induction ts with
  | nil => exact ⟨fun _ => rfl, fun h => by cases h⟩
  | cons t ts ih =>
    rw [List.map_cons, List.prod_cons]
    generalize hrest : (ts.map tally.part).prod = rest at ih ⊢
    cases t with
    | leaf k => exact ih
    | node kind us =>
      have hpart : tally.part (.node kind us) = if kind ∈ Kind.elements then element else more := rfl
      rw [hpart]
      split
      · rename_i hkind
        refine ⟨(fun h => by cases rest <;> cases h), fun h => ?_⟩
        obtain rfl : rest = nothing := by cases rest <;> first | rfl | cases h
        exact ⟨.node kind us, ⟨rfl, hkind⟩, by rw [List.filter_cons_of_pos rfl, ih.1 rfl]⟩
      · exact ⟨(fun h => by cases rest <;> cases h), (fun h => by cases rest <;> cases h)⟩

end Found

theorem Phrase.found_fits (p : Phrase) : Found.account.fitsPhrase Watch.faultless p = true := by
  revert p
  decide +kernel

/-! ## Nodes that are read -/

namespace Progress

/-- The nodes that have been built, in order. -/
def nodes (s : Progress) : List Tree := s.built.reverse.filter Tree.isNode

variable {s s' : Progress}


theorem nodes_flush (s : Progress) : s.flush.nodes = s.nodes := by
  simp [nodes, flush, Tree.isNode]

@[simp] theorem nodes_take (s : Progress) : s.take.nodes = s.nodes := by
  cases h : s.rest with
  | nil => rw [take_of_nil h, nodes_flush]
  | cons l ls =>
    have hflush := nodes_flush s
    rw [nodes] at hflush
    rw [take_of_cons h, nodes]
    simpa [Tree.isNode] using hflush

theorem nodes_rejoin (s s' : Progress) (parts : List Tree) :
    (s.rejoin s' parts).nodes = s.nodes ++ parts.reverse.filter Tree.isNode := by
  rw [← nodes_flush s]
  simp [nodes, rejoin]

theorem nodes_node (s s' : Progress) (kind : Kind) (ts : List Tree) :
    (s.rejoin s' [.node kind ts]).nodes = s.nodes ++ [.node kind ts] := nodes_rejoin ..

theorem nodes_mark (s s' : Progress) : (s.rejoin s' s'.built).nodes = s.nodes ++ s'.nodes :=
  nodes_rejoin ..

end Progress

section Reading

variable {env : Surroundings} {s s' : Progress} {a : Bool}

/-- An element is read as one node. -/
theorem Phrase.Reads.element {p : Phrase} (h : Phrase.Reads env p s a s')
    (hp : Found.phrase p = [some .element]) (hstart : p.startsOn = .all) (hs : s.Sorted)
    (hg : s'.faults = []) :
    ∃ n, n.IsElement ∧ s'.nodes = s.nodes ++ [n] ∧ s.built <:+ s'.built := by
  obtain ⟨⟨new, hnew, ⟨u, hu, hsum⟩, -⟩, -⟩ :=
    h.told Found.sound (Watch.faultless_sees env) (fun p => p.faultless_fits) Phrase.found_fits
      (by rw [hstart]; rfl) hg s.built _ (told_here Found.sound hs)
  have hone : Found.account.append Found.account.empty (Found.account.phrase p) =
      [some .element] := by
    change Found.account.append _ (Found.phrase p) = _
    rw [hp]
    rfl
  rw [hone, List.mem_singleton] at hu
  subst hu
  have hprod := (Option.some.inj (hsum.resolve_left (by simp))).symm
  obtain ⟨n, hn, hfilter⟩ := Found.filter_of_prod.2 hprod
  refine ⟨n, hn, ?_, new, hnew.symm⟩
  rw [← Tree.children_node .sourceFile new.reverse] at hfilter
  rw [Progress.nodes, hnew, List.reverse_append, List.filter_append]
  exact congrArg _ hfilter

/-- An unpacked mapping is read as one entry. -/
theorem Form.Reads.unpacking
    (h : Form.Reads env (Phrase.Reads env) (.node .dictEntry (.seq .take (.call .bitOr))) s a s')
    (hstar : s.current = .starStar) (hs : s.Sorted) (hg : s'.faults = []) :
    ∃ n, n.IsUnpacking ∧ s'.nodes = s.nodes ++ [n] := by
  obtain ⟨s₁, hbody, rfl⟩ := h.of_node
  obtain ⟨_, s₂, htake, hcall⟩ := hbody.of_seq
  cases htake
  cases hcall with
  | call hcall =>
    obtain ⟨l, ls, hl, hkind⟩ := exists_of_current hstar (by decide)
    obtain ⟨-, -, -, front, hbuilt⟩ := hcall.element rfl rfl hs.inside.take hg
    have htaken : s.inside.take.built = [.leaf l.token] := by
      rw [take_of_cons (s := s.inside) hl]
      rfl
    refine ⟨_, ⟨l.token, front.reverse, ?_, hkind⟩, nodes_node ..⟩
    rw [← hbuilt, htaken, List.reverse_append]
    rfl

/-- The first item of a display is read as one node; the answer says whether it is an entry. -/
theorem Phrase.Reads.dictItem (h : Phrase.Reads env .dictItem s a s') (hs : s.Sorted)
    (hg : s'.faults = []) :
    ∃ n, s'.nodes = s.nodes ++ [n] ∧ (a = true → n.IsEntry) ∧ (a = false → n.IsElement) := by
  rcases h.form.of_cond_kind with ⟨hc, hform⟩ | ⟨-, hform⟩
  · obtain ⟨b, s₁, hentry, hanswer⟩ := hform.of_seq
    cases hanswer
    obtain ⟨n, hn, hnodes⟩ := hentry.unpacking hc hs hg
    exact ⟨n, hnodes, fun _ => hn.isEntry, by simp⟩
  · cases hform with
    | mark hbody =>
      rw [nodes_mark]
      obtain ⟨b, s₁, helement, hmore⟩ := hbody.of_seq
      cases helement with
      | call helement =>
        obtain ⟨n, hn, hnodes, -⟩ := helement.element rfl rfl hs.inside (hmore.faults_eq hg)
        rcases hmore.of_cond_kind with ⟨-, hend⟩ | ⟨-, hend⟩
        · obtain ⟨d, s₃, hwrap, hanswer⟩ := hend.of_seq
          cases hanswer
          cases hwrap
          exact ⟨_, rfl, fun _ => ⟨rfl, rfl⟩, by simp⟩
        · cases hend
          exact ⟨n, by rw [hnodes]; rfl, by simp, fun _ => hn⟩

/-- A further item of a set is read as one node, which is no entry with a key. -/
theorem Phrase.Reads.setItem (h : Phrase.Reads env .setItem s a s') (hs : s.Sorted)
    (hg : s'.faults = []) :
    ∃ n, s'.nodes = s.nodes ++ [n] ∧ (n.IsUnpacking ∨ n.IsElement) := by
  rcases h.form.of_cond_kind with ⟨hc, hform⟩ | ⟨-, hform⟩
  · obtain ⟨n, hn, hnodes⟩ := hform.unpacking hc hs hg
    exact ⟨n, hnodes, .inl hn⟩
  · cases hform with
    | call helement =>
      obtain ⟨n, hn, hnodes, -⟩ := helement.element rfl rfl hs hg
      exact ⟨n, hnodes, .inr hn⟩

/-- The clauses of a comprehension stand behind what was built. -/
theorem Form.Reads.comprehension
    (h : Form.Reads env (Phrase.Reads env) Form.comprehension s a s') :
    ∃ c clauses, s'.nodes = [c] ∧ c.isNode = true ∧ c.kind = .comprehension ∧
      c.children = s.nodes ++ clauses ∧ ∀ d ∈ clauses, d.isNode = true ∧ d.kind = .compFor := by
  cases h with
  | wrap hloop =>
    obtain ⟨-, s₀, ⟨clauses, hnodes, hclauses⟩, htest⟩ := hloop.of_loop
      (P := fun s₁ => ∃ clauses, s₁.nodes = s.nodes ++ clauses ∧
        ∀ d ∈ clauses, d.isNode = true ∧ d.kind = .compFor) ⟨[], by simp⟩
      fun {s₁ s₂ b s₃} hP htest hclause _ => by
        obtain ⟨clauses, hnodes, hclauses⟩ := hP
        obtain ⟨rfl, -⟩ := htest.of_next
        cases hclause with
        | call hclause =>
          obtain ⟨s₄, -, rfl⟩ := hclause.form.of_node
          refine ⟨clauses ++ [.node .compFor s₄.built.reverse], ?_, ?_⟩
          · rw [nodes_node, hnodes, List.append_assoc]
          · exact List.forall_mem_append.2 ⟨hclauses, by simp [Tree.isNode, Tree.kind]⟩
    obtain ⟨rfl, -⟩ := htest.of_next
    exact ⟨_, clauses, rfl, rfl, rfl, hnodes, hclauses⟩

/-- The comma between two items is no node. -/
theorem Form.Reads.nodes_comma
    (h : Form.Reads env (Phrase.Reads env) (.both (.eat .comma) (.nextNot [.rBrace])) s a s') :
    s'.nodes = s.nodes := by
  obtain ⟨c, s₁, heat, hnext⟩ := h.of_cond
  cases c with
  | true =>
    obtain ⟨-, rfl⟩ := heat.of_eat_yes
    rw [hnext.of_nextNot.1, nodes_take]
  | false =>
    obtain ⟨-, rfl⟩ := heat.of_eat_no
    cases hnext
    rfl

/-- Behind the first item stand the clauses of a comprehension, or further items. -/
theorem Form.Reads.moreItems {item : Phrase} {P : Tree → Prop}
    (h : Form.Reads env (Phrase.Reads env) (moreItems item) s a s')
    (hitem : ∀ s a s', Phrase.Reads env item s a s' → s.Sorted → s'.faults = [] →
      ∃ n, s'.nodes = s.nodes ++ [n] ∧ P n)
    (hs : s.Sorted) (hg : s'.faults = []) :
    (∃ c clauses, s'.nodes = [c] ∧ c.isNode = true ∧ c.kind = .comprehension ∧
      c.children = s.nodes ++ clauses ∧ ∀ d ∈ clauses, d.isNode = true ∧ d.kind = .compFor) ∨
    ∃ items, s'.nodes = s.nodes ++ items ∧ ∀ n ∈ items, P n := by
  have hform := h.of_cond_next
  cases hc : Form.forStart.contains s.current with
  | true =>
    rw [hc] at hform
    exact .inl hform.comprehension
  | false =>
    rw [hc] at hform
    obtain ⟨-, s₀, ⟨-, items, hnodes, hitems⟩, htest⟩ := hform.of_loop
      (P := fun s₁ => s₁.Sorted ∧ ∃ items, s₁.nodes = s.nodes ++ items ∧ ∀ n ∈ items, P n)
      ⟨hs, [], by simp, by simp⟩ fun {s₁ s₂ b s₃} hP htest hcall hrest => by
        obtain ⟨hs₁, items, hnodes, hitems⟩ := hP
        have hs₂ := (htest.imp fun _ _ _ _ hq => hq.sorted).sorted hs₁
        cases hcall with
        | call hcall =>
          obtain ⟨n, hn, hP⟩ := hitem _ _ _ hcall hs₂ (hrest.faults_eq hg)
          refine ⟨hcall.sorted hs₂, items ++ [n], ?_,
            List.forall_mem_append.2 ⟨hitems, by simpa using hP⟩⟩
          rw [hn, htest.nodes_comma, hnodes, List.append_assoc]
    exact .inr ⟨items, by rw [htest.nodes_comma, hnodes], hitems⟩

/-! ## Displays -/

/-- The nodes between braces: a comprehension, or items of which the first is of one sort and
the further ones are of another. -/
def AreItems (first further : Tree → Prop) (ts : List Tree) : Prop :=
  (∃ c, ts = [c] ∧ c.IsOver first) ∨
    ∃ item items, ts = item :: items ∧ first item ∧ ∀ n ∈ items, further n

/-- The nodes of a dictionary with items. -/
abbrev AreEntries : List Tree → Prop :=
  AreItems Tree.IsEntry fun t => t.IsEntry ∨ t.IsElement

/-- The nodes of a set. -/
abbrev AreElements : List Tree → Prop :=
  AreItems Tree.IsElement fun t => t.IsUnpacking ∨ t.IsElement

theorem Form.Reads.items {item : Phrase} {first further : Tree → Prop} {n : Tree}
    (h : Form.Reads env (Phrase.Reads env) (Form.moreItems item) s a s')
    (hitem : ∀ s a s', Phrase.Reads env item s a s' → s.Sorted → s'.faults = [] →
      ∃ n, s'.nodes = s.nodes ++ [n] ∧ further n)
    (hs : s.Sorted) (hg : s'.faults = []) (hnodes : s.nodes = [n]) (hfirst : first n) :
    AreItems first further s'.nodes := by
  rcases h.moreItems hitem hs hg with ⟨c, clauses, hc, hnode, hkind, hchildren, hclauses⟩ |
    ⟨items, hitems, hfurther⟩
  · rw [hnodes] at hchildren
    exact .inl ⟨c, hc, hnode, hkind, n, clauses, hchildren, hfirst, hclauses⟩
  · rw [hnodes] at hitems
    exact .inr ⟨n, items, hitems, hfirst, hfurther⟩

/-- The items of a display; the answer says whether the first is an entry. -/
theorem Phrase.Reads.bracedItems (h : Phrase.Reads env .bracedItems s a s') (hs : s.Sorted)
    (hg : s'.faults = []) : ∃ items, s'.nodes = s.nodes ++ items ∧
      (a = true → AreEntries items) ∧ (a = false → AreElements items) := by
  cases h.form with
  | mark hbody =>
    rw [nodes_mark]
    refine ⟨_, rfl, ?_⟩
    obtain ⟨c, s₀, hfirst, hmore⟩ := hbody.of_cond
    cases hfirst with
    | call hfirst =>
      have hs₀ := hfirst.sorted hs.inside
      obtain ⟨n, hn, hyes, hno⟩ := hfirst.dictItem hs.inside (hmore.faults_eq hg)
      cases c with
      | true =>
        obtain ⟨d, s₁, hitems, hanswer⟩ := hmore.of_seq
        cases hanswer
        have hitem : ∀ s a s', Phrase.Reads env .dictItem s a s' → s.Sorted → s'.faults = [] →
            ∃ n, s'.nodes = s.nodes ++ [n] ∧ (n.IsEntry ∨ n.IsElement) := by
          intro s a s' h hs hg
          obtain ⟨n, hn, hyes, hno⟩ := h.dictItem hs hg
          cases a with
          | true => exact ⟨n, hn, .inl (hyes rfl)⟩
          | false => exact ⟨n, hn, .inr (hno rfl)⟩
        exact ⟨fun _ => hitems.items hitem hs₀ hg hn (hyes rfl), by simp⟩
      | false =>
        obtain ⟨d, s₁, hitems, hanswer⟩ := hmore.of_seq
        cases hanswer
        exact ⟨by simp, fun _ =>
          hitems.items (fun _ _ _ h hs hg => h.setItem hs hg) hs₀ hg hn (hno rfl)⟩

/-- What the nodes between braces are. -/
def DisplayItems (kind : Kind) (ts : List Tree) : Prop :=
  (kind = .dictExpr → ts.filter Tree.isNode = [] ∨ AreEntries (ts.filter Tree.isNode)) ∧
    (kind = .setExpr → AreElements (ts.filter Tree.isNode))

/-- A display has the items that were read between its braces. -/
theorem Form.Reads.braces
    (h : Form.Reads env (Phrase.Reads env)
      (.enclosed .rBrace (.cond (.next [.rBrace]) (.answer true) (.call .bracedItems))) s a s')
    (hs : s.Sorted) (hg : s'.faults = []) (hnone : s.nodes = []) :
    (a = true → s'.nodes = [] ∨ AreEntries s'.nodes) ∧ (a = false → AreElements s'.nodes) := by
  cases h with
  | enclosed hbody =>
    rename_i s₁
    have hg₁ : s₁.faults = [] := List.suffix_nil.1 (hg ▸ (follows_close ..).faults)
    rw [(close_of_faults hg).2, nodes_take]
    rcases hbody.of_cond_kind with ⟨-, hform⟩ | ⟨-, hform⟩
    · cases hform
      exact ⟨fun _ => .inl (by rw [nodes_take, hnone]), by simp⟩
    · cases hform with
      | call hitems =>
        obtain ⟨items, hnodes, hyes, hno⟩ := hitems.bracedItems hs.take hg₁
        rw [nodes_take, hnone, List.nil_append] at hnodes
        rw [hnodes]
        exact ⟨fun ha => .inr (hyes ha), hno⟩

theorem Phrase.Reads.each_displayItems {p : Phrase} (h : Phrase.Reads env p s a s') :
    p.Keeps DisplayItems s a s' := by
  have hother : ∀ kind ts, kind ∉ [Kind.dictExpr, .setExpr] → DisplayItems kind ts := by
    intro kind ts hkind
    simp only [List.mem_cons, List.not_mem_nil, or_false, not_or] at hkind
    exact ⟨fun h => absurd h hkind.1, fun h => absurd h hkind.2⟩
  have hmaker : ∀ p : Phrase, p.form.makesNone [.dictExpr, .setExpr] = false → p = .braced := by
    decide +kernel
  refine h.each_but hother fun {p s b s'} hmakes h hs hg he => ?_
  obtain rfl := hmaker p hmakes
  cases h with
  | mark hbody =>
    refine he.rejoin ?_
    obtain ⟨c, s₀, hbraces, hwrap⟩ := hbody.of_cond
    have alone := hbraces.imp fun _ _ _ _ hq => hq.1
    have hg₀ : s₀.faults = [] := by
      cases c <;> exact (hwrap.imp fun _ _ _ _ hq => hq.1).faults_eq hg
    have hkept : s₀.Each DisplayItems :=
      hbraces.each_but hother rfl hs.inside hg₀ (by simp [Progress.Each, Progress.inside])
    obtain ⟨hyes, hno⟩ := alone.braces hs.inside hg₀ rfl
    cases c with
    | true =>
      cases hwrap with
      | wrap hskip =>
        cases hskip
        exact hkept.node ⟨fun _ => hyes rfl, by simp⟩
    | false =>
      cases hwrap with
      | wrap hskip =>
        cases hskip
        exact hkept.node ⟨by simp, fun _ => hno rfl⟩

end Reading

/-- In a program a dictionary is empty, or begins with an entry; a set begins with an element,
and has no entry but unpacked mappings behind it. -/
theorem displays_parse {t : Text} (h : (parse t).ok = true) :
    ∀ l ∈ (parse t).tree.locate 0 0, l.tree.isNode = true →
      (l.tree.kind = .dictExpr → l.tree.children = [] ∨ AreEntries l.tree.children) ∧
        (l.tree.kind = .setExpr → AreElements l.tree.children) := by
  obtain ⟨b, s, hreads, -, -, htree, hfaults⟩ := exists_reading t
  have hs : s.faults = [] := by simpa [Parse.ok, hfaults] using h
  have he := hreads.each_displayItems (sorted_start ..) hs (Progress.each_start _ _)
  have heach : (parse t).tree.Each DisplayItems := by
    rw [htree]
    exact ⟨⟨(by rintro ⟨⟩), (by rintro ⟨⟩)⟩, he.root⟩
  exact (Tree.each_iff_locate 0 0 _).1 heach

/-- A dictionary of a set with an unpacked mapping, and of a comprehension. -/
def displayed : Text := "d = {a: {b, **c}, **{x: y for x in xs}, e}\n".toList

theorem displays_parse_displayed : (parse displayed).ok = true ∧
    ∀ l ∈ (parse displayed).tree.locate 0 0, l.tree.isNode = true →
      (l.tree.kind = .dictExpr → l.tree.children = [] ∨ AreEntries l.tree.children) ∧
        (l.tree.kind = .setExpr → AreElements l.tree.children) := by
  have hok : (parse displayed).ok = true := by decide +kernel
  exact ⟨hok, displays_parse hok⟩

/-- An element without a value behind an entry, and an unpacked mapping behind an element, are
no faults. -/
theorem displays_mix :
    (∃ l ∈ (parse "{a: b, c}\n".toList).tree.locate 0 0, l.tree.kind = .dictExpr ∧
      l.tree.children.map Tree.kind = [.dictEntry, .nameRef]) ∧
    (∃ l ∈ (parse "{a, **b}\n".toList).tree.locate 0 0, l.tree.kind = .setExpr ∧
      l.tree.children.map Tree.kind = [.nameRef, .dictEntry]) ∧
    (parse "{a: b, c}\n".toList).ok = true ∧ (parse "{a, **b}\n".toList).ok = true ∧
    (parse "{a, b: c}\n".toList).ok = false := by
  decide +kernel

end SceneGate
