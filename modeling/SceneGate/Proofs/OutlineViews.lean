/-
What the checks read of a tree is in its outline. They look at nodes and at the names in
them, never at trivia, and no name goes on over a line break. So programs of the same
outline have the same stray names and the same defects as scenes, even if the outline
does not tell how lines are broken (`StrayProse.names_eq_of_outline`,
`Scene.check_eq_of_outline`).
-/
import SceneGate.Proofs.Acceptance
import SceneGate.Proofs.Molds
import SceneGate.Proofs.NamePlaces
import SceneGate.Proofs.Regrouping

namespace SceneGate

/-- Contents that tell everything of a word, but perhaps not how a line is broken. -/
structure Token.Telling (content : Token → Word) : Prop where
  kind : ∀ k, (content k).kind = k.kind
  text : ∀ k : Token, k.kind ≠ .newline → (content k).text = k.text

/-- A word, but of a line break only that there is one. -/
def Word.unbroken (w : Word) : Word := ⟨w.kind, if w.kind = .newline then [] else w.text⟩

/-- What is written of a token, but how a line is broken. -/
def Token.unbroken (k : Token) : Word := k.word.unbroken

theorem Token.telling_word : Telling Token.word := ⟨fun _ => rfl, fun _ _ => rfl⟩

theorem Token.telling_unbroken : Telling Token.unbroken :=
  ⟨fun _ => rfl, fun _ hk => if_neg hk⟩

/-! ## What names are made of -/

/-- Names are made of identifiers and dots. -/
def Spelled (kind : Kind) (ts : List Tree) : Prop :=
  kind.holdsIdentifiers = true → ∀ t ∈ ts, t.isTrivia = false →
    (Part.word (.only [.ident, .dot])).Fits t

/-- The account of the sorts of parts. -/
def Part.account : Account Part where
  empty := ⟨.none, .none⟩
  nothing := ⟨.none, .none⟩
  append := Sight.union
  union := Sight.union
  within := Sight.within
  word K := .word K
  node kind _ := .node (.only [kind])
  mayBe kind A := !kind.holdsIdentifiers || A.within (Part.word (.only [.ident, .dot]))
  phrase _ := ⟨.all, .all⟩

theorem Part.sound :
    Part.account.Sound (fun A ts => ∀ t ∈ ts, t.isTrivia = false → Part.Fits A t) Spelled where
  empty := by simp
  append h h' t ht htrivia := by
    rcases List.mem_append.1 ht with ht | ht
    · have := h t ht htrivia
      simp_all [account, Fits]
    · have := h' t ht htrivia
      simp_all [account, Fits]
  trivia ks h hks t ht htrivia := by
    rcases List.mem_append.1 ht with ht | ht
    · exact h t ht htrivia
    · obtain ⟨k, hk, rfl⟩ := List.mem_map.1 ht
      rw [Tree.isTrivia, hks k hk] at htrivia
      cases htrivia
  left h t ht htrivia := by
    have := h t ht htrivia
    simp_all [account, Fits]
  right h t ht htrivia := by
    have := h t ht htrivia
    simp_all [account, Fits]
  within hab h t ht htrivia := Sight.has_of_within hab (h t ht htrivia)
  word hK hk t ht _ := by
    obtain rfl := List.mem_singleton.1 ht
    exact hK
  noWord _ := by simp
  node := by
    intro kind A ts hmay h
    refine ⟨fun hkind t ht htrivia => ?_, fun t ht _ => ?_⟩
    · simp only [account, hkind, Bool.not_true, Bool.false_or] at hmay
      exact Sight.has_of_within hmay (h t ht htrivia)
    · obtain rfl := List.mem_singleton.1 ht
      exact fits_node.2 ⟨rfl, by simp [Tree.kind]⟩

theorem Phrase.spelled_fits (p : Phrase) : Part.account.fitsPhrase Watch.lenient p = true := by
  revert p
  decide +kernel

/-- The names of a text are made of identifiers and dots. -/
theorem spelled_parse (t : Text) : (parse t).tree.Each Spelled :=
  Part.sound.each_parse Watch.lenient_sees Phrase.lenient_fits Phrase.spelled_fits rfl
    fun _ _ => trivial

/-! ## Trees of outlines -/

theorem Tree.Each.child {P : Kind → List Tree → Prop} {t c : Tree} (h : t.Each P)
    (hc : c ∈ t.children) : c.Each P := by
  obtain ⟨hpart, -⟩ := List.mem_filter.1 hc
  cases t with
  | leaf k => cases hpart
  | node kind ts => exact (each_node.1 h).2 c hpart

theorem Tree.isNode_of_mem_children {t c : Tree} (hc : c ∈ t.children) : c.isNode = true :=
  (List.mem_filter.1 hc).2

namespace Tree

variable {content : Token → Word} {t : Tree} {ts : List Tree} {kind : Kind}

/-- A tree without trivia; of its words it is kept what `content` tells. -/
def bare (content : Token → Word) : Tree → Tree
  | .leaf k => .leaf (content k).token
  | .node kind ts => (Outline.node kind (outlines content ts)).tree

theorem map_tree_outlines (ts : List Tree) :
    (outlines content ts).map Outline.tree = (solid ts).map (bare content) := by
  induction ts with
  | nil => rfl
  | cons t ts ih =>
    rw [outlines_cons, List.map_append, ih]
    cases t with
    | leaf k => cases hk : k.isTrivia <;> simp [outline, solid, isTrivia, hk, bare, Outline.tree]
    | node kind us => simp [solid, isTrivia, bare]

theorem bare_node (kind : Kind) (ts : List Tree) :
    (node kind ts).bare content = .node kind ((solid ts).map (bare content)) := by
  rw [bare, Outline.tree, Outline.trees_eq_map, map_tree_outlines]

theorem isNode_bare (t : Tree) : (t.bare content).isNode = t.isNode := by
  cases t with
  | leaf k => rfl
  | node kind ts => rw [bare_node]; rfl

variable (hc : Token.Telling content)

include hc

theorem kind_bare (t : Tree) : (t.bare content).kind = t.kind := by
  cases t with
  | leaf k => exact hc.kind k
  | node kind ts => rw [bare_node]; rfl

omit hc in
theorem children_bare (t : Tree) :
    (t.bare content).children = t.children.map (bare content) := by
  cases t with
  | leaf k => rfl
  | node kind ts =>
    rw [bare_node, children, children, parts, parts, List.filter_map, solid, List.filter_filter]
    refine congrArg (List.map _) (List.filter_congr fun t _ => ?_)
    rw [Function.comp_apply, isNode_bare]
    cases t <;> simp [isNode, isTrivia]

theorem filter_children_bare (kind : Kind) (t : Tree) :
    ((t.bare content).children.filter fun c => c.kind == kind) =
      (t.children.filter fun c => c.kind == kind).map (bare content) := by
  simp only [children_bare, List.filter_map, Function.comp_def, kind_bare hc]

theorem child?_bare (kind : Kind) (t : Tree) :
    (t.bare content).child? kind = (t.child? kind).map (bare content) := by
  simp only [child?, children_bare, List.find?_map, Function.comp_def, kind_bare hc]

omit hc

mutual

theorem tokens_bare : ∀ t : Tree, t.isTrivia = false →
    (t.bare content).tokens = (significant t.tokens).map fun k => (content k).token
  | .leaf k, hk => by
    have hk : k.isTrivia = false := hk
    simp [bare, significant, hk]
  | .node kind ts, _ => by rw [bare_node, tokens_node, tokens_node, tokensOf_bare ts]

theorem tokensOf_bare : ∀ ts : List Tree,
    tokensOf ((solid ts).map (bare content)) =
      (significant (tokensOf ts)).map fun k => (content k).token
  | [] => by simp [solid, significant]
  | t :: ts => by
    cases ht : t.isTrivia with
    | true =>
      cases t with
      | leaf k =>
        have hk : k.isTrivia = true := ht
        have hrest := tokensOf_bare ts
        simp_all [solid, isTrivia, significant]
      | node kind us => cases ht
    | false =>
      have hsolid : solid (t :: ts) = t :: solid ts := by simp [solid, ht]
      rw [hsolid, List.map_cons, tokensOf_cons, tokensOf_cons, tokens_bare t ht, tokensOf_bare ts,
        significant_append, List.map_append]

end

omit hc in
theorem kind_of_spelled
    (h : ∀ t ∈ ts, t.isTrivia = false → (Part.word (.only [.ident, .dot])).Fits t) :
    ∀ k ∈ significant (tokensOf ts), k.kind = .ident ∨ k.kind = .dot := by
  induction ts with
  | nil => simp [significant]
  | cons t ts ih =>
    obtain ⟨ht, hts⟩ := List.forall_mem_cons.1 h
    rw [tokensOf_cons, significant_append, List.forall_mem_append]
    refine ⟨?_, ih hts⟩
    cases t with
    | leaf k =>
      cases hk : k.isTrivia with
      | true => simp [significant, hk]
      | false =>
        obtain ⟨j, heq, hj⟩ := Part.fits_word.1 (ht hk)
        cases heq
        simpa [significant, hk] using hj
    | node kind us =>
      obtain ⟨j, heq, -⟩ := Part.fits_word.1 (ht rfl)
      cases heq

include hc

/-- A name reads the same without trivia. -/
theorem bareText_bare (hnode : t.isNode = true) (hname : t.kind.holdsIdentifiers = true)
    (h : t.Each Spelled) : (t.bare content).bareText = t.bareText := by
  cases t with
  | leaf k => cases hnode
  | node kind ts =>
    have hkinds := kind_of_spelled ((each_node.1 h).1 hname)
    have htext : ∀ k ∈ significant (tokensOf ts), (content k).text = k.text := by
      intro k hk
      refine hc.text k ?_
      rcases hkinds k hk with hk | hk <;> simp [hk]
    have hwords : ∀ k ∈ (significant (tokensOf ts)).map fun k => (content k).token,
        k.isTrivia = false := by
      intro j hj
      obtain ⟨k, hk, rfl⟩ := List.mem_map.1 hj
      have hkind : (content k).token.kind = k.kind := hc.kind k
      rw [Token.isTrivia, hkind]
      rcases hkinds k hk with hk | hk <;> simp [hk, Kind.isTrivia]
    have hfilter : ((node kind ts).bare content).tokens.filter (fun k => !k.isTrivia) =
        (significant (tokensOf ts)).map fun k => (content k).token := by
      rw [tokens_bare _ rfl, tokens_node]
      exact List.filter_eq_self.2 fun k hk => by rw [hwords k hk]; rfl
    rw [bareText, bareText, hfilter, tokens_node, spelling, spelling, List.flatMap_map]
    exact List.flatMap_congr htext

theorem child_name_bare (kind : Kind) (hkind : kind.holdsIdentifiers = true) (h : t.Each Spelled) :
    ((t.bare content).child? kind).map bareText = (t.child? kind).map bareText := by
  rw [child?_bare hc, Option.map_map]
  cases hchild : t.child? kind with
  | none => rfl
  | some c =>
    have hmem : c ∈ t.children := List.mem_of_find?_eq_some hchild
    have hfound : c.kind = kind := by simpa using List.find?_some hchild
    exact congrArg some
      (bareText_bare hc (isNode_of_mem_children hmem) (hfound ▸ hkind) (h.child hmem))

theorem name?_bare (h : t.Each Spelled) : (t.bare content).name? = t.name? :=
  child_name_bare hc .name rfl h

theorem tailName?_bare (hnode : t.isNode = true) (h : t.Each Spelled) :
    (t.bare content).tailName? = t.tailName? := by
  unfold tailName?
  rw [kind_bare hc]
  split
  · rename_i hkind
    rw [bareText_bare hc hnode (by rw [hkind]; rfl) h]
  · exact child_name_bare hc .name rfl h
  · rfl

/-! ## What is looked up in nodes -/

omit hc in
theorem foldl_ownTokens_bare (hc : Token.Telling content) (t : Tree) :
    (t.bare content).ownTokens.foldl (fun level k => level + Import.dots k.kind) 0 =
      t.ownTokens.foldl (fun level k => level + Import.dots k.kind) 0 := by
  cases t with
  | leaf k => rfl
  | node kind ts =>
    rw [bare_node, ownTokens, ownTokens, parts, parts]
    generalize 0 = n
    induction ts generalizing n with
    | nil => rfl
    | cons t ts ih =>
      cases t with
      | leaf k =>
        cases hk : k.isTrivia with
        | true =>
          have hnone : Import.dots k.kind = 0 := by
            rw [Token.isTrivia] at hk
            revert hk
            cases k.kind <;> simp [Kind.isTrivia, Import.dots]
          simpa [solid, isTrivia, hk, hnone] using ih n
        | false =>
          have hkind : (content k).token.kind = k.kind := hc.kind k
          simpa [solid, isTrivia, hk, bare, hkind] using ih (n + Import.dots k.kind)
      | node kind us => simpa [solid, isTrivia, bare_node] using ih n

theorem ofTree?_bare (h : t.Each Spelled) : Import.ofTree? (t.bare content) = Import.ofTree? t := by
  unfold Import.ofTree?
  rw [kind_bare hc]
  split
  · dsimp only
    rw [filter_children_bare hc, List.filterMap_map]
    refine congrArg (some ∘ Import.plain) (List.filterMap_congr fun c hchild => ?_)
    exact child_name_bare hc .dottedName rfl (h.child (List.mem_of_mem_filter hchild))
  · rw [child_name_bare hc .dottedName rfl h, foldl_ownTokens_bare hc]
  · rfl

theorem imports_bare (h : t.Each Spelled) : (t.bare content).imports = t.imports := by
  rw [imports, imports, children_bare, List.filterMap_map]
  exact List.filterMap_congr fun c hchild => ofTree?_bare hc (h.child hchild)

theorem classes_bare (t : Tree) : (t.bare content).classes = t.classes.map (bare content) :=
  filter_children_bare hc .classDef t

omit hc in
/-- The names of the bases are looked for in the arguments that are given by position. -/
theorem baseNames_eq (t : Tree) : ClassDef.baseNames t =
    ((t.child? .argList).map fun list =>
      (list.children.filter fun c => c.kind == .arg).filterMap fun c =>
        c.children.head?.bind tailName?).getD [] := by
  unfold ClassDef.baseNames ClassDef.argumentList?
  cases t.child? .argList with
  | none => rfl
  | some list =>
    have hpositional : (list.arguments.filter Argument.isPositional).map Argument.tree =
        list.children.filter fun c => c.kind == .arg := by
      refine (GroupTargets.positional_eq list).trans ?_
      rw [GroupTargets.argumentsOf, children, List.filter_filter]
      exact List.filter_congr fun c _ => Bool.and_comm ..
    simp only [Option.map_some, Option.getD_some, ← hpositional, List.filterMap_map]
    refine List.filterMap_congr fun a ha => ?_
    cases a with
    | positional c => rfl
    | keyword c | starred c | doubleStarred c => simp [Argument.isPositional] at ha

theorem baseNames_bare (h : t.Each Spelled) :
    ClassDef.baseNames (t.bare content) = ClassDef.baseNames t := by
  rw [baseNames_eq, baseNames_eq, child?_bare hc]
  cases hlist : t.child? .argList with
  | none => rfl
  | some list =>
    have hmem : list ∈ t.children := List.mem_of_find?_eq_some hlist
    simp only [Option.map_some, Option.getD_some]
    rw [filter_children_bare hc, List.filterMap_map]
    refine List.filterMap_congr fun c hchild => ?_
    have hc' := (h.child hmem).child (List.mem_of_mem_filter hchild)
    rw [Function.comp_apply, children_bare, List.head?_map]
    cases hhead : c.children.head? with
    | none => rfl
    | some value =>
      have hvalue : value ∈ c.children := List.mem_of_mem_head? hhead
      exact tailName?_bare hc (isNode_of_mem_children hvalue) (hc'.child hvalue)

theorem methods_bare (t : Tree) :
    ClassDef.methods (t.bare content) = (ClassDef.methods t).map (bare content) := by
  unfold ClassDef.methods ClassDef.body?
  rw [child?_bare hc]
  cases t.child? .block with
  | none => rfl
  | some body => exact filter_children_bare hc .functionDef body

omit hc in
theorem child_of_mem_methods {m : Tree} (h : m ∈ ClassDef.methods t) :
    ∃ body ∈ t.children, m ∈ body.children := by
  unfold ClassDef.methods ClassDef.body? at h
  cases hbody : t.child? .block with
  | none => simp [hbody] at h
  | some body =>
    rw [hbody] at h
    exact ⟨body, List.mem_of_find?_eq_some hbody, List.mem_of_mem_filter h⟩

end Tree

namespace Scene

theorem any_map_bare {content : Token → Word} {f : Tree → Bool} {ts : List Tree}
    (h : ∀ t ∈ ts, f (t.bare content) = f t) : (ts.map (Tree.bare content)).any f = ts.any f := by
  rw [List.any_map, Bool.eq_iff_iff, List.any_eq_true, List.any_eq_true]
  exact exists_congr fun t => and_congr_right fun ht => by rw [Function.comp_apply, h t ht]

variable {content : Token → Word} (hc : Token.Telling content) (v : Vocabulary)

include hc

theorem hasEntry_bare {cls : Tree} (h : cls.Each Spelled) :
    hasEntry v (cls.bare content) = hasEntry v cls := by
  rw [hasEntry, hasEntry, Tree.methods_bare hc]
  refine any_map_bare fun m hm => ?_
  obtain ⟨body, hbody, hchild⟩ := Tree.child_of_mem_methods hm
  rw [Tree.name?_bare hc ((h.child hbody).child hchild)]

theorem addClass_bare {cls : Tree} (h : cls.Each Spelled) (known : List Text) :
    addClass v known (cls.bare content) = addClass v known cls := by
  rw [addClass, addClass, Tree.name?_bare hc h, Tree.baseNames_bare hc h]

theorem grow_bare {classes : List Tree} (h : ∀ cls ∈ classes, cls.Each Spelled) (rounds : Nat)
    (known : List Text) :
    grow v (classes.map (Tree.bare content)) rounds known = grow v classes rounds known := by
  have hround (known : List Text) : (classes.map (Tree.bare content)).foldl (addClass v) known =
      classes.foldl (addClass v) known := by
    rw [List.foldl_map]
    exact List.foldl_ext _ _ _ fun known cls hcls => addClass_bare hc v (h cls hcls) known
  induction rounds generalizing known with
  | zero => rfl
  | succ rounds ih =>
    unfold grow
    rw [hround]
    simp only [ih]

theorem scenes_bare {classes : List Tree} (h : ∀ cls ∈ classes, cls.Each Spelled) :
    scenes v (classes.map (Tree.bare content)) = (scenes v classes).map (Tree.bare content) := by
  rw [scenes, scenes, List.filter_map]
  refine congrArg (List.map _) (List.filter_congr fun cls hcls => ?_)
  rw [Function.comp_apply, Tree.name?_bare hc (h cls hcls), names, names, grow_bare hc v h,
    List.length_map]

theorem issuesOf_bare {t : Tree} (h : t.Each Spelled) :
    issuesOf v (t.bare content) = issuesOf v t := by
  have hclasses : ∀ cls ∈ t.classes, cls.Each Spelled := fun cls hcls =>
    h.child (List.mem_of_mem_filter hcls)
  have hentry (classes : List Tree) (hall : ∀ cls ∈ classes, cls.Each Spelled) :
      (classes.map (Tree.bare content)).any (hasEntry v) = classes.any (hasEntry v) :=
    any_map_bare fun cls hcls => hasEntry_bare hc v (hall cls hcls)
  rw [issuesOf, issuesOf, Tree.imports_bare hc h, Tree.classes_bare hc, scenes_bare hc v hclasses]
  cases hempty : (scenes v t.classes).isEmpty with
  | true => simp only [List.isEmpty_map, hempty, if_true, hentry _ hclasses]
  | false =>
    have hscenes := hentry (scenes v t.classes) fun cls hcls =>
      hclasses cls (List.mem_of_mem_filter hcls)
    simp only [List.isEmpty_map, hempty, Bool.false_eq_true, if_false, hscenes]

end Scene

/-! ## What is looked up -/

namespace Outline

mutual

/-- The identifiers of an outline that are not under a name that is bound. -/
def uses : Outline Word → List Word
  | .word w => if w.kind = .ident then [w] else []
  | .node kind os => if kind.isBinding then [] else usesOf os

/-- Those of outlines that stand side by side. -/
def usesOf : List (Outline Word) → List Word
  | [] => []
  | o :: os => o.uses ++ usesOf os

end

theorem usesOf_append (os ps : List (Outline Word)) : usesOf (os ++ ps) = usesOf os ++ usesOf ps := by
  induction os with
  | nil => simp [usesOf]
  | cons o os ih => simp [usesOf, ih]

variable {content : Token → Word}

mutual

theorem usesOf_outline (hc : Token.Telling content) : ∀ t : Tree,
    (usesOf (t.outline content)).map Word.text = t.uses.map Token.text
  | .leaf k => by
    by_cases hk : k.kind = .ident
    · have htrivia : k.isTrivia = false := by simp [Token.isTrivia, hk, Kind.isTrivia]
      have hkind : (content k).kind = .ident := (hc.kind k).trans hk
      have htext := hc.text k (by simp [hk])
      simp [Tree.outline, htrivia, usesOf, uses, hkind, Tree.uses, hk, htext]
    · have hkind : (content k).kind ≠ .ident := by rwa [hc.kind k]
      cases htrivia : k.isTrivia <;>
        simp [Tree.outline, htrivia, usesOf, uses, hkind, Tree.uses, hk]
  | .node kind ts => by
    have hparts := usesOf_outlines hc ts
    cases hbinding : kind.isBinding <;>
      simp [usesOf, uses, Tree.uses, hbinding, hparts]

theorem usesOf_outlines (hc : Token.Telling content) : ∀ ts : List Tree,
    (usesOf (Tree.outlines content ts)).map Word.text = (Tree.usesOf ts).map Token.text
  | [] => by simp [usesOf, Tree.usesOf]
  | t :: ts => by
    rw [Tree.outlines_cons, usesOf_append, List.map_append, usesOf_outline hc t,
      usesOf_outlines hc ts, Tree.usesOf, List.map_append]

end

end Outline

/-! ## Texts of the same outline -/

section Outlines

variable {content : Token → Word} (hc : Token.Telling content) {t u : Text}

include hc

/-- Texts of the same outline have the same stray names. -/
theorem StrayProse.names_eq_of_outline
    (h : (parse t).tree.outline content = (parse u).tree.outline content) :
    names (parse t) = names (parse u) := by
  have huses := Outline.usesOf_outline hc (parse t).tree
  rw [h, Outline.usesOf_outline hc] at huses
  rw [names_eq_uses, names_eq_uses, huses]

/-- Programs of the same outline have the same defects as scenes. -/
theorem Scene.check_eq_of_outline (v : Vocabulary) (hok : (parse t).ok = true)
    (hok' : (parse u).ok = true)
    (h : (parse t).tree.outline content = (parse u).tree.outline content) :
    check v t = check v u := by
  have hbare : (parse t).tree.bare content = (parse u).tree.bare content := by
    obtain ⟨parts, htree⟩ := parse_root t
    obtain ⟨parts', htree'⟩ := parse_root u
    rw [htree, htree', Tree.outline_node, Tree.outline_node] at h
    rw [htree, htree', Tree.bare, Tree.bare, (List.cons.inj h).1]
  have hnone {t : Text} (hok : (parse t).ok = true) : (parse t).firstFault? = none :=
    Fault.first?_eq_none.2 (List.isEmpty_iff.1 hok)
  rw [check, check, inspect, inspect, hnone hok, hnone hok']
  dsimp only
  rw [← issuesOf_bare hc v (spelled_parse t), ← issuesOf_bare hc v (spelled_parse u), hbare]

end Outlines

end SceneGate
