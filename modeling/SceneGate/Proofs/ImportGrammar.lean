/-
How imports are written. The words of an import statement are told without the reader
(`Import.IsStatement`), with what the statement brings in; and words that are written so are
read as one statement, whose view tells the same (`Import.IsStatement.takes`). What is written
behind `from` are dots and a path, or only one of them, or neither: that nothing stands there
is no fault.
-/
import SceneGate.Proofs.OutlineViews
import SceneGate.Proofs.WordReading
import Mathlib.Algebra.GroupWithZero.Nat

namespace SceneGate

open Form

namespace Import

/-! ## Words of imports -/

/-- A path: names with dots between them. -/
inductive IsPath : List Word → Prop
  | name {x : Word} : x.kind = .ident → IsPath [x]
  | dotted {x d : Word} {ws : List Word} : x.kind = .ident → d.kind = .dot → IsPath ws →
      IsPath (x :: d :: ws)

/-- `as x`, or nothing. -/
inductive IsRename : List Word → Prop
  | nothing : IsRename []
  | named {a x : Word} : a.kind = .asKw → x.kind = .ident → IsRename [a, x]

/-- A path, perhaps renamed, and how the path is written. -/
def IsModule (ws : List Word) (m : Text) : Prop :=
  ∃ path rename, ws = path ++ rename ∧ IsPath path ∧ IsRename rename ∧ m = Word.spell path

/-- A name, perhaps renamed. -/
def IsName (ws : List Word) (n : Text) : Prop :=
  ∃ x rename, ws = x :: rename ∧ x.kind = .ident ∧ IsRename rename ∧ n = x.text

/-- Items with commas between them, and what they are. -/
inductive Separated (Item : List Word → Text → Prop) : List Word → List Text → Prop
  | last {ws : List Word} {m : Text} : Item ws m → Separated Item ws [m]
  | more {ws vs : List Word} {c : Word} {m : Text} {ms : List Text} : Item ws m →
      c.kind = .comma → Separated Item vs ms → Separated Item (ws ++ c :: vs) (m :: ms)

/-- What is imported from a module: all, or names, perhaps in brackets and then perhaps with a
comma behind the last. -/
inductive AreImported : List Word → Prop
  | all {w : Word} : w.kind = .star → AreImported [w]
  | names {ws : List Word} {ns : List Text} : Separated IsName ws ns → AreImported ws
  | bracketed {o c : Word} {ws : List Word} {ns : List Text} : o.kind = .lParen →
      Separated IsName ws ns → c.kind = .rParen → AreImported (o :: (ws ++ [c]))
  | trailing {o d c : Word} {ws : List Word} {ns : List Text} : o.kind = .lParen →
      Separated IsName ws ns → d.kind = .comma → c.kind = .rParen →
      AreImported (o :: (ws ++ [d, c]))

/-- Where names are imported from: the words of the path, if there is one, and how it is
written. -/
inductive IsSource : List Word → Option Text → Prop
  | none : IsSource [] none
  | path {ws : List Word} : IsPath ws → IsSource ws (some (Word.spell ws))

/-- An import statement. -/
inductive IsStatement : List Word → Import → Prop
  | plain {k : Word} {ws : List Word} {ms : List Text} : k.kind = .importKw →
      Separated IsModule ws ms → IsStatement (k :: ws) (.plain ms)
  | fromModule {k i : Word} {ds path ws : List Word} {m : Option Text} : k.kind = .fromKw →
      (∀ d ∈ ds, d.kind ∈ [.dot, .ellipsis]) → IsSource path m → i.kind = .importKw →
      AreImported ws → IsStatement (k :: (ds ++ (path ++ i :: ws)))
        (.fromModule m (ds.map fun d => dots d.kind).sum)

variable {w x c : Word} {ws vs vs' path rename : List Word} {m : Text} {ms : List Text} {d : Nat}

/-! ## Reading paths and names -/

/-- Behind its first name a path is read to its end. -/
theorem IsPath.makes (h : IsPath path) (hend : nextKind vs ≠ .dot) :
    ∃ x more, path = x :: more ∧ x.kind = .ident ∧ ∀ b : List (Outline Word),
      (Form.loop (.nextTwo .dot .ident) (.seq .take (eat .ident))).Makes b (more ++ vs)
        ((more.map Outline.word).reverse ++ b) vs := by
  induction h with
  | @name x hx => exact ⟨x, [], rfl, hx, fun b => .loopEnd (answers_nextTwo_no (.inl hend))⟩
  | @dotted x d ws hx hd _ ih =>
    obtain ⟨y, more, rfl, hy, hmakes⟩ := ih
    refine ⟨x, d :: y :: more, rfl, hx, fun b => ?_⟩
    have htest : (Form.nextTwo .dot .ident).Answers b (d :: y :: more ++ vs) true b
        (d :: y :: more ++ vs) := by
      have htwo : (Form.nextTwo .dot .ident).Answers b (d :: y :: more ++ vs) _ b _ :=
        answers_nextTwo
      simpa [hd, hy] using htwo
    have hmore := Makes.loopAgain htest (.seq makes_take (makes_eat hy))
      (hmakes (.word y :: .word d :: b))
    simpa using hmore

theorem IsPath.takes (h : IsPath path) (hend : nextKind vs ≠ .dot) :
    Phrase.dottedName.Takes (path ++ vs) (.node .dottedName (path.map .word)) vs := by
  obtain ⟨x, more, rfl, hx, hmakes⟩ := h.makes hend
  refine fun b => .node _ (.cond (.cond (answers_next_yes (by simp [hx])) answers_take) ?_)
  simpa using hmakes [.word x]

theorem IsRename.makes (h : IsRename rename) (hend : nextKind vs ≠ .asKw) :
    ∃ os : List (Outline Word), ∀ b, asName.Makes b (rename ++ vs) (os.reverse ++ b) vs := by
  cases h with
  | nothing => exact ⟨[], fun b => .cond (answers_eat_no hend) makes_skip⟩
  | @named a x ha hx =>
    refine ⟨[.word a, .node .name [.word x]], fun b => .cond (answers_eat ha) (.call ?_)⟩
    exact .cond (answers_next_yes (by simp [hx])) (.node [.word x] makes_take)

theorem IsPath.kinds (h : IsPath path) : ∀ w ∈ path, w.kind ∈ [.ident, .dot] := by
  induction h with
  | name hx => simp [hx]
  | dotted hx hd _ ih => simpa [hx, hd] using ih

theorem IsRename.kinds (h : IsRename rename) : ∀ w ∈ rename, w.kind ∈ [.asKw, .ident] := by
  cases h with
  | nothing => simp
  | named ha hx => simp [ha, hx]

/-! ## What the view of an import finds -/

/-- What an item of an import is named by: the first node of the kind in it. -/
def item? (kind : Kind) (t : Tree) : Option Text :=
  if t.isNode && t.kind == .importAlias then (t.child? kind).map Tree.bareText else none

/-- Words and the items of an import. -/
def IsItem (o : Outline Word) : Prop :=
  (∃ w : Word, o = .word w ∧ w.kind ∈ [.comma, .star, .lParen, .rParen]) ∨
    ∃ ps, o = .node .importAlias ps

/-- The text of an outline is spelled by its words. -/
theorem bareText_tree (o : Outline Word) : o.tree.bareText = Word.spell (Word.unspaced o.words) := by
  rw [← Outline.words_tokens, ← Layout.words_significant, Word.spell, List.flatMap_map]
  rfl

theorem wordsOf_map_word (ws : List Word) : Outline.wordsOf (ws.map .word) = ws := by
  induction ws with
  | nil => rfl
  | cons w ws ih => simp [ih]

theorem bareText_words (k : Kind) (h : ∀ w ∈ ws, w.kind.isTrivia = false) :
    (Outline.node k (ws.map .word)).tree.bareText = Word.spell ws := by
  rw [bareText_tree, Outline.words_node, wordsOf_map_word]
  exact congrArg _ (List.filter_eq_self.2 fun w hw => by simp [h w hw])

/-- An item is named by the words of the first node in it. -/
theorem item?_node (k : Kind) (os : List (Outline Word)) {ws : List Word}
    (h : ∀ w ∈ ws, w.kind.isTrivia = false) :
    item? k (Outline.node .importAlias (.node k (ws.map .word) :: os)).tree =
      some (Word.spell ws) := by
  have hfirst : (Outline.node .importAlias (.node k (ws.map .word) :: os)).tree.child? k =
      some (Outline.node k (ws.map .word)).tree := by
    simp [Tree.child?, Outline.tree, Outline.trees, Tree.children, Tree.parts, Tree.isNode, Tree.kind]
  rw [item?, hfirst, Option.map_some, bareText_words k h]
  rfl

theorem ofTree?_importStmt (ts : List Tree) :
    ofTree? (.node .importStmt ts) = some (.plain (ts.filterMap (item? .dottedName))) := by
  simp only [ofTree?, Tree.kind, Tree.children, Tree.parts, List.filter_filter, List.filterMap_filter]
  refine congrArg (some ∘ Import.plain) (List.filterMap_congr fun t _ => ?_)
  rw [Bool.and_comm]
  rfl

/-- The dots that stand in a row of outlines. -/
def dotsOf (os : List (Outline Word)) : Nat :=
  ((Tree.node .importFromStmt (os.map Outline.tree)).ownTokens.map fun k => dots k.kind).sum

/-- The first path in a row of outlines. -/
def pathOf (os : List (Outline Word)) : Option Text :=
  ((Tree.node .importFromStmt (os.map Outline.tree)).child? .dottedName).map Tree.bareText

theorem ofTree?_importFromStmt (os : List (Outline Word)) :
    ofTree? (Outline.node .importFromStmt os).tree = some (.fromModule (pathOf os) (dotsOf os)) := by
  have hfold (ks : List Token) (n : Nat) : ks.foldl (fun level k => level + dots k.kind) n =
      n + (ks.map fun k => dots k.kind).sum := by
    induction ks generalizing n with
    | nil => rfl
    | cons k ks ih => rw [List.foldl_cons, ih, List.map_cons, List.sum_cons, Nat.add_assoc]
  rw [Outline.tree, Outline.trees_eq_map]
  simp only [ofTree?, Tree.kind, hfold, Nat.zero_add]
  rfl

theorem dotsOf_append (os ps : List (Outline Word)) : dotsOf (os ++ ps) = dotsOf os + dotsOf ps := by
  simp [dotsOf, Tree.ownTokens, Tree.parts]

theorem dotsOf_words (ws : List Word) :
    dotsOf (ws.map .word) = (ws.map fun w => dots w.kind).sum := by
  simp [dotsOf, Tree.ownTokens, Tree.parts, List.filterMap_map, Function.comp_def, Outline.tree,
    Word.token]

theorem pathOf_append {os ps : List (Outline Word)} (h : pathOf ps = none) :
    pathOf (os ++ ps) = pathOf os := by
  rw [pathOf, Option.map_eq_none_iff] at h
  simp only [pathOf, Tree.child?, Tree.children, Tree.parts, List.map_append, List.filter_append,
    List.find?_append] at h ⊢
  rw [h, Option.or_none]

theorem pathOf_words_append (ws : List Word) (os : List (Outline Word)) :
    pathOf (ws.map .word ++ os) = pathOf os := by
  induction ws with
  | nil => rfl
  | cons w ws ih => exact ih

/-- Items have no dots and no path among them. -/
theorem IsItem.nothing {os : List (Outline Word)} (h : ∀ o ∈ os, IsItem o) :
    dotsOf os = 0 ∧ pathOf os = none := by
  induction os with
  | nil => exact ⟨rfl, rfl⟩
  | cons o os ih =>
    obtain ⟨ho, hos⟩ := List.forall_mem_cons.1 h
    obtain ⟨hdots, hpath⟩ := ih hos
    rw [← List.singleton_append, dotsOf_append, hdots, pathOf_append hpath]
    rcases ho with ⟨w, rfl, hw⟩ | ⟨ps, rfl⟩
    · simp only [List.mem_cons, List.not_mem_nil, or_false] at hw
      refine ⟨?_, rfl⟩
      rcases hw with hw | hw | hw | hw <;> simp [dotsOf, Tree.ownTokens, Tree.parts, Outline.tree,
        Word.token, hw, dots]
    · exact ⟨rfl, rfl⟩

/-! ## Reading items -/

/-- Behind a comma a list goes on. -/
theorem makes_commaAgain {again item : Form} {b b' : List (Outline Word)} (hc : c.kind = .comma)
    (hagain : again.Answers (.word c :: b) ws true (.word c :: b) ws)
    (h : (commaList again item).Makes (.word c :: b) ws b' vs) :
    (Form.loop (both (eat .comma) again) item).Makes b (c :: ws) b' vs := by
  obtain ⟨a, h⟩ := h
  obtain ⟨_, s₀, hitem, hloop⟩ := h.of_seq
  exact ⟨a, Form.Reads.loopAgain (Answers.cond (answers_eat hc) hagain) hitem hloop⟩

section Items

variable {Item : List Word → Text → Prop}

/-- Items begin with a name. -/
def Named (Item : List Word → Text → Prop) : Prop :=
  ∀ {ws m}, Item ws m → ∃ x more, ws = x :: more ∧ x.kind = .ident

theorem Separated.nextKind (h : Separated Item ws ms) (hnamed : Named Item) (vs : List Word) :
    SceneGate.nextKind (ws ++ vs) = .ident := by
  cases h with
  | last h =>
    obtain ⟨x, more, rfl, hx⟩ := hnamed h
    exact hx
  | more h =>
    obtain ⟨x, more, rfl, hx⟩ := hnamed h
    exact hx

/-- Items with commas between them are read one after the other, up to where the list ends. -/
theorem Separated.makes {p : Phrase} {again : Form} {kind : Kind} (h : Separated Item ws ms)
    (vs : List Word) (es : List (Outline Word)) (hnamed : Named Item)
    (hitem : ∀ {ws m}, Item ws m → ∀ vs, SceneGate.nextKind vs ∉ [.dot, .asKw] → ∃ ps,
      p.Takes (ws ++ vs) (.node .importAlias ps) vs ∧
        item? kind (Outline.node .importAlias ps).tree = some m)
    (hagain : ∀ {b ws}, SceneGate.nextKind ws = .ident → again.Answers b ws true b ws)
    (hvs : SceneGate.nextKind vs ∉ [.dot, .asKw])
    (hend : ∀ b, (Form.loop (both (eat .comma) again) (.call p)).Makes b vs (es ++ b) vs') :
    ∃ os : List (Outline Word), (∀ o ∈ os, IsItem o) ∧
      os.filterMap (fun o => item? kind o.tree) = ms ∧
      ∀ b, (commaList again (.call p)).Makes b (ws ++ vs) (es ++ (os.reverse ++ b)) vs' := by
  induction h with
  | last h =>
    obtain ⟨ps, htakes, hview⟩ := hitem h vs hvs
    exact ⟨[.node .importAlias ps], by simp [IsItem], by simp [hview],
      fun b => .callThen (htakes) (by simpa using hend (.node .importAlias ps :: b))⟩
  | @more ws us c m ms h hc hmore ih =>
    obtain ⟨os, hos, hviews, hmakes⟩ := ih
    obtain ⟨ps, htakes, hview⟩ := hitem h (c :: (us ++ vs)) (by simp [hc])
    have hword : item? kind (Outline.word c).tree = none := rfl
    refine ⟨.node .importAlias ps :: .word c :: os, ?_, by simp [hview, hword, hviews], fun b => ?_⟩
    · simpa [IsItem, hc] using hos
    · have hagain := makes_commaAgain hc (hagain (hmore.nextKind hnamed vs))
        (hmakes (.word c :: .node .importAlias ps :: b))
      simpa [commaList] using Makes.callThen htakes hagain

end Items

theorem named_isModule : Named IsModule := by
  rintro _ _ ⟨path, rename, rfl, hpath, -, -⟩
  cases hpath with
  | name hx => exact ⟨_, _, rfl, hx⟩
  | dotted hx => exact ⟨_, _, rfl, hx⟩

theorem named_isName : Named IsName := by
  rintro _ _ ⟨x, rename, rfl, hx, -, -⟩
  exact ⟨x, rename, rfl, hx⟩

/-- The kinds of words in paths are no trivia. -/
theorem IsPath.not_trivia (h : IsPath path) : ∀ w ∈ path, w.kind.isTrivia = false := by
  intro w hw
  have hkind := h.kinds w hw
  simp only [List.mem_cons, List.not_mem_nil, or_false] at hkind
  rcases hkind with hkind | hkind <;> rw [hkind] <;> rfl

theorem IsRename.nextKind (h : IsRename rename) (hvs : SceneGate.nextKind vs ≠ .dot) :
    SceneGate.nextKind (rename ++ vs) ≠ .dot := by
  cases h with
  | nothing => exact hvs
  | named ha => simp [ha]

theorem IsModule.takes (h : IsModule ws m) (vs : List Word) (hvs : nextKind vs ∉ [.dot, .asKw]) : ∃ ps,
    Phrase.importAlias.Takes (ws ++ vs) (.node .importAlias ps) vs ∧
      item? .dottedName (Outline.node .importAlias ps).tree = some m := by
  obtain ⟨path, rename, rfl, hpath, hrename, rfl⟩ := h
  simp only [List.mem_cons, List.not_mem_nil, or_false, not_or] at hvs
  obtain ⟨os, hmakes⟩ := hrename.makes hvs.2
  have htakes := hpath.takes (hrename.nextKind hvs.1)
  refine ⟨.node .dottedName (path.map .word) :: os, fun b => ?_, item?_node _ os hpath.not_trivia⟩
  rw [List.append_assoc]
  exact .node _ (.callThen htakes (by simpa using hmakes [.node .dottedName (path.map .word)]))

theorem IsName.takes (h : IsName ws m) (vs : List Word) (hvs : nextKind vs ∉ [.dot, .asKw]) : ∃ ps,
    Phrase.importedName.Takes (ws ++ vs) (.node .importAlias ps) vs ∧
      item? .name (Outline.node .importAlias ps).tree = some m := by
  obtain ⟨x, rename, rfl, hx, hrename, rfl⟩ := h
  simp only [List.mem_cons, List.not_mem_nil, or_false, not_or] at hvs
  obtain ⟨os, hmakes⟩ := hrename.makes hvs.2
  have htakes : Phrase.name.Takes (x :: (rename ++ vs)) (.node .name [.word x]) (rename ++ vs) :=
    fun b => .cond (answers_next_yes (by simp [hx])) (.node [.word x] makes_take)
  have hword : ∀ w ∈ [x], w.kind.isTrivia = false := by simp [hx, Kind.isTrivia]
  refine ⟨.node .name [.word x] :: os, fun b => ?_, by simpa using item?_node .name os hword⟩
  exact .node _ (.callThen htakes (by simpa using hmakes [.node .name [.word x]]))

/-! ## Reading statements -/

/-- Items are read up to a word that is no comma. -/
theorem makes_noComma {again item : Form} (h : nextKind vs ≠ .comma) (b : List (Outline Word)) :
    (Form.loop (both (eat .comma) again) item).Makes b vs b vs :=
  .loopEnd (.cond (answers_eat_no h) answers_answer)

theorem AreImported.makes (h : AreImported ws) (hvs : nextKind vs ∈ [.newline, .semicolon]) :
    ∃ os : List (Outline Word), (∀ o ∈ os, IsItem o) ∧ ∀ b,
      (select (commaList skip (.call .importedName)) [
        (eat .star, skip),
        (.next [.lParen],
          .enclosed .rParen (commaList (nextNot [.rParen]) (.call .importedName)))]).Makes b
        (ws ++ vs) (os.reverse ++ b) vs := by
  have hbracket {b : List (Outline Word)} {ws : List Word} (h : nextKind ws = .ident) :
      (nextNot [.rParen]).Answers b ws true b ws := answers_nextNot_yes (by simp [h])
  cases h with
  | @all w hw =>
    exact ⟨[.word w], by simp [IsItem, hw], fun b => .cond (answers_eat hw) makes_skip⟩
  | names h =>
    have hends : ∀ k ∈ [Kind.newline, .semicolon], k ∉ [.dot, .asKw] ∧ k ≠ .comma := by decide
    have hfirst := h.nextKind named_isName vs
    obtain ⟨os, hos, -, hmakes⟩ := h.makes vs [] named_isName IsName.takes
      (fun _ => answers_answer) (hends _ hvs).1 (makes_noComma (hends _ hvs).2)
    exact ⟨os, hos, fun b => .cond (answers_eat_no (by simp [hfirst]))
      (.cond (answers_next_no (by simp [hfirst])) (hmakes b))⟩
  | @bracketed o c ws ns ho h hc =>
    obtain ⟨os, hos, -, hmakes⟩ := h.makes (c :: vs) [] named_isName IsName.takes hbracket
      (by simp [hc]) (makes_noComma (by simp [hc]))
    refine ⟨.word o :: (os ++ [.word c]), by simpa [IsItem, ho, hc, or_imp, forall_and] using hos, fun b => ?_⟩
    have hall := Makes.enclosed (v := o) hc (hmakes (.word o :: b))
    refine .cond (answers_eat_no (by simp [ho])) (.cond (answers_next_yes (by simp [ho])) ?_)
    simpa using hall
  | @trailing o d c ws ns ho h hd hc =>
    obtain ⟨os, hos, -, hmakes⟩ := h.makes (d :: c :: vs) [.word d] named_isName
      IsName.takes hbracket (by simp [hd])
      fun b => .loopEnd (.cond (answers_eat hd) (answers_nextNot_no (by simp [hc])))
    refine ⟨.word o :: (os ++ [.word d, .word c]), by simpa [IsItem, ho, hc, hd, or_imp, forall_and] using hos,
      fun b => ?_⟩
    have hall := Makes.enclosed (v := o) hc (hmakes (.word o :: b))
    refine .cond (answers_eat_no (by simp [ho])) (.cond (answers_next_yes (by simp [ho])) ?_)
    simpa using hall

theorem IsSource.makes {m : Option Text} (h : IsSource path m) (vs : List Word)
    (hvs : nextKind vs = .importKw) :
    ∃ os, pathOf os = m ∧ dotsOf os = 0 ∧ ∀ b,
      (opt (.next [.ident]) (.call .dottedName)).Makes b (path ++ vs) (os.reverse ++ b) vs := by
  cases h with
  | none => exact ⟨[], rfl, rfl, fun b => makes_opt_no (by simp [hvs])⟩
  | path h =>
    refine ⟨[.node .dottedName (path.map .word)], ?_, rfl, fun b => ?_⟩
    · exact congrArg some (bareText_words .dottedName h.not_trivia)
    · refine .cond (answers_next_yes ?_) (.call (h.takes (by simp [hvs]) b))
      cases h with
      | name hx => simp [hx]
      | dotted hx => simp [hx]

/-- The dots in front of a path are read one after the other. -/
theorem makes_dots {ds : List Word} (hds : ∀ d ∈ ds, d.kind ∈ [.dot, .ellipsis])
    (hvs : nextKind vs ∉ [.dot, .ellipsis]) (b : List (Outline Word)) :
    (Form.loop (.next [.dot, .ellipsis]) .take).Makes b (ds ++ vs)
      ((ds.map .word).reverse ++ b) vs := by
  induction ds generalizing b with
  | nil => exact .loopEnd (answers_next_no hvs)
  | cons d ds ih =>
    obtain ⟨hd, hds⟩ := List.forall_mem_cons.1 hds
    simpa using Makes.loopAgain (answers_next_yes hd) makes_take (ih hds (.word d :: b))

theorem IsSource.nextKind {m : Option Text} (h : IsSource path m) (vs : List Word) :
    SceneGate.nextKind (path ++ vs) ∈ [.ident, SceneGate.nextKind vs] := by
  cases h with
  | none => simp
  | path h =>
    cases h with
    | name hx => simp [hx]
    | dotted hx => simp [hx]

/-- The words of an import statement are read as one statement, and its view tells what it
brings in. -/
theorem IsStatement.takes {i : Import} (h : IsStatement ws i) (vs : List Word)
    (hvs : nextKind vs ∈ [.newline, .semicolon]) :
    ∃ k ps, Phrase.smallStatement.Takes (ws ++ vs) (.node k ps) vs ∧
      ofTree? (Outline.node k ps).tree = some i := by
  have hends : ∀ k ∈ [Kind.newline, .semicolon], k ∉ [.dot, .asKw] ∧ k ≠ .comma := by decide
  cases h with
  | @plain k ws ms hk h =>
    obtain ⟨os, -, hviews, hmakes⟩ := h.makes vs [] named_isModule IsModule.takes
      (fun _ => answers_answer) (hends _ hvs).1 (makes_noComma (hends _ hvs).2)
    refine ⟨.importStmt, .word k :: os, fun b => ?_, ?_⟩
    · have hform := Makes.node (k := .importStmt) (b := b) (.word k :: os)
        (.seq makes_take (by simpa using hmakes [.word k]))
      exact makes_chosen hform (by rw [List.cons_append, nextKind_cons, hk]; rfl)
    · have hview := ofTree?_importStmt ((Outline.word k :: os).map Outline.tree)
      have hword : item? .dottedName (Outline.word k).tree = none := rfl
      rw [Outline.tree, Outline.trees_eq_map, hview, List.map_cons, List.filterMap_cons_none hword,
        List.filterMap_map]
      exact congrArg (some ∘ Import.plain) hviews
  | @fromModule k i ds path ws m hk hds hsource hi h =>
    obtain ⟨src, hpath, hdots, hsrc⟩ := hsource.makes (i :: (ws ++ vs)) hi
    obtain ⟨os, hos, hmakes⟩ := h.makes hvs
    obtain ⟨hnodots, hnopath⟩ := IsItem.nothing hos
    refine ⟨.importFromStmt, .word k :: (ds.map .word ++ (src ++ .word i :: os)), fun b => ?_, ?_⟩
    · have hnodot : nextKind (path ++ i :: (ws ++ vs)) ∉ [.dot, .ellipsis] := by
        have hkinds : ∀ k ∈ [Kind.ident, .importKw], k ∉ [.dot, .ellipsis] := by decide
        exact hkinds _ (by simpa [hi] using hsource.nextKind (i :: (ws ++ vs)))
      have hnames (b : List (Outline Word)) : (opt (expect .importKw) _).Makes b (i :: (ws ++ vs))
          (os.reverse ++ .word i :: b) vs :=
        .cond (.cond (answers_next_yes (by simp [hi])) answers_take) (hmakes _)
      have hbody := Makes.seq makes_take (.seq (makes_dots hds hnodot [.word k])
        (.seq (hsrc _) (hnames _)))
      have hassoc : k :: (ds ++ (path ++ i :: ws)) ++ vs = k :: (ds ++ (path ++ i :: (ws ++ vs))) := by
        simp
      have hfrom : Phrase.importFrom.form.Makes b (k :: (ds ++ (path ++ i :: (ws ++ vs)))) _ vs :=
        .node (.word k :: (ds.map .word ++ (src ++ .word i :: os)))
          (by simpa [seqs, select] using hbody)
      rw [hassoc]
      exact makes_chosen (.call hfrom) (by rw [nextKind_cons, hk]; rfl)
    · have hsplit : .word k :: (ds.map .word ++ (src ++ .word i :: os)) =
          (k :: ds).map Outline.word ++ (src ++ ([i].map Outline.word ++ os)) := by simp
      rw [ofTree?_importFromStmt, hsplit, dotsOf_append, dotsOf_append, dotsOf_append, dotsOf_words,
        dotsOf_words, hdots, hnodots, pathOf_words_append,
        pathOf_append (by rw [pathOf_words_append, hnopath]), hpath]
      simp [hk, hi, dots]

end Import

end SceneGate
