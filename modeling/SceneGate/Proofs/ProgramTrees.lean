/-
What the tree of a program is like. Each node is made of what its kind tells, begins and
ends with more than trivia, and its brackets pair off (`ProgramNode`,
`inProgram_parse`). So a call is what is called, trivia, and a list of arguments, of which
each stands behind the bracket or a comma (`ProgramNode.call`, `ProgramNode.arguments_list`).
-/
import SceneGate.Proofs.ArgumentLists
import SceneGate.Proofs.Molds
import SceneGate.Proofs.Rewording

namespace SceneGate

/-! ## Lists of parts -/

namespace Tree

variable {ts us : List Tree} {a b : Tree}

@[simp] theorem solid_nil : solid [] = [] := rfl

theorem solid_cons (h : a.isTrivia = false) : solid (a :: ts) = a :: solid ts := by
  simp [solid, h]

theorem solid_concat (h : b.isTrivia = false) : solid (ts ++ [b]) = solid ts ++ [b] := by
  simp [solid, h]

theorem solid_eq_nil (h : solid ts = []) :
    ∃ ks : List Token, ts = ks.map leaf ∧ ∀ k ∈ ks, k.isTrivia = true := by
  induction ts with
  | nil => exact ⟨[], rfl, by simp⟩
  | cons t ts ih =>
    cases ht : t.isTrivia with
    | false => rw [solid_cons ht] at h; cases h
    | true =>
      have hrest : solid ts = [] := by simpa [solid, ht] using h
      obtain ⟨ks, rfl, hks⟩ := ih hrest
      cases t with
      | node kind us => cases ht
      | leaf k => exact ⟨k :: ks, rfl, List.forall_mem_cons.2 ⟨ht, hks⟩⟩

/-- Parts that have one that is no trivia are that one. -/
theorem Trim.eq_singleton (h : Trim ts) (hs : solid ts = [a]) : ts = [a] := by
  obtain ⟨t, ts, rfl⟩ := List.exists_cons_of_ne_nil h.ne
  rw [solid_cons (h.first t rfl), List.cons.injEq] at hs
  obtain ⟨rfl, hrest⟩ := hs
  rcases List.eq_nil_or_concat' ts with rfl | ⟨front, last, rfl⟩
  · rfl
  · have hlast := h.last last (by simp [List.getLast?_cons])
    rw [solid_concat hlast] at hrest
    simp at hrest

/-- The first and the last part, of more than one, are no trivia. -/
theorem Trim.eq_append (h : Trim ts) (hs : solid ts = a :: us ++ [b]) :
    ∃ mid, ts = a :: mid ++ [b] ∧ solid mid = us := by
  obtain ⟨t, ts, rfl⟩ := List.exists_cons_of_ne_nil h.ne
  rw [solid_cons (h.first t rfl), List.cons_append, List.cons.injEq] at hs
  obtain ⟨rfl, hrest⟩ := hs
  rcases List.eq_nil_or_concat' ts with rfl | ⟨mid, last, rfl⟩
  · simp at hrest
  · have hlast := h.last last (by simp [List.getLast?_cons])
    rw [solid_concat hlast] at hrest
    obtain ⟨hmid, hb⟩ := List.append_inj' hrest rfl
    obtain rfl : last = b := by simpa using hb
    exact ⟨mid, rfl, hmid⟩

/-- What is no trivia has an outline. -/
theorem outline_of_solid {t : Tree} (h : t.isTrivia = false) :
    ∃ o, outline Token.word t = [o] ∧ ∀ w, o = .word w → ∃ k, t = .leaf k ∧ k.word = w := by
  cases t with
  | leaf k =>
    refine ⟨.word k.word, outline_leaf _ h, fun w hw => ⟨k, rfl, ?_⟩⟩
    cases hw
    rfl
  | node kind ts => exact ⟨_, outline_node .., fun w hw => by cases hw⟩

end Tree

/-! ## Nodes -/

open SceneGate.Tree

/-- What a node of a program is like, but for the root. -/
structure ProgramNode (kind : Kind) (ts : List Tree) : Prop where
  trim : Trim ts
  mold : kind.mold.Tells ts
  holds : HoldsArguments kind ts
  fine : Fine kind ts

namespace ProgramNode

variable {kind : Kind} {ts : List Tree}

/-- A call: what is called, trivia, and the list of arguments. -/
theorem call (h : ProgramNode .callExpr ts) :
    ∃ (callee : Tree) (gap : List Token) (list : Tree), ts = callee :: gap.map leaf ++ [list] ∧
      (∀ k ∈ gap, k.isTrivia = true) ∧ callee.isNode = true ∧ callee.kind ∉ [.argList, .name] ∧
      list.isNode = true ∧ list.kind = .argList := by
  obtain ⟨callee, list, hts, hcallee, hkind, hlist, hlistKind⟩ := Mold.tells_call h.mold
  obtain ⟨mid, rfl, hmid⟩ := h.trim.eq_append (show solid ts = callee :: [] ++ [list] from hts)
  obtain ⟨gap, rfl, hgap⟩ := solid_eq_nil hmid
  exact ⟨callee, gap, list, rfl, hgap, hcallee, hkind, hlist, hlistKind⟩

/-- An attribute: what it is taken of, words, and a name. -/
theorem attributeOf (h : ProgramNode .attributeExpr ts) :
    ∃ operand mid name, ts = operand :: mid ++ [name] ∧ operand.kind ≠ .name ∧
      (∀ t ∈ mid, t.isNode = false) ∧ name.isNode = true ∧ name.kind = .name := by
  obtain ⟨operand, dot, name, hts, -, hkind, hname, hnameKind⟩ := Mold.tells_attribute h.mold
  obtain ⟨mid, rfl, hmid⟩ := h.trim.eq_append
    (show solid ts = operand :: [.leaf dot] ++ [name] from hts)
  refine ⟨operand, mid, name, rfl, fun he => hkind (by simp [he]), fun t ht => ?_, hname, hnameKind⟩
  cases t with
  | leaf => rfl
  | node kind ts =>
    have : Tree.node kind ts ∈ solid mid := List.mem_filter.2 ⟨ht, rfl⟩
    simp [hmid] at this

/-- A name is an identifier. -/
theorem name (h : ProgramNode kind ts) (hkind : kind = .name ∨ kind = .nameRef) :
    ∃ k, ts = [.leaf k] ∧ k.kind = .ident := by
  have hmold : kind.mold = .parts [.word (.only [.ident])] false := by
    rcases hkind with rfl | rfl <;> rfl
  have hfits := Mold.tells_exactly (hmold ▸ h.mold)
  obtain ⟨t, us, ht, hnone, hus⟩ := List.forall₂_cons_left_iff.1 hfits
  obtain rfl := List.forall₂_nil_left_iff.1 hnone
  obtain ⟨k, rfl, hk⟩ := Part.fits_word.1 ht
  exact ⟨k, h.trim.eq_singleton hus, by simpa using hk⟩

/-- A list of arguments: between its brackets stand arguments. -/
theorem argumentList (h : ProgramNode .argList ts) :
    ∃ o mid c, ts = .leaf o :: mid ++ [.leaf c] ∧ o.kind = .lParen ∧ c.kind = .rParen ∧
      Outline.RemainArguments false (outlines Token.word mid) := by
  obtain ⟨v, os, w, hout, hw, hos⟩ := h.holds rfl
  obtain ⟨_, vs, hus, hfits, -⟩ := h.mold
  obtain ⟨t, _, ht, hnone, rfl⟩ := List.forall₂_cons_left_iff.1 hfits
  obtain rfl := List.forall₂_nil_left_iff.1 hnone
  obtain ⟨o, rfl, ho⟩ := Part.fits_word.1 ht
  have ho : o.kind = .lParen := by simpa using ho
  obtain ⟨t, ts, rfl⟩ := List.exists_cons_of_ne_nil h.trim.ne
  rw [solid_cons (h.trim.first t rfl), List.cons_append, List.cons.injEq] at hus
  obtain ⟨rfl, -⟩ := hus
  rw [outlines_cons, outline_leaf _ (by simp [Token.isTrivia, ho, Kind.isTrivia]),
    List.singleton_append, List.cons.injEq] at hout
  rcases List.eq_nil_or_concat' ts with rfl | ⟨mid, last, rfl⟩
  · simp at hout
  · obtain ⟨x, hx, hword⟩ := outline_of_solid (h.trim.last last (by simp [List.getLast?_cons]))
    rw [outlines_append, outlines_cons, hx, outlines_nil, List.append_nil] at hout
    obtain ⟨hmid, hlast⟩ := List.append_inj' hout.2 rfl
    obtain ⟨c, rfl, rfl⟩ := hword w (by simpa using hlast)
    exact ⟨o, mid, c, rfl, ho, hw, hmid ▸ hos⟩

end ProgramNode

/-! ## Arguments -/

/-- The kinds of nodes that arguments are. -/
def Kind.arguments : List Kind := [.arg, .keywordArg, .starredArg, .doubleStarredArg]

namespace Outline

variable {after : Bool} {os as bs ps : List (Outline Word)} {o : Outline Word} {kind : Kind}

theorem IsArgument.node {next : Bool} (h : IsArgument after o next) :
    ∃ kind ps, o = .node kind ps ∧ kind ∈ Kind.arguments := by
  cases h <;> exact ⟨_, _, rfl, by decide⟩

theorem AreArguments.mem (h : AreArguments after os) (ho : o ∈ os) :
    (∃ w, o = .word w ∧ w.kind = .comma) ∨ ∃ kind ps, o = .node kind ps ∧ kind ∈ Kind.arguments := by
  induction h with
  | none => cases ho
  | last h =>
    rw [List.mem_singleton.1 ho]
    exact .inr h.node
  | @more _ _ _ w _ h hw _ ih =>
    rcases List.mem_cons.1 ho with rfl | ho
    · exact .inr h.node
    · rcases List.mem_cons.1 ho with rfl | ho
      · exact .inl ⟨w, rfl, hw⟩
      · exact ih ho

/-- Behind an argument stands nothing or a comma. -/
theorem AreArguments.behind (h : AreArguments after os) (ho : os = as ++ .node kind ps :: bs) :
    ∀ p ∈ bs.head?, ∃ w, p = .word w ∧ w.kind = .comma := by
  induction h generalizing as with
  | none => simp at ho
  | @last _ _ o h =>
    cases as with
    | nil =>
      obtain ⟨-, rfl⟩ := List.cons.inj ho
      simp
    | cons a as => simp at ho
  | @more _ _ _ w _ h hw _ ih =>
    cases as with
    | nil =>
      obtain ⟨-, rfl⟩ := List.cons.inj ho
      simp [hw]
    | cons a as =>
      obtain ⟨-, ho⟩ := List.cons.inj ho
      cases as with
      | nil => simp at ho
      | cons b as => exact ih (List.cons.inj ho).2

end Outline

section Arguments

variable {after : Bool} {mid : List Tree} (h : Outline.AreArguments after (outlines Token.word mid))

include h

/-- Between the arguments stand trivia and commas. -/
theorem leaf_of_areArguments {k : Token} (hk : .leaf k ∈ mid) : k.isTrivia = true ∨ k.kind = .comma := by
  cases ht : k.isTrivia with
  | true => exact .inl rfl
  | false =>
    have hmem : Outline.word k.word ∈ outlines Token.word mid := by
      obtain ⟨front, back, rfl⟩ := List.append_of_mem hk
      simp [outline_leaf _ ht]
    rcases h.mem hmem with ⟨w, hw, hkind⟩ | ⟨_, _, hw, -⟩
    · cases hw
      exact .inr hkind
    · cases hw

theorem node_of_areArguments {t : Tree} (ht : t ∈ mid) (hnode : t.isNode = true) :
    t.kind ∈ Kind.arguments := by
  cases t with
  | leaf => cases hnode
  | node kind ts =>
    have hmem : Outline.node kind (outlines Token.word ts) ∈ outlines Token.word mid := by
      obtain ⟨front, back, rfl⟩ := List.append_of_mem ht
      simp
    rcases h.mem hmem with ⟨w, hw, -⟩ | ⟨_, _, hw, hkind⟩
    · cases hw
    · cases hw
      exact hkind

/-- Behind an argument stands nothing, trivia or a comma. -/
theorem behind_of_areArguments {front back : List Tree} {t : Tree} (hmid : mid = front ++ t :: back)
    (hnode : t.isNode = true) :
    ∀ u ∈ back.head?, ∃ k, u = .leaf k ∧ k.kind.stops = true := by
  cases t with
  | leaf => cases hnode
  | node kind ts =>
    intro u hu
    cases u with
    | leaf k =>
      refine ⟨k, rfl, ?_⟩
      have hk : .leaf k ∈ mid := by
        rw [hmid]
        exact List.mem_append_right _ (List.mem_cons_of_mem _ (List.mem_of_mem_head? hu))
      rcases leaf_of_areArguments h hk with ht | hcomma
      · simp [Kind.stops, show k.kind.isTrivia = true from ht]
      · rw [hcomma]; rfl
    | node kind' us =>
      obtain ⟨back, rfl⟩ := List.head?_eq_some_iff.1 hu
      have hout : outlines Token.word mid = outlines Token.word front ++
          .node kind (outlines Token.word ts) ::
            (.node kind' (outlines Token.word us) :: outlines Token.word back) := by
        simp [hmid]
      obtain ⟨w, hw, -⟩ := h.behind hout _ rfl
      cases hw

end Arguments

/-! ## Words in their place -/

/-- Words that a layout can give have characters, but for those that it added. -/
theorem Settled.text_ne {levels : List Nat} {d : Nat} {fresh : Bool} {ws : List Word}
    (h : Settled levels d fresh ws) :
    ∀ w ∈ ws, w.kind ∉ [.newline, .indent, .dedent] → w.text ≠ [] := by
  have added {n : Nat} : ∀ w ∈ List.replicate n Word.dedent,
      w.kind ∉ [.newline, .indent, .dedent] → w.text ≠ [] := by
    intro w hw hk
    simp [List.eq_of_mem_replicate hw] at hk
  have between {held : List Word} (hheld : ∀ w ∈ held, w.Between) : ∀ w ∈ held,
      w.kind ∉ [.newline, .indent, .dedent] → w.text ≠ [] := fun w hw _ => (hheld w hw).text_ne
  induction h with
  | stop => exact List.forall_mem_cons.2 ⟨by simp, added⟩
  | stopFresh hheld => exact List.forall_mem_append.2 ⟨added, between hheld⟩
  | endLine _ ht _ ih => exact List.forall_mem_cons.2 ⟨fun _ => ht, ih⟩
  | joinLines hj _ _ ih =>
    exact List.forall_mem_cons.2 ⟨fun _ ht => by simp [Word.joins, ht] at hj, ih⟩
  | inLine hw _ ih => exact List.forall_mem_cons.2 ⟨fun _ => hw.text_ne, ih⟩
  | indent hheld hw _ _ _ ih =>
    exact List.forall_mem_append.2 ⟨between hheld, List.forall_mem_cons.2 ⟨by simp,
      List.forall_mem_cons.2 ⟨fun _ => hw.text_ne, ih⟩⟩⟩
  | begin _ _ hheld hw _ _ _ _ ih =>
    exact List.forall_mem_append.2 ⟨List.forall_mem_append.2 ⟨added, between hheld⟩,
      List.forall_mem_cons.2 ⟨fun _ => hw.text_ne, ih⟩⟩

namespace Word

/-- Words that stand in a row in a text that is laid out without a fault. -/
def Placed (ws : List Word) : Prop :=
  ∃ front back, Settled [] 0 true (front ++ (ws ++ back)) ∧ AllCut (rawOf (front ++ (ws ++ back))) []

variable {ws vs mid : List Word} {w o c : Word}

theorem Inside.text_ne (h : w.Inside) : w.text ≠ [] := by
  rcases h with h | h
  · exact h.text_ne
  · rintro ht
    simp [joins, ht] at h

namespace Placed

theorem of_append {front back : List Word} (h : Placed (front ++ (ws ++ back))) : Placed ws := by
  obtain ⟨front', back', hs, hcut⟩ := h
  refine ⟨front' ++ front, back ++ back', ?_, ?_⟩
  · simpa using hs
  · simpa using hcut

theorem text_ne (h : Placed ws) (hw : w ∈ ws) (hk : w.kind ∉ [.newline, .indent, .dedent]) :
    w.text ≠ [] := by
  obtain ⟨front, back, hs, -⟩ := h
  exact hs.text_ne w (by simp [hw]) hk

theorem allCut (h : Placed ws) : ∃ e, AllCut (rawOf ws) e := by
  obtain ⟨front, back, -, hcut⟩ := h
  simp only [rawOf_append, allCut_append] at hcut
  exact ⟨_, hcut.2.1⟩

/-- What stands between brackets. -/
theorem inside (h : Placed (o :: (mid ++ [c]))) (ho : o.kind = .lParen) (hc : c.kind = .rParen)
    (hmid : Even mid) : ∀ w ∈ mid, w.Inside := by
  obtain ⟨front, back, hs, -⟩ := h
  have hs : Settled [] 0 true (front ++ o :: (mid ++ c :: back)) := by simpa using hs
  obtain ⟨levels, d, hs⟩ := hs.behind rfl (by rw [ho]; rfl) (by rw [ho]; decide)
  rw [ho] at hs
  exact (hmid.of_settled (by simp [hc]) hs).1

end Placed

end Word

/-! ## Trees -/

/-- What a tree of a program is like. -/
structure Tree.InProgram (t : Tree) : Prop where
  each : t.Each ProgramNode
  sound : ∀ k ∈ t.tokens, k.kind ≠ .error
  placed : Word.Placed (t.tokens.map Token.word)

theorem Tree.Each.imp {P Q : Kind → List Tree → Prop} (hPQ : ∀ kind ts, P kind ts → Q kind ts)
    (t : Tree) (h : t.Each P) : t.Each Q := by
  rw [each_iff_locate 0 0] at h ⊢
  exact fun l hl hnode => hPQ _ _ (h l hl hnode)

theorem Tree.Each.and {P Q : Kind → List Tree → Prop} {t : Tree} (h : t.Each P) (h' : t.Each Q) :
    t.Each fun kind ts => P kind ts ∧ Q kind ts := by
  rw [each_iff_locate 0 0] at h h' ⊢
  exact fun l hl hnode => ⟨h l hl hnode, h' l hl hnode⟩

theorem Tree.Paired.even {ts : List Tree} (h : Paired ts)
    (hin : ∀ t ∈ ts, t.isBracket = false → Word.Even (t.tokens.map Token.word)) :
    Word.Even ((tokensOf ts).map Token.word) := by
  induction h with
  | nil => simpa using Word.Even.nil
  | other ht _ ih =>
    obtain ⟨hfirst, hin⟩ := List.forall_mem_cons.1 hin
    simpa using (hfirst ht).append (ih hin)
  | @pair o c inner after hclose _ _ ihinner ihafter =>
    simpa using Word.Even.pair (o := o.word) (c := c.word) hclose
      (ihinner fun t ht => hin t (by simp [ht])) (ihafter fun t ht => hin t (by simp [ht]))

namespace Tree.InProgram

variable {t : Tree} {kind : Kind} {ts : List Tree}

theorem node (h : (Tree.node kind ts).InProgram) : ProgramNode kind ts := (each_node.1 h.each).1

theorem part (h : (Tree.node kind ts).InProgram) (ht : t ∈ ts) : t.InProgram := by
  obtain ⟨front, back, rfl⟩ := List.append_of_mem ht
  refine ⟨(each_node.1 h.each).2 t ht, fun k hk => h.sound k (by simp [hk]), ?_⟩
  have hplaced := h.placed
  simp only [tokens_node, tokensOf_append, tokensOf_cons, List.map_append] at hplaced
  exact hplaced.of_append

/-- What is no trivia begins and ends with more than trivia. -/
theorem edges (h : t.InProgram) (ht : t.isTrivia = false) :
    (∃ k ks, t.tokens = k :: ks ∧ k.isTrivia = false) ∧
      ∃ ks k, t.tokens = ks ++ [k] ∧ k.isTrivia = false :=
  edges_trimmed t (h.each.imp fun _ _ => ProgramNode.trim) ht

/-- Brackets nest in what is no bracket itself. -/
theorem even (t : Tree) (h : t.InProgram) (ht : t.isBracket = false) :
    Word.Even (t.tokens.map Token.word) := by
  match t with
  | .leaf k => simpa using Word.Even.other (w := k.word) ht .nil
  | .node kind ts =>
    rw [tokens_node]
    exact Paired.even h.node.fine.1 fun t hmem ht => even t (h.part hmem) ht
termination_by sizeOf t
decreasing_by
  have := List.sizeOf_lt_of_mem hmem
  simp only [node.sizeOf_spec]
  omega

/-- Brackets nest in trees that stand side by side. -/
theorem even_wordsOf (h : ∀ t ∈ ts, t.InProgram ∧ t.isBracket = false) : Word.Even (wordsOf ts) := by
  induction ts with
  | nil => exact .nil
  | cons t ts ih =>
    obtain ⟨⟨ht, hbracket⟩, hts⟩ := List.forall_mem_cons.1 h
    rw [wordsOf_cons]
    exact (even t ht hbracket).append (ih hts)

/-- A list of arguments: what stands between its brackets are arguments, and words of a
line. -/
theorem argumentList (h : (Tree.node .argList ts).InProgram) :
    ∃ o mid c, ts = .leaf o :: mid ++ [.leaf c] ∧ o.kind = .lParen ∧ c.kind = .rParen ∧
      Outline.RemainArguments false (outlines Token.word mid) ∧ Word.Even (wordsOf mid) ∧
      ∀ w ∈ wordsOf mid, w.Inside := by
  obtain ⟨o, mid, c, rfl, ho, hc, hmid⟩ := h.node.argumentList
  have heven : Word.Even (wordsOf mid) := even_wordsOf fun t ht => by
    refine ⟨h.part (by simp [ht]), ?_⟩
    cases t with
    | node kind us => rfl
    | leaf k =>
      rcases leaf_of_areArguments hmid.are ht with hk | hk
      · exact Kind.isBracket_of_isTrivia hk
      · rw [Tree.isBracket, hk]
        rfl
  have hplaced := h.placed
  simp only [tokens_node, tokensOf_cons, tokensOf_append, tokens_leaf, tokensOf_nil, List.cons_append,
    List.nil_append, List.append_nil, List.map_cons, List.map_append, List.map_nil] at hplaced
  exact ⟨o, mid, c, rfl, ho, hc, hmid, heven, hplaced.inside ho hc heven⟩

end Tree.InProgram

/-! ## Programs -/

variable {t : Text}

/-- The layout of a program has no faults. -/
theorem faults_layout_of_ok (h : (parse t).ok = true) : (layout t).faults = [] := by
  obtain ⟨b, s, hreads, -, -, -, hfaults⟩ := exists_reading t
  have hs : s.faults = [] := by simpa [Parse.ok, hfaults] using h
  have hsuffix := hreads.follows.faults
  rw [hs, List.suffix_nil] at hsuffix
  simpa [Progress.start] using hsuffix

/-- In each node of a program the brackets pair off, and none of its parts is an error. -/
theorem fine_parse (h : (parse t).ok = true) : (parse t).tree.Each Fine := by
  obtain ⟨b, s, hreads, hrest, -, htree, hfaults⟩ := exists_reading t
  have hs : s.faults = [] := by simpa [Parse.ok, hfaults] using h
  have hgrown := hreads.grown rfl hs [] ⟨⟨[], rfl, sound_nil⟩, Progress.sorted_start ..⟩
  have hsound : Sound (s.built.reverse ++ (s.pending ++ Lexeme.tokens s.rest).map .leaf) :=
    hgrown.sound.append (sound_trivia fun k hk =>
      hgrown.sorted.pending k (by simpa [hrest] using hk))
  rw [htree, Progress.root, each_node]
  exact ⟨⟨hsound.1, fun u hu => (hsound.2 u hu).1⟩, fun u hu => (hsound.2 u hu).2⟩

/-- The parts of a program. -/
theorem inProgram_parse (h : (parse t).ok = true) : ∀ u ∈ (parse t).tree.parts, u.InProgram := by
  obtain ⟨parts, hroot⟩ := parse_root t
  have hmold := molded_parse h
  have hholds := holdsArguments_parse h
  have hfine := fine_parse h
  have htrim := trimmed_parse h
  have htokens := tokens_parse t
  rw [hroot] at hmold hholds hfine htrim htokens ⊢
  intro u hu
  have hu : u ∈ parts := hu
  have heach := ((htrim u hu).and ((each_node.1 hmold).2 u hu)).and
    (((each_node.1 hholds).2 u hu).and ((each_node.1 hfine).2 u hu))
  have hsplit : ∃ front back, (layout t).tokens = front ++ (u.tokens ++ back) := by
    obtain ⟨front, back, rfl⟩ := List.append_of_mem hu
    exact ⟨tokensOf front, tokensOf back, by rw [← htokens]; simp⟩
  obtain ⟨front, back, hsplit⟩ := hsplit
  refine ⟨heach.imp fun _ _ h => ⟨h.1.1, h.1.2, h.2.1, h.2.2⟩, fun k hk herror => ?_, ?_⟩
  · refine (neighbours_words h).noError (List.mem_map.2 ⟨k, List.mem_filter.2 ⟨?_, ?_⟩, herror⟩)
    · simp [hsplit, hk]
    · simp [Token.isTrivia, herror, Kind.isTrivia]
  · refine ⟨front.map Token.word, back.map Token.word, ?_⟩
    rw [← List.map_append, ← List.map_append, ← hsplit]
    exact settled_layout (faults_layout_of_ok h)

end SceneGate
