/-
What quoting does to trees. Tokens that go together are laid out alike, for the
layout looks at the kinds of tokens and at the characters of blanks; in a comment
characters may differ, but a comment is followed by a line break, which begins a
new column. So the trees of a program and of the program that it becomes with
quotes are twins (`twin_parse`).
-/
import SceneGate.Proofs.QuotedTokens
import SceneGate.Proofs.SideBySide

namespace SceneGate

open QuoteWords

variable {words : List Text}

namespace Kind.Twin

variable {a b : Kind}

theorem isTrivia_eq (h : a.Twin b) : a.isTrivia = b.isTrivia := by
  rcases h with rfl | ⟨rfl, rfl⟩ <;> rfl

theorem depthAfter_eq (h : a.Twin b) (depth : Nat) :
    Layout.depthAfter depth a = Layout.depthAfter depth b := by
  rcases h with rfl | ⟨rfl, rfl⟩ <;> rfl

/-- Only a name and a string are of different kinds. -/
theorem eq_iff (h : a.Twin b) {kind : Kind} (hi : kind ≠ .ident) (hs : kind ≠ .string) :
    a = kind ↔ b = kind := by
  rcases h with rfl | ⟨rfl, rfl⟩
  · rfl
  · exact ⟨fun h => absurd h.symm hi, fun h => absurd h.symm hs⟩

end Kind.Twin

namespace Token.Requoted

variable {k l : Token}

theorem twin (h : k.Requoted words l) : k.kind.Twin l.kind := by
  rcases h with ⟨h, -⟩ | ⟨hk, hl, -⟩
  · exact .inl h
  · exact .inr ⟨hk, hl⟩

theorem text_eq (h : k.Requoted words l) (hs : l.kind ≠ .string) (hc : l.kind ≠ .comment) :
    k.text = l.text := by
  rcases h with ⟨hkind, htext⟩ | ⟨-, hl, -⟩
  · rw [hkind] at htext
    exact (htext.resolve_left hs).resolve_left hc
  · exact absurd hl hs

/-- Tokens of a kind of their own, with the same characters. -/
theorem of_eq (hkind : k.kind = l.kind) (htext : k.text = l.text) : k.Requoted words l :=
  .inl ⟨hkind, .inr (.inr htext)⟩

end Token.Requoted

/-! ## Layout -/

theorem munch_comment {c : Char} {cs : Text} (h : (munch c cs).1 = .comment) :
    munch c cs = (.comment, runLength (fun c => c != '\r' && c != '\n') cs) := by
  have hplain {k : Kind} (hk : k.plain = true) : k ≠ .comment := by
    rintro rfl
    cases hk
  by_cases hhash : c = '#'
  · simp [munch, hhash, isSpace]
  · unfold munch at h
    split at h
    · cases h
    split at h
    · cases h
    split at h
    · split at h <;> cases h
    split at h
    · split at h <;> cases h
    rw [if_neg (by simpa using hhash)] at h
    split at h
    · cases h
    · cases h
    · cases h
    · split at h
      · exact absurd h (hplain (Kind.plain_ofKeyword _))
      split at h
      · cases h
      split at h
      · cases h
      · exact absurd h (hplain (plain_operator _))

theorem munch_lineEnd {c : Char} (hc : (c != '\r' && c != '\n') = false) (cs : Text) :
    (munch c cs).1 = .newline ∨ (munch c cs).1 = .error := by
  simp only [Bool.and_eq_false_iff, bne_eq_false_iff_eq] at hc
  rcases hc with rfl | rfl
  · rw [munch_return]
    split
    · exact .inl rfl
    · exact .inr rfl
  · exact .inl rfl

/-- A comment reaches to the end of its line: behind it the lexer finds a line break,
or a carriage return that is none. -/
theorem comment_tokenizeFrom (o : Nat) (t : Text) : (tokenizeFrom o t).IsChain fun k l =>
    k.kind = .comment → l.kind = .newline ∨ l.kind = .error := by
  fun_induction tokenizeFrom o t with
  | case1 => exact .nil
  | case2 o c cs kind n h text ih =>
    refine List.isChain_cons.2 ⟨fun l hl hk => ?_, ih⟩
    have hfirst : (munch c cs).1 = .comment := by
      rw [h]
      exact hk
    have hcomment := munch_comment hfirst
    rw [h, Prod.mk.injEq] at hcomment
    rw [hcomment.2, drop_runLength] at hl
    cases hrest : cs.dropWhile fun c => c != '\r' && c != '\n' with
    | nil => rw [hrest, tokenizeFrom] at hl; cases hl
    | cons d ds =>
      have hd := List.head?_dropWhile_not (fun c => c != '\r' && c != '\n') cs
      rw [hrest, List.head?_cons] at hd
      rw [hrest, tokenizeFrom_cons rfl, List.head?_cons, Option.mem_some_iff] at hl
      rw [← hl]
      exact munch_lineEnd (by simpa using hd) ds

namespace Layout

section

/- Which tokens go together. -/
variable (M : Token → Token → Prop)

/-- Tokens that go together are laid out alike: they are of kinds that go together, also where
line breaks become blanks, and between two lines they lead to the same columns, but for comments. -/
structure Blind : Prop where
  of_eq : ∀ {k l : Token}, k.kind = l.kind → k.text = l.text → M k l
  kind : ∀ {k l : Token}, M k l → k.kind.Twin l.kind
  joined : ∀ {k l : Token}, M k l → l.kind = .newline →
    M ⟨.whitespace, k.text, k.offset⟩ ⟨.whitespace, l.text, l.offset⟩
  column : ∀ {k l : Token}, M k l → l.kind.isTrivia = true → l.kind ≠ .comment →
    ∀ column, columnAfter column k.text = columnAfter column l.text

/-- Gaps that hold tokens that go together; the columns may differ where the line
ends. -/
inductive GapTwin (lineEnds : Prop) : Option Gap → Option Gap → Prop
  | inLine : GapTwin lineEnds none none
  | between {a b : Gap} : List.Forall₂ M a.held b.held →
      a.column = b.column ∨ lineEnds → GapTwin lineEnds (some a) (some b)

/-- Layouts that have come equally far. -/
structure Twin (lineEnds : Prop) (s u : Layout) : Prop where
  levels : s.levels = u.levels
  depth : s.depth = u.depth
  gap : GapTwin M lineEnds s.gap u.gap

end

variable {M : Token → Token → Prop} {s u : Layout} {g : Gap} {k l : Token} {ks ls : List Token}

theorem Twin.imp {A B : Prop} (h : Twin M A s u) (hAB : A → B) : Twin M B s u := by
  obtain ⟨hlevels, hdepth, hgap⟩ := h
  refine ⟨hlevels, hdepth, ?_⟩
  generalize s.gap = a at hgap
  generalize u.gap = b at hgap
  cases hgap with
  | inLine => exact .inLine
  | between hheld hcolumn => exact .between hheld (hcolumn.imp id hAB)

theorem GapTwin.eq_none {A : Prop} {b : Option Gap} (h : GapTwin M A none b) : b = none := by
  cases h
  rfl

theorem GapTwin.exists_some {A : Prop} {b : Option Gap} (h : GapTwin M A (some g) b) :
    ∃ g', b = some g' ∧ List.Forall₂ M g.held g'.held ∧
      (g.column = g'.column ∨ A) := by
  cases h with
  | between hheld hcolumn => exact ⟨_, rfl, hheld, hcolumn⟩

section

variable (hM : Blind M)

include hM

theorem forall₂_dedents (n o o' : Nat) :
    List.Forall₂ M (dedents n o) (dedents n o') := by
  induction n with
  | zero => exact .nil
  | succ n ih => exact .cons (hM.of_eq rfl rfl) ih

theorem Twin.beginLine {g g' : Gap} (hlevels : s.levels = u.levels) (hdepth : s.depth = u.depth)
    (hheld : List.Forall₂ M g.held g'.held) (hcolumn : g.column = g'.column)
    (hkl : M k l) {A : Prop} :
    List.Forall₂ M (s.beginLine g k).2.tokens (u.beginLine g' l).2.tokens ∧
      Twin M A (s.beginLine g k).1 (u.beginLine g' l).1 := by
  have hdepth' := (hM.kind hkl).depthAfter_eq u.depth
  unfold Layout.beginLine
  dsimp only
  rw [hlevels, hcolumn, hdepth, hdepth']
  split
  · exact ⟨List.rel_append hheld (.cons (hM.of_eq rfl rfl) (.cons hkl .nil)), rfl, rfl, .inLine⟩
  have hline (n : Nat) : List.Forall₂ M (dedents n s.lineEnd ++ g.held ++ [k])
      (dedents n u.lineEnd ++ g'.held ++ [l]) :=
    List.rel_append (List.rel_append (forall₂_dedents hM n _ _) hheld) (.cons hkl .nil)
  split
  · exact ⟨hline _, rfl, rfl, .inLine⟩
  · exact ⟨hline _, rfl, rfl, .inLine⟩

/-- Tokens that go together are laid out alike. -/
theorem Twin.step (h : Twin M (l.kind = .newline) s u) (hkl : M k l) :
    List.Forall₂ M (s.step k).2.tokens (u.step l).2.tokens ∧
      Twin M (l.kind = .comment) (s.step k).1 (u.step l).1 := by
  obtain ⟨hlevels, hdepth, hgap⟩ := h
  have hnewline : k.kind = .newline ↔ l.kind = .newline := (hM.kind hkl).eq_iff (by decide) (by decide)
  cases hs : s.gap with
  | none =>
    rw [hs] at hgap
    have hu := hgap.eq_none
    by_cases hn : l.kind = .newline
    · rw [step_newline hs (hnewline.2 hn), step_newline hu hn, hdepth]
      split
      · exact ⟨.cons hkl .nil, hlevels, rfl, .between .nil (.inl rfl)⟩
      · refine ⟨.cons (hM.joined hkl hn) .nil, hlevels, hdepth, ?_⟩
        rw [hs, hu]
        exact .inLine
    · rw [step_behind hs (mt hnewline.1 hn), step_behind hu hn]
      exact ⟨.cons hkl .nil, hlevels, by rw [hdepth, (hM.kind hkl).depthAfter_eq], .inLine⟩
  | some g =>
    rw [hs] at hgap
    obtain ⟨g', hu, hheld, hcolumn⟩ := hgap.exists_some
    have hheld' {k' l' : Token} (h : M k' l') :
        List.Forall₂ M (g.held ++ [k']) (g'.held ++ [l']) :=
      List.rel_append hheld (.cons h .nil)
    by_cases hn : l.kind = .newline
    · rw [step_blankLine hs (hnewline.2 hn), step_blankLine hu hn]
      exact ⟨.nil, hlevels, hdepth, .between (hheld' (hM.joined hkl hn)) (.inl rfl)⟩
    have hcolumn := hcolumn.resolve_right hn
    have htrivia := (hM.kind hkl).isTrivia_eq
    cases ht : l.kind.isTrivia with
    | true =>
      rw [step_trivia hs (htrivia.trans ht), step_trivia hu ht]
      refine ⟨.nil, hlevels, hdepth, .between (hheld' hkl) ?_⟩
      -- only a comment may have other characters, and so end in another column
      by_cases hc : l.kind = .comment
      · exact .inr hc
      · have hcontinues : k.kind = .lineContinuation ↔ l.kind = .lineContinuation :=
          (hM.kind hkl).eq_iff (by decide) (by decide)
        left
        simp only [hcontinues, hcolumn, hM.column hkl ht hc]
    | false =>
      rw [step_begin hs (mt hnewline.1 hn) (htrivia.trans ht), step_begin hu hn ht]
      exact Twin.beginLine hM hlevels hdepth hheld hcolumn hkl

/-- Runs of tokens that go together are laid out alike. -/
theorem Twin.run (hkl : List.Forall₂ M ks ls)
    (hcomments : ls.IsChain fun k l => k.kind = .comment → l.kind = .newline) (stop stop' : Nat)
    (h : Twin M (∀ l ∈ ls.head?, l.kind = .newline) s u) :
    List.Forall₂ M (s.run stop ks).tokens (u.run stop' ls).tokens := by
  induction hkl generalizing s u with
  | nil =>
    obtain ⟨hlevels, hdepth, hgap⟩ := h
    simp only [Layout.run, finish]
    cases hs : s.gap with
    | none =>
      rw [hs] at hgap
      rw [hgap.eq_none, hlevels]
      exact .cons (hM.of_eq rfl rfl) (forall₂_dedents hM _ _ _)
    | some g =>
      rw [hs] at hgap
      obtain ⟨g', hu, hheld, -⟩ := hgap.exists_some
      rw [hu, hlevels]
      exact List.rel_append (forall₂_dedents hM _ _ _) hheld
  | @cons k l ks ls hkl _ ih =>
    obtain ⟨hchain, hcomments⟩ := List.isChain_cons.1 hcomments
    have hnow : Twin M (l.kind = .newline) s u := h.imp fun hnext => hnext l (by simp)
    obtain ⟨htokens, hnext⟩ := hnow.step hM hkl
    refine List.rel_append htokens (ih hcomments (hnext.imp ?_))
    exact fun hc m hm => hchain m hm hc

end

end Layout

/-! ## Trees -/

/-- Programs that are laid out alike have trees that are twins. -/
theorem twin_parse_of_layout {M : Token → Token → Prop} (hM : ∀ {k l}, M k l → k.kind.Twin l.kind)
    {t p : Text} (hlayout : List.Forall₂ M (layout t).tokens (layout p).tokens)
    (ht : (parse t).ok = true) (hp : (parse p).ok = true) :
    Tree.Twin M (parse t).tree (parse p).tree := by
  obtain ⟨b, s, hreads, hrest, -, htree, hfaults⟩ := exists_reading t
  obtain ⟨b', s', hreads', hrest', -, htree', hfaults'⟩ := exists_reading p
  have hs : s.faults = [] := by simpa [Parse.ok, hfaults] using ht
  have hs' : s'.faults = [] := by simpa [Parse.ok, hfaults'] using hp
  have hsplit := Lexeme.Twin.split (fun h => (hM h).isTrivia_eq) hlayout
  have hstart : (Progress.start (layout t).tokens (layout t).faults).Twin M
      (Progress.start (layout p).tokens (layout p).faults) := ⟨.nil, hsplit.1, hsplit.2⟩
  have htwin := hreads.program_twin hM hreads' hstart hs hs'
  rw [htree, htree', Progress.root, Progress.root, hrest, hrest']
  refine .node (List.rel_append (List.rel_reverse htwin.built) ?_)
  simp only [Lexeme.tokens, List.flatMap_nil, List.append_nil]
  exact List.rel_map (fun _ _ h => .leaf h) htwin.pending

/-- Tokens of a program that go together with those of a text are laid out alike. -/
theorem forall₂_layout {M : Token → Token → Prop} (hM : Layout.Blind M) {t p : Text}
    (htokens : List.Forall₂ M (tokenize t) (tokenize p)) (hp : (parse p).ok = true) :
    List.Forall₂ M (layout t).tokens (layout p).tokens := by
  have hcomments : (tokenize p).IsChain fun k l => k.kind = .comment → l.kind = .newline := by
    refine (comment_tokenizeFrom 0 p).imp_of_mem_imp fun k l _ hl hkl hk => ?_
    refine (hkl hk).resolve_right fun he => (neighbours_tokenize hp).noError ?_
    rw [← he]
    exact List.mem_map_of_mem hl
  exact Layout.Twin.run hM htokens hcomments _ _ ⟨rfl, rfl, .between .nil (.inl rfl)⟩

theorem blind_requoted : Layout.Blind (Token.Requoted words) where
  of_eq := .of_eq
  kind h := h.twin
  joined h hn := .of_eq rfl (h.text_eq (by simp [hn]) (by simp [hn]))
  column h ht hc column := by rw [h.text_eq (fun hs => by rw [hs] at ht; cases ht) hc]

/-- The trees of a program and of the program that it becomes with quotes are twins. -/
theorem twin_parse {t p : Text} (hW : ∀ w ∈ words, ProseWord w)
    (h : Quotes (Apart words) [] t p) (ht : (parse t).ok = true) (hp : (parse p).ok = true) :
    Tree.Twin (Token.Requoted words) (parse t).tree (parse p).tree :=
  twin_parse_of_layout (fun h => h.twin)
    (forall₂_layout blind_requoted (requoted_tokenizeFrom hW h 0 0 (neighbours_tokenize hp)) hp) ht hp

end SceneGate
