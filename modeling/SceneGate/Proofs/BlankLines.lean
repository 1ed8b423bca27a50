/-
Lines that hold nothing but blanks and a comment. Put between two lines of a text such a
line changes no word and no block: inside brackets it is a blank, and between two logical
lines it goes into the gap, in which the last line of the text alone tells the column
(`blank_line_is_transparent`).
-/
import SceneGate.Proofs.LikeLayouts
import SceneGate.Proofs.LineFeeds
import SceneGate.Proofs.OutlineViews

namespace SceneGate

/-- A line of blanks and perhaps a comment. -/
def Text.IsBlankLine (line : Text) : Prop :=
  ∃ blanks comment : Text, line = blanks ++ comment ++ ['\n'] ∧
    (∀ c ∈ blanks, isSpace c = true) ∧
    (comment = [] ∨ ∃ cs, comment = '#' :: cs ∧ ∀ c ∈ cs, c ≠ '\r' ∧ c ≠ '\n')

/-- A blank or a comment. -/
def Token.isFiller (k : Token) : Bool := k.kind == .whitespace || k.kind == .comment

theorem Token.isTrivia_of_isFiller {k : Token} (h : k.isFiller = true) : k.isTrivia = true := by
  simp only [isFiller, Bool.or_eq_true, beq_iff_eq] at h
  rcases h with h | h <;> simp [isTrivia, h, Kind.isTrivia]

/-! ## The tokens of such a line -/

/-- A run of characters that is followed by another one. -/
theorem runLength_of_stop {p : Char → Bool} {u e : Text} (hu : ∀ c ∈ u, p c = true)
    (he : ∀ c ∈ e.head?, p c = false) : runLength p (u ++ e) = u.length := by
  rw [runLength, List.takeWhile_append_of_pos hu]
  cases e with
  | nil => simp
  | cons c e => simp [he c rfl]

theorem tokenizeFrom_comment (o : Nat) {cs : Text} (hcs : ∀ c ∈ cs, c ≠ '\r' ∧ c ≠ '\n') :
    ∃ k l : Token, tokenizeFrom o ('#' :: cs ++ ['\n']) = [k, l] ∧ k.isFiller = true ∧
      l.kind = .newline := by
  have hmunch : munch '#' (cs ++ ['\n']) = (.comment, cs.length) := by
    have hrun : runLength (fun c => c != '\r' && c != '\n') (cs ++ ['\n']) = cs.length :=
      runLength_of_stop (fun c hc => by simp [hcs c hc]) (by simp)
    rw [← hrun]
    rfl
  refine ⟨⟨.comment, '#' :: cs, o⟩, ⟨.newline, ['\n'], o + Text.bytes ('#' :: cs)⟩, ?_, rfl, rfl⟩
  rw [List.cons_append, tokenizeFrom, hmunch]
  simp only [List.take_left, List.drop_left]
  rw [tokenizeFrom_feed]

/-- Blanks and comments, and a line break. -/
theorem tokenizeFrom_blankLine {line : Text} (h : line.IsBlankLine) (o : Nat) :
    ∃ ks k, tokenizeFrom o line = ks ++ [k] ∧ (∀ j ∈ ks, Token.isFiller j = true) ∧
      k.kind = .newline := by
  obtain ⟨blanks, comment, rfl, hblanks, hcomment⟩ := h
  have hrest (o : Nat) : ∃ ks k, tokenizeFrom o (comment ++ ['\n']) = ks ++ [k] ∧
      (∀ j ∈ ks, Token.isFiller j = true) ∧ k.kind = .newline := by
    rcases hcomment with rfl | ⟨cs, rfl, hcs⟩
    · exact ⟨[], _, tokenizeFrom_feed o, by simp, rfl⟩
    · obtain ⟨k, l, htokens, hk, hl⟩ := tokenizeFrom_comment o hcs
      exact ⟨[k], l, htokens, by simpa using hk, hl⟩
  rw [List.append_assoc]
  cases blanks with
  | nil => exact hrest o
  | cons c cs =>
    obtain ⟨hc, hcs⟩ := List.forall_mem_cons.1 hblanks
    have hstop : ∀ x ∈ (comment ++ ['\n']).head?, isSpace x = false := by
      rcases hcomment with rfl | ⟨cs, rfl, -⟩ <;> simp <;> decide
    have hmunch : munch c (cs ++ (comment ++ ['\n'])) = (.whitespace, cs.length) := by
      simp only [munch, hc, if_true, runLength_of_stop hcs hstop]
    obtain ⟨ks, k, htokens, hks, hk⟩ := hrest (o + Text.bytes (c :: cs))
    refine ⟨⟨.whitespace, c :: cs, o⟩ :: ks, k, ?_, List.forall_mem_cons.2 ⟨rfl, hks⟩, hk⟩
    rw [List.cons_append, tokenizeFrom, hmunch]
    simp only [List.take_left, List.drop_left]
    rw [htokens, List.cons_append]

/-- Where the text stands does not matter for what the lexer cuts off. -/
theorem like_tokenizeFrom (o o' : Nat) (t : Text) :
    List.Forall₂ (Token.Like Token.word) (tokenizeFrom o t) (tokenizeFrom o' t) := by
  fun_induction tokenizeFrom o t generalizing o' with
  | case1 => simp [tokenizeFrom]
  | case2 o c cs kind n hmunch text ih =>
    rw [tokenizeFrom, hmunch]
    exact .cons ⟨rfl, fun _ _ => rfl⟩ (ih _)

/-! ## Where a line of the text begins -/

namespace Layout

variable {s u : Layout} {k : Token} {ks : List Token}

/-- Nothing but trivia stands on the line of the text so far, or a bracket is open. -/
structure AtLineStart (s : Layout) : Prop where
  column : ∀ g ∈ s.gap, g.column = 0
  depth : s.gap = none → s.depth ≠ 0

theorem atLineStart_start : start.AtLineStart := ⟨by simp [start], by simp [start]⟩

theorem atLineStart_step (hk : k.kind = .newline) : (s.step k).1.AtLineStart := by
  cases hs : s.gap with
  | none =>
    rw [step_newline hs hk]
    split
    · exact ⟨by simp, by simp⟩
    · exact ⟨by simp [hs], fun _ => ‹_›⟩
  | some g =>
    rw [step_blankLine hs hk]
    exact ⟨by simp, by simp⟩

theorem atLineStart_advance (h : ∀ k ∈ ks.getLast?, k.kind = .newline) :
    (start.advance ks).1.AtLineStart := by
  rcases List.eq_nil_or_concat ks with rfl | ⟨ls, k, rfl⟩
  · exact atLineStart_start
  · rw [List.concat_eq_append, advance_append]
    exact atLineStart_step (h k (by simp))

/-- A layout that has gone on over blanks and comments. -/
structure Past (s u : Layout) : Prop where
  levels : u.levels = s.levels
  depth : u.depth = s.depth
  gap : u.gap.isSome = s.gap.isSome
  trivia : ∀ g ∈ u.gap, ∀ k ∈ g.held, k.isTrivia = true

theorem Past.step (h : s.Past u) (hk : k.isFiller = true) :
    s.Past (u.step k).1 ∧ (u.step k).2.Agrees Token.word ⟨[], []⟩ := by
  have htrivia := Token.isTrivia_of_isFiller hk
  have hblank : k.kind = .whitespace ∨ k.kind = .comment := by simpa [Token.isFiller] using hk
  cases hu : u.gap with
  | none =>
    rw [step_behind hu (by rcases hblank with h | h <;> simp [h]), depthAfter_of_trivia htrivia]
    exact ⟨⟨h.levels, h.depth, by simpa [hu] using h.gap, by simp⟩,
      .nothing (by simpa using htrivia) (by simp)⟩
  | some g =>
    rw [step_trivia hu htrivia]
    refine ⟨⟨h.levels, h.depth, by simpa [hu] using h.gap, ?_⟩, .nothing (by simp) (by simp)⟩
    rintro _ ⟨⟩
    exact List.forall_mem_append.2 ⟨h.trivia g hu, by simpa using htrivia⟩

theorem Past.advance (h : s.Past u) (hks : ∀ k ∈ ks, k.isFiller = true) :
    s.Past (u.advance ks).1 ∧ (u.advance ks).2.Agrees Token.word ⟨[], []⟩ := by
  induction ks generalizing u with
  | nil => exact ⟨h, rfl, Iff.rfl⟩
  | cons k ks ih =>
    obtain ⟨hk, hks⟩ := List.forall_mem_cons.1 hks
    obtain ⟨hnext, hout⟩ := h.step hk
    obtain ⟨hend, hrest⟩ := ih hnext hks
    exact ⟨hend, hout.append hrest⟩

/-- The line break behind blanks and comments leads back to where the line began. -/
theorem Past.lineBreak (h : s.Past u) (hs : s.AtLineStart)
    (htrivia : ∀ g ∈ s.gap, ∀ k ∈ g.held, k.isTrivia = true) (hk : k.kind = .newline) :
    (u.step k).1.Level s ∧ (u.step k).2.Agrees Token.word ⟨[], []⟩ := by
  have hgap := h.gap
  cases hu : u.gap with
  | none =>
    have hnone : s.gap = none := Option.not_isSome_iff_eq_none.1 (by simp [← hgap, hu])
    have hdepth : u.depth ≠ 0 := h.depth ▸ hs.depth hnone
    rw [step_newline hu hk, if_neg hdepth]
    exact ⟨⟨h.levels, h.depth, by rw [hu, hnone], h.trivia, htrivia⟩,
      .nothing (by simp [Token.isTrivia, Kind.isTrivia]) (by simp)⟩
  | some g =>
    obtain ⟨g', hg'⟩ : ∃ g', s.gap = some g' := by
      rw [hu] at hgap
      exact Option.isSome_iff_exists.1 hgap.symm
    rw [step_blankLine hu hk]
    refine ⟨⟨h.levels, h.depth, ?_, ?_, htrivia⟩, .nothing (by simp) (by simp)⟩
    · rw [hg', Option.map_some, Option.map_some, hs.column g' hg']
    · rintro _ ⟨⟩
      exact List.forall_mem_append.2 ⟨h.trivia g hu, by simp [Token.isTrivia, Kind.isTrivia]⟩

/-- A line without words leads back to where it began. -/
theorem AtLineStart.advance_blankLine (hs : s.AtLineStart)
    (htrivia : ∀ g ∈ s.gap, ∀ k ∈ g.held, k.isTrivia = true) (hks : ∀ k ∈ ks, k.isFiller = true)
    (hk : k.kind = .newline) : (s.advance (ks ++ [k])).1.Level s ∧
      (s.advance (ks ++ [k])).2.Agrees Token.word ⟨[], []⟩ := by
  obtain ⟨hpast, hout⟩ := Past.advance ⟨rfl, rfl, rfl, htrivia⟩ hks
  obtain ⟨hlevel, hbreak⟩ := hpast.lineBreak hs htrivia hk
  rw [advance_append]
  exact ⟨hlevel, hout.append (hbreak.append ⟨rfl, Iff.rfl⟩)⟩

end Layout

/-- A line without words stands between two lines of a text as if it did not stand there. -/
theorem agrees_blankLine {a b line : Text} (ha : ∀ k ∈ (tokenize a).getLast?, k.kind = .newline)
    (hline : line.IsBlankLine) :
    (layout (a ++ line ++ b)).Agrees Token.word (layout (a ++ b)) := by
  have hkind : ∀ {k l : Token}, k.word = l.word → k.kind = l.kind := fun h => congrArg Word.kind h
  have hword : ∀ {k l : Token}, k.word = l.word → k.word = l.word := id
  obtain ⟨ks, k, htokens, hks, hk⟩ := tokenizeFrom_blankLine hline (0 + a.bytes)
  have hlast : ∀ j ∈ (tokenizeFrom (0 + a.bytes) line).getLast?, j.kind = .newline := by
    rw [htokens]
    simpa using hk
  have hwith : tokenize (a ++ line ++ b) = tokenize a ++ (ks ++ [k] ++
      tokenizeFrom (0 + a.bytes + line.bytes) b) := by
    rw [List.append_assoc, tokenize, tokenizeFrom_append _ 0 ha, tokenizeFrom_append _ _ hlast,
      htokens, tokenize]
  have hwithout : tokenize (a ++ b) = tokenize a ++ tokenizeFrom (0 + a.bytes) b :=
    tokenizeFrom_append b 0 ha
  -- the layouts go together up to the line, and lead to the same place behind it
  obtain ⟨hlevel, hout⟩ :=
    (Layout.atLineStart_advance ha).advance_blankLine (Layout.trivia_advance _) hks hk
  have hrest := hlevel.run hkind hword (like_tokenizeFrom (0 + a.bytes + line.bytes) (0 + a.bytes) b)
    (a ++ line ++ b).bytes (a ++ b).bytes
  rw [layout, layout, hwith, hwithout, Layout.run_append, Layout.run_append, Layout.run_append]
  exact (Layout.Output.Agrees.refl _).append (hout.append hrest)

/-- A line of blanks and perhaps a comment can stand between any two lines of a text, or in
front of them, and changes neither the words nor whether the text is a program, nor the tree
without its trivia, nor the stray names. -/
theorem blank_line_is_transparent {a b line : Text}
    (ha : ∀ k ∈ (tokenize a).getLast?, k.kind = .newline) (hline : line.IsBlankLine) :
    (significant (layout (a ++ line ++ b)).tokens).map Token.word =
        (significant (layout (a ++ b)).tokens).map Token.word ∧
      ((layout (a ++ line ++ b)).faults = [] ↔ (layout (a ++ b)).faults = []) ∧
      (parse (a ++ line ++ b)).ok = (parse (a ++ b)).ok ∧
      (parse (a ++ line ++ b)).tree.outline Token.word =
        (parse (a ++ b)).tree.outline Token.word ∧
      StrayProse.names (parse (a ++ line ++ b)) = StrayProse.names (parse (a ++ b)) := by
  have hagrees := agrees_blankLine (b := b) ha hline
  obtain ⟨houtline, hok⟩ := outline_parse_like (fun h => congrArg Word.kind h) hagrees
  exact ⟨hagrees.words, hagrees.faults, hok, houtline,
    StrayProse.names_eq_of_outline Token.telling_word houtline⟩

/-- Inside brackets, and with a comment that is indented like nothing else. -/
theorem blank_line_is_transparent_note :
    (∀ k ∈ (tokenize "f(
".toList).getLast?, k.kind = .newline) ∧
      Text.IsBlankLine "   # vẽ
".toList ∧
      StrayProse.names (parse "f(
   # vẽ
  đáp)
".toList) =
        StrayProse.names (parse "f(
  đáp)
".toList) := by
  have ha : ∀ k ∈ (tokenize "f(
".toList).getLast?, k.kind = .newline := by decide +kernel
  have hline : Text.IsBlankLine "   # vẽ
".toList :=
    ⟨"   ".toList, "# vẽ".toList, by decide, by decide,
      .inr ⟨" vẽ".toList, by decide, by decide⟩⟩
  have hall := blank_line_is_transparent (b := "  đáp)
".toList) ha hline
  exact ⟨ha, hline, hall.2.2.2.2⟩

end SceneGate
