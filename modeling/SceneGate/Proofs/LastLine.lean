/-
The end of the last line. A text that is a program may leave out the line feed behind its
last line: the lexer finds the same tokens, and the layout ends the line where the text
ends (`agrees_lastLine`). Of the words only the last line break tells whether the line
feed is there (`final_newline_is_optional`).
-/
import SceneGate.Proofs.LikeLayouts
import SceneGate.Proofs.LineFeeds
import SceneGate.Proofs.OutlineViews

namespace SceneGate

/-! ## The tokens in front of the last line feed -/

/-- A text without errors. -/
def Text.Sound (t : Text) : Prop := ∃ o, ∀ k ∈ tokenizeFrom o t, k.kind ≠ .error

theorem Text.Sound.step {c : Char} {cs : Text} (h : Sound (c :: cs)) :
    (munch c cs).1 ≠ .error ∧ Sound (cs.drop (munch c cs).2) := by
  obtain ⟨o, h⟩ := h
  rw [tokenizeFrom] at h
  obtain ⟨hfirst, hrest⟩ := List.forall_mem_cons.1 h
  exact ⟨hfirst, _, hrest⟩

theorem sound_of_ok {t : Text} (h : (parse t).ok = true) : t.Sound :=
  ⟨0, fun _ => kind_ne_error_of_ok h⟩

theorem tokenize_lastLine {t : Text} (h : t.Sound) :
    tokenize (t ++ ['\n']) = tokenize t ++ [⟨.newline, ['\n'], t.bytes⟩] := by
  have htokens := tokenizeFrom_append_of (b := ['\n']) (fun c cs (h : Text.Sound (c :: cs)) => ?_) h 0
  · rwa [tokenizeFrom_feed, Nat.zero_add] at htokens
  obtain ⟨hkind, hrest⟩ := h.step
  refine ⟨?_, hrest⟩
  have hmunch : munch c (cs ++ ['\n']) = munch c (cs ++ []) := by
    refine munch_feed (by simp [Text.AtFeed]) (by simp [Text.AtFeed])
      (by rw [List.append_nil]; exact munch_le c cs) fun _ => ⟨hkind, fun hslash => ?_⟩
    rw [hslash] at hrest
    exact hrest.step.1 rfl
  rwa [List.append_nil] at hmunch

/-- A text of which no character goes together with a line feed behind it. -/
def Text.LeavesFeed (t : Text) : Prop := t.getLast? ≠ some '\\' ∧ t.getLast? ≠ some '\r'

/-- The line feed at the end of a text without errors is a token by itself, if no
character goes together with it. -/
theorem munch_lastLine {c : Char} {cs : Text} (hend : Text.LeavesFeed (c :: cs))
    (hkind : (munch c (cs ++ ['\n'])).1 ≠ .error) : (munch c (cs ++ ['\n'])).2 ≤ cs.length := by
  by_contra hlt
  have hle := munch_le c (cs ++ ['\n'])
  rw [List.length_append, List.length_singleton] at hle
  have hall : (munch c (cs ++ ['\n'])).2 = cs.length + 1 := by omega
  have hfound := munches c (cs ++ ['\n'])
  have hlineFeed := (hfound.shaped 0).lineFeed
  have htake : (cs ++ ['\n']).take (munch c (cs ++ ['\n'])).2 = cs ++ ['\n'] :=
    List.take_of_length_le (by simp [hall])
  rw [htake] at hlineFeed
  have hkinds := hlineFeed (by simp)
  generalize munch c (cs ++ ['\n']) = found at hfound hall hkind hkinds
  cases hfound with
  | lineFeed => simp at hall
  | returnFeed hc =>
    obtain rfl : cs = [] := by simpa using hall
    exact hend.2 (by simp [hc])
  | slashFeed hc =>
    obtain rfl : cs = [] := by simpa using hall
    exact hend.1 (by simp [hc])
  | slashReturn hc hpre =>
    obtain ⟨x, rfl⟩ := List.length_eq_one_iff.1 (by simpa using hall.symm)
    obtain ⟨u, hu⟩ := hpre
    obtain ⟨rfl, -⟩ := List.cons.inj hu
    exact hend.2 rfl
  | @string l hfind =>
    obtain ⟨q, hq, hlast⟩ := StringLiteral.quote_of_find? hfind
    rw [List.take_of_length_le (by simp at hall ⊢; omega), ← List.cons_append,
      List.getLast?_append] at hlast
    cases hlast
    cases hq
  | word =>
    have hword : (munchWord c (cs ++ ['\n'])).1 ∉ [.newline, .lineContinuation, .string, .error] :=
      Kind.of_ofKeyword (P := (· ∉ [Kind.newline, .lineContinuation, .string, .error]))
        (by decide) (by decide) _
    exact hword hkinds
  | operator hentry =>
    have hnone : ∀ e ∈ operators, e.2 ∉ [.newline, .lineContinuation, .string, .error] := by decide
    exact hnone _ hentry hkinds
  | error => exact hkind rfl
  | spaces | comment | lone | number => simp at hkinds

theorem tokenize_lastLine' {t : Text} (h : (t ++ ['\n']).Sound) (hend : t.LeavesFeed) :
    tokenize (t ++ ['\n']) = tokenize t ++ [⟨.newline, ['\n'], t.bytes⟩] := by
  have htokens := tokenizeFrom_append_of (P := fun t => (t ++ ['\n']).Sound ∧ t.LeavesFeed)
    (b := ['\n']) (fun c cs h => ?_) ⟨h, hend⟩ 0
  · rwa [tokenizeFrom_feed, Nat.zero_add] at htokens
  obtain ⟨hsound, hend⟩ := h
  have hstep : (munch c (cs ++ ['\n'])).1 ≠ .error ∧
      Text.Sound ((cs ++ ['\n']).drop (munch c (cs ++ ['\n'])).2) := Text.Sound.step hsound
  obtain ⟨hkind, hrest⟩ := hstep
  have hle := munch_lastLine hend hkind
  have hmunch : munch c (cs ++ []) = munch c (cs ++ ['\n']) :=
    munch_feed (by simp [Text.AtFeed]) (by simp [Text.AtFeed]) hle (by simp)
  rw [List.append_nil] at hmunch
  rw [List.drop_append_of_le_length hle, ← hmunch] at hrest
  refine ⟨hmunch.symm, hrest, ?_⟩
  have hlast : (cs.drop (munch c cs).2).getLast? = none ∨
      (cs.drop (munch c cs).2).getLast? = (c :: cs).getLast? := by
    rw [List.getLast?_drop]
    split
    · exact .inl rfl
    · rename_i hlong
      obtain ⟨x, xs, rfl⟩ := List.exists_cons_of_ne_nil (l := cs) (by rintro rfl; simp at hlong)
      exact .inr (List.getLast?_cons_cons ..).symm
  rcases hlast with hlast | hlast
  · exact ⟨by simp [hlast], by simp [hlast]⟩
  · exact ⟨hlast ▸ hend.1, hlast ▸ hend.2⟩

/-! ## The end of the layout -/

/-- Words of which only the last line break may differ: it may be there without
characters. -/
def SameButLastBreak (ws vs : List Word) : Prop :=
  ws = vs ∨ ∃ us ends, (∀ w ∈ ends, Word.kind w = .dedent) ∧
    ws = us ++ ⟨.newline, []⟩ :: ends ∧ vs = us ++ ⟨.newline, ['\n']⟩ :: ends

theorem SameButLastBreak.map_unbroken {ws vs : List Word} (h : SameButLastBreak ws vs) :
    ws.map Word.unbroken = vs.map Word.unbroken := by
  obtain rfl | ⟨us, ends, -, rfl, rfl⟩ := h
  · rfl
  · simp [Word.unbroken]

theorem SameButLastBreak.behind {ws vs : List Word} (h : SameButLastBreak ws vs) (us : List Word) :
    SameButLastBreak (us ++ ws) (us ++ vs) := by
  obtain rfl | ⟨us', ends, hends, rfl, rfl⟩ := h
  · exact .inl rfl
  · exact .inr ⟨us ++ us', ends, hends, by simp, by simp⟩

namespace Layout

theorem significant_lineEnd (text : Text) (n o o' : Nat) :
    (significant (⟨.newline, text, o⟩ :: dedents n o')).map Token.word =
      ⟨.newline, text⟩ :: (dedents n 0).map Token.word := by
  have hone : significant [(⟨.newline, text, o⟩ : Token)] = [⟨.newline, text, o⟩] := rfl
  have hends : (dedents n o').map Token.word = (dedents n 0).map Token.word :=
    agrees_dedents id n o' 0
  rw [← List.singleton_append, significant_append, significant_dedents, hone, List.map_append, hends]
  rfl

/-- A line that the text ends, and one that a line feed ends. -/
theorem run_lineFeed {s : Layout} (htrivia : ∀ g ∈ s.gap, ∀ k ∈ g.held, k.isTrivia = true)
    (stop stop' o : Nat) :
    SameButLastBreak ((significant (s.finish stop)).map Token.word)
        ((significant (s.run stop' [⟨.newline, ['\n'], o⟩]).tokens).map Token.word) ∧
      (s.run stop' [⟨.newline, ['\n'], o⟩]).faults = [] := by
  have hends : ∀ w ∈ (dedents s.levels.length 0).map Token.word, Word.kind w = .dedent := by
    intro w hw
    obtain ⟨k, hk, rfl⟩ := List.mem_map.1 hw
    exact kind_of_mem_dedents hk
  cases hs : s.gap with
  | none =>
    have hfinish : s.finish stop = ⟨.newline, [], stop⟩ :: dedents s.levels.length stop := by
      simp [finish, hs]
    have hstep := step_newline (k := ⟨.newline, ['\n'], o⟩) hs rfl
    by_cases hdepth : s.depth = 0
    · rw [if_pos hdepth] at hstep
      have hrun : s.run stop' [⟨.newline, ['\n'], o⟩] =
          ⟨⟨.newline, ['\n'], o⟩ :: dedents s.levels.length (Token.stop ⟨.newline, ['\n'], o⟩), []⟩ := by
        simp [run, hstep, finish]
      rw [hfinish, hrun, significant_lineEnd, significant_lineEnd]
      exact ⟨.inr ⟨[], _, hends, rfl, rfl⟩, rfl⟩
    · -- a bracket is open, and the line feed is a blank
      rw [if_neg hdepth] at hstep
      have hrun : s.run stop' [⟨.newline, ['\n'], o⟩] =
          ⟨⟨.whitespace, ['\n'], o⟩ :: ⟨.newline, [], stop'⟩ :: dedents s.levels.length stop', []⟩ := by
        simp [run, hstep, finish, hs]
      have hblank (ks : List Token) :
          significant (⟨.whitespace, ['\n'], o⟩ :: ks) = significant ks := rfl
      rw [hfinish, hrun, hblank, significant_lineEnd, significant_lineEnd]
      exact ⟨.inl rfl, rfl⟩
  | some g =>
    have hfinish : s.finish stop = dedents s.levels.length s.lineEnd ++ g.held := by
      simp [finish, hs]
    have hrun : s.run stop' [⟨.newline, ['\n'], o⟩] =
        ⟨dedents s.levels.length s.lineEnd ++ (g.held ++ [⟨.whitespace, ['\n'], o⟩]), []⟩ := by
      simp [run, step_blankLine (k := ⟨.newline, ['\n'], o⟩) hs rfl, finish]
    have hblank : ∀ k ∈ g.held ++ [(⟨.whitespace, ['\n'], o⟩ : Token)], k.isTrivia = true :=
      List.forall_mem_append.2 ⟨htrivia g hs, by simp [Token.isTrivia, Kind.isTrivia]⟩
    rw [hfinish, hrun, significant_append, significant_append, significant_of_trivia hblank,
      significant_of_trivia (htrivia g hs)]
    exact ⟨.inl rfl, rfl⟩

end Layout

theorem layout_lastLine {t : Text}
    (h : tokenize (t ++ ['\n']) = tokenize t ++ [⟨.newline, ['\n'], t.bytes⟩]) :
    SameButLastBreak ((significant (layout t).tokens).map Token.word)
        ((significant (layout (t ++ ['\n'])).tokens).map Token.word) ∧
      (layout (t ++ ['\n'])).faults = (layout t).faults := by
  obtain ⟨hwords, hfaults⟩ := Layout.run_lineFeed (Layout.trivia_advance (tokenize t)) t.bytes
    (t ++ ['\n']).bytes t.bytes
  rw [layout, layout, h, Layout.run_eq_advance, Layout.run_append, hfaults]
  simp only [significant_append, List.map_append, List.append_nil, and_true]
  exact hwords.behind _

theorem agrees_lastLine {t : Text}
    (h : tokenize (t ++ ['\n']) = tokenize t ++ [⟨.newline, ['\n'], t.bytes⟩]) :
    (layout t).Agrees Token.unbroken (layout (t ++ ['\n'])) := by
  obtain ⟨hwords, hfaults⟩ := layout_lastLine h
  refine ⟨?_, by rw [hfaults]⟩
  have hmap := hwords.map_unbroken
  rwa [List.map_map, List.map_map] at hmap

/-- In a program the line feed behind the last line makes no difference. With it, the text
is still a program with the same words, but that the last line break has a character, and
with the same tree, defects and stray names. And it may be left out, unless the character
in front of it goes together with it. -/
theorem final_newline_is_optional (v : Vocabulary) (t : Text) :
    ((parse t).ok = true →
      (parse (t ++ ['\n'])).ok = true ∧
      SameButLastBreak ((significant (layout t).tokens).map Token.word)
        ((significant (layout (t ++ ['\n'])).tokens).map Token.word) ∧
      (parse t).tree.outline Token.unbroken = (parse (t ++ ['\n'])).tree.outline Token.unbroken ∧
      Scene.check v t = Scene.check v (t ++ ['\n']) ∧
      StrayProse.names (parse t) = StrayProse.names (parse (t ++ ['\n']))) ∧
    ((parse (t ++ ['\n'])).ok = true → t.getLast? ≠ some '\\' → t.getLast? ≠ some '\r' →
      (parse t).ok = true) := by
  have hkind : ∀ {k l : Token}, k.unbroken = l.unbroken → k.kind = l.kind :=
    fun h => congrArg Word.kind h
  refine ⟨fun h => ?_, fun h hslash hreturn => ?_⟩
  · have htokens := tokenize_lastLine (sound_of_ok h)
    obtain ⟨houtline, hok⟩ := outline_parse_like hkind (agrees_lastLine htokens)
    have h' : (parse (t ++ ['\n'])).ok = true := hok ▸ h
    exact ⟨h', (layout_lastLine htokens).1, houtline,
      Scene.check_eq_of_outline Token.telling_unbroken v h h' houtline,
      StrayProse.names_eq_of_outline Token.telling_unbroken houtline⟩
  · have htokens := tokenize_lastLine' (sound_of_ok h) ⟨hslash, hreturn⟩
    obtain ⟨-, hok⟩ := outline_parse_like hkind (agrees_lastLine htokens)
    exact hok ▸ h

/-- A block that is open where the text ends, with a comment behind it. -/
def openBlock : Text := "def f():\n    return 1 # một".toList

theorem final_newline_is_optional_openBlock :
    ((parse openBlock).ok = true ∧ (parse (openBlock ++ ['\n'])).ok = true ∧
      Scene.check {} openBlock = Scene.check {} (openBlock ++ ['\n'])) ∧
    openBlock.getLast? ≠ some '\\' ∧ openBlock.getLast? ≠ some '\r' := by
  have hok : (parse openBlock).ok = true := by decide +kernel
  have hwith := (final_newline_is_optional {} openBlock).1 hok
  have hslash : openBlock.getLast? ≠ some '\\' := by decide
  have hreturn : openBlock.getLast? ≠ some '\r' := by decide
  have hwithout := (final_newline_is_optional {} openBlock).2 hwith.1 hslash hreturn
  exact ⟨⟨hwithout, hwith.1, hwith.2.2.2.1⟩, hslash, hreturn⟩

end SceneGate
