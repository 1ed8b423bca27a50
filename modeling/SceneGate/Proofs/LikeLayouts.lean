/-
Layouts of tokens that are alike. The layout looks at the kinds of tokens and at the
columns that blanks and comments lead to; where tokens stand it never asks, nor what trivia
it holds back. So tokens that are alike in this are laid out alike (`Layout.Level.run`), and
texts whose words are alike have trees of the same outline (`outline_parse_like`).
-/
import SceneGate.Proofs.WordReading
import Mathlib.Data.List.Forall2

namespace SceneGate

section

variable {α : Type} (content : Token → α)

/-- Tokens that the layout does not tell from each other; of a token it is kept what
`content` tells, and of blanks and comments the column that they lead to. -/
structure Token.Like (k l : Token) : Prop where
  content : content k = content l
  column : k.kind = .whitespace ∨ k.kind = .comment →
    ∀ column, columnAfter column k.text = columnAfter column l.text

namespace Layout

/-- Words of the same content, and faults in both or in neither. -/
structure Output.Agrees (a b : Output) : Prop where
  words : (significant a.tokens).map content = (significant b.tokens).map content
  faults : a.faults = [] ↔ b.faults = []

/-- Layouts that have come equally far. -/
structure Level (s u : Layout) : Prop where
  levels : s.levels = u.levels
  depth : s.depth = u.depth
  column : s.gap.map Gap.column = u.gap.map Gap.column
  trivia : ∀ g ∈ s.gap, ∀ k ∈ g.held, k.isTrivia = true
  trivia' : ∀ g ∈ u.gap, ∀ k ∈ g.held, k.isTrivia = true

/-- Lays out some tokens, and stops behind them. -/
def advance (s : Layout) : List Token → Layout × Output
  | [] => (s, ⟨[], []⟩)
  | k :: ks =>
    let (s', out) := s.step k
    let (s'', rest) := advance s' ks
    (s'', ⟨out.tokens ++ rest.tokens, out.faults ++ rest.faults⟩)

end Layout

end

namespace Layout

variable {α : Type} {content : Token → α} {s u : Layout} {k l : Token} {ks ls : List Token}

@[simp] theorem advance_nil (s : Layout) : s.advance [] = (s, ⟨[], []⟩) := rfl

theorem advance_cons (s : Layout) (k : Token) (ks : List Token) : s.advance (k :: ks) =
    (((s.step k).1.advance ks).1, ⟨(s.step k).2.tokens ++ ((s.step k).1.advance ks).2.tokens,
      (s.step k).2.faults ++ ((s.step k).1.advance ks).2.faults⟩) := rfl

theorem advance_append (s : Layout) (ks ls : List Token) : s.advance (ks ++ ls) =
    (((s.advance ks).1.advance ls).1,
      ⟨(s.advance ks).2.tokens ++ ((s.advance ks).1.advance ls).2.tokens,
        (s.advance ks).2.faults ++ ((s.advance ks).1.advance ls).2.faults⟩) := by
  induction ks generalizing s with
  | nil => rfl
  | cons k ks ih => simp [advance_cons, ih]

/-- A run lays out the tokens that are left and finishes behind them. -/
theorem run_eq_advance (stop : Nat) (s : Layout) (ks : List Token) : s.run stop ks =
    ⟨(s.advance ks).2.tokens ++ (s.advance ks).1.finish stop, (s.advance ks).2.faults⟩ := by
  induction ks generalizing s with
  | nil => rfl
  | cons k ks ih => simp [run, advance_cons, ih]

/-- A run goes on behind the tokens that it lays out first. -/
theorem run_append (stop : Nat) (s : Layout) (ks ls : List Token) : s.run stop (ks ++ ls) =
    ⟨(s.advance ks).2.tokens ++ ((s.advance ks).1.run stop ls).tokens,
      (s.advance ks).2.faults ++ ((s.advance ks).1.run stop ls).faults⟩ := by
  induction ks generalizing s with
  | nil => rfl
  | cons k ks ih => simp [run, advance_cons, ih]

namespace Output.Agrees

variable {a b a' b' : Output}

theorem refl (a : Output) : a.Agrees content a := ⟨rfl, Iff.rfl⟩

theorem append (h : a.Agrees content b) (h' : a'.Agrees content b') :
    Agrees content ⟨a.tokens ++ a'.tokens, a.faults ++ a'.faults⟩
      ⟨b.tokens ++ b'.tokens, b.faults ++ b'.faults⟩ where
  words := by
    simp only [significant_append, List.map_append, h.words, h'.words]
  faults := by
    simp only [List.append_eq_nil_iff, h.faults, h'.faults]

theorem nothing {ks ls : List Token} (hk : ∀ k ∈ ks, k.isTrivia = true)
    (hl : ∀ l ∈ ls, l.isTrivia = true) : Agrees content ⟨ks, []⟩ ⟨ls, []⟩ where
  words := by rw [significant_of_trivia hk, significant_of_trivia hl]
  faults := Iff.rfl

end Output.Agrees

theorem Level.refl (h : ∀ g ∈ s.gap, ∀ k ∈ g.held, k.isTrivia = true) : s.Level s :=
  ⟨rfl, rfl, rfl, h, h⟩

theorem Level.gap_eq_none (h : s.Level u) (hs : s.gap = none) : u.gap = none := by
  have hcolumn := h.column
  rw [hs] at hcolumn
  exact Option.map_eq_none_iff.1 hcolumn.symm

theorem Level.exists_gap {g : Gap} (h : s.Level u) (hs : s.gap = some g) :
    ∃ g', u.gap = some g' ∧ g.column = g'.column := by
  have hcolumn := h.column
  rw [hs] at hcolumn
  obtain ⟨g', hu, hg⟩ := Option.map_eq_some_iff.1 hcolumn.symm
  exact ⟨g', hu, hg.symm⟩

variable (hkind : ∀ {k l : Token}, content k = content l → k.kind = l.kind)
  (hword : ∀ {k l : Token}, k.word = l.word → content k = content l)

include hkind hword

omit hkind in
theorem agrees_dedents (n o o' : Nat) :
    (dedents n o).map content = (dedents n o').map content := by
  simp only [dedents, List.map_replicate]
  congr 1
  exact hword rfl

/-- A word that is kept, with the layout tokens in front of it. -/
theorem agrees_line {held held' : List Token} {n o o' : Nat} {fs fs' : List Fault}
    (hheld : ∀ k ∈ held, k.isTrivia = true) (hheld' : ∀ k ∈ held', k.isTrivia = true)
    (hkl : k.Like content l) (hk : k.isTrivia = false) (hf : fs = [] ↔ fs' = []) :
    Output.Agrees content ⟨dedents n o ++ held ++ [k], fs⟩ ⟨dedents n o' ++ held' ++ [l], fs'⟩ where
  words := by
    have hl : l.isTrivia = false := by
      rw [Token.isTrivia, ← hkind hkl.content]
      exact hk
    have hself {j : Token} (hj : j.isTrivia = false) : significant [j] = [j] := by
      simp [significant, hj]
    simp only [significant_append, significant_dedents, significant_of_trivia hheld,
      significant_of_trivia hheld', hself hk, hself hl, List.map_append, List.map_cons,
      List.map_nil, hkl.content, agrees_dedents hword n o o']
  faults := hf

theorem Level.beginLine {g g' : Gap} (h : s.Level u) (hs : s.gap = some g) (hu : u.gap = some g')
    (hcolumn : g.column = g'.column) (hkl : k.Like content l) (hk : k.isTrivia = false) :
    (s.beginLine g k).2.Agrees content (u.beginLine g' l).2 ∧
      (s.beginLine g k).1.Level (u.beginLine g' l).1 := by
  have hheld := h.trivia g hs
  have hheld' := h.trivia' g' hu
  have hdepth : depthAfter s.depth k.kind = depthAfter u.depth l.kind := by
    rw [h.depth, hkind hkl.content]
  unfold Layout.beginLine
  dsimp only
  rw [h.levels, hcolumn, hdepth]
  split
  · have hindent : significant [(⟨.indent, [], k.offset⟩ : Token)] = [⟨.indent, [], k.offset⟩] := rfl
    have hindent' : significant [(⟨.indent, [], l.offset⟩ : Token)] = [⟨.indent, [], l.offset⟩] := rfl
    have hline : Output.Agrees content ⟨dedents 0 0 ++ [] ++ [k], []⟩ ⟨dedents 0 0 ++ [] ++ [l], []⟩ :=
      agrees_line hkind hword (by simp) (by simp) hkl hk Iff.rfl
    have hopen : Output.Agrees content ⟨g.held ++ [⟨.indent, [], k.offset⟩], []⟩
        ⟨g'.held ++ [⟨.indent, [], l.offset⟩], []⟩ := by
      refine ⟨?_, Iff.rfl⟩
      simp only [significant_append, significant_of_trivia hheld, significant_of_trivia hheld',
        hindent, hindent', List.nil_append, List.map_cons, List.map_nil]
      exact congrArg (· :: []) (hword rfl)
    have hboth := hopen.append hline
    simp only [dedents, List.replicate_zero, List.nil_append, List.append_assoc,
      List.cons_append] at hboth
    exact ⟨hboth, rfl, rfl, rfl, by simp, by simp⟩
  split
  · exact ⟨agrees_line hkind hword hheld hheld' hkl hk Iff.rfl, rfl, rfl, rfl, by simp, by simp⟩
  · exact ⟨agrees_line hkind hword hheld hheld' hkl hk (by simp), rfl, rfl, rfl, by simp, by simp⟩

/-- Tokens that are alike are laid out alike. -/
theorem Level.step (h : s.Level u) (hkl : k.Like content l) :
    (s.step k).2.Agrees content (u.step l).2 ∧ (s.step k).1.Level (u.step l).1 := by
  have hkl' := hkind hkl.content
  have hone : Output.Agrees content ⟨[k], []⟩ ⟨[l], []⟩ := by
    refine ⟨?_, Iff.rfl⟩
    simp only [significant, List.filter_cons, List.filter_nil, Token.isTrivia, hkl']
    split <;> simp [hkl.content]
  have hdepth : depthAfter s.depth k.kind = depthAfter u.depth l.kind := by rw [h.depth, hkl']
  cases hs : s.gap with
  | none =>
    have hu := h.gap_eq_none hs
    by_cases hn : k.kind = .newline
    · rw [step_newline hs hn, step_newline hu (hkl' ▸ hn), h.depth]
      split
      · exact ⟨hone, h.levels, rfl, rfl, by simp, by simp⟩
      · exact ⟨.nothing (by simp [Token.isTrivia, Kind.isTrivia])
          (by simp [Token.isTrivia, Kind.isTrivia]), h⟩
    · rw [step_behind hs hn, step_behind hu (hkl' ▸ hn)]
      exact ⟨hone, h.levels, hdepth, rfl, by simp, by simp⟩
  | some g =>
    obtain ⟨g', hu, hcolumn⟩ := h.exists_gap hs
    have hnothing : Output.Agrees content ⟨[], []⟩ ⟨[], []⟩ := ⟨rfl, Iff.rfl⟩
    -- what is held back stays trivia
    have hheld {j j' : Token} {c : Nat} (hj : j.isTrivia = true) (hj' : j'.isTrivia = true) :
        Level ⟨s.levels, s.depth, s.lineEnd, some ⟨g.held ++ [j], c⟩⟩
          ⟨u.levels, u.depth, u.lineEnd, some ⟨g'.held ++ [j'], c⟩⟩ := by
      refine ⟨h.levels, h.depth, rfl, ?_, ?_⟩
      · rintro _ ⟨⟩
        exact List.forall_mem_append.2 ⟨h.trivia g hs, by simpa using hj⟩
      · rintro _ ⟨⟩
        exact List.forall_mem_append.2 ⟨h.trivia' g' hu, by simpa using hj'⟩
    by_cases hn : k.kind = .newline
    · rw [step_blankLine hs hn, step_blankLine hu (hkl' ▸ hn)]
      exact ⟨hnothing, hheld rfl rfl⟩
    cases ht : k.kind.isTrivia with
    | true =>
      have hl : l.kind.isTrivia = true := hkl' ▸ ht
      rw [step_trivia hs ht, step_trivia hu hl, ← hkl', ← hcolumn]
      refine ⟨hnothing, ?_⟩
      split
      · exact hheld ht hl
      · rename_i hc
        have hblank : k.kind = .whitespace ∨ k.kind = .comment := by
          revert ht hc
          cases k.kind <;> simp [Kind.isTrivia]
        rw [hkl.column hblank]
        exact hheld ht hl
    | false =>
      rw [step_begin hs hn ht, step_begin hu (hkl' ▸ hn) (hkl' ▸ ht)]
      exact h.beginLine hkind hword hs hu hcolumn hkl ht

theorem Level.advance (h : s.Level u) (hkl : List.Forall₂ (Token.Like content) ks ls) :
    (s.advance ks).2.Agrees content (u.advance ls).2 ∧ (s.advance ks).1.Level (u.advance ls).1 := by
  induction hkl generalizing s u with
  | nil => exact ⟨⟨rfl, Iff.rfl⟩, h⟩
  | cons hkl _ ih =>
    obtain ⟨hout, hnext⟩ := h.step hkind hword hkl
    obtain ⟨hrest, hend⟩ := ih hnext
    exact ⟨hout.append hrest, hend⟩

omit hkind hword in
/-- What a layout holds back is trivia. -/
theorem trivia_advance (ks : List Token) :
    ∀ g ∈ (start.advance ks).1.gap, ∀ k ∈ g.held, k.isTrivia = true := by
  have hself : (start.advance ks).2.Agrees Token.word (start.advance ks).2 ∧
      (start.advance ks).1.Level (start.advance ks).1 :=
    Level.advance (fun h => congrArg Word.kind h) id (.refl (by simp [start]))
      (List.forall₂_same.2 fun _ _ => ⟨rfl, fun _ _ => rfl⟩)
  exact hself.2.trivia

omit hkind in
theorem Level.finish (h : s.Level u) (stop stop' : Nat) :
    Output.Agrees content ⟨s.finish stop, []⟩ ⟨u.finish stop', []⟩ := by
  refine ⟨?_, Iff.rfl⟩
  unfold Layout.finish
  cases hs : s.gap with
  | none =>
    have hend (n o : Nat) : significant (⟨.newline, [], o⟩ :: dedents n o) =
        ⟨.newline, [], o⟩ :: dedents n o := by
      rw [← List.singleton_append, significant_append, significant_dedents]
      rfl
    rw [h.gap_eq_none hs, h.levels]
    simp only [hend, List.map_cons, agrees_dedents hword _ stop stop']
    rw [hword (k := ⟨.newline, [], stop⟩) (l := ⟨.newline, [], stop'⟩) rfl]
  | some g =>
    obtain ⟨g', hu, -⟩ := h.exists_gap hs
    rw [hu, h.levels]
    simp only [significant_append, significant_dedents, significant_of_trivia (h.trivia g hs),
      significant_of_trivia (h.trivia' g' hu), List.append_nil,
      agrees_dedents hword _ s.lineEnd u.lineEnd]

/-- Runs over tokens that are alike give words that are alike. -/
theorem Level.run (h : s.Level u) (hkl : List.Forall₂ (Token.Like content) ks ls)
    (stop stop' : Nat) : (s.run stop ks).Agrees content (u.run stop' ls) := by
  obtain ⟨hout, hlevel⟩ := h.advance hkind hword hkl
  have hboth := hout.append (hlevel.finish hword stop stop')
  simp only [List.append_nil] at hboth
  rwa [run_eq_advance, run_eq_advance]

end Layout

/-! ## Trees -/

/-- Texts whose words are alike, and that both have stray indentation or do not, have
trees of the same outline, and both are programs or neither. -/
theorem outline_parse_like {α : Type} {content : Token → α} {t u : Text}
    (hkind : ∀ {k l : Token}, content k = content l → k.kind = l.kind)
    (h : (layout t).Agrees content (layout u)) :
    (parse t).tree.outline content = (parse u).tree.outline content ∧
      (parse t).ok = (parse u).ok := by
  obtain ⟨b, s, hreads, -⟩ := exists_reading u
  have hself : (Progress.start (layout u).tokens (layout u).faults).Alike content
      (Progress.start (layout u).tokens (layout u).faults) := .refl (Progress.sorted_start ..)
  have hstart : (Progress.start (layout t).tokens (layout t).faults).Alike content
      (Progress.start (layout u).tokens (layout u).faults) :=
    { built := rfl
      words := by rw [Progress.words_start, Progress.words_start, h.words]
      faultless := by simpa [Progress.start] using h.faults
      sorted := Progress.sorted_start ..
      sorted' := Progress.sorted_start .. }
  obtain ⟨houtline, hok⟩ := outline_parse hkind hstart hreads
  obtain ⟨houtline', hok'⟩ := outline_parse hkind hself hreads
  exact ⟨houtline.trans houtline'.symm, Bool.eq_iff_iff.2 (hok.trans hok'.symm)⟩

end SceneGate
