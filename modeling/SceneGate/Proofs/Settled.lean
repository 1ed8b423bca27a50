/-
Layouts told from what they give. A layout adds words to those of the text, and it takes
a line break for a blank where the line goes on behind it; so the words of the text can
be found again (`Word.rawOf`). Whether words could have come out of a layout is seen
from these words alone, from the left to the right (`Settled`): so it can be seen of
words that stand in no text yet, and a text of them is laid out as they stand
(`words_layout_of_settled`).
-/
import SceneGate.Proofs.Stops
import SceneGate.Proofs.Written

namespace SceneGate

/-! ## The words of the text -/

namespace Word

/-- Whether a word is a line break behind which the line goes on. -/
def joins (w : Word) : Bool := w.kind == .whitespace && w.text.getLast? == some '\n'

/-- What the lexer has cut off for a word; nothing, if the layout added the word. -/
def raw (w : Word) : List Word :=
  if w.text = [] then [] else if w.joins then [⟨.newline, w.text⟩] else [w]

/-- What the lexer has cut off for words. -/
def rawOf (ws : List Word) : List Word := ws.flatMap raw

/-- A word that the lexer cuts off and no layout changes, and no line break. -/
structure OnLine (w : Word) : Prop where
  text_ne : w.text ≠ []
  kind : w.kind ∉ Kind.newline :: Kind.addedByLayout
  joins : w.joins = false

/-- A word between two lines. -/
structure Between (w : Word) : Prop where
  text_ne : w.text ≠ []
  trivia : w.kind.isTrivia = true

/-- The column that is reached behind words between two lines. -/
def columnBehind (column : Nat) : List Word → Nat
  | [] => column
  | w :: ws =>
    columnBehind (if w.joins || w.kind == .lineContinuation then 0 else columnAfter column w.text) ws

variable {w : Word} {ws vs : List Word}

@[simp] theorem rawOf_nil : rawOf [] = [] := rfl

@[simp] theorem rawOf_cons (w : Word) (ws : List Word) : rawOf (w :: ws) = w.raw ++ rawOf ws := rfl

@[simp] theorem rawOf_append (ws vs : List Word) : rawOf (ws ++ vs) = rawOf ws ++ rawOf vs :=
  List.flatMap_append

@[simp] theorem raw_indent : indent.raw = [] := rfl

@[simp] theorem raw_end : (⟨.newline, []⟩ : Word).raw = [] := rfl

@[simp] theorem rawOf_dedents (n : Nat) : rawOf (List.replicate n .dedent) = [] :=
  List.flatMap_eq_nil_iff.2 fun _ hw => List.eq_of_mem_replicate hw ▸ rfl

theorem raw_of_joins (h : w.text ≠ []) (hj : w.joins = true) : w.raw = [⟨.newline, w.text⟩] := by
  simp [raw, h, hj]

theorem raw_self (h : w.text ≠ []) (hj : w.joins = false) : w.raw = [w] := by
  simp [raw, h, hj]

theorem OnLine.raw (h : w.OnLine) : w.raw = [w] := raw_self h.text_ne h.joins

theorem joins_eq_false (h : w.kind ≠ .whitespace) : w.joins = false := by simp [joins, h]

/-- The words of a text spell what the words of its layout do. -/
theorem spell_rawOf (ws : List Word) : spell (rawOf ws) = spell ws := by
  induction ws with
  | nil => rfl
  | cons w ws ih =>
    rw [rawOf_cons, spell_append, ih, spell_cons]
    unfold raw
    split
    · rename_i h; simp [h]
    · split <;> simp

theorem columnBehind_append (column : Nat) (ws vs : List Word) :
    columnBehind column (ws ++ vs) = columnBehind (columnBehind column ws) vs := by
  induction ws generalizing column with
  | nil => rfl
  | cons w ws ih => simp [columnBehind, ih]

end Word

namespace Token.Raw

variable {k : Token}

theorem word_onLine (h : k.Raw) (hk : k.kind ≠ .newline) : k.word.OnLine where
  text_ne := h.text_ne
  kind := by simpa [Token.word, hk] using h.kind
  joins := by
    by_cases hw : k.kind = .whitespace
    · have hnone := h.onLine (.inl hw)
      simp only [Word.joins, Token.word, Bool.and_eq_false_iff, beq_eq_false_iff_ne]
      exact .inr fun hlast => hnone (List.mem_of_getLast? hlast)
    · exact Word.joins_eq_false hw

theorem word_between (h : k.Raw) (hk : k.isTrivia = true) : k.word.Between := ⟨h.text_ne, hk⟩

/-- A line break that became a blank. -/
theorem joins_text (h : k.Raw) (hk : k.kind = .newline) :
    Word.joins ⟨.whitespace, k.text⟩ = true := by
  simp [Word.joins, h.ends (.inl hk)]

end Token.Raw

/-! ## What a layout can give -/

/-- Words that a layout can give. `levels` are the indentations of the open blocks, the
innermost first, `depth` is the number of open brackets, and `fresh` says that no logical
line has begun since the last one ended. -/
inductive Settled : (levels : List Nat) → (depth : Nat) → (fresh : Bool) → List Word → Prop
  | stop : Settled levels d false (⟨.newline, []⟩ :: List.replicate levels.length .dedent)
  | stopFresh : (∀ w ∈ held, w.Between) →
      Settled levels d true (List.replicate levels.length .dedent ++ held)
  | endLine : w.kind = .newline → w.text ≠ [] → Settled levels 0 true ws →
      Settled levels 0 false (w :: ws)
  | joinLines : w.joins = true → d ≠ 0 → Settled levels d false ws →
      Settled levels d false (w :: ws)
  | inLine : w.OnLine → Settled levels (Layout.depthAfter d w.kind) false ws →
      Settled levels d false (w :: ws)
  | indent : (∀ w ∈ held, w.Between) → w.OnLine → w.kind.isTrivia = false →
      levels.headD 0 < Word.columnBehind 0 held →
      Settled (Word.columnBehind 0 held :: levels) (Layout.depthAfter d w.kind) false ws →
      Settled levels d true (held ++ .indent :: w :: ws)
  | begin (inner outer : List Nat) : (∀ w ∈ held, w.Between) → w.OnLine →
      w.kind.isTrivia = false → (∀ level ∈ inner, Word.columnBehind 0 held < level) →
      outer.headD 0 = Word.columnBehind 0 held →
      Settled outer (Layout.depthAfter d w.kind) false ws →
      Settled (inner ++ outer) d true (List.replicate inner.length .dedent ++ held ++ w :: ws)

/-- What a gap holds stands between two lines, and leads to its column. -/
structure Gap.Fits (g : Gap) : Prop where
  column : g.column = Word.columnBehind 0 (g.held.map Token.word)
  held : ∀ w ∈ g.held.map Token.word, w.Between

theorem Gap.fits_nil : Gap.Fits ⟨[], 0⟩ := ⟨rfl, by simp⟩

theorem Gap.Fits.concat {g : Gap} {k : Token} {column : Nat} (h : g.Fits) (hk : k.word.Between)
    (hcolumn : column =
      if k.word.joins || k.kind == .lineContinuation then 0 else columnAfter g.column k.text) :
    Gap.Fits ⟨g.held ++ [k], column⟩ where
  column := by
    dsimp only
    rw [hcolumn, h.column, List.map_append, Word.columnBehind_append]
    rfl
  held := by
    rw [List.map_append, List.forall_mem_append]
    exact ⟨h.held, by simpa using hk⟩

namespace Layout

variable {s : Layout} {stop : Nat} {k : Token} {ks : List Token} {g : Gap}

theorem words_dedents (n o : Nat) : (dedents n o).map Token.word = List.replicate n .dedent := by
  simp [dedents, Token.word, Word.dedent]

/-- What a layout gives without a fault are words that a layout can give. -/
theorem settled_run (hraw : ∀ k ∈ ks, k.Raw) (hgap : ∀ g ∈ s.gap, g.Fits)
    (hf : (s.run stop ks).faults = []) :
    Settled s.levels s.depth s.gap.isSome ((s.run stop ks).tokens.map Token.word) := by
  induction ks generalizing s with
  | nil =>
    simp only [run, finish]
    cases hs : s.gap with
    | none =>
      rw [List.map_cons, words_dedents]
      exact .stop
    | some g =>
      have hfits := hgap g hs
      rw [List.map_append, words_dedents]
      exact .stopFresh hfits.held
  | cons k ks ih =>
    obtain ⟨hk, hks⟩ := List.forall_mem_cons.1 hraw
    simp only [run] at hf ⊢
    obtain ⟨hf₁, hf₂⟩ := List.append_eq_nil_iff.1 hf
    have hrest (hgap : ∀ g ∈ (s.step k).1.gap, g.Fits) := ih hks hgap hf₂
    rw [List.map_append]
    cases hs : s.gap with
    | none =>
      by_cases hn : k.kind = .newline
      · rw [step_newline hs hn] at hrest ⊢
        split at hrest
        · rename_i hd
          rw [if_pos hd, hd]
          rw [hd] at hrest
          exact .endLine hn hk.text_ne (hrest (by simp [Gap.fits_nil]))
        · rename_i hd
          rw [if_neg hd]
          have := hrest (by simp [hs])
          rw [hs] at this
          exact .joinLines (hk.joins_text hn) hd this
      · rw [step_behind hs hn] at hrest ⊢
        exact .inLine (hk.word_onLine hn) (hrest (by simp))
    | some g =>
      have hfits := hgap g hs
      by_cases hn : k.kind = .newline
      · rw [step_blankLine hs hn] at hrest ⊢
        refine hrest ?_
        rintro _ ⟨⟩
        exact hfits.concat ⟨hk.text_ne, rfl⟩ (by simp [Token.word, hk.joins_text hn])
      cases ht : k.kind.isTrivia with
      | true =>
        rw [step_trivia hs ht] at hrest ⊢
        refine hrest ?_
        rintro _ ⟨⟩
        exact hfits.concat (hk.word_between ht) (by simp [(hk.word_onLine hn).joins])
      | false =>
        rw [step_begin hs hn ht] at hrest hf₁ ⊢
        have hword := hk.word_onLine hn
        unfold beginLine at hrest hf₁ ⊢
        dsimp only at hrest hf₁ ⊢
        split at hrest
        · rename_i hdeeper
          rw [if_pos hdeeper]
          rw [hfits.column] at hdeeper hrest ⊢
          have := Settled.indent hfits.held hword ht hdeeper (hrest (by simp))
          simpa [Token.word, Word.indent] using this
        · rename_i hnot
          rw [if_neg hnot] at hf₁ ⊢
          split at hrest
          · rename_i houter
            rw [if_pos houter]
            have hsplit : s.levels.takeWhile (g.column < ·) ++ s.levels.dropWhile (g.column < ·) =
                s.levels := List.takeWhile_append_dropWhile
            have hlen : s.levels.length - (s.levels.dropWhile (g.column < ·)).length =
                (s.levels.takeWhile (g.column < ·)).length := by
              have := congrArg List.length hsplit
              rw [List.length_append] at this
              omega
            have hinner : ∀ level ∈ s.levels.takeWhile (g.column < ·),
                Word.columnBehind 0 (g.held.map Token.word) < level := fun level hl => by
              rw [← hfits.column]
              simpa using List.all_eq_true.1 List.all_takeWhile level hl
            have := Settled.begin _ _ hfits.held hword ht hinner (houter.trans hfits.column)
              (hrest (by simp))
            rw [hsplit] at this
            simpa [hlen, words_dedents] using this
          · rename_i houter
            rw [if_neg houter] at hf₁
            cases hf₁

/-- What stands between two lines is held back. -/
theorem run_held (stop : Nat) {held : List Word} (hheld : ∀ w ∈ held, w.Between)
    {front : List Token} (rest : List Token) (hfront : front.map Token.word = Word.rawOf held) (hs : s.gap = some g) :
    ∃ back, back.map Token.word = held ∧ s.run stop (front ++ rest) =
      (⟨s.levels, s.depth, s.lineEnd,
        some ⟨g.held ++ back, Word.columnBehind g.column held⟩⟩ : Layout).run stop rest := by
  induction held generalizing s g front with
  | nil =>
    obtain rfl : front = [] := by simpa using hfront
    exact ⟨[], rfl, by simp [Word.columnBehind, ← hs]⟩
  | cons w held ih =>
    obtain ⟨hw, hmore⟩ := List.forall_mem_cons.1 hheld
    -- one token is held back for the word, whichever way it was cut off
    have hone : ∃ k l front', front = k :: front' ∧ front'.map Token.word = Word.rawOf held ∧
        l.word = w ∧ s.step k = (⟨s.levels, s.depth, s.lineEnd, some ⟨g.held ++ [l],
          if w.joins || w.kind == .lineContinuation then 0 else columnAfter g.column w.text⟩⟩,
          ⟨[], []⟩) := by
      cases hj : w.joins with
      | true =>
        rw [Word.rawOf_cons, Word.raw_of_joins hw.text_ne hj] at hfront
        obtain ⟨k, front', rfl, hk, hfront'⟩ := List.map_eq_cons_iff.1 hfront
        have hkind : k.kind = .newline := congrArg Word.kind hk
        have htext : k.text = w.text := congrArg Word.text hk
        have hwhite : w.kind = .whitespace := by
          simp only [Word.joins, Bool.and_eq_true, beq_iff_eq] at hj
          exact hj.1
        refine ⟨k, ⟨.whitespace, k.text, k.offset⟩, front', rfl, hfront', ?_, ?_⟩
        · rw [Token.word, htext, ← hwhite]
        · simp [step_blankLine hs hkind]
      | false =>
        rw [Word.rawOf_cons, Word.raw_self hw.text_ne hj] at hfront
        obtain ⟨k, front', rfl, rfl, hfront'⟩ := List.map_eq_cons_iff.1 hfront
        refine ⟨k, k, front', rfl, hfront', rfl, ?_⟩
        rw [step_trivia hs hw.trivia]
        simp [Token.word]
    obtain ⟨k, l, front', rfl, hfront', rfl, hstep⟩ := hone
    obtain ⟨back, hback, hrun⟩ := ih (s := (s.step k).1) hmore hfront' (by rw [hstep])
    rw [hstep] at hrun
    refine ⟨l :: back, by simp [hback], ?_⟩
    simp only [List.cons_append, run, hstep, hrun]
    simp [Word.columnBehind]

/-- A line begins after what is held back; what that adds is `front`. -/
theorem run_begin (stop : Nat) {held : List Word} {w : Word} (hheld : ∀ w ∈ held, w.Between)
    (hw : w.OnLine) (ht : w.kind.isTrivia = false) (hs : s.gap = some ⟨[], 0⟩)
    (front : List Word) (levels : List Nat) (hline : ∀ {back : List Token} {k : Token}, back.map Token.word = held → k.word = w →
      ∃ out : List Token, out.map Token.word = front ∧
        s.beginLine ⟨back, Word.columnBehind 0 held⟩ k =
          (⟨levels, depthAfter s.depth k.kind, s.lineEnd, none⟩, ⟨out, []⟩))
    {ws : List Word} (hks : ks.map Token.word = Word.rawOf (held ++ w :: ws)) :
    ∃ rest out, rest.map Token.word = Word.rawOf ws ∧ out.map Token.word = front ∧
      s.run stop ks =
        ⟨out ++ (run stop ⟨levels, depthAfter s.depth w.kind, s.lineEnd, none⟩ rest).tokens,
          (run stop ⟨levels, depthAfter s.depth w.kind, s.lineEnd, none⟩ rest).faults⟩ := by
  rw [Word.rawOf_append, Word.rawOf_cons, hw.raw, List.singleton_append] at hks
  obtain ⟨front', ts, rfl, hfront', hts⟩ := List.map_eq_append_iff.1 hks
  obtain ⟨k, rest, rfl, rfl, hrest⟩ := List.map_eq_cons_iff.1 hts
  obtain ⟨back, hback, hrun⟩ := run_held stop hheld (k :: rest) hfront' hs
  obtain ⟨out, hout, hbegin⟩ := hline hback rfl
  refine ⟨rest, out, hrest, hout, ?_⟩
  have hn : k.kind ≠ .newline := fun h => hw.kind (by simp [Token.word, h])
  have hsame : (⟨s.levels, s.depth, s.lineEnd, some ⟨[] ++ back, Word.columnBehind 0 held⟩⟩ :
      Layout).beginLine ⟨[] ++ back, Word.columnBehind 0 held⟩ k =
        s.beginLine ⟨back, Word.columnBehind 0 held⟩ k := rfl
  rw [hrun, run, step_begin rfl hn ht, hsame, hbegin]
  rfl

/-- Words that a layout can give are laid out as they are. -/
theorem run_of_settled {levels : List Nat} {d : Nat} {fresh : Bool} {ws : List Word}
    (h : Settled levels d fresh ws) (hl : s.levels = levels) (hd : s.depth = d)
    (hg : s.gap = bif fresh then some ⟨[], 0⟩ else none)
    (hks : ks.map Token.word = Word.rawOf ws) :
    (s.run stop ks).faults = [] ∧ (s.run stop ks).tokens.map Token.word = ws := by
  induction h generalizing s ks with
  | stop =>
    obtain rfl : ks = [] := by simpa using hks
    simp [run, finish, hg, hl, words_dedents, Token.word]
  | @stopFresh held levels _ hheld =>
    rw [Word.rawOf_append, Word.rawOf_dedents, List.nil_append] at hks
    obtain ⟨back, hback, hrun⟩ := run_held stop hheld [] hks hg
    rw [List.append_nil] at hrun
    rw [hrun]
    simp [run, finish, hl, words_dedents, hback]
  | @endLine w ws levels hk hne _ ih =>
    rw [Word.rawOf_cons, Word.raw_self hne (Word.joins_eq_false (by simp [hk]))] at hks
    obtain ⟨k, rest, rfl, rfl, hrest⟩ := List.map_eq_cons_iff.1 hks
    have hstep := step_newline hg hk
    rw [if_pos hd] at hstep
    obtain ⟨hf, hout⟩ := ih (s := (s.step k).1) (by rw [hstep]; exact hl)
      (by rw [hstep]; exact hd) (by rw [hstep]; rfl) hrest
    simp only [run]
    rw [hstep] at hf hout ⊢
    exact ⟨hf, by simp [hout]⟩
  | @joinLines d levels ws w hj hne _ ih =>
    have htext : w.text ≠ [] := fun h => by simp [Word.joins, h] at hj
    have hwhite : w.kind = .whitespace := by
      simp only [Word.joins, Bool.and_eq_true, beq_iff_eq] at hj
      exact hj.1
    rw [Word.rawOf_cons, Word.raw_of_joins htext hj] at hks
    obtain ⟨k, rest, rfl, hk, hrest⟩ := List.map_eq_cons_iff.1 hks
    have hkind : k.kind = .newline := congrArg Word.kind hk
    have hword : (⟨.whitespace, k.text, k.offset⟩ : Token).word = w := by
      rw [Token.word, show k.text = w.text from congrArg Word.text hk, ← hwhite]
    have hstep := step_newline hg hkind
    rw [if_neg (hd ▸ hne)] at hstep
    obtain ⟨hf, hout⟩ := ih hl hd hg hrest
    simp only [run, hstep]
    exact ⟨hf, by simp [hout, hword]⟩
  | @inLine w levels d ws hw _ ih =>
    rw [Word.rawOf_cons, hw.raw] at hks
    obtain ⟨k, rest, rfl, rfl, hrest⟩ := List.map_eq_cons_iff.1 hks
    have hn : k.kind ≠ .newline := fun h => hw.kind (by simp [Token.word, h])
    have hstep := step_behind hg hn
    obtain ⟨hf, hout⟩ := ih (s := (s.step k).1) (by rw [hstep]; exact hl)
      (by rw [hstep, ← hd]; rfl) (by rw [hstep]; rfl) hrest
    simp only [run]
    rw [hstep] at hf hout ⊢
    exact ⟨hf, by simp [hout]⟩
  | @indent held levels d ws w hheld hw ht hdeeper _ ih =>
    have hraw : Word.rawOf (held ++ .indent :: w :: ws) = Word.rawOf (held ++ w :: ws) := by simp
    rw [hraw] at hks
    obtain ⟨rest, out, hrest, hout, hrun⟩ := run_begin stop hheld hw ht hg (held ++ [.indent, w])
      (Word.columnBehind 0 held :: levels)
      (fun {back k} hback hk => ⟨back ++ [⟨.indent, [], k.offset⟩, k],
        by simp [hback, ← hk, Token.word, Word.indent], by
          unfold beginLine
          rw [if_pos (by rw [hl]; exact hdeeper), hl]⟩) hks
    obtain ⟨hf, hout'⟩ := ih (s := ⟨Word.columnBehind 0 held :: levels, depthAfter s.depth w.kind,
      s.lineEnd, none⟩) rfl (by rw [hd]) rfl hrest
    rw [hrun]
    exact ⟨hf, by simp [hout, hout']⟩
  | @begin held d ws w inner outer hheld hw ht hinner houter _ ih =>
    have hraw : Word.rawOf (List.replicate inner.length .dedent ++ held ++ w :: ws) =
        Word.rawOf (held ++ w :: ws) := by simp
    rw [hraw] at hks
    have hdrop : (inner ++ outer).dropWhile (Word.columnBehind 0 held < ·) = outer := by
      rw [List.dropWhile_append_of_pos (by simpa using hinner)]
      exact WordLine.dropWhile_of_le (Nat.le_of_eq houter)
    have hnot : ¬ (inner ++ outer).headD 0 < Word.columnBehind 0 held := by
      cases inner with
      | nil => exact Nat.not_lt.2 (Nat.le_of_eq houter.symm)
      | cons level inner =>
        have := hinner level (by simp)
        simp only [List.cons_append, List.headD_cons]
        omega
    obtain ⟨rest, out, hrest, hout, hrun⟩ := run_begin stop hheld hw ht hg
      (List.replicate inner.length .dedent ++ held ++ [w]) outer
      (fun {back k} hback hk => ⟨dedents inner.length s.lineEnd ++ back ++ [k],
        by simp [hback, hk, words_dedents], by
          unfold beginLine
          rw [hl, if_neg hnot, hdrop, if_pos houter]
          simp⟩) hks
    obtain ⟨hf, hout'⟩ := ih (s := ⟨outer, depthAfter s.depth w.kind, s.lineEnd, none⟩) rfl
      (by rw [hd]) rfl hrest
    rw [hrun]
    exact ⟨hf, by simp [hout, hout']⟩

/-- The words of a layout are those of the text, with what the layout added. -/
theorem Steps.rawOf_eq {s' : Layout} {out : Output} (h : Steps s k s' out) (hk : k.Raw) :
    Word.rawOf (out.tokens.map Token.word) ++ Word.rawOf (s'.held.map Token.word) =
      Word.rawOf (s.held.map Token.word) ++ [k.word] := by
  have hself (hn : k.kind ≠ .newline) : k.word.raw = [k.word] := (hk.word_onLine hn).raw
  have hnewline (hn : k.kind = .newline) : k.word.raw = [k.word] :=
    Word.raw_self hk.text_ne (Word.joins_eq_false (by simp [Token.word, hn]))
  have hblank (hn : k.kind = .newline) :
      (⟨.whitespace, k.text, k.offset⟩ : Token).word.raw = [k.word] := by
    rw [Token.word, Token.word, Word.raw_of_joins hk.text_ne (hk.joins_text hn), hn]
  cases h with
  | endLine hg hn => simp [held, hg, hnewline hn]
  | joinLines hg hn => simp [held, hg, hblank hn]
  | inLine hg hn => simp [held, hg, hself hn]
  | blankLine hg hn => simp [held, hg, hblank hn]
  | continuation hg hn => simp [held, hg, hself (by simp [hn])]
  | trivia hg hn => simp [held, hg, hself (by rcases hn with hn | hn <;> simp [hn])]
  | indent hg hn =>
    have hindent : (⟨.indent, [], k.offset⟩ : Token).word.raw = [] := rfl
    simp [held, hg, hself hn, hindent]
  | dedent _ _ hg hn | stray _ _ hg hn => simp [held, hg, hself hn, words_dedents]

theorem rawOf_run (hraw : ∀ k ∈ ks, k.Raw) : Word.rawOf ((s.run stop ks).tokens.map Token.word) =
    Word.rawOf (s.held.map Token.word) ++ ks.map Token.word := by
  induction ks generalizing s with
  | nil =>
    simp only [run, finish]
    have hend : (⟨.newline, [], stop⟩ : Token).word.raw = [] := rfl
    cases hs : s.gap with
    | none => simp [held, hs, words_dedents, hend]
    | some g => simp [held, hs, words_dedents]
  | cons k ks ih =>
    obtain ⟨hk, hks⟩ := List.forall_mem_cons.1 hraw
    rw [run, List.map_append, Word.rawOf_append, ih hks, ← List.append_assoc,
      (steps_step s k).rawOf_eq hk]
    simp

end Layout

/-! ## Texts -/

variable {t : Text} {ws : List Word}

/-- The words of a text are those of its layout that the layout did not add. -/
theorem rawOf_layout (t : Text) :
    Word.rawOf ((layout t).tokens.map Token.word) = (tokenize t).map Token.word :=
  Layout.rawOf_run fun _ hk => raw_tokenize hk

/-- The words of a text are cut off one after the other. -/
theorem allCut_tokenizeFrom (o : Nat) (t : Text) :
    Word.AllCut ((tokenizeFrom o t).map Token.word) [] := by
  fun_induction tokenizeFrom o t with
  | case1 => trivial
  | case2 o c cs kind n h text ih =>
    refine ⟨⟨c, cs.take n, rfl, ?_⟩, ih⟩
    have hspell : Word.spell ((tokenizeFrom (o + text.bytes) (cs.drop n)).map Token.word) =
        cs.drop n := by
      rw [Word.spell, List.flatMap_map]
      exact spelling_tokenizeFrom _ _
    have hn : n ≤ cs.length := by
      have := munch_le c cs
      rwa [h] at this
    rw [List.append_nil, hspell, List.take_append_drop, h, List.length_take, Nat.min_eq_left hn]
    rfl

/-- What a layout without faults gives could have come out of a layout, and its words
are cut off one after the other. -/
theorem settled_layout (h : (layout t).faults = []) :
    Settled [] 0 true ((layout t).tokens.map Token.word) ∧
      Word.AllCut (Word.rawOf ((layout t).tokens.map Token.word)) [] := by
  refine ⟨Layout.settled_run (fun _ hk => raw_tokenize hk) ?_ h, ?_⟩
  · rintro _ ⟨⟩
    exact Gap.fits_nil
  · rw [rawOf_layout]
    exact allCut_tokenizeFrom 0 t

/-- A text of words that a layout can give, and that are cut off one after the other, is
laid out as these words. -/
theorem words_layout_of_settled (h : Settled [] 0 true ws) (hcut : Word.AllCut (Word.rawOf ws) []) :
    (layout (Word.spell ws)).faults = [] ∧
      (layout (Word.spell ws)).tokens.map Token.word = ws := by
  have hwords : (tokenize (Word.spell ws)).map Token.word = Word.rawOf ws := by
    rw [← Word.spell_rawOf]
    exact Word.map_word_tokenizeFrom hcut
  exact Layout.run_of_settled h rfl rfl rfl hwords

end SceneGate
