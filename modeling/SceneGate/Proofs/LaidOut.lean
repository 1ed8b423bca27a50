/-
Where logical lines begin, and how far they are indented.

Both are told by the text alone: a word begins a logical line if the word before
it is a line break that ends one (`beginsLine`), and its indentation is the
column where it stands on its line of the text (`indentationAt`). The layout of
a text without stray indentation follows them (`laidOut_layout`): a line that
begins where no block opens or ends has the indentation of the block it stands
in, and a block opens only before a line that is indented more.
-/
import SceneGate.Proofs.LayoutText
import SceneGate.Proofs.RawTokens

namespace SceneGate

/-! ## Lines and columns -/

namespace Text

/-- What stands on the last line of a text. -/
def lastLine (t : Text) : Text := (t.reverse.takeWhile (· != '\n')).reverse

/-- The part of a text before an offset. -/
def before (t : Text) (offset : Nat) : Text := ((t.cut? offset).map Prod.fst).getD []

theorem lastLine_append {a b : Text} (h : '\n' ∉ b) : lastLine (a ++ b) = lastLine a ++ b := by
  have hb : ∀ c ∈ b.reverse, (c != '\n') = true := by
    intro c hc
    simp only [bne_iff_ne]
    rintro rfl
    exact h (List.mem_reverse.1 hc)
  rw [lastLine, lastLine, List.reverse_append, List.takeWhile_append_of_pos hb, List.reverse_append,
    List.reverse_reverse]

theorem lastLine_of_getLast? {t : Text} (h : t.getLast? = some '\n') : lastLine t = [] := by
  obtain ⟨front, rfl⟩ := List.getLast?_eq_some_iff.1 h
  simp [lastLine]

theorem before_append (a b : Text) : before (a ++ b) a.bytes = a := by simp [before]

end Text

theorem columnAfter_append (column : Nat) (a b : Text) :
    columnAfter column (a ++ b) = columnAfter (columnAfter column a) b := by
  induction a generalizing column with
  | nil => rfl
  | cons c cs ih => exact ih _

/-- The column reached at the end of a text, on its last line. -/
def endColumn (t : Text) : Nat := columnAfter 0 t.lastLine

theorem endColumn_append {a b : Text} (h : '\n' ∉ b) :
    endColumn (a ++ b) = columnAfter (endColumn a) b := by
  rw [endColumn, Text.lastLine_append h, columnAfter_append, endColumn]

theorem endColumn_of_getLast? {a b : Text} (h : b.getLast? = some '\n') :
    endColumn (a ++ b) = 0 := by
  have hlast : (a ++ b).getLast? = some '\n' := by simp [List.getLast?_append, h]
  rw [endColumn, Text.lastLine_of_getLast? hlast, columnAfter]

/-- The column of an offset on its line of the text. -/
def indentationAt (t : Text) (offset : Nat) : Nat := endColumn (t.before offset)

/-- A token that means something and has characters: no trivia, no layout. -/
def Token.isWord (k : Token) : Bool := !k.isTrivia && !k.text.isEmpty

/-- Whether the last word ends a logical line, or there is none. -/
def lineEnded (ts : List Token) : Bool :=
  (ts.filter Token.isWord).getLast?.all fun k => k.kind == .newline

/-- Whether a logical line begins with a token. -/
def beginsLine (ts : List Token) (k : Token) : Bool :=
  lineEnded (ts.filter fun j => j.offset < k.offset)

theorem lineEnded_append_of_trivia {ts us : List Token} (h : ∀ k ∈ us, k.isWord = false) :
    lineEnded (ts ++ us) = lineEnded ts := by
  have hnone : us.filter Token.isWord = [] := List.filter_eq_nil_iff.2 fun k hk => by simp [h k hk]
  simp [lineEnded, hnone]

theorem Token.isWord_eq_false_of_trivia {k : Token} (h : k.isTrivia = true) : k.isWord = false := by
  simp [isWord, h]

theorem Token.Raw.isWord {k : Token} (h : k.Raw) (ht : k.isTrivia = false) : k.isWord = true := by
  simp [Token.isWord, ht, h.text_ne]

theorem lineEnded_concat {ts : List Token} {k : Token} (h : k.isWord = true) :
    lineEnded (ts ++ [k]) = (k.kind == .newline) := by
  simp [lineEnded, h]

theorem Chained.range {o : Nat} {ts : List Token} (h : Chained o ts) :
    ∀ k ∈ ts, o ≤ k.offset ∧ k.stop ≤ o + (spelling ts).bytes := by
  induction ts generalizing o with
  | nil => simp
  | cons t ts ih =>
    obtain ⟨rfl, hts⟩ := h
    intro k hk
    rcases List.mem_cons.1 hk with rfl | hk
    · simp [Token.stop]
    · obtain ⟨hlow, hhigh⟩ := ih hts k hk
      simp only [spelling_cons, Text.bytes_append]
      omega

theorem Token.offset_lt_stop {k : Token} (h : k.isWord = true) : k.offset < k.stop := by
  cases ht : k.text with
  | nil => simp [isWord, ht] at h
  | cons c cs =>
    have := c.utf8Size_pos
    simp only [stop, ht, Text.bytes_cons]
    omega

theorem offset_eq {before after : List Token} {k : Token} {o : Nat}
    (h : Chained o (before ++ k :: after)) : k.offset = o + (spelling before).bytes :=
  (chained_append.1 h).2.1

/-- Among tokens that stand one behind the other, the words that begin before a
token are those in front of it. -/
theorem beginsLine_eq {before after : List Token} {k : Token} {o : Nat}
    (h : Chained o (before ++ k :: after)) :
    beginsLine (before ++ k :: after) k = lineEnded before := by
  have hk := offset_eq h
  have hbefore := (chained_append.1 h).1.range
  have hafter := (chained_append.1 h).2.range
  have hwords : ((before ++ k :: after).filter fun j => j.offset < k.offset).filter Token.isWord =
      before.filter Token.isWord := by
    rw [List.filter_filter, List.filter_append]
    have hnone : (k :: after).filter (fun j => j.isWord && decide (j.offset < k.offset)) = [] := by
      refine List.filter_eq_nil_iff.2 fun j hj => ?_
      have := (hafter j hj).1
      simp only [Bool.and_eq_true, decide_eq_true_eq]
      omega
    have hall : before.filter (fun j => j.isWord && decide (j.offset < k.offset)) =
        before.filter Token.isWord := by
      refine List.filter_congr fun j hj => ?_
      cases hw : j.isWord with
      | false => rfl
      | true =>
        have := Token.offset_lt_stop hw
        have := (hbefore j hj).2
        simp only [Bool.true_and, decide_eq_true_eq]
        omega
    rw [hnone, hall, List.append_nil]
  rw [beginsLine, lineEnded, hwords, lineEnded]

theorem indentationAt_eq {before after : List Token} {k : Token}
    (h : Chained 0 (before ++ k :: after)) :
    indentationAt (spelling (before ++ k :: after)) k.offset = endColumn (spelling before) := by
  rw [indentationAt, offset_eq h, Nat.zero_add, spelling_append, Text.before_append]

/-! ## Words with their layout -/

/-- The tokens that are not trivia. -/
def significant (ts : List Token) : List Token := ts.filter fun k => !k.isTrivia

/-- Words and layout tokens that follow the indentation of their lines. `levels`
are the indentations of the open blocks, the innermost first, and `fresh` says
that no logical line has begun since the last one ended. Blocks open and end only
there; at the end of the text no block is open. -/
inductive LaidOut (begins : Token → Bool) (width : Token → Nat) :
    (levels : List Nat) → (fresh : Bool) → List Token → Prop
  | stop : LaidOut begins width [] fresh []
  | newline : k.kind = .newline → begins k = false → LaidOut begins width levels true ks →
      LaidOut begins width levels false (k :: ks)
  | indent : k.kind = .indent → levels.headD 0 < width k →
      LaidOut begins width (width k :: levels) true ks →
      LaidOut begins width levels true (k :: ks)
  | dedent : k.kind = .dedent → LaidOut begins width levels true ks →
      LaidOut begins width (level :: levels) true (k :: ks)
  | word : k.kind ∉ Kind.newline :: Kind.addedByLayout → begins k = fresh →
      (fresh = true → width k = levels.headD 0) → LaidOut begins width levels false ks →
      LaidOut begins width levels fresh (k :: ks)

section Layout

variable {begins : Token → Bool} {width : Token → Nat} {s s' : Layout} {t : Token}
  {out : Layout.Output} {before rest : List Token}

theorem LaidOut.dedents {inner outer : List Nat} (o : Nat)
    (h : LaidOut begins width outer true rest) :
    LaidOut begins width (inner ++ outer) true (Layout.dedents inner.length o ++ rest) := by
  induction inner with
  | nil => exact h
  | cons w inner ih => exact .dedent rfl ih

@[simp] theorem significant_append (ts us : List Token) :
    significant (ts ++ us) = significant ts ++ significant us := List.filter_append ..

theorem significant_of_trivia {ts : List Token} (h : ∀ k ∈ ts, k.isTrivia = true) :
    significant ts = [] :=
  List.filter_eq_nil_iff.2 fun k hk => by simp [h k hk]

@[simp] theorem significant_dedents (n o : Nat) :
    significant (Layout.dedents n o) = Layout.dedents n o :=
  List.filter_eq_self.2 fun k hk => by
    simp [Token.isTrivia, Layout.kind_of_mem_dedents hk, Kind.isTrivia]

namespace Layout

/-- How the layout stands to the tokens it has given out, `before`: whether a
logical line has begun since the last one ended, and where the present line of the
text has come to. -/
structure Aligned (s : Layout) (before : List Token) : Prop where
  fresh : lineEnded before = s.gap.isSome
  column : ∀ g, s.gap = some g → g.column = endColumn (spelling before ++ spelling g.held)
  trivia : ∀ g, s.gap = some g → ∀ k ∈ g.held, k.isTrivia = true

theorem aligned_none (hf : lineEnded before = false) (hg : s.gap = none) : s.Aligned before where
  fresh := by rw [hf, hg]; rfl
  column g h := by rw [hg] at h; cases h
  trivia g h := by rw [hg] at h; cases h

theorem aligned_some {g : Gap} (hg : s.gap = some g) (hf : lineEnded before = true)
    (hc : g.column = endColumn (spelling before ++ spelling g.held))
    (ht : ∀ k ∈ g.held, k.isTrivia = true) : s.Aligned before where
  fresh := by rw [hf, hg]; rfl
  column g' h := by rw [hg] at h; cases h; exact hc
  trivia g' h := by rw [hg] at h; cases h; exact ht

/-- A gap that goes on: what is added to it is trivia. -/
theorem Aligned.gap {g : Gap} {k : Token} {column : Nat} (ha : s.Aligned before)
    (hg : s.gap = some g) (hg' : s'.gap = some ⟨g.held ++ [k], column⟩) (hk : k.isTrivia = true)
    (hc : column = endColumn ((spelling before ++ spelling g.held) ++ k.text)) :
    s'.Aligned (before ++ []) := by
  rw [List.append_nil]
  refine aligned_some hg' (by rw [ha.fresh, hg]; rfl) (by simp [hc]) fun j hj => ?_
  rcases List.mem_append.1 hj with hj | hj
  · exact ha.trivia g hg j hj
  · rw [List.mem_singleton.1 hj]; exact hk

/-- The tokens before a word at the beginning of a line are no words. -/
theorem Aligned.lineEnded_begin {g : Gap} {pre : List Token} (ha : s.Aligned before)
    (hg : s.gap = some g) (hpre : ∀ k ∈ pre, k.isWord = false) :
    lineEnded (before ++ pre) = true := by
  rw [lineEnded_append_of_trivia hpre, ha.fresh, hg]
  rfl

/-- A step of a layout keeps it aligned. -/
theorem Steps.aligned (h : Steps s t s' out) (hraw : t.Raw) (ha : s.Aligned before) :
    s'.Aligned (before ++ out.tokens) := by
  have hfresh (hg : s.gap = none) : lineEnded before = false := by rw [ha.fresh, hg]; rfl
  have hword (hn : t.kind ≠ .newline) (ht : t.kind.isTrivia = false) (pre : List Token) :
      lineEnded (before ++ (pre ++ [t])) = false := by
    rw [← List.append_assoc, lineEnded_concat (hraw.isWord ht)]
    simpa using hn
  cases h with
  | endLine hg hk hd =>
    refine aligned_some rfl ?_ ?_ (by simp)
    · rw [lineEnded_concat (hraw.isWord (by simp [Token.isTrivia, hk, Kind.isTrivia])), hk]
      rfl
    · simp [endColumn_of_getLast? (hraw.ends (.inl hk))]
  | joinLines hg hk hd =>
    refine aligned_none ?_ hg
    rw [lineEnded_append_of_trivia, hfresh hg]
    simp [Token.isWord, Token.isTrivia, Kind.isTrivia]
  | inLine hg hk =>
    refine aligned_none ?_ rfl
    cases ht : t.kind.isTrivia with
    | true =>
      rw [lineEnded_append_of_trivia, hfresh hg]
      simp [Token.isWord, Token.isTrivia, ht]
    | false => exact hword hk ht []
  | blankLine hg hk =>
    exact ha.gap hg rfl rfl (endColumn_of_getLast? (hraw.ends (.inl hk))).symm
  | continuation hg hk =>
    exact ha.gap hg rfl (by simp [Token.isTrivia, hk, Kind.isTrivia])
      (endColumn_of_getLast? (hraw.ends (.inr hk))).symm
  | trivia hg hk =>
    refine ha.gap hg rfl (by rcases hk with hk | hk <;> simp [Token.isTrivia, hk, Kind.isTrivia]) ?_
    rw [ha.column _ hg, endColumn_append (hraw.onLine hk)]
  | indent hg hn ht hlt =>
    rename_i g
    have hlast := hword hn ht (g.held ++ [⟨.indent, [], t.offset⟩])
    rw [List.append_assoc] at hlast
    exact aligned_none hlast rfl
  | dedent inner outer hg hn ht hl ho => exact aligned_none (hword hn ht _) rfl
  | stray _ _ hg hn ht hl => exact aligned_none (hword hn ht _) rfl

/-- `begins` and `width` tell of each of the tokens whether it begins a line, and
the column it stands at. -/
def Placed (begins : Token → Bool) (width : Token → Nat) (ts : List Token) : Prop :=
  ∀ before k after, ts = before ++ k :: after →
    begins k = lineEnded before ∧ width k = endColumn (spelling before)

/-- What one step gives out continues words that are laid out after it. -/
theorem Steps.laidOut {after : List Token} (h : Steps s t s' out) (hraw : t.Raw)
    (ha : s.Aligned before) (hp : Placed begins width (before ++ out.tokens ++ after))
    (hf : out.faults = []) (hrest : LaidOut begins width s'.levels s'.gap.isSome rest) :
    LaidOut begins width s.levels s.gap.isSome (significant out.tokens ++ rest) := by
  have hplain (hn : t.kind ≠ .newline) : t.kind ∉ Kind.newline :: Kind.addedByLayout := by
    simp [hn, hraw.kind]
  -- The word at the beginning of a line stands at the column of the gap before it.
  have hfirst {g : Gap} (hg : s.gap = some g) (pre : List Token) (k : Token) (post : List Token)
      (hk : out.tokens = pre ++ k :: post) (hpre : ∀ k ∈ pre, k.isWord = false)
      (hs : spelling pre = spelling g.held) : begins k = true ∧ width k = g.column := by
    obtain ⟨hb, hw⟩ := hp (before ++ pre) k (post ++ after) (by simp [hk])
    rw [hb, hw, ha.lineEnded_begin hg hpre, ha.column g hg, spelling_append, hs]
    exact ⟨rfl, rfl⟩
  cases h with
  | endLine hg hk hd =>
    obtain ⟨hb, -⟩ := hp before t after (by simp)
    rw [ha.fresh, hg] at hb
    rw [hg]
    simp only [significant, List.filter_cons, Token.isTrivia, hk, Kind.isTrivia]
    exact .newline hk hb hrest
  | joinLines hg hk hd => simpa [significant, Token.isTrivia, Kind.isTrivia] using hrest
  | inLine hg hk =>
    obtain ⟨hb, -⟩ := hp before t after (by simp)
    rw [ha.fresh, hg] at hb
    rw [hg]
    cases ht : t.kind.isTrivia with
    | true => simpa [significant, Token.isTrivia, ht] using hrest
    | false =>
      simp only [significant, List.filter_cons, Token.isTrivia, ht]
      exact .word (hplain hk) hb (by simp) hrest
  | blankLine hg hk | continuation hg hk | trivia hg hk => simpa [significant, hg] using hrest
  | indent hg hn ht hlt =>
    rename_i g
    have hheld : ∀ k ∈ g.held, k.isWord = false := fun k hk =>
      Token.isWord_eq_false_of_trivia (ha.trivia g hg k hk)
    have hpre : ∀ k ∈ g.held ++ [⟨.indent, [], t.offset⟩], k.isWord = false := by
      intro k hk
      rcases List.mem_append.1 hk with hk | hk
      · exact hheld k hk
      · rw [List.mem_singleton.1 hk]; rfl
    obtain ⟨-, hi⟩ := hfirst hg g.held ⟨.indent, [], t.offset⟩ [t] rfl hheld rfl
    obtain ⟨hb, hw⟩ := hfirst hg (g.held ++ [⟨.indent, [], t.offset⟩]) t [] (by simp) hpre (by simp)
    rw [hg, significant_append, significant_of_trivia (ha.trivia g hg)]
    simp only [significant, List.filter_cons, Token.isTrivia, ht]
    exact .indent rfl (by rw [hi]; exact hlt) (.word (hplain hn) hb (fun _ => by rw [hw, hi]; rfl)
      (by rw [hi]; exact hrest))
  | dedent inner outer hg hn ht hl ho =>
    rename_i g
    have hpre : ∀ k ∈ Layout.dedents inner.length s.lineEnd ++ g.held, k.isWord = false := by
      intro k hk
      rcases List.mem_append.1 hk with hk | hk
      · rw [List.eq_of_mem_replicate hk]; rfl
      · exact Token.isWord_eq_false_of_trivia (ha.trivia g hg k hk)
    obtain ⟨hb, hw⟩ := hfirst hg (Layout.dedents inner.length s.lineEnd ++ g.held) t [] (by simp)
      hpre (by simp)
    rw [hg, hl, significant_append, significant_append, significant_of_trivia (ha.trivia g hg)]
    simp only [significant_dedents, List.append_nil, List.append_assoc]
    refine .dedents _ ?_
    simp only [significant, List.filter_cons, Token.isTrivia, ht]
    exact .word (hplain hn) hb (fun _ => by rw [hw, ho]) hrest
  | stray _ _ hg hn ht hl => cases hf

/-- What is left of a text is laid out, from any point that the layout has come to
in line with the text. -/
theorem run_laidOut {stop : Nat} {ts : List Token} (hraw : ∀ k ∈ ts, k.Raw)
    (ha : s.Aligned before) (hp : Placed begins width (before ++ (s.run stop ts).tokens))
    (hf : (s.run stop ts).faults = []) :
    LaidOut begins width s.levels s.gap.isSome (significant (s.run stop ts).tokens) := by
  induction ts generalizing s before with
  | nil =>
    have hends (o : Nat) : LaidOut begins width s.levels true (dedents s.levels.length o) := by
      have hall : LaidOut begins width (s.levels ++ []) true (dedents s.levels.length o ++ []) :=
        .dedents o .stop
      simpa using hall
    cases hg : s.gap with
    | none =>
      have hfinish : (s.run stop []).tokens =
          ⟨.newline, [], stop⟩ :: dedents s.levels.length stop := by simp [run, finish, hg]
      rw [hfinish] at hp ⊢
      obtain ⟨hb, -⟩ := hp before ⟨.newline, [], stop⟩ _ rfl
      rw [ha.fresh, hg] at hb
      have hcons : significant (⟨.newline, [], stop⟩ :: dedents s.levels.length stop) =
          ⟨.newline, [], stop⟩ :: dedents s.levels.length stop := by
        rw [← List.singleton_append, significant_append, significant_dedents]
        rfl
      rw [hcons]
      exact .newline rfl hb (hends stop)
    | some g =>
      have hfinish : (s.run stop []).tokens = dedents s.levels.length s.lineEnd ++ g.held := by
        simp [run, finish, hg]
      rw [hfinish, significant_append, significant_dedents, significant_of_trivia (ha.trivia g hg),
        List.append_nil]
      exact hends s.lineEnd
  | cons t ts ih =>
    simp only [run] at hp hf ⊢
    obtain ⟨hf₁, hf₂⟩ := List.append_eq_nil_iff.1 hf
    have hstep := steps_step s t
    have ht : t.Raw := hraw t (by simp)
    rw [← List.append_assoc] at hp
    have hrest := ih (fun k hk => hraw k (List.mem_cons_of_mem t hk)) (hstep.aligned ht ha) hp hf₂
    rw [significant_append]
    exact hstep.laidOut ht ha hp hf₁ hrest

theorem aligned_start : start.Aligned [] := aligned_some rfl rfl rfl (by simp)

end Layout

end Layout

/-- Among the tokens of a layout, `beginsLine` and `indentationAt` tell where lines
begin and how far they are indented. -/
theorem placed_layout (t : Text) :
    Layout.Placed (beginsLine (layout t).tokens) (fun k => indentationAt t k.offset)
      (layout t).tokens := by
  intro before k after h
  have hchained := chained_layout t
  have hspelling := spelling_layout t
  rw [h] at hchained hspelling
  refine ⟨?_, ?_⟩
  · rw [h, beginsLine_eq hchained]
  · simpa only [hspelling] using indentationAt_eq hchained

/-- A text without stray indentation is laid out by its lines. -/
theorem laidOut_layout {t : Text} (h : (layout t).faults = []) :
    LaidOut (beginsLine (layout t).tokens) (fun k => indentationAt t k.offset) [] true
      (significant (layout t).tokens) :=
  Layout.run_laidOut (fun _ hk => raw_tokenize hk) Layout.aligned_start (placed_layout t) h

end SceneGate
