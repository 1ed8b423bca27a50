/-
Layout adds nothing but layout. Of the tokens that have characters it gives out
those of the text, in order, with some line breaks turned into whitespace
(`drawn_layout`): a line break stays one where no bracket is open and a word was
read since the last one that stayed. The words stand in logical lines
(`logicalLines_layout`), and each block that an indentation opens is closed again
(`dedents_layout`).

All three are inductions on the tokens that are still to be laid out. What one of
them can add to the words is said once (`Gives`).
-/
import SceneGate.Proofs.LaidOut

namespace SceneGate

/-! ## The tokens of the text -/

/-- The tokens that have characters. -/
def drawn (ts : List Token) : List Token := ts.filter fun k => !k.text.isEmpty

/-- How many brackets are open after tokens. A closing bracket that closes nothing
does not count. -/
def bracketDepth (depth : Nat) (ts : List Token) : Nat :=
  ts.foldl (fun depth k => Layout.depthAfter depth k.kind) depth

/-- What becomes of a token of the text where `depth` brackets are open and `fresh`
says that no logical line has begun: a line break that ends none is whitespace. -/
def Token.settled (k : Token) (depth : Nat) (fresh : Bool) : Token :=
  if k.kind = .newline ∧ ¬ (depth = 0 ∧ fresh = false) then ⟨.whitespace, k.text, k.offset⟩ else k

theorem settled_eq (k : Token) (depth : Nat) (fresh : Bool) :
    (k.settled depth fresh).text = k.text ∧ (k.settled depth fresh).offset = k.offset ∧
      (k.settled depth fresh).kind =
        if k.kind = .newline then if depth = 0 ∧ fresh = false then .newline else .whitespace
        else k.kind := by
  unfold Token.settled
  by_cases hk : k.kind = .newline <;> by_cases hd : depth = 0 ∧ fresh = false <;> simp [hk, hd]

/-- What becomes of tokens of the text. A line break that stays ends the logical
line, and any other token that is no trivia begins one. -/
def settle : (depth : Nat) → (fresh : Bool) → List Token → List Token
  | _, _, [] => []
  | depth, fresh, k :: ks =>
    k.settled depth fresh :: settle (Layout.depthAfter depth k.kind)
      (if k.kind = .newline then fresh || depth == 0 else fresh && k.isTrivia) ks

@[simp] theorem drawn_nil : drawn [] = [] := rfl

@[simp] theorem drawn_append (ts us : List Token) : drawn (ts ++ us) = drawn ts ++ drawn us :=
  List.filter_append ..

theorem drawn_cons_of_ne {k : Token} (h : k.text ≠ []) (ks : List Token) :
    drawn (k :: ks) = k :: drawn ks := by
  simp [drawn, h]

theorem drawn_cons_of_nil {k : Token} (h : k.text = []) (ks : List Token) :
    drawn (k :: ks) = drawn ks := by
  simp [drawn, h]

@[simp] theorem drawn_dedents (n o : Nat) : drawn (Layout.dedents n o) = [] :=
  List.filter_eq_nil_iff.2 fun k hk => by simp [List.eq_of_mem_replicate hk]

namespace Layout

variable {s s' : Layout} {t : Token} {out : Output} {before : List Token}

/-- What one token adds to the tokens that have characters. -/
theorem Steps.drawn_eq (h : Steps s t s' out) (hraw : t.Raw) (ks : List Token) :
    drawn out.tokens ++ drawn s'.held ++ settle s'.depth s'.gap.isSome ks =
      drawn s.held ++ settle s.depth s.gap.isSome (t :: ks) := by
  have hsame : drawn [t] = [t] := drawn_cons_of_ne hraw.text_ne []
  have hblank : drawn [⟨.whitespace, t.text, t.offset⟩] =
      [⟨.whitespace, t.text, t.offset⟩] :=
    drawn_cons_of_ne (k := ⟨.whitespace, t.text, t.offset⟩) hraw.text_ne []
  cases h with
  | endLine hg hk hd => simp [settle, Token.settled, held, hg, hk, hd, hsame, depthAfter]
  | joinLines hg hk hd =>
    have hdepth : (s.depth == 0) = false := beq_false_of_ne hd
    simp [settle, Token.settled, held, hg, hk, hd, hdepth, hblank, depthAfter]
  | inLine hg hk => simp [settle, Token.settled, held, hg, hk, hsame]
  | blankLine hg hk => simp [settle, Token.settled, held, hg, hk, hblank, depthAfter]
  | continuation hg hk =>
    simp [settle, Token.settled, held, hg, hk, hsame, Token.isTrivia, Kind.isTrivia, depthAfter]
  | trivia hg hk =>
    rcases hk with hk | hk <;>
      simp [settle, Token.settled, held, hg, hk, hsame, Token.isTrivia, Kind.isTrivia, depthAfter]
  | indent hg hn ht hlt =>
    simp [settle, Token.settled, held, hg, hn, Token.isTrivia, ht, drawn_cons_of_nil, hsame]
  | dedent inner outer hg hn ht hl ho =>
    simp [settle, Token.settled, held, hg, hn, Token.isTrivia, ht, hsame]
  | stray inner outer hg hn ht hl =>
    simp [settle, Token.settled, held, hg, hn, Token.isTrivia, ht, hsame]

theorem drawn_run (stop : Nat) {ts : List Token} (hraw : ∀ k ∈ ts, k.Raw) (s : Layout) :
    drawn (s.run stop ts).tokens =
      drawn s.held ++ settle s.depth s.gap.isSome ts := by
  induction ts generalizing s with
  | nil =>
    simp only [run, finish, settle]
    split
    · rename_i hg; simp [held, hg, drawn_cons_of_nil]
    · rename_i g hg; simp [held, hg]
  | cons t ts ih =>
    simp only [run, drawn_append]
    rw [ih (fun k hk => hraw k (List.mem_cons_of_mem t hk)), ← List.append_assoc]
    exact (steps_step s t).drawn_eq (hraw t (by simp)) ts

end Layout

theorem length_settle (depth : Nat) (fresh : Bool) (ts : List Token) :
    (settle depth fresh ts).length = ts.length := by
  induction ts generalizing depth fresh with
  | nil => rfl
  | cons k ks ih => simp [settle, ih]

/-- Whether a logical line has begun can be told by the tokens that came out. -/
theorem lineEnded_settled {before : List Token} {k : Token} (hraw : k.Raw) (depth : Nat) :
    lineEnded (before ++ [k.settled depth (lineEnded before)]) =
      if k.kind = .newline then lineEnded before || depth == 0
      else lineEnded before && k.isTrivia := by
  by_cases hstays : k.kind = .newline ∧ ¬ (depth = 0 ∧ lineEnded before = false)
  · have hblank : ∀ j ∈ [(⟨.whitespace, k.text, k.offset⟩ : Token)], j.isWord = false := by
      simp [Token.isWord, Token.isTrivia, Kind.isTrivia]
    rw [Token.settled, if_pos hstays, lineEnded_append_of_trivia hblank, if_pos hstays.1]
    cases h : lineEnded before <;> simp_all
  · rw [Token.settled, if_neg hstays]
    by_cases ht : k.isTrivia = true
    · have hn : k.kind ≠ .newline := by
        intro hn
        simp [Token.isTrivia, hn, Kind.isTrivia] at ht
      have hword : ∀ j ∈ [k], j.isWord = false := by simp [Token.isWord_eq_false_of_trivia ht]
      rw [lineEnded_append_of_trivia hword, if_neg hn, ht, Bool.and_true]
    · rw [lineEnded_concat (hraw.isWord (by simpa using ht))]
      by_cases hn : k.kind = .newline
      · obtain ⟨rfl, hfresh⟩ : depth = 0 ∧ lineEnded before = false := by simpa [hn] using hstays
        simp [hn]
      · simp [hn, ht]

theorem getElem?_settle {ts : List Token} (hraw : ∀ k ∈ ts, k.Raw) (before : List Token)
    (depth i : Nat) :
    (settle depth (lineEnded before) ts)[i]? = ts[i]?.map fun k =>
      k.settled (bracketDepth depth (ts.take i))
        (lineEnded (before ++ (settle depth (lineEnded before) ts).take i)) := by
  induction ts generalizing before depth i with
  | nil => simp [settle]
  | cons k ks ih =>
    have hk := hraw k (by simp)
    rw [settle]
    cases i with
    | zero => simp [bracketDepth]
    | succ i =>
      rw [← lineEnded_settled hk]
      simp only [List.getElem?_cons_succ, List.take_succ_cons]
      rw [ih (fun j hj => hraw j (List.mem_cons_of_mem k hj))]
      simp [bracketDepth]

/-- The tokens with characters in a layout are the tokens of the text, settled. -/
theorem drawn_layout (t : Text) : drawn (layout t).tokens = settle 0 true (tokenize t) :=
  Layout.drawn_run _ (fun _ hk => raw_tokenize hk) _

/-! ## Logical lines -/

/-- A word of a line: no line break, and no layout. -/
def Token.IsPlain (k : Token) : Prop := k.kind ∉ Kind.newline :: Kind.addedByLayout

/-- What may stand in front of a line: the beginning of a block, or the ends of
some. -/
def Opening (ks : List Token) : Prop :=
  ks.map Token.kind = [.indent] ∨ ∀ k ∈ ks, k.kind = .dedent

/-- Lines of words, each with what opens it and a line break, and behind the last
the ends of blocks. -/
inductive LogicalLines : List Token → Prop
  | ends {ks : List Token} : (∀ k ∈ ks, k.kind = .dedent) → LogicalLines ks
  | line {opening words rest : List Token} {k : Token} : Opening opening → words ≠ [] →
      (∀ w ∈ words, w.IsPlain) → k.kind = .newline → LogicalLines rest →
      LogicalLines (opening ++ words ++ k :: rest)

/-- How many of the tokens are of a kind. -/
def countKind (kind : Kind) (ks : List Token) : Nat := ks.countP fun k => k.kind == kind

@[simp] theorem countKind_nil (kind : Kind) : countKind kind [] = 0 := rfl

@[simp] theorem countKind_append (kind : Kind) (ks ls : List Token) :
    countKind kind (ks ++ ls) = countKind kind ks + countKind kind ls := List.countP_append ..

@[simp] theorem countKind_cons (kind : Kind) (k : Token) (ks : List Token) :
    countKind kind (k :: ks) = countKind kind ks + if k.kind = kind then 1 else 0 := by
  simp [countKind, List.countP_cons]

@[simp] theorem countKind_dedents (n o : Nat) : countKind .dedent (Layout.dedents n o) = n := by
  simp [countKind, Layout.dedents, List.countP_replicate]

@[simp] theorem countKind_indent_dedents (n o : Nat) :
    countKind .indent (Layout.dedents n o) = 0 := by
  simp [countKind, Layout.dedents, List.countP_replicate]

/-- Trivia is not counted. -/
theorem countKind_significant (kind : Kind) (h : kind.isTrivia = false) (ks : List Token) :
    countKind kind (significant ks) = countKind kind ks := by
  rw [countKind, significant, List.countP_filter, countKind]
  refine List.countP_congr fun k _ => ?_
  simp only [Bool.and_eq_true, beq_iff_eq, Bool.not_eq_true', Token.isTrivia, and_iff_left_iff_imp]
  rintro rfl
  exact h

theorem Token.IsPlain.countKind {k : Token} (h : k.IsPlain) :
    countKind .indent [k] = 0 ∧ countKind .dedent [k] = 0 := by
  simp only [IsPlain, Kind.addedByLayout, List.mem_cons, not_or] at h
  simp [h]

namespace Layout

variable {s s' : Layout} {t : Token} {out : Output} {before ks : List Token} {faults : List Fault}

/-- What laying out one token can add to the words, to the faults and to the blocks
that are open. -/
inductive Gives (s : Layout) (t : Token) (s' : Layout) : List Token → List Fault → Prop
  | nothing : s'.levels = s.levels → s'.gap.isSome = s.gap.isSome → Gives s t s' [] []
  | lineBreak : s.gap.isSome = false → s'.gap.isSome = true → t.kind = .newline →
      s'.levels = s.levels → Gives s t s' [t] []
  | word : s.gap.isSome = false → s'.gap.isSome = false → t.IsPlain → s'.levels = s.levels →
      Gives s t s' [t] []
  | line {opening : List Token} {faults : List Fault} : s.gap.isSome = true →
      s'.gap.isSome = false → t.IsPlain → Opening opening →
      countKind .dedent opening ≤ s.levels.length →
      countKind .dedent opening + s'.levels.length =
        s.levels.length + countKind .indent opening + faults.length →
      Gives s t s' (opening ++ [t]) faults

theorem Steps.gives (h : Steps s t s' out) (hraw : t.Raw) (ha : s.Aligned before) :
    Gives s t s' (significant out.tokens) out.faults := by
  have hplain (hn : t.kind ≠ .newline) : t.IsPlain := by simp [Token.IsPlain, hn, hraw.kind]
  have hword (ht : t.kind.isTrivia = false) : significant [t] = [t] := by
    simp [significant, Token.isTrivia, ht]
  have hdedents (n o : Nat) : Opening (dedents n o) := .inr fun k hk => kind_of_mem_dedents hk
  cases h with
  | endLine hg hk hd =>
    rw [hword (by simp [hk, Kind.isTrivia])]
    exact .lineBreak (by simp [hg]) rfl hk rfl
  | joinLines hg hk hd => exact .nothing rfl rfl
  | inLine hg hk =>
    cases ht : t.kind.isTrivia with
    | true =>
      have hnone : significant [t] = [] := by simp [significant, Token.isTrivia, ht]
      rw [hnone]
      exact .nothing rfl (by simp [hg])
    | false =>
      rw [hword ht]
      exact .word (by simp [hg]) rfl (hplain hk) rfl
  | blankLine hg | continuation hg | trivia hg => exact .nothing rfl (by simp [hg])
  | indent hg hn ht hlt =>
    rename_i g
    have hopening : significant (g.held ++ [⟨.indent, [], t.offset⟩, t]) =
        [⟨.indent, [], t.offset⟩] ++ [t] := by
      rw [← List.singleton_append, significant_append, significant_append, hword ht,
        significant_of_trivia (ha.trivia g hg)]
      rfl
    rw [hopening]
    exact .line (by simp [hg]) rfl (hplain hn) (.inl rfl) (by simp) (by simp)
  | dedent inner outer hg hn ht hl ho =>
    rename_i g
    rw [significant_append, significant_append, significant_of_trivia (ha.trivia g hg),
      significant_dedents, hword ht, List.append_nil]
    exact .line (by simp [hg]) rfl (hplain hn) (hdedents ..) (by simp [hl]) (by simp [hl])
  | stray inner outer hg hn ht hl =>
    rename_i g
    rw [significant_append, significant_append, significant_of_trivia (ha.trivia g hg),
      significant_dedents, hword ht, List.append_nil]
    exact .line (by simp [hg]) rfl (hplain hn) (hdedents ..) (by simp [hl]) (by simp [hl]; omega)

/-- What the end of the text adds: a line break if a line has begun, and the ends of
all blocks. -/
theorem significant_finish (ha : s.Aligned before) (stop : Nat) :
    ∃ o, significant (s.finish stop) =
      if s.gap.isSome then dedents s.levels.length o
      else ⟨.newline, [], stop⟩ :: dedents s.levels.length o := by
  unfold finish
  split
  · rename_i hg
    refine ⟨stop, ?_⟩
    rw [← List.singleton_append, significant_append, significant_dedents, hg]
    rfl
  · rename_i g hg
    refine ⟨s.lineEnd, ?_⟩
    rw [significant_append, significant_dedents, significant_of_trivia (ha.trivia g hg), hg]
    simp

end Layout

/-- Words that are laid out where `levels` blocks are open, with so many faults.
`fresh` says that no line has begun. -/
inductive Lined : (levels : Nat) → (fresh : Bool) → List Token → (faults : Nat) → Prop
  | stop (levels o : Nat) : Lined levels true (Layout.dedents levels o) 0
  | lineBreak {levels faults : Nat} {k : Token} {ks : List Token} : k.kind = .newline →
      Lined levels true ks faults → Lined levels false (k :: ks) faults
  | word {levels faults : Nat} {k : Token} {ks : List Token} : k.IsPlain →
      Lined levels false ks faults → Lined levels false (k :: ks) faults
  | line {levels levels' faults faults' : Nat} {opening ks : List Token} {k : Token} :
      Opening opening → k.IsPlain → countKind .dedent opening ≤ levels →
      countKind .dedent opening + levels' = levels + countKind .indent opening + faults →
      Lined levels' false ks faults' → Lined levels true (opening ++ k :: ks) (faults + faults')

/-- What is left of a text is laid out in lines, from any point that the layout has
come to. -/
theorem Layout.run_lined {stop : Nat} {s : Layout} {before ts : List Token}
    (hraw : ∀ k ∈ ts, k.Raw) (ha : s.Aligned before) :
    Lined s.levels.length s.gap.isSome (significant (s.run stop ts).tokens)
      (s.run stop ts).faults.length := by
  induction ts generalizing s before with
  | nil =>
    obtain ⟨o, ho⟩ := significant_finish ha stop
    rw [run, ho]
    cases s.gap.isSome with
    | true => exact .stop _ o
    | false => exact .lineBreak rfl (.stop _ o)
  | cons t ts ih =>
    have hstep := steps_step s t
    have ht : t.Raw := hraw t (by simp)
    have hrest := ih (fun k hk => hraw k (List.mem_cons_of_mem t hk)) (hstep.aligned ht ha)
    simp only [run, significant_append, List.length_append]
    generalize hks : significant (s.step t).2.tokens = ks
    generalize hfaults : (s.step t).2.faults = faults
    cases hfaults ▸ hks ▸ hstep.gives ht ha with
    | nothing hlevels hgap => simpa [hlevels, hgap] using hrest
    | lineBreak hg hg' hk hlevels =>
      rw [hg', hlevels] at hrest
      rw [hg]
      simpa using Lined.lineBreak hk hrest
    | word hg hg' hk hlevels =>
      rw [hg', hlevels] at hrest
      rw [hg]
      simpa using Lined.word hk hrest
    | line hg hg' hk hopening hle hcount =>
      rw [hg'] at hrest
      rw [hg]
      simpa using Lined.line hopening hk hle hcount hrest

namespace Lined

variable {levels faults : Nat} {fresh : Bool} {ks ls : List Token}

/-- What is laid out in lines are logical lines, the first perhaps begun before. -/
theorem logicalLines (h : Lined levels fresh ks faults) :
    if fresh then LogicalLines ks
    else ∃ words k rest, ks = words ++ k :: rest ∧ (∀ w ∈ words, w.IsPlain) ∧
      k.kind = .newline ∧ LogicalLines rest := by
  induction h with
  | stop levels o => exact .ends fun k hk => Layout.kind_of_mem_dedents hk
  | lineBreak hk _ ih => exact ⟨[], _, _, rfl, by simp, hk, ih⟩
  | @word levels faults k ks hk _ ih =>
    obtain ⟨words, j, rest, rfl, hwords, hj, hrest⟩ := ih
    exact ⟨k :: words, j, rest, rfl, List.forall_mem_cons.2 ⟨hk, hwords⟩, hj, hrest⟩
  | @line levels levels' faults faults' opening ks k hopening hk hle hcount _ ih =>
    obtain ⟨words, j, rest, rfl, hwords, hj, hrest⟩ := ih
    have hline := LogicalLines.line hopening (List.cons_ne_nil k words)
      (List.forall_mem_cons.2 ⟨hk, hwords⟩) hj hrest
    simpa using hline

/-- Every block that is open or opens is closed; a fault opens one without a
token. -/
theorem count (h : Lined levels fresh ks faults) :
    countKind .dedent ks = levels + countKind .indent ks + faults := by
  induction h with
  | stop levels o => simp
  | lineBreak hk _ ih => simp [hk, ih]
  | @word levels faults k ks hk _ ih =>
    obtain ⟨hi, hd⟩ := hk.countKind
    rw [← List.singleton_append, countKind_append, countKind_append, hi, hd]
    omega
  | @line levels levels' faults faults' opening ks k _ hk _ hcount _ ih =>
    obtain ⟨hi, hd⟩ := hk.countKind
    rw [← List.singleton_append, countKind_append, countKind_append, countKind_append,
      countKind_append, hi, hd]
    omega

theorem countKind_le (kind : Kind) (h : ls <+: ks) : countKind kind ls ≤ countKind kind ks :=
  h.sublist.countP_le

/-- No block is closed before it opens. -/
theorem count_of_prefix (h : Lined levels fresh ks faults) (hls : ls <+: ks) :
    countKind .dedent ls ≤ levels + countKind .indent ls + faults := by
  -- A word or a line break in front counts for nothing.
  have hcons {k : Token} {ks ls : List Token} {levels faults : Nat}
      (hk : countKind .indent [k] = 0 ∧ countKind .dedent [k] = 0) (hls : ls <+: k :: ks)
      (ih : ∀ ls, ls <+: ks → countKind .dedent ls ≤ levels + countKind .indent ls + faults) :
      countKind .dedent ls ≤ levels + countKind .indent ls + faults := by
    rcases List.prefix_cons_iff.1 hls with rfl | ⟨ms, rfl, hms⟩
    · simp
    · have := ih ms hms
      rw [← List.singleton_append, countKind_append, countKind_append, hk.1, hk.2]
      omega
  induction h generalizing ls with
  | stop levels o =>
    have := countKind_le .dedent hls
    rw [countKind_dedents] at this
    omega
  | lineBreak hk _ ih => exact hcons (by simp [hk]) hls fun _ => ih
  | word hk _ ih => exact hcons hk.countKind hls fun _ => ih
  | @line levels levels' faults faults' opening ks k _ hk hle hcount _ ih =>
    obtain ⟨behind, hbehind⟩ := hls
    rcases List.append_eq_append_iff.1 hbehind with ⟨ms, hopening, -⟩ | ⟨ms, rfl, hms⟩
    · have := countKind_le .dedent ⟨ms, hopening.symm⟩
      omega
    · have := hcons hk.countKind ⟨behind, hms.symm⟩ fun _ => ih
      rw [countKind_append, countKind_append]
      omega

end Lined

theorem lined_layout (t : Text) :
    Lined 0 true (significant (layout t).tokens) (layout t).faults.length :=
  Layout.run_lined (fun _ hk => raw_tokenize hk) Layout.aligned_start

/-- Tokens that stand one behind the other are in order. -/
theorem Chained.pairwise {o : Nat} {ts : List Token} (h : Chained o ts) :
    ts.Pairwise fun j k => j.offset ≤ k.offset := by
  induction ts generalizing o with
  | nil => exact .nil
  | cons t ts ih =>
    obtain ⟨rfl, hts⟩ := h
    refine List.pairwise_cons.2 ⟨fun k hk => ?_, ih hts⟩
    have := (hts.range k hk).1
    omega

/-- Layout adds nothing but layout. Its tokens with characters are those of the text,
in order, except that a line break is whitespace unless no bracket is open before
it and a word was read since the last line break that is one. The words stand in
logical lines, offsets never go back, and each block is closed once, none before it
opens; a stray indentation opens one without a token. -/
theorem layout_adds_layout (t : Text) :
    (drawn (layout t).tokens).length = (tokenize t).length ∧
    (∀ i k j, (tokenize t)[i]? = some k → (drawn (layout t).tokens)[i]? = some j →
      j.text = k.text ∧ j.offset = k.offset ∧
      j.kind =
        if k.kind = .newline then
          if bracketDepth 0 ((tokenize t).take i) = 0 ∧
              lineEnded ((drawn (layout t).tokens).take i) = false then .newline
          else .whitespace
        else k.kind) ∧
    ((layout t).tokens.Pairwise fun j k => j.offset ≤ k.offset) ∧
    LogicalLines (significant (layout t).tokens) ∧
    countKind .dedent (layout t).tokens =
      countKind .indent (layout t).tokens + (layout t).faults.length ∧
    ((layout t).faults = [] → ∀ ks, ks <+: (layout t).tokens →
      countKind .dedent ks ≤ countKind .indent ks) := by
  have hcount (ks : List Token) := countKind_significant .indent rfl ks
  have hcount' (ks : List Token) := countKind_significant .dedent rfl ks
  have hlined := lined_layout t
  refine ⟨?_, ?_, (chained_layout t).pairwise, hlined.logicalLines, ?_, ?_⟩
  · rw [drawn_layout, length_settle]
  · intro i k j hk hj
    have hget : (settle 0 true (tokenize t))[i]? = _ :=
      getElem?_settle (fun _ h => raw_tokenize h) [] 0 i
    rw [drawn_layout] at hj ⊢
    rw [hget, hk, Option.map_some, List.nil_append] at hj
    obtain rfl := Option.some.inj hj
    exact settled_eq k _ _
  · have := hlined.count
    rw [hcount, hcount'] at this
    omega
  · intro hfaults ks hks
    have := hlined.count_of_prefix (hks.filter _)
    rw [← hcount, ← hcount', significant]
    simpa [hfaults] using this

end SceneGate
