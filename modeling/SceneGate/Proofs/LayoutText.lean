/-
The layout of a text is the text. Cutting into tokens and laying the tokens out
neither loses nor moves a character: the tokens of the layout stand one behind
the other from the beginning of the text to its end, each at the offset it
records, and spell the text. Layout tokens have no characters, so where they
are put does not matter for this.
-/
import SceneGate.Source.Layout

namespace SceneGate

/-- The tokens stand one behind the other, the first at `offset`. -/
def Chained : (offset : Nat) → List Token → Prop
  | _, [] => True
  | offset, k :: ks => k.offset = offset ∧ Chained (offset + k.text.bytes) ks

@[simp] theorem chained_nil (o : Nat) : Chained o [] := trivial

@[simp] theorem chained_cons (o : Nat) (k : Token) (ks : List Token) :
    Chained o (k :: ks) ↔ k.offset = o ∧ Chained (o + k.text.bytes) ks := Iff.rfl

@[simp] theorem spelling_nil : spelling [] = [] := rfl

@[simp] theorem spelling_cons (k : Token) (ks : List Token) :
    spelling (k :: ks) = k.text ++ spelling ks := rfl

@[simp] theorem spelling_append (ks ls : List Token) :
    spelling (ks ++ ls) = spelling ks ++ spelling ls := by simp [spelling]

@[simp] theorem chained_append {o : Nat} {ks ls : List Token} :
    Chained o (ks ++ ls) ↔ Chained o ks ∧ Chained (o + (spelling ks).bytes) ls := by
  induction ks generalizing o with
  | nil => simp
  | cons k ks ih => simp [ih, and_assoc, Nat.add_assoc]

theorem chained_tokenizeFrom (o : Nat) (t : Text) : Chained o (tokenizeFrom o t) := by
  fun_induction tokenizeFrom o t with
  | case1 => exact chained_nil _
  | case2 o c cs kind n h text ih => exact ⟨rfl, ih⟩

namespace Layout

@[simp] theorem spelling_dedents (n o : Nat) : spelling (dedents n o) = [] := by
  induction n with
  | zero => rfl
  | succ n ih => simpa [dedents, List.replicate_succ] using ih

@[simp] theorem chained_dedents (n o : Nat) : Chained o (dedents n o) := by
  induction n with
  | zero => exact chained_nil _
  | succ n ih => simpa [dedents, List.replicate_succ] using ih

/-- The trivia that is held back. -/
def held (s : Layout) : List Token := (s.gap.map Gap.held).getD []

/-- How far the tokens that were given out reach, when the next token of the
text begins at `offset`. -/
def given (s : Layout) (offset : Nat) : Nat := if s.gap.isSome then s.lineEnd else offset

/-- What is held back lies between what was given out and the next token. -/
structure Holds (s : Layout) (offset : Nat) : Prop where
  chained : Chained (s.given offset) s.held
  upTo : s.given offset + (spelling s.held).bytes = offset

theorem Holds.gap {s : Layout} {g : Gap} {o : Nat} (h : s.Holds o) (hg : s.gap = some g) :
    Chained s.lineEnd g.held ∧ s.lineEnd + (spelling g.held).bytes = o := by
  obtain ⟨h₁, h₂⟩ := h
  simp only [given, held, hg, Option.isSome_some, if_true, Option.map_some, Option.getD_some]
    at h₁ h₂
  exact ⟨h₁, h₂⟩

theorem holds_none {s : Layout} (o : Nat) (h : s.gap = none) : s.Holds o :=
  ⟨by simp [held, h], by simp [given, held, h]⟩

theorem holds_some {s : Layout} {g : Gap} {o : Nat} (h : s.gap = some g)
    (hc : Chained s.lineEnd g.held) (hu : s.lineEnd + (spelling g.held).bytes = o) : s.Holds o :=
  ⟨by simpa [given, held, h] using hc, by simpa [given, held, h] using hu⟩

section Step

variable {s : Layout} {k : Token} {g : Gap}

theorem step_newline (hg : s.gap = none) (hk : k.kind = .newline) : s.step k =
    if s.depth = 0 then (⟨s.levels, s.depth, k.stop, some ⟨[], 0⟩⟩, ⟨[k], []⟩)
    else (s, ⟨[⟨.whitespace, k.text, k.offset⟩], []⟩) := by
  simp [step, hg, hk]

theorem step_behind (hg : s.gap = none) (hk : k.kind ≠ .newline) : s.step k =
    (⟨s.levels, depthAfter s.depth k.kind, s.lineEnd, none⟩, ⟨[k], []⟩) := by
  unfold step
  split <;> simp_all

theorem step_blankLine (hg : s.gap = some g) (hk : k.kind = .newline) : s.step k =
    (⟨s.levels, s.depth, s.lineEnd, some ⟨g.held ++ [⟨.whitespace, k.text, k.offset⟩], 0⟩⟩,
      ⟨[], []⟩) := by
  simp [step, hg, hk]

theorem step_trivia (hg : s.gap = some g) (hk : k.kind.isTrivia = true) : s.step k =
    (⟨s.levels, s.depth, s.lineEnd, some ⟨g.held ++ [k],
      if k.kind = .lineContinuation then 0 else columnAfter g.column k.text⟩⟩, ⟨[], []⟩) := by
  unfold step
  split <;> simp_all [Kind.isTrivia]

theorem step_begin (hg : s.gap = some g) (hn : k.kind ≠ .newline) (hk : k.kind.isTrivia = false) :
    s.step k = s.beginLine g k := by
  unfold step
  split <;> simp_all [Kind.isTrivia]

theorem depthAfter_of_trivia {k : Kind} (h : k.isTrivia = true) (depth : Nat) :
    depthAfter depth k = depth := by
  cases k <;> first | rfl | cases h

end Step

/-- Everything that laying out one token can do. -/
inductive Steps (s : Layout) (t : Token) : Layout → Output → Prop
  | endLine : s.gap = none → t.kind = .newline → s.depth = 0 →
      Steps s t ⟨s.levels, s.depth, t.stop, some ⟨[], 0⟩⟩ ⟨[t], []⟩
  | joinLines : s.gap = none → t.kind = .newline → s.depth ≠ 0 →
      Steps s t s ⟨[⟨.whitespace, t.text, t.offset⟩], []⟩
  | inLine : s.gap = none → t.kind ≠ .newline →
      Steps s t ⟨s.levels, depthAfter s.depth t.kind, s.lineEnd, none⟩ ⟨[t], []⟩
  | blankLine : s.gap = some g → t.kind = .newline →
      Steps s t ⟨s.levels, s.depth, s.lineEnd,
        some ⟨g.held ++ [⟨.whitespace, t.text, t.offset⟩], 0⟩⟩ ⟨[], []⟩
  | continuation : s.gap = some g → t.kind = .lineContinuation →
      Steps s t ⟨s.levels, s.depth, s.lineEnd, some ⟨g.held ++ [t], 0⟩⟩ ⟨[], []⟩
  | trivia : s.gap = some g → t.kind = .whitespace ∨ t.kind = .comment →
      Steps s t ⟨s.levels, s.depth, s.lineEnd,
        some ⟨g.held ++ [t], columnAfter g.column t.text⟩⟩ ⟨[], []⟩
  | indent : s.gap = some g → t.kind ≠ .newline → t.kind.isTrivia = false →
      s.levels.headD 0 < g.column →
      Steps s t ⟨g.column :: s.levels, depthAfter s.depth t.kind, s.lineEnd, none⟩
        ⟨g.held ++ [⟨.indent, [], t.offset⟩, t], []⟩
  | dedent (inner outer : List Nat) : s.gap = some g → t.kind ≠ .newline → t.kind.isTrivia = false →
      s.levels = inner ++ outer → outer.headD 0 = g.column →
      Steps s t ⟨outer, depthAfter s.depth t.kind, s.lineEnd, none⟩
        ⟨dedents inner.length s.lineEnd ++ g.held ++ [t], []⟩
  | stray (inner outer : List Nat) : s.gap = some g → t.kind ≠ .newline → t.kind.isTrivia = false →
      s.levels = inner ++ outer →
      Steps s t ⟨g.column :: outer, depthAfter s.depth t.kind, s.lineEnd, none⟩
        ⟨dedents inner.length s.lineEnd ++ g.held ++ [t], [Fault.ofToken .strayIndentation t]⟩

theorem steps_beginLine {s : Layout} {g : Gap} {t : Token} (hg : s.gap = some g)
    (hn : t.kind ≠ .newline) (ht : t.kind.isTrivia = false) :
    Steps s t (s.beginLine g t).1 (s.beginLine g t).2 := by
  have hsplit : s.levels = s.levels.takeWhile (g.column < ·) ++ s.levels.dropWhile (g.column < ·) :=
    List.takeWhile_append_dropWhile.symm
  have hlen : s.levels.length - (s.levels.dropWhile (g.column < ·)).length =
      (s.levels.takeWhile (g.column < ·)).length := by
    have := congrArg List.length hsplit
    rw [List.length_append] at this
    omega
  unfold beginLine
  simp only [hlen]
  split
  · rename_i hlt; exact .indent hg hn ht hlt
  · split
    · rename_i heq; exact .dedent _ _ hg hn ht hsplit heq
    · exact .stray _ _ hg hn ht hsplit

theorem steps_step (s : Layout) (t : Token) : Steps s t (s.step t).1 (s.step t).2 := by
  unfold step
  split
  · rename_i hg hk
    split
    · rename_i hd; exact .endLine hg hk hd
    · rename_i hd; exact .joinLines hg hk hd
  · rename_i hg hk; exact .inLine hg hk
  · rename_i g hg hk; exact .blankLine hg hk
  · rename_i g hg hk; exact .continuation hg hk
  · rename_i g hg hn hc
    split
    · rename_i ht
      refine .trivia hg ?_
      cases hk : t.kind <;> simp_all [Kind.isTrivia]
    · rename_i ht; exact steps_beginLine hg hn (by simpa using ht)

/-- What one token adds follows what was given out before and spells, with what
is held back now, what was held back before and the token. -/
theorem Steps.holds {s s' : Layout} {t : Token} {out : Output} (h : Steps s t s' out)
    (hs : s.Holds t.offset) :
    Chained (s.given t.offset) out.tokens ∧
      s'.given t.stop = s.given t.offset + (spelling out.tokens).bytes ∧ s'.Holds t.stop ∧
      spelling out.tokens ++ spelling s'.held = spelling s.held ++ t.text := by
  cases h with
  | endLine hg =>
    have hh : Holds ⟨s.levels, s.depth, t.stop, some ⟨[], 0⟩⟩ t.stop :=
      holds_some rfl (chained_nil _) (by simp)
    exact ⟨by simp [given, hg], by simp [given, hg, Token.stop], hh, by simp [held, hg]⟩
  | joinLines hg => simp [given, held, hg, Token.stop, holds_none]
  | inLine hg => simp [given, held, hg, Token.stop, holds_none]
  | blankLine hg | continuation hg | trivia hg =>
    obtain ⟨hc, hu⟩ := hs.gap hg
    refine ⟨by simp, by simp [given, hg], holds_some rfl (by simp [hc, hu]) ?_, by simp [held, hg]⟩
    simp [← hu, Token.stop, Nat.add_assoc]
  | indent hg | dedent _ _ hg | stray _ _ hg =>
    obtain ⟨hc, hu⟩ := hs.gap hg
    refine ⟨?_, ?_, holds_none _ rfl, by simp [held, hg]⟩
    · simp [given, hg, hc, hu]
    · simp [given, hg, ← hu, Token.stop, Nat.add_assoc]

/-- Laying out what is left of a text gives tokens that follow one another and
spell what is left. -/
theorem run_holds {stop : Nat} {s : Layout} {o : Nat} {ts : List Token} (hc : Chained o ts)
    (hstop : o + (spelling ts).bytes = stop) (hs : s.Holds o) :
    Chained (s.given o) (s.run stop ts).tokens ∧
      spelling (s.run stop ts).tokens = spelling s.held ++ spelling ts := by
  induction ts generalizing s o with
  | nil =>
    obtain rfl : o = stop := by simpa using hstop
    simp only [run, finish]
    split
    · rename_i hg; simp [given, held, hg]
    · rename_i g hg; simp [given, held, hg, (hs.gap hg).1]
  | cons t ts ih =>
    obtain ⟨rfl, hts⟩ := hc
    obtain ⟨hout, hgiven, hs', hspelt⟩ := (steps_step s t).holds hs
    obtain ⟨hc', hsp'⟩ := ih (s := (s.step t).1) (o := t.stop) hts
      (by rw [← hstop]; simp [Token.stop, Nat.add_assoc]) hs'
    simp only [run, chained_append, spelling_append]
    rw [hgiven] at hc'
    refine ⟨⟨hout, hc'⟩, ?_⟩
    rw [hsp', ← List.append_assoc, hspelt]
    simp

theorem holds_start : start.Holds 0 := holds_some rfl (chained_nil _) rfl

/-! ## Where the tokens come from -/

/-- The kinds of tokens that the layout makes. -/
def made : List Kind := [.newline, .indent, .dedent, .whitespace]

theorem kind_of_mem_dedents {n o : Nat} {k : Token} (h : k ∈ dedents n o) : k.kind = .dedent := by
  rw [List.eq_of_mem_replicate h]

/-- What a step gives out or holds back was made by it, held back before, or is
the token itself. -/
theorem Steps.mem {s s' : Layout} {t : Token} {out : Output} (h : Steps s t s' out) {k : Token}
    (hk : k ∈ out.tokens ∨ k ∈ s'.held) : k.kind ∈ made ∨ k ∈ s.held ∨ k = t := by
  cases h with
  | endLine hg | joinLines hg | inLine hg => simp [held, hg, made] at hk ⊢; grind
  | blankLine hg | continuation hg | trivia hg => simp [held, hg, made] at hk ⊢; grind
  | indent hg | dedent _ _ hg | stray _ _ hg =>
    simp only [held, hg, Option.map_some, Option.getD_some, List.mem_append, List.mem_cons] at hk ⊢
    grind [made, kind_of_mem_dedents]

theorem mem_run {stop : Nat} {s : Layout} {ts : List Token} {k : Token}
    (h : k ∈ (s.run stop ts).tokens) : k.kind ∈ made ∨ k ∈ s.held ∨ k ∈ ts := by
  induction ts generalizing s with
  | nil =>
    simp only [run, finish] at h
    split at h
    · rcases List.mem_cons.1 h with rfl | h
      · exact .inl (by simp [made])
      · exact .inl (by simp [kind_of_mem_dedents h, made])
    · rename_i g hg
      rcases List.mem_append.1 h with h | h
      · exact .inl (by simp [kind_of_mem_dedents h, made])
      · exact .inr (.inl (by simpa [held, hg] using h))
  | cons t ts ih =>
    simp only [run, List.mem_append] at h
    have hstep (h : k ∈ (s.step t).2.tokens ∨ k ∈ (s.step t).1.held) :
        k.kind ∈ made ∨ k ∈ s.held ∨ k ∈ t :: ts :=
      ((steps_step s t).mem h).imp_right (.imp_right fun h => by simp [h])
    rcases h with h | h
    · exact hstep (.inl h)
    · rcases ih h with h | h | h
      · exact .inl h
      · exact hstep (.inr h)
      · exact .inr (.inr (List.mem_cons_of_mem t h))

end Layout

theorem layout_holds (t : Text) :
    Chained 0 (layout t).tokens ∧ spelling (layout t).tokens = t := by
  have hstop : 0 + (spelling (tokenize t)).bytes = t.bytes := by simp [spelling_tokenize]
  have h := Layout.run_holds (chained_tokenizeFrom 0 t) hstop Layout.holds_start
  rw [show spelling (tokenizeFrom 0 t) = t from spelling_tokenize t] at h
  exact h

/-- The tokens of a layout stand one behind the other. -/
theorem chained_layout (t : Text) : Chained 0 (layout t).tokens := (layout_holds t).1

/-- The tokens of a layout spell the text. -/
theorem spelling_layout (t : Text) : spelling (layout t).tokens = t := (layout_holds t).2

end SceneGate
