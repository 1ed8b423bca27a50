/-
Texts that are written line by line and word by word. Where each word is cut off as
such in front of what follows it (`Word.Cut`), the lexer finds the words again. And
where each line is indented like an open block, or deeper than the innermost, the
layout adds the ends of lines and of blocks and nothing else (`lay`,
`words_layout`).
-/
import SceneGate.Proofs.Munching
import SceneGate.Proofs.WordReading

namespace SceneGate

/-! ## Words -/

namespace Word

/-- The blank between two words. -/
def blank : Word := ⟨.whitespace, [' ']⟩

/-- The end of a line. -/
def newline : Word := ⟨.newline, ['\n']⟩

def leftParen : Word := ⟨.lParen, "(".toList⟩

def rightParen : Word := ⟨.rParen, ")".toList⟩

/-- The beginning of a block. -/
def indent : Word := ⟨.indent, []⟩

/-- The end of a block. -/
def dedent : Word := ⟨.dedent, []⟩

@[simp] theorem kind_newline : newline.kind = .newline := rfl

@[simp] theorem kind_leftParen : leftParen.kind = .lParen := rfl

@[simp] theorem kind_rightParen : rightParen.kind = .rParen := rfl

@[simp] theorem kind_indent : indent.kind = .indent := rfl

@[simp] theorem kind_dedent : dedent.kind = .dedent := rfl

/-- The text that words spell. -/
def spell (ws : List Word) : Text := ws.flatMap Word.text

@[simp] theorem spell_nil : spell [] = [] := rfl

@[simp] theorem spell_cons (w : Word) (ws : List Word) : spell (w :: ws) = w.text ++ spell ws := rfl

@[simp] theorem spell_append (ws vs : List Word) : spell (ws ++ vs) = spell ws ++ spell vs :=
  List.flatMap_append

/-- Words without the blanks between them. -/
def unspaced (ws : List Word) : List Word := ws.filter fun w => !w.kind.isTrivia

/-- In front of a text a word is cut off as what it is. -/
def Cut (w : Word) (rest : Text) : Prop :=
  ∃ c cs, w.text = c :: cs ∧ munch c (cs ++ rest) = (w.kind, cs.length)

/-- In front of a text words are cut off one after the other. -/
def AllCut : List Word → Text → Prop
  | [], _ => True
  | w :: ws, rest => w.Cut (spell ws ++ rest) ∧ AllCut ws rest

variable {w : Word} {ws vs : List Word} {rest : Text}

@[simp] theorem unspaced_nil : unspaced [] = [] := rfl

@[simp] theorem unspaced_append (ws vs : List Word) :
    unspaced (ws ++ vs) = unspaced ws ++ unspaced vs := List.filter_append ..

@[simp] theorem unspaced_blank (ws : List Word) :
    unspaced (.blank :: ws) = unspaced ws := rfl

theorem unspaced_flatMap {ι : Type} (is : List ι) (g : ι → List Word) :
    unspaced (is.flatMap g) = is.flatMap fun i => unspaced (g i) := List.filter_flatMap ..

theorem unspaced_cons (h : w.kind.isTrivia = false) :
    unspaced (w :: ws) = w :: unspaced ws := by
  rw [unspaced, List.filter_cons, if_pos (by simp [h])]
  rfl

@[simp] theorem allCut_nil : AllCut [] rest := trivial

@[simp] theorem allCut_cons :
    AllCut (w :: ws) rest ↔ w.Cut (spell ws ++ rest) ∧ AllCut ws rest := Iff.rfl

@[simp] theorem allCut_append :
    AllCut (ws ++ vs) rest ↔ AllCut ws (spell vs ++ rest) ∧ AllCut vs rest := by
  induction ws with
  | nil => simp
  | cons w ws ih => simp [ih, and_assoc]

/-- The lexer finds the words that a text is written with. -/
theorem map_word_tokenizeFrom {o : Nat} (h : AllCut ws []) :
    (tokenizeFrom o (spell ws)).map Token.word = ws := by
  induction ws generalizing o with
  | nil => simp [tokenizeFrom]
  | cons w ws ih =>
    obtain ⟨⟨c, cs, htext, hmunch⟩, h⟩ := h
    rw [List.append_nil] at hmunch
    rw [spell_cons, htext, List.cons_append, tokenizeFrom, hmunch]
    simp only [List.take_left, List.drop_left, List.map_cons, ih h]
    rw [← htext]
    rfl

/-! ### How words are cut off -/

/-- Blanks end where something else follows. -/
theorem cut_blanks {n : Nat} (hrest : ∀ x ∈ rest.head?, isSpace x = false) :
    Cut ⟨.whitespace, List.replicate (n + 1) ' '⟩ rest := by
  refine ⟨' ', List.replicate n ' ', rfl, ?_⟩
  have hrun : runLength isSpace (List.replicate n ' ' ++ rest) = n := by
    rw [runLength_append (fun x hx => by rw [List.eq_of_mem_replicate hx]; rfl) hrest,
      List.length_replicate]
  unfold munch
  rw [if_pos (by decide), hrun, List.length_replicate]

theorem cut_blank (hrest : ∀ x ∈ rest.head?, isSpace x = false) : blank.Cut rest :=
  cut_blanks (n := 0) hrest

theorem cut_newline : newline.Cut rest := ⟨'\n', [], rfl, rfl⟩

/-- Whether a character may stand behind a name: it neither goes on with it nor
makes a string literal of it. -/
def endsName (c : Char) : Bool := !isIdentifierContinue c && !StringLiteral.isQuote c

theorem opening?_of_name {t : Text} (hne : t ≠ [])
    (ht : ∀ x ∈ t, isIdentifierContinue x = true) (hrest : ∀ x ∈ rest.head?, endsName x = true) :
    StringLiteral.opening? (t ++ rest) = none := by
  have hquote : ∀ x ∈ t, StringLiteral.isQuote x = false :=
    fun x hx => isQuote_of_isIdentifierContinue (ht x hx)
  -- what is neither a letter nor a quote is no mark either
  have hends {x : Char} (hx : endsName x = true) :
      StringLiteral.isQuote x = false ∧ StringLiteral.isMark x = false := by
    simp only [endsName, Bool.and_eq_true, Bool.not_eq_true'] at hx
    refine ⟨hx.2, ?_⟩
    cases hm : StringLiteral.isMark x with
    | false => rfl
    | true =>
      have hall : ∀ c ∈ "rRuUbBfF".toList, isIdentifierContinue c = true := by decide
      rw [hall x (by simpa [StringLiteral.isMark] using hm)] at hx
      exact absurd hx.1 (by simp)
  rcases t with _ | ⟨a, _ | ⟨b, _ | ⟨q, t⟩⟩⟩
  · exact absurd rfl hne
  · have ha := hquote a (by simp)
    cases rest with
    | nil => simp [StringLiteral.opening?, ha]
    | cons b rest =>
      obtain ⟨hb, hm⟩ := hends (hrest b rfl)
      have htwo := areMarks_right (a := a) hm
      cases rest <;> simp [StringLiteral.opening?, ha, hb, htwo]
  · have ha := hquote a (by simp)
    have hb := hquote b (by simp)
    cases rest with
    | nil => simp [StringLiteral.opening?, ha, hb]
    | cons q rest => simp [StringLiteral.opening?, ha, hb, (hends (hrest q rfl)).1]
  · have ha := hquote a (by simp)
    have hb := hquote b (by simp)
    have hq := hquote q (by simp)
    simp [StringLiteral.opening?, ha, hb, hq]

/-- A name or reserved word ends where nothing goes on with it. -/
theorem cut_name {c : Char} {cs : Text} (hc : isIdentifierStart c = true)
    (hcs : ∀ x ∈ cs, isIdentifierContinue x = true) (hrest : ∀ x ∈ rest.head?, endsName x = true) :
    Cut ⟨(Kind.ofKeyword? (c :: cs)).getD .ident, c :: cs⟩ rest := by
  refine ⟨c, cs, rfl, ?_⟩
  have hall : ∀ x ∈ c :: cs, isIdentifierContinue x = true := by
    intro x hx
    rcases List.mem_cons.1 hx with rfl | hx
    · exact isIdentifierContinue_of_start hc
    · exact hcs x hx
  have hopen : StringLiteral.opening? (c :: (cs ++ rest)) = none :=
    opening?_of_name (List.cons_ne_nil c cs) hall hrest
  have hnext : ∀ x ∈ rest.head?, isIdentifierContinue x = false := by
    intro x hx
    have := hrest x hx
    simp only [endsName, Bool.and_eq_true, Bool.not_eq_true'] at this
    exact this.1
  rw [munch_of_isIdentifierStart hc hopen]
  simp only [munchWord, runLength_append hcs hnext, List.take_left]

/-- The characters that make an operator longer. -/
def lengthening : List Char := "=><*/.".toList

/-- What follows an operator makes no longer one of it. -/
theorem isPrefixOf_append_of_lengthening {e e' : Text × Kind} (he : e ∈ operators)
    (he' : e' ∈ operators) (hrest : ∀ x ∈ rest.head?, x ∉ lengthening) :
    e'.1.isPrefixOf (e.1 ++ rest) = e'.1.isPrefixOf e.1 := by
  have hlonger : ∀ e ∈ operators, ∀ e' ∈ operators, e.1.isPrefixOf e'.1 = true →
      ∀ c ∈ (e'.1.drop e.1.length).head?, c ∈ lengthening := by decide +kernel
  refine Bool.eq_iff_iff.2 ?_
  rw [List.isPrefixOf_iff_prefix, List.isPrefixOf_iff_prefix]
  refine ⟨fun h => ?_, fun h => h.trans (List.prefix_append ..)⟩
  rcases List.prefix_or_prefix_of_prefix h (List.prefix_append ..) with hshort | hlong
  · exact hshort
  · obtain ⟨more, hmore⟩ := hlong
    have hnext := hlonger e he e' he' (List.isPrefixOf_iff_prefix.2 ⟨more, hmore⟩)
    rw [← hmore, List.drop_left] at hnext
    rw [← hmore, List.prefix_append_right_inj] at h
    cases more with
    | nil => exact ⟨[], by rw [← hmore, List.append_nil, List.append_nil]⟩
    | cons x more =>
      obtain ⟨tail, rfl⟩ := h
      exact absurd (hnext x rfl) (hrest x rfl)

/-- Operators end where nothing follows that would make them longer. -/
theorem cut_operator {s : Text} {k : Kind} (h : (s, k) ∈ operators) (hdot : s.head? ≠ some '.')
    (hrest : ∀ x ∈ rest.head?, x ∉ lengthening) : Cut ⟨k, s⟩ rest := by
  have halone : ∀ e ∈ operators, operator? e.1 = some (e.2, e.1.length - 1) := by decide +kernel
  have hfirst : ∀ e ∈ operators, ∀ c ∈ e.1.head?, isSpace c = false ∧
      c ∉ ['\n', '\r', '\\', '#'] ∧ StringLiteral.isQuote c = false ∧
      StringLiteral.isMark c = false ∧ isIdentifierStart c = false ∧ isAsciiDigit c = false := by
    decide +kernel
  have hne : ∀ e ∈ operators, e.1 ≠ [] := by decide +kernel
  obtain ⟨c, cs, rfl⟩ := List.exists_cons_of_ne_nil (hne _ h)
  obtain ⟨hspace, hsigns, hquote, hmark, hletter, hdigit⟩ := hfirst _ h c rfl
  have hoperator : operator? (c :: (cs ++ rest)) = some (k, cs.length) := by
    have hsame : operators.find? (fun e => e.1.isPrefixOf (c :: cs ++ rest)) =
        operators.find? (fun e => e.1.isPrefixOf (c :: cs)) := by
      rw [← List.head?_filter, ← List.head?_filter, List.filter_congr fun e he =>
        isPrefixOf_append_of_lengthening h he hrest]
    have hsole : operator? (c :: cs) = some (k, cs.length) := halone _ h
    rw [← hsole, operator?, operator?, ← List.cons_append, hsame]
  simp only [List.mem_cons, List.not_mem_nil, or_false, not_or] at hsigns
  refine ⟨c, cs, rfl, ?_⟩
  have hopen : StringLiteral.opening? (c :: (cs ++ rest)) = none := opening?_of_not_isMark hquote hmark
  have hdot : c ≠ '.' := by simpa using hdot
  simp [munch, hspace, hsigns, StringLiteral.find?, hopen, hletter, hdigit, hdot, hoperator]

end Word

/-! ## Lines -/

/-- A line of words: how far it is indented, and its words with the blanks between
them. -/
structure WordLine where
  indentation : Nat
  words : List Word
deriving DecidableEq, Repr

namespace WordLine

/-- The blanks before a line that is indented so far. -/
def margin : Nat → List Word
  | 0 => []
  | n + 1 => [⟨.whitespace, List.replicate (n + 1) ' '⟩]

/-- A line as it is written, up to its end. -/
def written (l : WordLine) : List Word := margin l.indentation ++ (l.words ++ [.newline])

/-- Lines as they are written. -/
def writtenAll (ls : List WordLine) : List Word := ls.flatMap written

/-- How many brackets are open after some words. -/
def openAfter (depth : Nat) (ws : List Word) : Nat :=
  ws.foldl (fun d w => Layout.depthAfter d w.kind) depth

@[simp] theorem openAfter_nil (d : Nat) : openAfter d [] = d := rfl

@[simp] theorem openAfter_cons (d : Nat) (w : Word) (ws : List Word) :
    openAfter d (w :: ws) = openAfter (Layout.depthAfter d w.kind) ws := rfl

@[simp] theorem openAfter_append (d : Nat) (ws vs : List Word) :
    openAfter d (ws ++ vs) = openAfter (openAfter d ws) vs := List.foldl_append

/-- A line that begins with a word and ends with its last one: no line break comes
before, and all brackets are closed there. -/
structure Whole (l : WordLine) : Prop where
  first : ∃ w ws, l.words = w :: ws ∧ w.kind.isTrivia = false
  unbroken : ∀ w ∈ l.words, w.kind ≠ .newline
  closed : openAfter 0 l.words = 0

/-- The words of lines with the ends of lines and the beginnings and ends of blocks
between them; `levels` are the indentations of the open blocks, the innermost first.
Nothing, if a line is indented like no open block. -/
def lay : (levels : List Nat) → List WordLine → Option (List Word)
  | levels, [] => some (List.replicate levels.length .dedent)
  | levels, l :: ls =>
    let outer := levels.dropWhile (l.indentation < ·)
    let line := Word.unspaced l.words ++ [.newline]
    if levels.headD 0 < l.indentation then
      (lay (l.indentation :: levels) ls).map (.indent :: line ++ ·)
    else if outer.headD 0 = l.indentation then
      (lay outer ls).map (List.replicate (levels.length - outer.length) .dedent ++ line ++ ·)
    else none

section Lay

variable {levels : List Nat} {l : WordLine} {ls : List WordLine} {n m : Nat}

/-- Lines of which the first, if there is one, is indented no further than this. -/
def Shallow (n : Nat) (ls : List WordLine) : Prop := ∀ l ∈ ls.head?, l.indentation ≤ n

theorem dropWhile_of_le (h : levels.headD 0 ≤ n) : levels.dropWhile (n < ·) = levels := by
  cases levels with
  | nil => rfl
  | cons level levels => exact List.dropWhile_cons_of_neg (by simpa using h)

/-- A line that is indented like the innermost block stands in it. -/
theorem lay_same (h : levels.headD 0 = l.indentation) : lay levels (l :: ls) =
    (lay levels ls).map (Word.unspaced l.words ++ .newline :: ·) := by
  have hnot : ¬ levels.headD 0 < l.indentation := by omega
  simp only [lay, if_neg hnot, dropWhile_of_le (Nat.le_of_eq h), if_pos h, Nat.sub_self,
    List.replicate_zero, List.nil_append, List.append_assoc, List.singleton_append]

/-- A line that is indented deeper begins a block. -/
theorem lay_deeper (h : levels.headD 0 < l.indentation) : lay levels (l :: ls) =
    (lay (l.indentation :: levels) (l :: ls)).map (.indent :: ·) := by
  have hsame : (l.indentation :: levels).headD 0 = l.indentation := rfl
  rw [lay_same hsame, Option.map_map]
  simp only [lay, if_pos h]
  congr 1
  funext ws
  simp

/-- Before a line that is indented less the innermost block ends. -/
theorem lay_outer (hm : levels.headD 0 < m) (h : Shallow (levels.headD 0) ls) :
    lay (m :: levels) ls = (lay levels ls).map (.dedent :: ·) := by
  cases ls with
  | nil => simp [lay, List.replicate_succ]
  | cons l ls =>
    have hl : l.indentation ≤ levels.headD 0 := h l rfl
    have hdrop : (m :: levels).dropWhile (l.indentation < ·) =
        levels.dropWhile (l.indentation < ·) := List.dropWhile_cons_of_pos (by simp; omega)
    have hlength : (levels.dropWhile (l.indentation < ·)).length ≤ levels.length :=
      (List.dropWhile_suffix _).length_le
    have hclosed : (m :: levels).length - (levels.dropWhile (l.indentation < ·)).length =
        (levels.length - (levels.dropWhile (l.indentation < ·)).length) + 1 := by
      rw [List.length_cons]
      omega
    have hnot : ¬ m < l.indentation := by omega
    have hnot' : ¬ levels.headD 0 < l.indentation := by omega
    simp only [lay, List.headD_cons, if_neg hnot, if_neg hnot', hdrop, hclosed, List.replicate_succ]
    split
    · rw [Option.map_map]
      rfl
    · rfl

end Lay

end WordLine

namespace Layout

open WordLine

/-- Laying tokens out finds no fault and gives these words. -/
structure Lays (stop : Nat) (s : Layout) (ts : List Token) (ws : List Word) : Prop where
  faultless : (s.run stop ts).faults = []
  words : (significant (s.run stop ts).tokens).map Token.word = ws

variable {stop e d n : Nat} {s s' : Layout} {t k : Token} {ts rest : List Token} {ws : List Word}
  {levels : List Nat} {out : Output}

theorem Lays.cons (hstep : s.step t = (s', out)) (hout : out.faults = [])
    (h : Lays stop s' ts ws) :
    Lays stop s (t :: ts) ((significant out.tokens).map Token.word ++ ws) := by
  refine ⟨?_, ?_⟩
  · simp only [run, hstep, hout, h.faultless, List.append_nil]
  · simp only [run, hstep, significant_append, List.map_append, h.words]

theorem words_significant (ts : List Token) :
    (significant ts).map Token.word = Word.unspaced (ts.map Token.word) := by
  rw [significant, Word.unspaced, List.filter_map]
  rfl

/-- Once a line has begun, its words are laid out as they stand, up to its end. -/
theorem Lays.inLine (hts : ∀ j ∈ ts, j.kind ≠ .newline)
    (hd : openAfter d (ts.map Token.word) = 0) (hk : k.kind = .newline)
    (h : Lays stop ⟨levels, 0, k.stop, some ⟨[], 0⟩⟩ rest ws) :
    Lays stop ⟨levels, d, e, none⟩ (ts ++ k :: rest)
      (Word.unspaced (ts.map Token.word) ++ k.word :: ws) := by
  induction ts generalizing d with
  | nil =>
    have hd : d = 0 := hd
    have hstep : (⟨levels, d, e, none⟩ : Layout).step k =
        (⟨levels, 0, k.stop, some ⟨[], 0⟩⟩, ⟨[k], []⟩) := by simp [step, hk, hd]
    have hline := Lays.cons hstep rfl h
    simpa [significant, Token.isTrivia, hk, Kind.isTrivia, Word.unspaced] using hline
  | cons j ts ih =>
    rw [List.forall_mem_cons] at hts
    have hline := Lays.cons (step_behind (s := ⟨levels, d, e, none⟩) rfl hts.1) rfl (ih hts.2 hd)
    rw [words_significant, ← List.append_assoc, Word.unspaced, Word.unspaced,
      ← List.filter_append] at hline
    exact hline

theorem columnAfter_replicate (c n : Nat) : columnAfter c (List.replicate n ' ') = c + n := by
  induction n generalizing c with
  | zero => rfl
  | succ n ih =>
    rw [List.replicate_succ, columnAfter, ih]
    simp
    omega

/-- The words of a line with what the layout adds before them, when the line begins
at column `n`. -/
theorem Lays.begin {held : List Token} (hheld : ∀ j ∈ held, j.isTrivia = true)
    (ht : t.kind.isTrivia = false) (htn : t.kind ≠ .newline) {l : WordLine} {ls : List WordLine}
    {line : List Word} (hl : l.words = t.word :: line) (hlay : lay levels (l :: ls) = some ws)
    (h : ∀ {levels' ws'}, lay levels' ls = some ws' →
      Lays stop ⟨levels', Layout.depthAfter 0 t.kind, e, none⟩ ts
        (Word.unspaced line ++ Word.newline :: ws')) :
    Lays stop ⟨levels, 0, e, some ⟨held, l.indentation⟩⟩ (t :: ts) ws := by
  have hstep : (⟨levels, 0, e, some ⟨held, l.indentation⟩⟩ : Layout).step t =
      beginLine ⟨levels, 0, e, some ⟨held, l.indentation⟩⟩ ⟨held, l.indentation⟩ t :=
    step_begin rfl htn ht
  have hsignificant : Word.unspaced l.words = t.word :: Word.unspaced line := by
    rw [hl, Word.unspaced, List.filter_cons, if_pos (by simpa [Token.word] using ht)]
    rfl
  have hself : significant [t] = [t] := by simp [significant, Token.isTrivia, ht]
  simp only [lay, hsignificant] at hlay
  unfold beginLine at hstep
  simp only at hstep
  split at hlay
  · rename_i hdeeper
    obtain ⟨ws', hws', rfl⟩ := Option.map_eq_some_iff.1 hlay
    rw [if_pos hdeeper] at hstep
    have hline := Lays.cons hstep rfl (h hws')
    have hboth : significant [⟨.indent, [], t.offset⟩, t] = ⟨.indent, [], t.offset⟩ :: significant [t] :=
      rfl
    rw [significant_append, significant_of_trivia hheld, hboth, hself] at hline
    simpa [Token.word, Word.indent] using hline
  · rename_i hnot
    split at hlay
    · rename_i houter
      obtain ⟨ws', hws', rfl⟩ := Option.map_eq_some_iff.1 hlay
      rw [if_neg hnot, if_pos houter] at hstep
      have hline := Lays.cons hstep rfl (h hws')
      rw [significant_append, significant_append, significant_of_trivia hheld, significant_dedents,
        hself] at hline
      simpa [dedents, Token.word, Word.dedent] using hline
    · cases hlay

/-- The tokens of lines are laid out line by line. -/
theorem lays_written {ls : List WordLine} (hls : ∀ l ∈ ls, l.Whole)
    (hts : ts.map Token.word = writtenAll ls) (hlay : lay levels ls = some ws) :
    Lays stop ⟨levels, 0, e, some ⟨[], 0⟩⟩ ts ws := by
  induction ls generalizing ts levels ws e with
  | nil =>
    obtain rfl : ts = [] := by simpa [writtenAll] using hts
    obtain rfl : List.replicate levels.length Word.dedent = ws := by simpa [lay] using hlay
    exact ⟨rfl, by simp [run, finish, dedents, Token.word, Word.dedent, significant, Token.isTrivia,
      Kind.isTrivia]⟩
  | cons l ls ih =>
    obtain ⟨hl, hls⟩ := List.forall_mem_cons.1 hls
    obtain ⟨w, line, hwords, hw⟩ := hl.first
    have hunbroken := hl.unbroken
    have hclosed := hl.closed
    rw [hwords, List.forall_mem_cons] at hunbroken
    rw [hwords, openAfter_cons] at hclosed
    -- the tokens of the line: its margin, its first word, the others and its end
    simp only [writtenAll, List.flatMap_cons, written, hwords, List.append_assoc,
      List.cons_append, List.nil_append] at hts
    obtain ⟨held, ts₁, rfl, hheld, hline⟩ := List.map_eq_append_iff.1 hts
    obtain ⟨t, ts₂, rfl, rfl, hmore⟩ := List.map_eq_cons_iff.1 hline
    obtain ⟨inner, ts₃, rfl, hinner, hend⟩ := List.map_eq_append_iff.1 hmore
    obtain ⟨k, rest, rfl, hk, hrest⟩ := List.map_eq_cons_iff.1 hend
    have hkind : k.kind = .newline := congrArg Word.kind hk
    have hbegin {held : List Token} (hheld : ∀ j ∈ held, j.isTrivia = true) :
        Lays stop ⟨levels, 0, e, some ⟨held, l.indentation⟩⟩ (t :: (inner ++ k :: rest)) ws := by
      refine Lays.begin hheld hw hunbroken.1 hwords hlay fun hlay' => ?_
      have hwhole : ∀ j ∈ inner, j.kind ≠ .newline := fun j hj =>
        hunbroken.2 j.word (hinner ▸ List.mem_map_of_mem hj)
      rw [← hk, ← hinner]
      exact Lays.inLine hwhole (hinner ▸ hclosed) hkind (ih hls hrest hlay')
    cases hn : l.indentation with
    | zero =>
      rw [hn] at hheld hbegin
      obtain rfl : held = [] := by simpa [margin] using hheld
      exact hbegin (by simp)
    | succ n =>
      rw [hn] at hheld
      obtain ⟨b, held', rfl, hb, hheld'⟩ := List.map_eq_cons_iff.1 hheld
      obtain rfl : held' = [] := by simpa using hheld'
      have hkindb : b.kind = .whitespace := congrArg Word.kind hb
      have htextb : b.text = List.replicate (n + 1) ' ' := congrArg Word.text hb
      have hstep : (⟨levels, 0, e, some ⟨[], 0⟩⟩ : Layout).step b =
          (⟨levels, 0, e, some ⟨[b], l.indentation⟩⟩, ⟨[], []⟩) := by
        simp [step, hkindb, htextb, Kind.isTrivia, columnAfter_replicate, hn]
      exact Lays.cons hstep rfl (hbegin (by simp [Token.isTrivia, hkindb, Kind.isTrivia]))

end Layout

/-- The text of lines is laid out as they are indented. -/
theorem words_layout {ls : List WordLine} {ws : List Word} (hls : ∀ l ∈ ls, l.Whole)
    (hcut : Word.AllCut (WordLine.writtenAll ls) []) (hlay : WordLine.lay [] ls = some ws) :
    (layout (Word.spell (WordLine.writtenAll ls))).faults = [] ∧
      (significant (layout (Word.spell (WordLine.writtenAll ls))).tokens).map Token.word = ws := by
  obtain ⟨hfaults, hwords⟩ :
      Layout.start.Lays (Word.spell (WordLine.writtenAll ls)).bytes (tokenize _) ws :=
    Layout.lays_written hls (Word.map_word_tokenizeFrom hcut) hlay
  exact ⟨hfaults, hwords⟩

/-! ## Words that can be told apart -/

/-- A text that may stand behind a word: it begins with nothing that would go on with
the word. -/
def Text.Apart (t : Text) : Prop :=
  ∀ x ∈ t.head?, Word.endsName x = true ∧ x ∉ Word.lengthening

/-- Words with the blanks between them, as they may stand on a line. They begin with
a word, they are cut off as such in front of what may stand behind a word, they hold
no line break and no `:=`, and they close the brackets that they open. -/
structure Legible (ws : List Word) : Prop where
  first : ∃ w vs c cs, ws = w :: vs ∧ w.kind.isTrivia = false ∧ w.text = c :: cs ∧
    isSpace c = false
  cut : ∀ rest, Text.Apart rest → Word.AllCut ws rest
  kinds : ∀ w ∈ ws, w.kind ∉ [.newline, .colonEq]
  closed : ∀ d, WordLine.openAfter d ws = d

namespace Legible

variable {ws vs : List Word}

/-- A word alone. -/
theorem single {w : Word} {c : Char} {cs : Text} (htext : w.text = c :: cs)
    (hc : isSpace c = false) (hcut : ∀ rest, Text.Apart rest → w.Cut rest)
    (hkind : w.kind.isTrivia = false ∧ w.kind ∉ [.newline, .colonEq] ∧
      ∀ d, Layout.depthAfter d w.kind = d) : Legible [w] where
  first := ⟨w, [], c, cs, rfl, hkind.1, htext, hc⟩
  cut rest hrest := by simpa using hcut rest hrest
  kinds := by simpa using hkind.2.1
  closed d := hkind.2.2 d

/-- A word of letters alone. -/
theorem letters {k : Kind} {c : Char} {cs : Text} (hc : isIdentifierStart c = true)
    (hcs : ∀ x ∈ cs, isIdentifierContinue x = true)
    (hk : (Kind.ofKeyword? (c :: cs)).getD .ident = k)
    (hkind : k.isTrivia = false ∧ k ∉ [.newline, .colonEq] ∧ ∀ d, Layout.depthAfter d k = d) :
    Legible [⟨k, c :: cs⟩] := by
  have hne (d : Char) (hd : isIdentifierContinue d = false) : (c == d) = false :=
    beq_eq_false_iff_ne.2 (ne_of_isIdentifierContinue (isIdentifierContinue_of_start hc) hd)
  have hspace : isSpace c = false := by
    simp only [isSpace, hne ' ' (by decide), hne '\t' (by decide), hne '\x0c' (by decide),
      Bool.or_self]
  subst hk
  exact single rfl hspace (fun rest hrest => Word.cut_name hc hcs fun x hx => (hrest x hx).1) hkind

/-- A reserved word alone. -/
theorem keyword {k : Kind} {t : Text} (h : (t, k) ∈ Kind.keywords) : Legible [⟨k, t⟩] := by
  have hspelled : ∀ e ∈ Kind.keywords, ∀ c ∈ e.1.head?, isIdentifierStart c = true ∧
      ∀ x ∈ e.1.tail, isIdentifierContinue x = true := by decide +kernel
  have hfound : ∀ e ∈ Kind.keywords, e.1 ≠ [] ∧ (Kind.ofKeyword? e.1).getD .ident = e.2 ∧
      e.2.isTrivia = false ∧ e.2 ∉ [.newline, .colonEq] := by decide +kernel
  have hdepth : ∀ e ∈ Kind.keywords, ∀ d, Layout.depthAfter d e.2 = d := by
    simp [Kind.keywords, Layout.depthAfter]
  obtain ⟨hne, hk, htrivia, hkind⟩ := hfound _ h
  obtain ⟨c, cs, rfl⟩ := List.exists_cons_of_ne_nil hne
  obtain ⟨hc, hcs⟩ := hspelled _ h c rfl
  exact letters hc hcs hk ⟨htrivia, hkind, hdepth _ h⟩

/-- An operator alone. -/
theorem operator {k : Kind} {s : Text} (h : (s, k) ∈ operators)
    (hk : k ∉ [.ellipsis, .dot, .colonEq, .lParen, .rParen, .lBracket, .rBracket, .lBrace, .rBrace]) :
    Legible [⟨k, s⟩] := by
  have hfirst : ∀ e ∈ operators, e.2 ∉ [.ellipsis, .dot] → e.1.head? ≠ some '.' := by
    decide +kernel
  have hfacts : ∀ e ∈ operators, e.1 ≠ [] ∧ (∀ c ∈ e.1.head?, isSpace c = false) ∧
      e.2.isTrivia = false ∧ e.2 ≠ .newline := by decide +kernel
  obtain ⟨hne, hspace, htrivia, hnewline⟩ := hfacts _ h
  obtain ⟨c, cs, rfl⟩ := List.exists_cons_of_ne_nil hne
  have hdot : (c :: cs).head? ≠ some '.' := hfirst _ h (by simp_all)
  refine single rfl (hspace c rfl) (fun rest hrest => ?_) ⟨htrivia, by simp_all, fun d => ?_⟩
  · exact Word.cut_operator h hdot fun x hx => (hrest x hx).2
  · unfold Layout.depthAfter
    split <;> simp_all

theorem apart_append {t rest : Text} (hne : t ≠ []) (ht : Text.Apart t) : Text.Apart (t ++ rest) := by
  cases t with
  | nil => exact absurd rfl hne
  | cons c cs => exact ht

theorem spell_ne_nil (h : Legible ws) : Word.spell ws ≠ [] := by
  obtain ⟨w, vs, c, cs, rfl, -, htext, -⟩ := h.first
  simp [htext]

/-- Words right behind others that are cut off there. -/
theorem append_of_cut (h : Legible ws) (h' : Legible vs)
    (hcut : ∀ rest, Word.AllCut ws (Word.spell vs ++ rest)) : Legible (ws ++ vs) where
  first := by
    obtain ⟨w, ws', c, cs, rfl, hw⟩ := h.first
    exact ⟨w, ws' ++ vs, c, cs, rfl, hw⟩
  cut rest hrest := Word.allCut_append.2 ⟨hcut rest, h'.cut rest hrest⟩
  kinds w hw := (List.mem_append.1 hw).elim (h.kinds w) (h'.kinds w)
  closed d := by rw [WordLine.openAfter_append, h.closed, h'.closed]

/-- Words right behind others that do not go on with them. -/
theorem append (h : Legible ws) (h' : Legible vs) (hapart : Text.Apart (Word.spell vs)) :
    Legible (ws ++ vs) :=
  h.append_of_cut h' fun _ => h.cut _ (apart_append h'.spell_ne_nil hapart)

/-- Words behind others and a blank. -/
theorem spaced (h : Legible ws) (h' : Legible vs) : Legible (ws ++ .blank :: vs) where
  first := by
    obtain ⟨w, ws', c, cs, rfl, hw⟩ := h.first
    exact ⟨w, ws' ++ .blank :: vs, c, cs, rfl, hw⟩
  cut rest hrest := by
    obtain ⟨w, vs', c, cs, rfl, -, htext, hc⟩ := h'.first
    rw [Word.allCut_append]
    refine ⟨h.cut _ fun x hx => ?_, Word.cut_blank fun x hx => ?_, h'.cut rest hrest⟩
    · obtain rfl : ' ' = x := by simpa [Word.blank] using hx
      decide
    · obtain rfl : c = x := by simpa [htext] using hx
      exact hc
  kinds w hw := by
    rcases List.mem_append.1 hw with hw | hw
    · exact h.kinds w hw
    · rcases List.mem_cons.1 hw with rfl | hw
      · decide
      · exact h'.kinds w hw
  closed d := by
    rw [WordLine.openAfter_append, h.closed, WordLine.openAfter_cons]
    exact h'.closed d

theorem cut_leftParen {t : Text} (ht : ∀ x ∈ t.head?, x ∉ Word.lengthening) :
    Word.leftParen.Cut t :=
  Word.cut_operator (by decide) (by decide) ht

theorem cut_rightParen {t : Text} (ht : Text.Apart t) : Word.rightParen.Cut t :=
  Word.cut_operator (by decide) (by decide) fun x hx => (ht x hx).2

/-- Brackets with nothing in them. -/
theorem brackets : Legible [.leftParen, .rightParen] where
  first := ⟨.leftParen, _, '(', [], rfl, rfl, rfl, by decide⟩
  cut rest hrest := by
    refine ⟨cut_leftParen fun x hx => ?_, cut_rightParen hrest, trivial⟩
    obtain rfl : ')' = x := by simpa [Word.rightParen] using hx
    decide
  kinds := by decide
  closed _ := rfl

/-- Words in brackets, with blanks inside the brackets or without. -/
theorem bracketed {gap : List Word} (hgap : gap = [] ∨ gap = [.blank]) (h : Legible ws)
    (hfirst : ∀ x ∈ (Word.spell ws).head?, x ∉ Word.lengthening) :
    Legible (.leftParen :: (gap ++ ws ++ gap ++ [.rightParen])) where
  first := ⟨.leftParen, _, '(', [], rfl, rfl, rfl, by decide⟩
  cut rest hrest := by
    have hright := cut_rightParen hrest
    have hblank : Text.Apart (' ' :: Word.spell [.rightParen] ++ rest) := by
      intro x hx
      obtain rfl : ' ' = x := by simpa using hx
      decide
    have hbracket : Text.Apart (Word.spell [.rightParen] ++ rest) := by
      intro x hx
      obtain rfl : ')' = x := by simpa [Word.rightParen] using hx
      decide
    obtain ⟨w, vs, c, cs, hws, -, htext, hc⟩ := h.first
    rcases hgap with rfl | rfl
    · simp only [List.nil_append, List.append_nil, Word.allCut_cons, Word.allCut_append]
      refine ⟨cut_leftParen fun x hx => hfirst x ?_, h.cut _ hbracket, by simpa using hright⟩
      simpa [hws, htext] using hx
    · simp only [List.append_assoc, List.cons_append, List.nil_append, Word.allCut_cons,
        Word.allCut_append]
      refine ⟨cut_leftParen fun x hx => ?_, Word.cut_blank fun x hx => ?_, h.cut _ hblank,
        Word.cut_blank fun x hx => ?_, by simpa using hright⟩
      · obtain rfl : ' ' = x := by simpa [Word.blank] using hx
        decide
      · obtain rfl : c = x := by simpa [hws, htext] using hx
        exact hc
      · obtain rfl : ')' = x := by simpa [Word.rightParen] using hx
        decide
  kinds w hw := by
    have hblank (hw : w ∈ gap) : w.kind ∉ [.newline, .colonEq] := by
      rcases hgap with rfl | rfl
      · cases hw
      · obtain rfl := List.mem_singleton.1 hw
        decide
    simp only [List.mem_cons, List.mem_append, List.not_mem_nil, or_false] at hw
    rcases hw with rfl | ((hw | hw) | hw) | rfl
    · decide
    · exact hblank hw
    · exact h.kinds w hw
    · exact hblank hw
    · decide
  closed d := by
    have hgap (n : Nat) : WordLine.openAfter n gap = n := by
      rcases hgap with rfl | rfl <;> rfl
    simp only [WordLine.openAfter_cons, WordLine.openAfter_append, hgap, h.closed]
    rfl

/-- A line of such words is whole. -/
theorem whole {l : WordLine} (h : Legible l.words) : l.Whole where
  first := by
    obtain ⟨w, vs, c, cs, hws, hw, -⟩ := h.first
    exact ⟨w, vs, hws, hw⟩
  unbroken w hw := by
    have := h.kinds w hw
    simp_all
  closed := h.closed 0

end Legible

/-- Lines of such words are cut off word by word. -/
theorem WordLine.allCut_writtenAll {ls : List WordLine} (h : ∀ l ∈ ls, Legible l.words) :
    Word.AllCut (writtenAll ls) [] := by
  induction ls with
  | nil => trivial
  | cons l ls ih =>
    obtain ⟨hl, hls⟩ := List.forall_mem_cons.1 h
    obtain ⟨w, vs, c, cs, hws, -, htext, hc⟩ := hl.first
    simp only [writtenAll, List.flatMap_cons, written, List.append_assoc, List.cons_append,
      List.nil_append, Word.allCut_append, Word.allCut_cons]
    refine ⟨?_, hl.cut _ ?_, Word.cut_newline, ih hls⟩
    · cases l.indentation with
      | zero => trivial
      | succ n =>
        refine ⟨Word.cut_blanks fun x hx => ?_, trivial⟩
        obtain rfl : c = x := by simpa [hws, htext] using hx
        exact hc
    · intro x hx
      obtain rfl : '\n' = x := by simpa [Word.newline] using hx
      decide

/-- Lines of such words are a program of the outline that can be made of what the
layout makes of them. -/
theorem parse_lines {ls : List WordLine} {ws : List Word} {os : List (Outline Word)}
    (h : ∀ l ∈ ls, Legible l.words) (hlay : WordLine.lay [] ls = some ws)
    (hread : Phrase.program.form.Makes [] ws os.reverse []) :
    (parse (Word.spell (WordLine.writtenAll ls))).ok = true ∧
      (parse (Word.spell (WordLine.writtenAll ls))).tree.outline Token.word =
        [.node .sourceFile os] := by
  obtain ⟨hfaults, hwords⟩ :=
    words_layout (fun l hl => (h l hl).whole) (WordLine.allCut_writtenAll h) hlay
  exact parse_of_words hwords hfaults hread

end SceneGate
