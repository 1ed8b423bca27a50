/-
The words of a call that asks for labels. What the pattern of such a call matches is cut into
words that the pattern tells: a bracket, names of parameters, signs and strings, blanks
aside (`Word.Clean.labels`).
-/
import SceneGate.Proofs.Rewording
import SceneGate.Rules.AxisLabels

namespace SceneGate

namespace Word

/-- Words that are cut off a text one after the other, none of them an error. -/
structure Clean (ws : List Word) (t : Text) : Prop where
  cut : AllCut ws []
  sound : ∀ w ∈ ws, w.kind ≠ .error
  text : spell ws = t

/-- What the lexer cuts off between the words of a line, and between lines. -/
def isSpacing (w : Word) : Bool := w.kind == .whitespace || w.kind == .newline

variable {ws : List Word} {w : Word} {t rest : Text} {c : Char} {cs : Text}

/-- The first word of a text. -/
theorem Clean.first (h : Clean ws (c :: cs)) :
    ∃ ws', ws = ⟨(munch c cs).1, c :: cs.take (munch c cs).2⟩ :: ws' ∧ (munch c cs).1 ≠ .error ∧
      Clean ws' (cs.drop (munch c cs).2) := by
  cases ws with
  | nil => cases h.text
  | cons w ws =>
    obtain ⟨⟨c', cs', htext, hmunch⟩, hcut⟩ := h.cut
    have htotal := h.text
    rw [spell_cons, htext, List.cons_append, List.cons.injEq] at htotal
    obtain ⟨rfl, rfl⟩ := htotal
    rw [List.append_nil] at hmunch
    obtain ⟨kind, text⟩ := w
    obtain ⟨hw, hws⟩ := List.forall_mem_cons.1 h.sound
    rw [hmunch]
    simp only [List.take_left, List.drop_left]
    exact ⟨ws, by rw [← htext], hw, hcut, hws, rfl⟩

/-- A word that would be cut off is the first one. -/
theorem Clean.head (h : Clean ws (w.text ++ rest)) (hcut : w.Cut rest) :
    ∃ ws', ws = w :: ws' ∧ Clean ws' rest := by
  obtain ⟨c, cs, htext, hmunch⟩ := hcut
  rw [htext, List.cons_append] at h
  obtain ⟨ws', rfl, -, hclean⟩ := h.first
  rw [hmunch] at hclean ⊢
  simp only [List.take_left, List.drop_left] at hclean ⊢
  exact ⟨ws', by rw [← htext], hclean⟩

end Word

/-! ## Characters that begin no word -/

section Munching

variable {c : Char} {cs t : Text}

theorem operator?_of_none (h : ∀ e ∈ operators, e.1.head? ≠ some c) :
    operator? (c :: cs) = none := by
  have hne : ∀ e ∈ operators, e.1 ≠ [] := by decide +kernel
  rw [operator?, Option.map_eq_none_iff, List.find?_eq_none]
  intro e he hpre
  obtain ⟨d, ds, hd⟩ := List.exists_cons_of_ne_nil (hne e he)
  rw [hd, List.isPrefixOf_iff_prefix, List.cons_prefix_cons] at hpre
  exact h e he (by rw [hd, ← hpre.1]; rfl)

/-- A character that begins nothing is an error. -/
theorem munch_of_nothing (hsigns : c ∉ " \t\x0c\n\r\\#.".toList)
    (hopen : StringLiteral.opening? (c :: cs) = none) (hstart : isIdentifierStart c = false)
    (hdigit : isAsciiDigit c = false) (hoperator : ∀ e ∈ operators, e.1.head? ≠ some c) :
    munch c cs = (.error, 0) := by
  have hspace : isSpace c = false := by
    simp only [isSpace, Bool.or_eq_false_iff, beq_eq_false_iff_ne]
    exact ⟨⟨fun h => hsigns (h ▸ by decide), fun h => hsigns (h ▸ by decide)⟩,
      fun h => hsigns (h ▸ by decide)⟩
  have hne {d : Char} (hd : d ∈ " \t\x0c\n\r\\#.".toList) : (c == d) = false :=
    beq_eq_false_iff_ne.2 fun h => hsigns (h ▸ hd)
  unfold munch
  simp [hspace, hne (d := '\n') (by decide), hne (d := '\r') (by decide),
    hne (d := '\\') (by decide), hne (d := '#') (by decide), hne (d := '.') (by decide),
    StringLiteral.find?, hopen, hstart, hdigit, operator?_of_none hoperator]

theorem isBlank_of_isSpace (h : isSpace c = true) : isBlank c = true := by
  have hall : ∀ c ∈ " \t\x0c".toList, isBlank c = true := by decide
  refine hall c ?_
  simp only [isSpace, Bool.or_eq_true, beq_iff_eq] at h
  rcases h with (rfl | rfl) | rfl <;> decide

/-- A blank begins blanks, or a line break, or is an error. -/
theorem munch_of_isBlank (h : isBlank c = true) :
    munch c cs = (.error, 0) ∨ ((munch c cs).1 = .whitespace ∨ (munch c cs).1 = .newline) ∧
      ∀ x ∈ cs.take (munch c cs).2, isBlank x = true := by
  by_cases hspace : isSpace c = true
  · refine .inr ?_
    have hmunch : munch c cs = (.whitespace, runLength isSpace cs) := by simp [munch, hspace]
    rw [hmunch]
    refine ⟨.inl rfl, fun x hx => isBlank_of_isSpace ?_⟩
    rw [runLength, ← List.prefix_iff_eq_take.1 (List.takeWhile_prefix _)] at hx
    exact List.all_eq_true.1 List.all_takeWhile x hx
  by_cases hfeed : c = '\n'
  · subst hfeed
    exact .inr ⟨.inr rfl, by simp [munch, isSpace]⟩
  by_cases hreturn : c = '\r'
  · subst hreturn
    cases cs with
    | nil => exact .inl rfl
    | cons d cs =>
      by_cases hd : d = '\n'
      · subst hd
        exact .inr ⟨.inr rfl, by simp [munch, isSpace]; decide⟩
      · left
        unfold munch
        simp [isSpace, hd]
  · have hcontinue : isIdentifierContinue c = false :=
      isIdentifierContinue_of_isGap (by simp [QuoteWords.isGap, h])
    have hno {p : Char → Bool} (hp : ∀ c, p c = true → isIdentifierContinue c = true) : p c = false :=
      Bool.eq_false_iff.2 fun hc => by simp [hp c hc] at hcontinue
    refine .inl (munch_of_nothing ?_ (opening?_of_not_isMark ?_ (hno ?_)) (hno ?_) (hno ?_) ?_)
    · have hall : ∀ d ∈ "\\#.".toList, isBlank d = false := by decide
      intro hmem
      have hcases : (isSpace c = true ∨ c = '\n' ∨ c = '\r') ∨ c ∈ "\\#.".toList := by
        revert hmem
        simp [isSpace]
        tauto
      rcases hcases with (hc | hc | hc) | hc
      · exact hspace hc
      · exact hfeed hc
      · exact hreturn hc
      · rw [hall c hc] at h
        cases h
    · have hall : ∀ d ∈ ['"', '\''], isBlank d = false := by decide
      refine Bool.eq_false_iff.2 fun hc => ?_
      rw [hall c (by simpa [StringLiteral.isQuote] using hc)] at h
      cases h
    · intro c hc
      have hall : ∀ c ∈ "rRuUbBfF".toList, isIdentifierContinue c = true := by decide
      exact hall c (by simpa [StringLiteral.isMark] using hc)
    · exact fun c => isIdentifierContinue_of_start
    · exact fun c => NumberLiteral.isIdentifierContinue_of_isAsciiDigit
    · have hall : ∀ e ∈ operators, ∀ d ∈ e.1.head?, isBlank d = false := by decide +kernel
      intro e he hhead
      rw [hall e he c hhead] at h
      cases h

end Munching

namespace Word.Clean

variable {ws : List Word} {w : Word} {t rest : Text}

/-- Blanks are cut into blanks and line breaks. -/
theorem blanks {b : Text} (h : Clean ws (b ++ rest)) (hb : ∀ x ∈ b, isBlank x = true)
    (hrest : ∀ x ∈ rest.head?, isBlank x = false) :
    ∃ gap ws', ws = gap ++ ws' ∧ (∀ w ∈ gap, w.isSpacing = true) ∧ Clean ws' rest := by
  induction ws generalizing b with
  | nil =>
    obtain ⟨rfl, rfl⟩ : b = [] ∧ rest = [] := by simpa using h.text.symm
    exact ⟨[], [], rfl, by simp, h⟩
  | cons w ws ih =>
    cases b with
    | nil => exact ⟨[], w :: ws, rfl, by simp, h⟩
    | cons c b =>
      obtain ⟨hc, hb⟩ := List.forall_mem_cons.1 hb
      rw [List.cons_append] at h
      obtain ⟨ws', heq, hsound, hclean⟩ := h.first
      obtain ⟨rfl, rfl⟩ := List.cons.inj heq
      rcases @munch_of_isBlank c (b ++ rest) hc with herror | ⟨hkind, hall⟩
      · rw [herror] at hsound
        exact absurd rfl hsound
      -- what is cut off ends before the text behind the blanks
      have hle : (munch c (b ++ rest)).2 ≤ b.length := by
        by_contra hlong
        cases rest with
        | nil =>
          have := munch_le c (b ++ [])
          simp at hlong this
          omega
        | cons d rest =>
          have hmem : d ∈ (b ++ d :: rest).take (munch c (b ++ d :: rest)).2 := by
            rw [List.take_append]
            refine List.mem_append_right _ ?_
            obtain ⟨n, hn⟩ : ∃ n, (munch c (b ++ d :: rest)).2 - b.length = n + 1 :=
              ⟨(munch c (b ++ d :: rest)).2 - b.length - 1, by omega⟩
            rw [hn]
            simp
          have := hall d hmem
          rw [hrest d rfl] at this
          cases this
      rw [List.drop_append_of_le_length hle] at hclean
      obtain ⟨gap, ws', rfl, hgap, hclean'⟩ := ih hclean fun x hx => hb x (List.mem_of_mem_drop hx)
      refine ⟨_ :: gap, ws', rfl, List.forall_mem_cons.2 ⟨?_, hgap⟩, hclean'⟩
      rcases hkind with hk | hk <;> simp [Word.isSpacing, hk]

end Word.Clean

namespace AxisLabels

variable {mark t t' : Text}

theorem after?_eq_some (h : after? mark t = some t') :
    ∃ b : Text, (∀ x ∈ b, isBlank x = true) ∧ t = b ++ (mark ++ t') := by
  simp only [after?] at h
  split at h
  · rename_i hpre
    obtain ⟨more, hmore⟩ := List.isPrefixOf_iff_prefix.1 hpre
    rw [← hmore, List.drop_left] at h
    obtain rfl := Option.some.inj h
    refine ⟨t.indentation, fun x hx => List.all_eq_true.1 List.all_takeWhile x hx, ?_⟩
    rw [hmore, Text.indentation_append_trimStart]
  · cases h

theorem label?_eq_some {label : Text} (h : label? t = some (label, t')) :
    ∃ (b : Text) (q : Char), (∀ x ∈ b, isBlank x = true) ∧ StringLiteral.isQuote q = true ∧
      (∀ x ∈ label, StringLiteral.isQuote x = false) ∧ t = b ++ (q :: (label ++ q :: t')) := by
  simp only [label?] at h
  split at h
  · rename_i q cs htrim
    split at h
    · rename_i hclosed
      simp only [Bool.and_eq_true, beq_iff_eq] at hclosed
      obtain ⟨rfl, rfl⟩ := Prod.mk.inj (Option.some.inj h)
      obtain ⟨rest, hrest⟩ := List.head?_eq_some_iff.1 hclosed.2
      have hsplit := List.takeWhile_append_dropWhile (p := fun c => !StringLiteral.isQuote c) (l := cs)
      have hdrop : cs.drop (cs.takeWhile fun c => !StringLiteral.isQuote c).length =
          cs.dropWhile fun c => !StringLiteral.isQuote c := by
        conv_lhs => arg 2; rw [← hsplit]
        exact List.drop_left
      refine ⟨t.indentation, q, fun x hx => List.all_eq_true.1 List.all_takeWhile x hx, hclosed.1,
        fun x hx => by simpa using List.all_eq_true.1 List.all_takeWhile x hx, ?_⟩
      rw [← List.drop_drop, hrest, List.drop_one, List.tail_cons, ← hrest, hdrop, hsplit, ← htrim,
        Text.indentation_append_trimStart]
    · cases h
  · cases h

/-- Whether a backslash at the end of a text takes the character behind it. -/
def endsEscaped : Text → Bool
  | [] => false
  | ['\\'] => true
  | '\\' :: _ :: cs => endsEscaped cs
  | _ :: cs => endsEscaped cs

/-- The quote behind a label closes it, unless a line ends in it. -/
theorem shortBody_label {q : Char} {label rest : Text} (hq : StringLiteral.isQuote q = true)
    (hlabel : ∀ x ∈ label, StringLiteral.isQuote x = false) (hends : endsEscaped label = false) :
    StringLiteral.shortBody q (label ++ q :: rest) = (label.length, true) ∨
      (StringLiteral.shortBody q (label ++ q :: rest)).2 = false := by
  have hslash : q ≠ '\\' := by
    rintro rfl
    cases hq
  have hne {x : Char} (hx : StringLiteral.isQuote x = false) : x ≠ q := by
    rintro rfl
    rw [hq] at hx
    cases hx
  fun_induction endsEscaped label with
  | case1 => exact .inl (by simp [StringLiteral.shortBody, hslash])
  | case2 => cases hends
  | case3 c cs ih =>
    have hcs : ∀ x ∈ cs, StringLiteral.isQuote x = false := fun x hx => hlabel x (by simp [hx])
    rcases ih hcs hends with h | h
    · exact .inl (by simp [StringLiteral.shortBody, h])
    · exact .inr (by simp [StringLiteral.shortBody, h])
  | case4 c cs hlast hpair ih =>
    obtain ⟨hc, hcs⟩ := List.forall_mem_cons.1 hlabel
    have hplain : c ≠ '\\' := by
      rintro rfl
      cases cs with
      | nil => exact hlast rfl rfl
      | cons d cs => exact hpair d cs rfl rfl
    by_cases hfeed : c = '\n'
    · subst hfeed
      exact .inr (by simp [StringLiteral.shortBody, hne hc])
    · rcases ih hcs hends with h | h
      · exact .inl (by simp [StringLiteral.shortBody, hplain, hne hc, hfeed, h])
      · exact .inr (by simp [StringLiteral.shortBody, hplain, hne hc, hfeed, h])

/-- A label between quotes is cut off as a string, unless a line ends in it. -/
theorem munch_label {q : Char} {label rest : Text} (hq : StringLiteral.isQuote q = true)
    (hlabel : ∀ x ∈ label, StringLiteral.isQuote x = false) (hends : endsEscaped label = false)
    (hrest : ∀ x ∈ rest.head?, StringLiteral.isQuote x = false) :
    munch q (label ++ q :: rest) = (.string, label.length + 1) ∨
      (munch q (label ++ q :: rest)).1 = .error := by
  have hlong : [q, q].isPrefixOf (label ++ q :: rest) = false := by
    have hne {x : Char} (hx : StringLiteral.isQuote x = false) : q ≠ x := by
      rintro rfl
      rw [hq] at hx
      cases hx
    cases label with
    | nil =>
      cases rest with
      | nil => simp
      | cons x rest => simp [List.isPrefixOf, hne (hrest x rfl)]
    | cons x label => simp [List.isPrefixOf, hne (hlabel x (by simp))]
  have hmeasure : StringLiteral.measure 0 q (label ++ q :: rest) = (.closed, label.length + 2) ∨
      ∃ n, StringLiteral.measure 0 q (label ++ q :: rest) = (.unclosed, n) := by
    unfold StringLiteral.measure
    rw [if_neg (by simp [hlong])]
    rcases @shortBody_label q label rest hq hlabel hends with h | h
    · exact .inl (by simp [h])
    · refine .inr ?_
      generalize StringLiteral.shortBody q (label ++ q :: rest) = body at h
      obtain ⟨n, closed⟩ := body
      obtain rfl : closed = false := h
      simp
  have hfind : StringLiteral.find? (q :: (label ++ q :: rest)) =
      some (StringLiteral.measure 0 q (label ++ q :: rest)) := by
    simp [StringLiteral.find?, StringLiteral.opening?, hq]
  have hsigns : q = '"' ∨ q = '\'' := by simpa [StringLiteral.isQuote] using hq
  rcases hmeasure with h | ⟨n, h⟩
  · left
    rw [h] at hfind
    unfold munch
    rw [hfind]
    rcases hsigns with rfl | rfl <;> simp [isSpace]
  · right
    rw [h] at hfind
    unfold munch
    rw [hfind]
    rcases hsigns with rfl | rfl <;> simp [isSpace]

/-- In front of a mark that may stand behind blanks. -/
theorem head?_of_after? {m : Char} {ms : Text} (h : after? (m :: ms) t = some t') :
    ∀ x ∈ t.head?, isBlank x = true ∨ x = m := by
  obtain ⟨b, hb, rfl⟩ := after?_eq_some h
  cases b with
  | nil => simp
  | cons c b =>
    rintro x ⟨⟩
    exact .inl (hb c List.mem_cons_self)

/-- In front of a label that may stand behind blanks. -/
theorem head?_of_label? {label : Text} (h : label? t = some (label, t')) :
    ∀ x ∈ t.head?, isBlank x = true ∨ StringLiteral.isQuote x = true := by
  obtain ⟨b, q, hb, hq, -, rfl⟩ := label?_eq_some h
  cases b with
  | nil =>
    rintro x ⟨⟩
    exact .inr hq
  | cons c b =>
    rintro x ⟨⟩
    exact .inl (hb c List.mem_cons_self)

end AxisLabels

/-! ## Words of the arguments -/

namespace Word

open AxisLabels

/-- Words of the kinds, with blanks between them, and the words behind. -/
def Steps (ws : List Word) (ks : List Kind) (ws' : List Word) : Prop :=
  ∃ front, ws = front ++ ws' ∧ (front.filter fun w => !w.isSpacing).map Word.kind = ks

variable {ws ws' ws'' : List Word} {ks ls : List Kind} {k : Kind} {w : Word} {t t' rest : Text}

theorem Steps.trans (h : Steps ws ks ws') (h' : Steps ws' ls ws'') : Steps ws (ks ++ ls) ws'' := by
  obtain ⟨front, rfl, rfl⟩ := h
  obtain ⟨front', rfl, rfl⟩ := h'
  exact ⟨front ++ front', by simp, by simp⟩

theorem steps_word {gap : List Word} (hgap : ∀ w ∈ gap, w.isSpacing = true) (hk : w.kind = k)
    (hword : k ∉ [.whitespace, .newline]) (ws : List Word) : Steps (gap ++ w :: ws) [k] ws := by
  simp only [List.mem_cons, List.not_mem_nil, or_false, not_or] at hword
  refine ⟨gap ++ [w], by simp, ?_⟩
  rw [List.filter_append, List.filter_eq_nil_iff.2 (by simpa using hgap)]
  simp [isSpacing, hk, hword]

/-- The sign of a keyword argument, in front of a label. -/
theorem cut_equals (h : ∀ x ∈ rest.head?, SceneGate.isBlank x = true ∨ StringLiteral.isQuote x = true) :
    Cut ⟨.eq, ['=']⟩ rest := by
  refine cut_operator (by decide) (by decide) fun x hx hmem => ?_
  have hall : ∀ x ∈ lengthening, isBlank x = false ∧ StringLiteral.isQuote x = false := by decide
  obtain ⟨hblank, hquote⟩ := hall x hmem
  rcases h x hx with hx | hx
  · rw [hblank] at hx; cases hx
  · rw [hquote] at hx; cases hx

theorem endsName_of_isBlank {x : Char} (h : isBlank x = true) : endsName x = true := by
  have hall : ∀ d ∈ ['"', '\''], isBlank d = false := by decide
  have hquote : StringLiteral.isQuote x = false := by
    refine Bool.eq_false_iff.2 fun hx => ?_
    rw [hall x (by simpa [StringLiteral.isQuote] using hx)] at h
    cases h
  have hcontinue : isIdentifierContinue x = false :=
    isIdentifierContinue_of_isGap (by simp [QuoteWords.isGap, h])
  simp [endsName, hquote, hcontinue]

/-- The name of a parameter, in front of its sign. -/
theorem cut_parameter {mark : Text} (hmark : mark ∈ ["x_label".toList, "y_label".toList])
    (h : ∀ x ∈ rest.head?, isBlank x = true ∨ x = '=') : Cut ⟨.ident, mark⟩ rest := by
  have hrest : ∀ x ∈ rest.head?, endsName x = true := by
    intro x hx
    rcases h x hx with hx | rfl
    · exact endsName_of_isBlank hx
    · decide
  simp only [List.mem_cons, List.not_mem_nil, or_false] at hmark
  rcases hmark with rfl | rfl
  · exact @cut_name _ 'x' "_label".toList (by decide) (by decide) hrest
  · exact @cut_name _ 'y' "_label".toList (by decide) (by decide) hrest

namespace Clean

/-- A mark behind blanks. -/
theorem mark (h : Clean ws t) (ht : after? w.text t = some t') (hcut : w.Cut t')
    (hmark : ∀ x ∈ w.text.head?, isBlank x = false) :
    ∃ gap ws', ws = gap ++ w :: ws' ∧ (∀ w ∈ gap, w.isSpacing = true) ∧ Clean ws' t' := by
  obtain ⟨b, hb, rfl⟩ := after?_eq_some ht
  have hne : w.text ≠ [] := by
    obtain ⟨c, cs, htext, -⟩ := hcut
    simp [htext]
  obtain ⟨c, cs, htext⟩ := List.exists_cons_of_ne_nil hne
  obtain ⟨gap, ws', rfl, hgap, hclean⟩ := h.blanks hb fun x hx => hmark x (by simpa [htext] using hx)
  obtain ⟨ws'', rfl, hbehind⟩ := hclean.head hcut
  exact ⟨gap, ws'', rfl, hgap, hbehind⟩

theorem mark_steps (h : Clean ws t) (ht : after? w.text t = some t') (hcut : w.Cut t')
    (hmark : ∀ x ∈ w.text.head?, isBlank x = false) (hword : w.kind ∉ [.whitespace, .newline]) :
    ∃ ws', Steps ws [w.kind] ws' ∧ Clean ws' t' := by
  obtain ⟨gap, ws', rfl, hgap, hclean⟩ := h.mark ht hcut hmark
  exact ⟨ws', steps_word hgap rfl hword _, hclean⟩

/-- A label behind blanks. -/
theorem label_steps {label : Text} (h : Clean ws t) (ht : label? t = some (label, t'))
    (hends : endsEscaped label = false)
    (hrest : ∀ x ∈ t'.head?, StringLiteral.isQuote x = false) :
    ∃ ws', Steps ws [.string] ws' ∧ Clean ws' t' := by
  obtain ⟨b, q, hb, hq, hlabel, rfl⟩ := label?_eq_some ht
  have hblank : isBlank q = false := by
    have hall : ∀ d ∈ ['"', '\''], isBlank d = false := by decide
    exact hall q (by simpa [StringLiteral.isQuote] using hq)
  obtain ⟨gap, ws', rfl, hgap, hclean⟩ := h.blanks hb (by rintro x ⟨⟩; exact hblank)
  obtain ⟨ws'', rfl, hsound, hbehind⟩ := hclean.first
  rcases munch_label hq hlabel hends hrest with hmunch | herror
  · rw [hmunch] at hbehind ⊢
    refine ⟨ws'', steps_word (k := .string) hgap rfl (by decide) _, ?_⟩
    have hdrop : (label ++ q :: t').drop (label.length + 1) = t' := by
      rw [← List.drop_drop, List.drop_left, List.drop_one, List.tail_cons]
    rwa [hdrop] at hbehind
  · exact absurd herror hsound

/-- The arguments of a call that asks for labels: an opening bracket behind blanks, the
words of the arguments, and a closing bracket. -/
theorem labels {x y : Text} (h : Clean ws t) (ht : labels? t = some (x, y, t'))
    (hx : endsEscaped x = false) (hy : endsEscaped y = false) :
    ∃ gap mid ws', ws = gap ++ leftParen :: (mid ++ rightParen :: ws') ∧
      (∀ w ∈ gap, w.isSpacing = true) ∧
      (mid.filter fun w => !w.isSpacing).map Word.kind =
        [.ident, .eq, .string, .comma, .ident, .eq, .string] ∧ Clean ws' t' := by
  -- the text behind each part
  simp only [labels?, Option.bind_eq_bind, Option.bind_eq_some_iff, Option.pure_def,
    Option.some.injEq, Prod.exists, Prod.mk.injEq] at ht
  obtain ⟨t₁, hopen, t₂, hfirst, t₃, hsign, x, t₄, hlabel, t₅, hcomma, t₆, hsecond, t₇, hsign', y,
    t₈, hlabel', t₉, hclose, rfl, rfl, rfl⟩ := ht
  have hquote : ∀ c ∈ [',', ')'], StringLiteral.isQuote c = false := by decide
  have hblank {c : Char} (hc : isBlank c = true) : StringLiteral.isQuote c = false := by
    have := endsName_of_isBlank hc
    simp only [endsName, Bool.and_eq_true, Bool.not_eq_true'] at this
    exact this.2
  obtain ⟨gap, ws₁, rfl, hgap, h₁⟩ :=
    h.mark (w := leftParen) hopen (cut_sign (by decide) _) (by decide)
  obtain ⟨ws₂, s₂, h₂⟩ := h₁.mark_steps (w := ⟨.ident, "x_label".toList⟩) hfirst
    (cut_parameter (by decide) (head?_of_after? hsign)) (by decide) (by decide)
  obtain ⟨ws₃, s₃, h₃⟩ := h₂.mark_steps (w := ⟨.eq, ['=']⟩) hsign
    (cut_equals (head?_of_label? hlabel)) (by decide) (by decide)
  obtain ⟨ws₄, s₄, h₄⟩ := h₃.label_steps hlabel hx fun c hc =>
    (head?_of_after? hcomma c hc).elim hblank fun h => h ▸ hquote ',' (by decide)
  obtain ⟨ws₅, s₅, h₅⟩ := h₄.mark_steps (w := comma) hcomma (cut_sign (by decide) _) (by decide)
    (by decide)
  obtain ⟨ws₆, s₆, h₆⟩ := h₅.mark_steps (w := ⟨.ident, "y_label".toList⟩) hsecond
    (cut_parameter (by decide) (head?_of_after? hsign')) (by decide) (by decide)
  obtain ⟨ws₇, s₇, h₇⟩ := h₆.mark_steps (w := ⟨.eq, ['=']⟩) hsign'
    (cut_equals (head?_of_label? hlabel')) (by decide) (by decide)
  obtain ⟨ws₈, s₈, h₈⟩ := h₇.label_steps hlabel' hy fun c hc =>
    (head?_of_after? hclose c hc).elim hblank fun h => h ▸ hquote ')' (by decide)
  obtain ⟨gap', ws₉, rfl, hgap', h₉⟩ :=
    h₈.mark (w := rightParen) hclose (cut_sign (by decide) _) (by decide)
  obtain ⟨front, rfl, hkinds⟩ :=
    s₂.trans <| s₃.trans <| s₄.trans <| s₅.trans <| s₆.trans <| s₇.trans s₈
  refine ⟨gap, front ++ gap', ws₉, by rw [List.append_assoc], hgap, ?_, h₉⟩
  have hnone : gap'.filter (fun w => !w.isSpacing) = [] :=
    List.filter_eq_nil_iff.2 (by simpa using hgap')
  rw [List.filter_append, hnone, List.append_nil, hkinds]
  rfl

end Clean

end Word

end SceneGate
