/-
The words of a chain of names. Behind a name, a chain of word characters and dots is cut
into dots and names: a number there, or a reserved word, would stand where no program has
one (`Word.Clean.chain`).
-/
import SceneGate.Proofs.LabelWords
import SceneGate.Proofs.ProgramTrees
import SceneGate.Proofs.Successors

namespace SceneGate

/-! ## Words of the text and words of its layout -/

namespace Word

variable {w r : Word} {ws front back : List Word}

/-- A word of the text is a word of the layout. -/
theorem exists_of_rawOf (h : rawOf ws = front ++ r :: back) :
    ∃ fs w bs, ws = fs ++ w :: bs ∧ rawOf fs = front ∧ w.raw = [r] ∧ rawOf bs = back := by
  induction ws generalizing front with
  | nil => simp at h
  | cons w ws ih =>
    have behind (front' : List Word) (hfront : front = w.raw ++ front')
        (hws : rawOf ws = front' ++ r :: back) :
        ∃ fs v bs, w :: ws = fs ++ v :: bs ∧ rawOf fs = front ∧ v.raw = [r] ∧ rawOf bs = back := by
      obtain ⟨fs, v, bs, rfl, hfs, hv, hbs⟩ := ih hws
      exact ⟨w :: fs, v, bs, rfl, by rw [rawOf_cons, hfs, hfront], hv, hbs⟩
    rw [rawOf_cons] at h
    rcases List.append_eq_append_iff.1 h with ⟨front', hfront, hws⟩ | ⟨more, hraw, hback⟩
    · exact behind front' hfront hws
    · cases more with
      | nil => exact behind [] (by simpa using hraw.symm) hback.symm
      | cons x more =>
        obtain ⟨rfl, rfl⟩ := List.cons.inj hback
        have hone : w.raw.length ≤ 1 := by
          unfold raw
          split
          · exact Nat.zero_le _
          · split <;> exact Nat.le_refl _
        obtain ⟨rfl, rfl⟩ : front = [] ∧ more = [] := by
          rw [hraw] at hone
          simp only [List.length_append, List.length_cons] at hone
          constructor <;> (rw [← List.length_eq_zero_iff]; omega)
        exact ⟨[], w, ws, rfl, rfl, hraw, rfl⟩

theorem eq_of_raw (h : w.raw = [r]) (hr : r.kind ≠ .newline) : w = r := by
  unfold raw at h
  split at h
  · cases h
  · split at h
    · obtain rfl : _ = r := List.singleton_inj.1 h
      exact absurd rfl hr
    · exact List.singleton_inj.1 h

end Word

section Lines

open Word

variable {r : Word} {ws rs back : List Word} {levels : List Nat} {d : Nat}

/-- On a line the words of the text stand one behind the other. -/
theorem Settled.next (h : Settled levels d false ws) (hraw : rawOf ws = r :: back)
    (hr : r.kind ≠ .newline) :
    ∃ vs, ws = r :: vs ∧ rawOf vs = back ∧ Settled levels (Layout.depthAfter d r.kind) false vs := by
  generalize hfresh : false = fresh at h
  cases h with
  | stop => simp at hraw
  | stopFresh | indent | begin => cases hfresh
  | endLine hk ht =>
    rw [rawOf_cons, raw_self ht (joins_eq_false (by simp [hk]))] at hraw
    obtain ⟨rfl, -⟩ := List.cons.inj hraw
    exact absurd hk hr
  | joinLines hj =>
    rw [rawOf_cons, raw_of_joins (fun ht => by simp [joins, ht] at hj) hj] at hraw
    obtain ⟨rfl, -⟩ := List.cons.inj hraw
    exact absurd rfl hr
  | inLine hw hs =>
    rw [rawOf_cons, hw.raw] at hraw
    obtain ⟨rfl, rfl⟩ := List.cons.inj hraw
    exact ⟨_, rfl, rfl, hs⟩

/-- So do words among which there are no brackets. -/
theorem Settled.all_next (h : Settled levels d false ws) (hraw : rawOf ws = rs ++ back)
    (hrs : ∀ r ∈ rs, r.kind ≠ .newline ∧ r.kind.isBracket = false) :
    ∃ vs, ws = rs ++ vs ∧ rawOf vs = back ∧ Settled levels d false vs := by
  induction rs generalizing ws with
  | nil => exact ⟨ws, rfl, hraw, h⟩
  | cons r rs ih =>
    obtain ⟨⟨hr, hbracket⟩, hrs⟩ := List.forall_mem_cons.1 hrs
    obtain ⟨vs, rfl, hvs, hs⟩ := h.next hraw hr
    rw [Layout.depthAfter_of_not_isBracket hbracket] at hs
    obtain ⟨vs, rfl, hback, hs⟩ := ih hs hvs hrs
    exact ⟨vs, rfl, hback, hs⟩

/-- Behind words whose successors are told stand these, if no trivia does and the line goes
on. -/
def Word.Follows (ws : List Word) : Prop :=
  ws.IsChain fun w v => w.kind ∈ Kind.leaders → v.kind.isTrivia = false → v.kind ≠ .newline →
    w.kind.successors.has v.kind = true

/-- So it is with the words of a program. -/
theorem follows_tokenize {t : Text} (h : (parse t).ok = true) :
    Follows ((tokenize t).map Token.word) := by
  obtain ⟨hs, -⟩ := settled_layout (faults_layout_of_ok h)
  refine List.isChain_iff_forall_rel_of_append_cons_cons.2 ?_
  intro w v front back hsplit hw hv hbreak
  have hplain : ∀ k ∈ Kind.leaders, k.isTrivia = false ∧ k ∉ [.newline, .indent, .dedent] ∧
      k.isBracket = false := by decide
  obtain ⟨htrivia, hlayout, hbracket⟩ := hplain _ hw
  -- the two words stand side by side in the layout
  rw [← rawOf_layout] at hsplit
  obtain ⟨fs, w', bs, hwords, -, hraw, hbs⟩ := exists_of_rawOf hsplit
  obtain rfl := eq_of_raw hraw (by rintro hk; simp [hk] at hlayout)
  obtain ⟨levels, d, hbehind⟩ := hs.behind hwords htrivia hlayout
  obtain ⟨vs, rfl, -, -⟩ := hbehind.next hbs hbreak
  obtain ⟨F, K, hFK, -, hK⟩ := List.map_eq_append_iff.1 hwords
  obtain ⟨i, L, rfl, rfl, hL⟩ := List.map_eq_cons_iff.1 hK
  obtain ⟨j, M, rfl, rfl, -⟩ := List.map_eq_cons_iff.1 hL
  have hsignificant : significant (layout t).tokens = significant F ++ i :: j :: significant M := by
    rw [hFK, significant_append]
    simp only [Token.word] at htrivia hv
    simp [significant, Token.isTrivia, htrivia, hv]
  exact List.isChain_iff_forall_rel_of_append_cons_cons.1 (successors_words h hw) hsignificant rfl

end Lines

/-! ## Cutting a chain -/

section Chain

variable {c : Char} {cs : Text}

/-- Characters that begin strings, blanks, comments and continued lines, and the dot. -/
def signChars : List Char := ['"', '\'', ' ', '\t', '\x0c', '\n', '\r', '\\', '#', '.']

theorem isWordChar_false : ∀ d ∈ signChars, isWordChar d = false := by decide

/-- What a pattern takes for a character of a word begins a name or a number, or nothing. -/
theorem isIdentifierStart_of_munch (hc : isWordChar c = true) (hdigit : isAsciiDigit c = false)
    (h : (munch c cs).1 ≠ .error) : isIdentifierStart c = true := by
  by_contra hstart
  have hnot {d : Char} (hd : d ∈ signChars) : c ≠ d := by
    rintro rfl
    rw [isWordChar_false c hd] at hc
    cases hc
  have hmark : StringLiteral.isMark c = false := by
    have hall : ∀ c ∈ "rRuUbBfF".toList, isIdentifierStart c = true := by decide
    refine Bool.eq_false_iff.2 fun hmark => hstart (hall c ?_)
    simpa [StringLiteral.isMark] using hmark
  have hoperator : ∀ e ∈ operators, ∀ d ∈ e.1.head?, isWordChar d = false := by decide +kernel
  refine h (congrArg Prod.fst (munch_of_nothing ?_ (opening?_of_not_isMark ?_ hmark)
    (Bool.eq_false_iff.2 hstart) hdigit ?_))
  · intro hmem
    exact hnot (List.mem_cons_of_mem _ (List.mem_cons_of_mem _ hmem)) rfl
  · simp [StringLiteral.isQuote, hnot (d := '"') (by decide), hnot (d := '\'') (by decide)]
  · intro e he hhead
    rw [hoperator e he c hhead] at hc
    cases hc

/-- A digit begins a number. -/
theorem munch_digit (hc : isAsciiDigit c = true) : (munch c cs).1 = .number := by
  have hne {d : Char} (hd : isAsciiDigit d = false) : c ≠ d := by
    rintro rfl
    rw [hc] at hd
    cases hd
  have hstart : isIdentifierStart c = false := by
    simp only [isAsciiDigit, Bool.and_eq_true, decide_eq_true_eq] at hc
    have hletter : isAsciiLetter c = false := by
      simp only [isAsciiLetter, Bool.or_eq_false_iff, Bool.and_eq_false_iff,
        decide_eq_false_iff_not]
      omega
    have hlow : c.toNat < 128 := by omega
    simp [isIdentifierStart, hlow, hletter, hne (d := '_') (by decide)]
  have hopen : StringLiteral.opening? (c :: cs) = none := by
    refine opening?_of_not_isMark ?_ (Bool.eq_false_iff.2 fun hmark => ?_)
    · simp [StringLiteral.isQuote, hne (d := '"') (by decide), hne (d := '\'') (by decide)]
    · have hall : ∀ d ∈ "rRuUbBfF".toList, isIdentifierStart d = true := by decide
      rw [hall c (by simpa [StringLiteral.isMark] using hmark)] at hstart
      cases hstart
  unfold munch
  simp [isSpace, hne (d := ' ') (by decide), hne (d := '\t') (by decide),
    hne (d := '\x0c') (by decide), hne (d := '\n') (by decide), hne (d := '\r') (by decide),
    hne (d := '\\') (by decide), hne (d := '#') (by decide), StringLiteral.find?, hopen, hstart, hc]

/-- A dot in front of a character that is no dot is a word, unless a number begins with it. -/
theorem munch_dot (hc : c ≠ '.') :
    (munch '.' (c :: cs)).1 = .number ∨
      munch '.' (c :: cs) = (.dot, 0) ∧ isAsciiDigit c = false := by
  have hopen : StringLiteral.opening? ('.' :: c :: cs) = none :=
    opening?_of_not_isMark (by decide) (by decide)
  have hstart : isIdentifierStart '.' = false := by decide
  have hnone : isAsciiDigit '.' = false := by decide
  by_cases hdigit : isAsciiDigit c = true
  · left
    unfold munch
    simp [isSpace, StringLiteral.find?, hopen, hstart, hnone, NumberLiteral.pointedLength, hdigit]
  · refine .inr ⟨?_, Bool.eq_false_iff.2 hdigit⟩
    have hoperator : operator? ('.' :: c :: cs) = some (.dot, 0) := by
      simp [operator?, operators, List.isPrefixOf, Ne.symm hc]
    unfold munch
    simp [isSpace, StringLiteral.find?, hopen, hstart, hnone, NumberLiteral.pointedLength, hdigit,
      hoperator]

end Chain

namespace Word

/-- Dots with a name behind each. -/
inductive Links : List Word → Prop
  | nil : Links []
  | link {d k : Word} {ws : List Word} : d.kind = .dot → k.kind = .ident → Links ws →
      Links (d :: k :: ws)

/-- A text that no name goes on with. -/
def EndsName (t : Text) : Prop := ∀ x ∈ t.head?, endsName x = true

variable {ws : List Word} {w : Word} {c : Char} {r rest : Text}

/-- What ends a list, and has a member only at its beginning, stands behind each other place
of it. -/
theorem suffix_of_last {α : Type} {x : α} {m front back : List α} (h : x :: m <:+ front ++ x :: back)
    (hm : x ∉ m) : x :: m <:+ x :: back := by
  rcases List.suffix_or_suffix_of_suffix h (List.suffix_append front (x :: back)) with hshort | hlong
  · exact hshort
  · rcases List.suffix_cons_iff.1 hlong with heq | hinside
    · exact ⟨[], heq.symm⟩
    · exact absurd (hinside.mem List.mem_cons_self) hm

/-- A word of word characters goes on up to the next dot. -/
theorem Clean.piece (h : Clean ws (c :: (r ++ rest))) (hc : isWordChar c = true)
    (hdigit : isAsciiDigit c = false) (hr : ∀ x ∈ r, isWordChar x = true ∨ x = '.')
    (hrest : EndsName rest) :
    ∃ cs r' ws', r = cs ++ r' ∧ (∀ x ∈ r'.head?, x = '.') ∧ '.' ∉ cs ∧
      ws = ⟨(Kind.ofKeyword? (c :: cs)).getD .ident, c :: cs⟩ :: ws' ∧ Clean ws' (r' ++ rest) := by
  have hends {x : Char} (hx : isWordChar x = true ∨ x = '.')
      (hcontinue : isIdentifierContinue x = false) : endsName x = true := by
    have hquote : StringLiteral.isQuote x = false := by
      rcases hx with hx | rfl
      · simp only [StringLiteral.isQuote, Bool.or_eq_false_iff, beq_eq_false_iff_ne]
        constructor <;> (rintro rfl; rw [isWordChar_false _ (by decide)] at hx; cases hx)
      · decide
    simp [endsName, hquote, hcontinue]
  have hstart : isIdentifierStart c = true := by
    obtain ⟨_, -, hsound, -⟩ := h.first
    exact isIdentifierStart_of_munch hc hdigit hsound
  have hsplit := List.takeWhile_append_dropWhile (p := isIdentifierContinue) (l := r)
  generalize hcs : r.takeWhile isIdentifierContinue = cs at hsplit
  generalize hr' : r.dropWhile isIdentifierContinue = r' at hsplit
  have hall : ∀ x ∈ cs, isIdentifierContinue x = true := fun x hx =>
    List.all_eq_true.1 List.all_takeWhile x (hcs ▸ hx)
  have hnext : ∀ x ∈ r'.head?, isIdentifierContinue x = false ∧ (isWordChar x = true ∨ x = '.') := by
    intro x hx
    have hstop := List.head?_dropWhile_not isIdentifierContinue r
    rw [hr', Option.mem_def.1 hx] at hstop
    exact ⟨by simpa using hstop, hr x (hsplit ▸ List.mem_append_right _ (List.mem_of_mem_head? hx))⟩
  have hbehind : ∀ x ∈ (r' ++ rest).head?, endsName x = true := by
    intro x hx
    cases r' with
    | nil => exact hrest x hx
    | cons d r' =>
      obtain ⟨hcontinue, hd⟩ := hnext d rfl
      obtain rfl : d = x := by simpa using hx
      exact hends hd hcontinue
  rw [← hsplit, List.append_assoc, ← List.cons_append] at h
  obtain ⟨ws', rfl, hclean⟩ := h.head (w := ⟨_, c :: cs⟩) (cut_name hstart hall hbehind)
  refine ⟨cs, r', ws', hsplit.symm, fun x hx => ?_, fun hdot => ?_, rfl, hclean⟩
  · -- a word character that no name goes on with begins nothing
    obtain ⟨hcontinue, hx' | hx'⟩ := hnext x hx
    · obtain ⟨r'', rfl⟩ := List.head?_eq_some_iff.1 hx
      obtain ⟨_, -, hsound, -⟩ := hclean.first
      have hnone : isAsciiDigit x = false := Bool.eq_false_iff.2 fun hx => by
        simp [NumberLiteral.isIdentifierContinue_of_isAsciiDigit hx] at hcontinue
      have := isIdentifierContinue_of_start (isIdentifierStart_of_munch hx' hnone hsound)
      rw [hcontinue] at this
      cases this
    · exact hx'
  · have := hall '.' hdot
    revert this
    decide

/-- A dot behind a name is a word. -/
theorem Clean.dot (h : Clean ws ('.' :: (r ++ rest))) (hfollow : Follows (w :: ws))
    (hw : w.kind ∈ [.ident, .importKw]) (hr : r ≠ []) (hdots : r.head? ≠ some '.') :
    ∃ c r' ws', r = c :: r' ∧ c ≠ '.' ∧ isAsciiDigit c = false ∧ w.kind = .ident ∧
      ws = ⟨.dot, ['.']⟩ :: ws' ∧ Clean ws' (r ++ rest) := by
  obtain ⟨c, r', rfl⟩ := List.exists_cons_of_ne_nil hr
  have hc : c ≠ '.' := by simpa using hdots
  rw [List.cons_append] at h
  obtain ⟨ws', rfl, -, hclean⟩ := h.first
  have hnext := (List.isChain_cons_cons.1 hfollow).1
  have hall : ∀ k ∈ [Kind.ident, .importKw], k ∈ Kind.leaders ∧ k.successors.has .number = false ∧
      (k.successors.has .dot = true → k = .ident) := by decide
  obtain ⟨hleader, hnumber, hident⟩ := hall _ hw
  have hseen := hnext hleader
  rcases @munch_dot c (r' ++ rest) hc with hmunch | ⟨hmunch, hdigit⟩
  · rw [hmunch] at hseen
    rw [hseen rfl (by simp)] at hnumber
    cases hnumber
  · rw [hmunch] at hseen hclean ⊢
    exact ⟨c, r', ws', rfl, hc, hdigit, hident (hseen rfl (by simp)), rfl, by simpa using hclean⟩

/-- Behind a name, a chain that ends in a name is cut into dots and names. -/
theorem Clean.chain {m : Text} (h : Clean ws (r ++ rest)) (hfollow : Follows (w :: ws))
    (hw : w.kind ∈ [.ident, .importKw]) (hr : ∀ x ∈ r, isWordChar x = true ∨ x = '.')
    (hdots : ¬ ['.', '.'] <:+: r) (hhead : ∀ x ∈ r.head?, x = '.') (hend : '.' :: m <:+ r)
    (hm : m ≠ []) (hname : '.' ∉ m) (hword : Kind.ofKeyword? m = none) (hrest : EndsName rest) :
    w.kind = .ident ∧ ∃ links ws', ws = links ++ [⟨.dot, ['.']⟩, ⟨.ident, m⟩] ++ ws' ∧ Links links ∧
      spell links ++ '.' :: m = r ∧ Clean ws' rest := by
  induction hn : r.length using Nat.strongRecOn generalizing ws w r with
  | _ n ih =>
  subst hn
  cases r with
  | nil => simp at hend
  | cons x r =>
  obtain rfl : x = '.' := hhead x rfl
  have hne : r ≠ [] := by
    rintro rfl
    have := hend.length_le
    simp at this
    exact hm this
  have hsingle : r.head? ≠ some '.' := by
    intro hdot
    obtain ⟨r', rfl⟩ := List.head?_eq_some_iff.1 hdot
    exact hdots ⟨[], r', rfl⟩
  obtain ⟨c, r, ws, rfl, hc, hdigit, hident, rfl, hbehind⟩ := h.dot hfollow hw hne hsingle
  refine ⟨hident, ?_⟩
  obtain ⟨-, hfollow⟩ := List.isChain_cons_cons.1 hfollow
  simp only [List.forall_mem_cons] at hr
  obtain ⟨-, hcword, hr⟩ := hr
  obtain ⟨cs, r', ws, rfl, hhead', hcs, rfl, hclean⟩ :=
    hbehind.piece (hcword.resolve_right hc) hdigit hr hrest
  have hplain : '.' ∉ c :: cs := by
    simp [Ne.symm hc, hcs]
  cases r' with
  | nil =>
    obtain rfl : m = c :: cs := by
      rcases List.suffix_cons_iff.1 hend with heq | hshort
      · simpa using heq
      · exact absurd (hshort.mem List.mem_cons_self) (by simpa using hplain)
    exact ⟨[], ws, by rw [hword]; rfl, .nil, by simp, by simpa using hclean⟩
  | cons x r' =>
    obtain rfl : x = '.' := hhead' x rfl
    have hlast : '.' :: m <:+ ('.' :: c :: cs) ++ '.' :: r' := by simpa using hend
    have hend' : '.' :: m <:+ '.' :: r' := suffix_of_last hlast hname
    obtain ⟨hnext, hfollow'⟩ := List.isChain_cons_cons.1 hfollow
    have hkind : (Kind.ofKeyword? (c :: cs)).getD .ident ∈ [Kind.ident, .importKw] := by
      refine Kind.of_ofKeyword
        (P := fun k => Kind.dot.successors.has k = true → k ∈ [.ident, .importKw])
        (by decide) (by decide) (c :: cs) (hnext (by decide) ?_ ?_)
      · exact Kind.of_ofKeyword (P := fun k => k.isTrivia = false) (by decide) (by decide) _
      · exact Kind.of_ofKeyword (P := fun k => k ≠ .newline) (by decide) (by decide) _
    obtain ⟨hk, links, ws', rfl, hlinks, hspell, hclean'⟩ :=
      ih ('.' :: r').length (by simp; omega) hclean hfollow' hkind
        (fun x hx => hr x (List.mem_append_right _ hx))
        (fun hpart => hdots (hpart.trans ⟨'.' :: c :: cs, [], by simp⟩)) (by simp) hend' rfl
    exact ⟨_ :: _ :: links, ws', rfl, .link rfl hk hlinks, by simp [← hspell], hclean'⟩

end Word

end SceneGate
