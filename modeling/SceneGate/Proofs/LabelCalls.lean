/-
Calls that ask for labels are calls. The pattern of such a call is no grammar, but where it
matches at a name that no dot stands in front of, and no backslash takes the quote behind a
label, what it matches is a call as the tree has it: of the method of the whole chain of
names (`label_calls_are_calls`).
-/
import SceneGate.Proofs.ChainWords
import SceneGate.Proofs.DottedCalls

namespace SceneGate

namespace AxisLabels

variable {t t' : Text} {call : LabelCall} {n : Nat} {x y : Text}

/-- The name of the method. -/
def method : Text := "get_axis_labels".toList

/-- A bracket or blanks stand behind the name of the method. -/
theorem endsName_of_labels? (h : labels? t = some (x, y, t')) : Word.EndsName t := by
  simp only [labels?, Option.bind_eq_bind, Option.bind_eq_some_iff] at h
  obtain ⟨t₁, hopen, -⟩ := h
  intro c hc
  rcases head?_of_after? hopen c hc with hblank | rfl
  · exact Word.endsName_of_isBlank hblank
  · decide

/-- What a call that asks for labels is made of. -/
structure Asks (t : Text) (call : LabelCall) (n : Nat) (chain arguments behind : Text) : Prop where
  text : t = chain ++ arguments
  axes : chain = call.axes ++ '.' :: method
  letters : ∀ c ∈ chain, isWordChar c = true ∨ c = '.'
  first : chain.head? ≠ some '.'
  dots : ¬ ['.', '.'] <:+: chain
  labels : labels? arguments = some (call.x, call.y, behind)
  size : n = t.length - behind.length

theorem not_infix_of_hasPart {u : Text} (h : t.hasPart u = false) : ¬ u <:+: t := by
  induction t with
  | nil =>
    intro hpart
    rw [List.eq_nil_of_infix_nil hpart] at h
    cases h
  | cons c t ih =>
    obtain ⟨hfront, hbehind⟩ := Bool.or_eq_false_iff.1 h
    intro hpart
    rcases List.infix_cons_iff.1 hpart with hpre | hpart
    · rw [List.isPrefixOf_iff_prefix.2 hpre] at hfront
      cases hfront
    · exact ih hbehind hpart

theorem call?_eq_some (h : call? t = some (call, n)) :
    ∃ chain arguments behind, Asks t call n chain arguments behind := by
  unfold call? at h
  dsimp only at h
  have hsplit := List.takeWhile_append_dropWhile (p := fun c => isWordChar c || c == '.') (l := t)
  have hletters : ∀ c ∈ t.takeWhile (fun c => isWordChar c || c == '.'),
      isWordChar c = true ∨ c = '.' :=
    fun c hc => by simpa using List.all_eq_true.1 List.all_takeWhile c hc
  generalize t.takeWhile (fun c => isWordChar c || c == '.') = chain at h hsplit hletters
  split at h
  · rename_i hmatch
    simp only [Bool.and_eq_true, List.isSuffixOf_iff_suffix] at hmatch
    obtain ⟨⟨axes, rfl⟩, hdotted⟩ := hmatch
    have htake : (axes ++ ".get_axis_labels".toList).take
        ((axes ++ ".get_axis_labels".toList).length - ".get_axis_labels".toList.length) = axes := by
      rw [List.length_append, Nat.add_sub_cancel, List.take_left]
    rw [htake] at h hdotted
    obtain ⟨⟨x, y, behind⟩, hlabels, hcall⟩ := Option.map_eq_some_iff.1 h
    obtain ⟨rfl, rfl⟩ := Prod.mk.inj hcall
    simp only [isDotted, Bool.and_eq_true, bne_iff_ne, ne_eq, Bool.not_eq_true',
      List.isEmpty_eq_false_iff] at hdotted
    obtain ⟨⟨⟨hne, hfirst⟩, hlast⟩, hdots⟩ := hdotted
    refine ⟨_, _, behind, hsplit.symm, rfl, hletters, ?_, ?_, ?_, rfl⟩
    · rwa [List.head?_append_of_ne_nil _ hne]
    · intro hpart
      rcases List.infix_append_iff.1 hpart with haxes | hmethod | ⟨u, v, huv, hu, hv⟩
      · exact not_infix_of_hasPart hdots haxes
      · exact not_infix_of_hasPart (by decide) hmethod
      · rcases List.eq_nil_or_concat' u with rfl | ⟨u, x, rfl⟩
        · have hmethod : ['.', '.'] <:+: ".get_axis_labels".toList := by
            rw [huv]
            exact hv.isInfix
          exact not_infix_of_hasPart (by decide) hmethod
        · -- no dot is the last of the axes
          obtain ⟨front, rfl⟩ := hu
          have hx : x ∈ ['.', '.'] := by
            rw [huv]
            simp
          obtain rfl : x = '.' := by simpa using hx
          simp at hlast
    · rw [← hsplit, List.drop_left] at hlabels
      exact hlabels
  · cases h

/-- The words of a call that asks for labels. -/
theorem words_of_call? {w : Word} {ws : List Word} (h : Word.Clean (w :: ws) t)
    (hfollow : Word.Follows (w :: ws)) (hw : w.kind = .ident) (hcall : call? t = some (call, n))
    (hx : endsEscaped call.x = false) (hy : endsEscaped call.y = false) :
    ∃ links gap mid behind, ws = links ++ [⟨.dot, ['.']⟩, ⟨.ident, method⟩] ++ gap ++
        Word.leftParen :: (mid ++ Word.rightParen :: behind) ∧
      Word.Links links ∧ Word.spell (w :: links) = call.axes ∧ (∀ w ∈ gap, w.isSpacing = true) ∧
      (mid.filter fun w => !w.isSpacing).map Word.kind =
        [.ident, .eq, .string, .comma, .ident, .eq, .string] ∧
      Word.spell behind = t.drop n := by
  obtain ⟨chain, arguments, rest, hasks⟩ := call?_eq_some hcall
  have hrest := endsName_of_labels? hasks.labels
  cases chain with
  | nil => simpa using hasks.axes
  | cons c chain =>
  have hclean := h
  rw [hasks.text, List.cons_append] at hclean
  have hc : c ≠ '.' := fun hdot => hasks.first (by rw [hdot]; rfl)
  obtain ⟨hletter, hletters⟩ := List.forall_mem_cons.1 hasks.letters
  have hdigit : isAsciiDigit c = false := by
    obtain ⟨_, heq, -, -⟩ := hclean.first
    obtain ⟨rfl, -⟩ := List.cons.inj heq
    refine Bool.eq_false_iff.2 fun hdigit => ?_
    rw [munch_digit hdigit] at hw
    cases hw
  obtain ⟨cs, r, _, rfl, hhead, hcs, heq, hbehind⟩ :=
    hclean.piece (hletter.resolve_right hc) hdigit hletters hrest
  obtain ⟨hword, rfl⟩ := List.cons.inj heq
  have htext : w.text = c :: cs := congrArg Word.text hword
  have hmethod : '.' :: method <:+ r := by
    have hend : '.' :: method <:+ c :: cs ++ r := ⟨call.axes, hasks.axes.symm⟩
    cases r with
    | nil =>
      have hdot := hend.mem List.mem_cons_self
      simp [Ne.symm hc, hcs] at hdot
    | cons x r =>
      obtain rfl : x = '.' := hhead x rfl
      exact Word.suffix_of_last hend (by decide)
  obtain ⟨-, links, ws, rfl, hlinks, hspell, hlabels⟩ :=
    hbehind.chain hfollow (by rw [hw]; decide) (fun x hx => hletters x (List.mem_append_right _ hx))
      (fun hpart => hasks.dots (hpart.trans ⟨c :: cs, [], by simp⟩)) hhead hmethod (by decide)
      (by decide) (by decide) hrest
  obtain ⟨gap, mid, behind, rfl, hgap, hmid, hclosed⟩ := hlabels.labels hasks.labels hx hy
  refine ⟨links, gap, mid, behind, by simp, hlinks, ?_, hgap, hmid, ?_⟩
  · have haxes := hasks.axes
    rw [← hspell, ← List.cons_append, ← htext, ← List.append_assoc] at haxes
    exact List.append_cancel_right haxes
  · have hsuffix : rest <:+ t := by
      rw [← h.text, ← hclosed.text]
      exact ⟨Word.spell (w :: (links ++ [⟨.dot, ['.']⟩, ⟨.ident, method⟩] ++ gap ++
          Word.leftParen :: (mid ++ [Word.rightParen]))),
        by rw [← Word.spell_append]; simp⟩
    rw [hclosed.text, hasks.size]
    exact List.suffix_iff_eq_drop.1 hsuffix

end AxisLabels

/-! ## In the layout -/

open Word

section Layout

variable {w : Word} {ws rs : List Word} {levels : List Nat} {d : Nat} {fresh : Bool}

/-- What the lexer has cut off for a word of a layout. -/
theorem Settled.raw_cases (h : Settled levels d fresh ws) (hw : w ∈ ws) :
    w.kind ∈ [.newline, .indent, .dedent] ∨ w.joins = true ∨ w.raw = [w] := by
  by_cases hk : w.kind ∈ [.newline, .indent, .dedent]
  · exact .inl hk
  · cases hj : w.joins with
    | true => exact .inr (.inl rfl)
    | false => exact .inr (.inr (raw_self (h.text_ne w hw hk) hj))

/-- The words that are cut off for words in brackets, blanks and line breaks aside, are those
that mean something. -/
theorem kinds_of_inside (hws : ∀ w ∈ ws, w.Inside)
    (htrivia : ∀ k ∈ ((rawOf ws).filter fun w => !w.isSpacing).map Word.kind, k.isTrivia = false) :
    (ws.filter fun w => !w.kind.isTrivia).map Word.kind =
      ((rawOf ws).filter fun w => !w.isSpacing).map Word.kind := by
  induction ws with
  | nil => rfl
  | cons w ws ih =>
    obtain ⟨hw, hws⟩ := List.forall_mem_cons.1 hws
    rw [rawOf_cons, List.filter_append, List.map_append] at htrivia ⊢
    obtain ⟨hfirst, hrest⟩ := List.forall_mem_append.1 htrivia
    rw [List.filter_cons, ← ih hws hrest]
    rcases hw with hw | hj
    · rw [hw.raw] at hfirst ⊢
      cases hspacing : w.isSpacing with
      | true =>
        have hblank : w.kind = .whitespace := by
          have hkind := hw.kind
          simp only [List.mem_cons, not_or] at hkind
          simpa [isSpacing, hkind.1] using hspacing
        simp [hspacing, hblank, Kind.isTrivia]
      | false =>
        have hplain : w.kind.isTrivia = false := by simpa [hspacing] using hfirst
        simp [hspacing, hplain]
    · have hkind : w.kind = .whitespace := by
        simp only [joins, Bool.and_eq_true, beq_iff_eq] at hj
        exact hj.1
      rw [raw_of_joins (fun ht => by simp [joins, ht] at hj) hj]
      simp [isSpacing, hkind, Kind.isTrivia]

theorem even_of_plain (h : ∀ w ∈ ws, w.kind.isBracket = false) : Even ws := by
  induction ws with
  | nil => exact .nil
  | cons w ws ih =>
    obtain ⟨hw, hws⟩ := List.forall_mem_cons.1 h
    exact .other hw (ih hws)

theorem mem_rawOf (hw : w ∈ ws) (hraw : w.raw = [w]) : w ∈ rawOf ws :=
  List.mem_flatMap.2 ⟨w, hw, by rw [hraw]; exact List.mem_singleton_self w⟩

theorem kind_of_joins (hj : w.joins = true) : w.kind = .whitespace := by
  simp only [joins, Bool.and_eq_true, beq_iff_eq] at hj
  exact hj.1

/-- What is cut into a chain, a bracket behind blanks, the arguments and the closing bracket,
in the layout: blanks may be line breaks there, but not in the brackets. -/
theorem Settled.label_words {ls gs ms bs : List Word} {dw mw : Word} (h : Settled levels d false ws)
    (hraw : rawOf ws = ls ++ [dw, mw] ++ gs ++ leftParen :: (ms ++ rightParen :: bs))
    (hls : ∀ w ∈ ls ++ [dw, mw], w.kind ∈ [.dot, .ident]) (hgs : ∀ w ∈ gs, w.isSpacing = true)
    (hms : (ms.filter fun w => !w.isSpacing).map Word.kind =
      [.ident, .eq, .string, .comma, .ident, .eq, .string]) :
    ∃ gap mid behind, ws = ls ++ [dw, mw] ++ gap ++ leftParen :: (mid ++ rightParen :: behind) ∧
      (∀ w ∈ gap, w.kind.isTrivia = true ∨ w.kind ∈ [.newline, .indent, .dedent]) ∧
      (∀ w ∈ mid, w.kind.isBracket = false) ∧
      (mid.filter fun w => !w.kind.isTrivia).map Word.kind =
        [.ident, .eq, .string, .comma, .ident, .eq, .string] ∧ rawOf behind = bs := by
  have hchain : ∀ w ∈ ls ++ [dw, mw], w.kind ≠ .newline ∧ w.kind.isBracket = false := by
    have hall : ∀ k ∈ [Kind.dot, .ident], k ≠ .newline ∧ k.isBracket = false := by decide
    exact fun w hw => hall _ (hls w hw)
  rw [List.append_assoc] at hraw
  obtain ⟨vs, rfl, hvs, hs⟩ := h.all_next hraw hchain
  obtain ⟨gap, o, us, rfl, rfl, ho, hus⟩ := exists_of_rawOf hvs
  obtain rfl := eq_of_raw ho (by decide)
  obtain ⟨mid, c, behind, rfl, rfl, hc, hbehind⟩ := exists_of_rawOf hus
  obtain rfl := eq_of_raw hc (by decide)
  have hspacing {w : Word} (hw : w.isSpacing = true) : w.kind = .whitespace ∨ w.kind = .newline := by
    simpa [isSpacing] using hw
  have hplain : ∀ w ∈ mid, w.kind.isBracket = false := by
    intro w hw
    rcases hs.raw_cases (w := w) (by simp [hw]) with hk | hj | hself
    · have hall : ∀ k ∈ [Kind.newline, .indent, .dedent], k.isBracket = false := by decide
      exact hall _ hk
    · rw [kind_of_joins hj]
      rfl
    · have hmem := mem_rawOf hw hself
      cases hcase : w.isSpacing with
      | true => rcases hspacing hcase with hk | hk <;> (rw [hk]; rfl)
      | false =>
        have hkind : w.kind ∈ [Kind.ident, .eq, .string, .comma, .ident, .eq, .string] := by
          rw [← hms]
          exact List.mem_map_of_mem (List.mem_filter.2 ⟨hmem, by rw [hcase]; rfl⟩)
        have hall : ∀ k ∈ [Kind.ident, .eq, .string, .comma, .ident, .eq, .string],
            k.isBracket = false := by decide
        exact hall _ hkind
  refine ⟨gap, mid, behind, by simp, ?_, hplain, ?_, hbehind⟩
  · intro w hw
    rcases hs.raw_cases (w := w) (by simp [hw]) with hk | hj | hself
    · exact .inr hk
    · rw [kind_of_joins hj]
      exact .inl rfl
    · rcases hspacing (hgs w (mem_rawOf hw hself)) with hk | hk
      · rw [hk]
        exact .inl rfl
      · rw [hk]
        exact .inr (by decide)
  · -- no line ends in the brackets
    obtain ⟨levels', d', hinner⟩ := hs.behind (o := leftParen) rfl rfl (by decide)
    obtain ⟨hinside, -⟩ := (even_of_plain hplain).of_settled (by simp [rightParen]) hinner
    rw [kinds_of_inside hinside (by rw [hms]; decide), hms]

end Layout

theorem Word.Links.kinds {ws : List Word} (h : Links ws) : ∀ w ∈ ws, w.kind ∈ [.dot, .ident] := by
  induction h with
  | nil => simp
  | link hd hk _ ih =>
    refine List.forall_mem_cons.2 ⟨by simp [hd], List.forall_mem_cons.2 ⟨by simp [hk], ih⟩⟩

/-- Dots and names behind names with dots between them go on with these. -/
theorem Dotted.append {ks ls : List Token} (h : Dotted ks) (hls : Links (ls.map Token.word)) :
    Dotted (ks ++ ls) := by
  generalize hws : ls.map Token.word = ws at hls
  induction hls generalizing ks ls with
  | nil => simpa [List.map_eq_nil_iff.1 hws] using h
  | link hd hk _ ih =>
    obtain ⟨d, ls, rfl, rfl, hbehind⟩ := List.map_eq_cons_iff.1 hws
    obtain ⟨k, ls, rfl, rfl, hrest⟩ := List.map_eq_cons_iff.1 hbehind
    have := ih (h.more hd hk) hrest
    simpa using this

section Tokens

open AxisLabels

variable {t : Text} {front back : List Token} {k : Token} {call : LabelCall} {n : Nat}

theorem spell_words (ks : List Token) : spell (ks.map Token.word) = spelling ks := by
  rw [spell, List.flatMap_map]
  rfl

/-- The words of a program from one of its names on. -/
theorem clean_layout (hok : (parse t).ok = true) (htokens : (layout t).tokens = front ++ k :: back)
    (hk : k.kind = .ident) :
    Clean (k.word :: rawOf (back.map Token.word)) (spelling (k :: back)) ∧
      Follows (k.word :: rawOf (back.map Token.word)) := by
  obtain ⟨hs, hcut⟩ := settled_layout (faults_layout_of_ok hok)
  have hraw := rawOf_layout t
  have hword : k.word.raw = [k.word] := by
    refine raw_self (hs.text_ne _ (List.mem_map_of_mem (by simp [htokens])) ?_) (joins_eq_false ?_) <;>
      simp [Token.word, hk]
  have hsplit : rawOf ((layout t).tokens.map Token.word) =
      rawOf (front.map Token.word) ++ k.word :: rawOf (back.map Token.word) := by
    simp [htokens, hword]
  refine ⟨⟨?_, ?_, ?_⟩, ?_⟩
  · rw [hsplit, allCut_append] at hcut
    exact hcut.2
  · intro w hw
    have hmem : w ∈ (tokenize t).map Token.word := by
      rw [← hraw, hsplit]
      exact List.mem_append_right _ hw
    obtain ⟨j, hj, rfl⟩ := List.mem_map.1 hmem
    exact kind_ne_error_of_ok hok hj
  · rw [spell_cons, spell_rawOf, spell_words]
    rfl
  · have hfollow := follows_tokenize hok
    rw [← hraw, hsplit] at hfollow
    exact hfollow.suffix (List.suffix_append ..)

/-- Which tokens a call that asks for labels has. -/
theorem tokens_of_call? (hok : (parse t).ok = true) (htokens : (layout t).tokens = front ++ k :: back)
    (hk : k.kind = .ident) (hcall : call? (spelling (k :: back)) = some (call, n))
    (hx : endsEscaped call.x = false) (hy : endsEscaped call.y = false) :
    ∃ links d m gap o mid c behind,
      k :: back = k :: links ++ [d, m] ++ gap ++ o :: (mid ++ c :: behind) ∧
      Dotted (k :: links) ∧ d.word = ⟨.dot, ['.']⟩ ∧ m.word = ⟨.ident, method⟩ ∧
      spelling (k :: links) = call.axes ∧
      (∀ j ∈ gap, j.isTrivia = true ∨ j.kind ∈ [.newline, .indent, .dedent]) ∧
      o.kind = .lParen ∧ c.kind = .rParen ∧ (∀ j ∈ mid, j.kind.isBracket = false) ∧
      (significant mid).map Token.kind = [.ident, .eq, .string, .comma, .ident, .eq, .string] ∧
      spelling behind = (spelling (k :: back)).drop n := by
  obtain ⟨hclean, hfollow⟩ := clean_layout hok htokens hk
  obtain ⟨hs, -⟩ := settled_layout (faults_layout_of_ok hok)
  obtain ⟨ls, gs, ms, bs, hwords, hlinks, haxes, hgs, hms, hbs⟩ :=
    words_of_call? hclean hfollow hk hcall hx hy
  have hplain : k.word.kind.isTrivia = false ∧ k.word.kind ∉ [.newline, .indent, .dedent] ∧
      k.word.kind.isBracket = false := by
    simp only [Token.word, hk]
    decide
  have hsplit : (layout t).tokens.map Token.word =
      front.map Token.word ++ k.word :: back.map Token.word := by
    rw [htokens, List.map_append, List.map_cons]
  obtain ⟨levels, depth, hbehind⟩ := hs.behind hsplit hplain.1 hplain.2.1
  rw [Layout.depthAfter_of_not_isBracket hplain.2.2] at hbehind
  obtain ⟨gw, midw, bw, hback, hgap, hmid, hkinds, hrest⟩ := hbehind.label_words hwords
    (List.forall_mem_append.2 ⟨hlinks.kinds, by simp⟩) hgs hms
  -- the tokens of these words
  obtain ⟨front₁, r₁, rfl, h₁, hr₁⟩ := List.map_eq_append_iff.1 hback
  obtain ⟨chain, gap, rfl, hchain, rfl⟩ := List.map_eq_append_iff.1 h₁
  obtain ⟨links, r₂, rfl, rfl, hr₂⟩ := List.map_eq_append_iff.1 hchain
  obtain ⟨d, r₃, rfl, hd, hr₃⟩ := List.map_eq_cons_iff.1 hr₂
  obtain ⟨m, r₄, rfl, hm, hr₄⟩ := List.map_eq_cons_iff.1 hr₃
  obtain rfl := List.map_eq_nil_iff.1 hr₄
  obtain ⟨o, r₅, rfl, ho, hr₅⟩ := List.map_eq_cons_iff.1 hr₁
  obtain ⟨mid, r₆, rfl, rfl, hr₆⟩ := List.map_eq_append_iff.1 hr₅
  obtain ⟨c, behind, rfl, hc, rfl⟩ := List.map_eq_cons_iff.1 hr₆
  refine ⟨links, d, m, gap, o, mid, c, behind, by simp, (Dotted.one hk).append hlinks, hd, hm, ?_, ?_,
    congrArg Word.kind ho, congrArg Word.kind hc, ?_, ?_, ?_⟩
  · rw [← haxes, spell_cons, spell_words]
    rfl
  · exact fun j hj => hgap j.word (List.mem_map_of_mem hj)
  · exact fun j hj => hmid j.word (List.mem_map_of_mem hj)
  · rw [← hkinds, List.filter_map, List.map_map]
    rfl
  · rw [← hbs, ← hrest, spell_rawOf, spell_words]

/-- Where the pattern of a call that asks for labels matches at a name behind no dot, and no
backslash takes the quote behind a label, the tree has a call of exactly the text that is
matched, and the whole chain in front of the name of the method is what the method is taken
of. -/
theorem label_calls_are_calls (hok : (parse t).ok = true)
    (htokens : (parse t).tree.tokens = front ++ k :: back) (hk : k.kind = .ident)
    (hdot : endsIn .dot (significant front) = false)
    (hcall : call? (spelling (k :: back)) = some (call, n))
    (hx : endsEscaped call.x = false) (hy : endsEscaped call.y = false) :
    ∃ l ∈ (parse t).tree.findAll .callExpr, l.start = k.offset ∧
      l.tree.text = (spelling (k :: back)).take n ∧
      ∃ receiver dot name rest, l.tree.parts = .node .attributeExpr [receiver, dot, name] :: rest ∧
        receiver.text = call.axes ∧ dot.text = ['.'] ∧ name.text = method := by
  have hlayout := htokens
  rw [tokens_parse] at hlayout
  obtain ⟨links, d, m, gap, o, mid, c, behind, hwords, hdotted, hd, hm, haxes, hgap, ho, hc, hmid,
    hkinds, hrest⟩ := tokens_of_call? hok hlayout hk hcall hx hy
  rw [hwords, ← List.append_assoc, ← List.append_assoc] at htokens
  obtain ⟨receiver, list, hsits, hreceiver, hreceiverTokens, hlist, hlistKind, hlistTokens⟩ :=
    exists_dotted_call hok htokens hdotted (congrArg Word.kind hd) (congrArg Word.kind hm) hdot hgap
      ho hc hmid hkinds
  obtain ⟨depth, hmem⟩ := hsits.exists_mem_locate
  have hchained := chained_layout t
  refine ⟨_, List.mem_filter.2 ⟨hmem, rfl⟩, ?_, ?_, receiver, _, _, _, rfl, ?_, ?_, ?_⟩
  · rw [hlayout] at hchained
    simpa using (offset_eq hchained).symm
  · have hsame := hsits.tokens
    rw [tokens_parse, hlayout, List.append_cancel_left_eq] at hsame
    have hspelled := congrArg spelling hsame
    rw [spelling_append, hrest] at hspelled
    refine List.append_cancel_right (hspelled.symm.trans ?_)
    rw [List.take_append_drop]
  · rw [Tree.text, hreceiverTokens, haxes]
  · have htext : d.text = ['.'] := congrArg Word.text hd
    simp [Tree.text, htext]
  · have htext : m.text = method := congrArg Word.text hm
    simp [Tree.text, htext]

/-- So it is with the axes of a scene: the call is found where the pattern matches. -/
theorem label_calls_are_calls_self :
    let t := "l = self.axes.get_axis_labels(x_label=\"x\", y_label=\"y\")\n".toList
    ∃ l ∈ (parse t).tree.findAll .callExpr, l.start = 4 ∧ l.tree.text = (t.drop 4).take 51 := by
  intro t
  obtain ⟨hok, htokens, hdot, hspelled, hcall⟩ : (parse t).ok = true ∧
      (parse t).tree.tokens = (parse t).tree.tokens.take 4 ++
        ⟨.ident, "self".toList, 4⟩ :: (parse t).tree.tokens.drop 5 ∧
      endsIn .dot (significant ((parse t).tree.tokens.take 4)) = false ∧
      spelling (⟨.ident, "self".toList, 4⟩ :: (parse t).tree.tokens.drop 5) = t.drop 4 ∧
      call? (t.drop 4) = some (⟨"self.axes".toList, ['x'], ['y']⟩, 51) := by decide +kernel
  obtain ⟨l, hl, hstart, htext, -⟩ :=
    label_calls_are_calls hok htokens rfl hdot (hspelled ▸ hcall) rfl rfl
  exact ⟨l, hl, hstart, hspelled ▸ htext⟩

/-- Behind a dot the pattern matches where no call begins. -/
theorem no_call_behind_subscript :
    let t := "l = self.plots[0].axes.get_axis_labels(x_label=\"x\", y_label=\"y\")\n".toList
    (parse t).ok = true ∧ (parse t).tree.tokens[11]? = some ⟨.ident, "axes".toList, 18⟩ ∧
      (call? (spelling ((parse t).tree.tokens.drop 11))).isSome = true ∧
      ∀ l ∈ (parse t).tree.findAll .callExpr, l.start ≠ 18 := by
  decide +kernel

end Tokens

end SceneGate
