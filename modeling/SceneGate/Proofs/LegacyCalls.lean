/-
The rule for the old constructor of text. It finds calls by their text, and takes what stands
between the first quotes for the first argument, and `font=` behind them for a font that is
passed. Where this is so (`isPlain`), the rule renews the calls in the tree, and the text that
comes out is a program again (`rule_renews_calls`).
-/
import SceneGate.Proofs.FoundCalls
import SceneGate.Proofs.LineByLine
import SceneGate.Proofs.RenewedCalls

namespace SceneGate

/-- The literal as it is written. -/
def StringArgument.literal (a : StringArgument) : Text := a.mark ++ a.quote :: (a.content ++ [a.quote])

theorem StringArgument.source_eq (a : StringArgument) : a.source = a.literal ++ (a.rest ++ [')']) := by
  simp [source, literal]

/-- Without escapes, what stands between quotes only has to hold no quote and no line end. -/
theorem StringArgument.isContent_of_forall {q : Char} {t : Text}
    (h : ∀ c ∈ t, c ≠ '\\' ∧ c ≠ q ∧ c ≠ '\n') : IsContent q t := by
  induction t with
  | nil => exact .nil
  | cons c t ih =>
    obtain ⟨⟨hslash, hquote, hfeed⟩, h⟩ := List.forall_mem_cons.1 h
    exact .plain hslash hquote hfeed (ih h)

/-- Edits that lie one before the other are told by which ones they are. -/
theorem Span.eq_of_mem_iff {spans spans' : List Span} (h : spans.Pairwise Span.Before)
    (h' : spans'.Pairwise Span.Before) (hmem : ∀ s, s ∈ spans ↔ s ∈ spans') : spans = spans' := by
  have hnodup {spans : List Span} (h : spans.Pairwise Span.Before) : spans.Nodup :=
    h.imp fun hbefore heq => by
      rw [heq] at hbefore
      exact Nat.lt_irrefl _ hbefore.2
  exact Span.eq_of_before ((List.perm_ext_iff_of_nodup (hnodup h) (hnodup h')).2 hmem) h h'

/-- Arguments that are found begin with a mark or a quote, which ends no word. -/
theorem StringArgument.WellFormed.head {a : StringArgument} (h : a.WellFormed) :
    ∃ c u, a.source = c :: u ∧ c ∉ stops := by
  have hquote : a.quote ∉ stops := by
    rcases StringLiteral.isQuote_iff.1 h.quote with hq | hq <;> rw [hq] <;> decide
  rcases h.mark with hm | hm | hm
  · exact ⟨a.quote, a.content ++ a.quote :: a.rest ++ [')'], by simp [source, hm], hquote⟩
  · exact ⟨'r', a.quote :: a.content ++ a.quote :: a.rest ++ [')'], by simp [source, hm], by decide⟩
  · exact ⟨'R', a.quote :: a.content ++ a.quote :: a.rest ++ [')'], by simp [source, hm], by decide⟩

/-- Numbers are written in ASCII. -/
theorem toNat_lt_of_mayHold {c : Char} (h : NumberLiteral.mayHold c = true) : c.toNat < 128 := by
  have hletters : ∀ x ∈ "_.xXoOjJ".toList, x.toNat < 128 := by decide
  simp only [NumberLiteral.mayHold, isAsciiDigit, Bool.or_eq_true, Bool.and_eq_true,
    decide_eq_true_eq, List.contains_iff_mem] at h
  rcases h with ((⟨-, hle⟩ | ⟨-, hle⟩) | ⟨-, hle⟩) | hmem
  · exact Nat.lt_of_le_of_lt hle (by decide)
  · exact Nat.lt_of_le_of_lt hle (by decide)
  · exact Nat.lt_of_le_of_lt hle (by decide)
  · exact hletters c hmem

/-- No number is written with a character that goes on no name. -/
theorem mayHold_of_continuesName {c : Char} (h : StringCall.continuesName (some c) = false) :
    NumberLiteral.mayHold c = false := by
  obtain ⟨hscore, hdot, hletter⟩ := StringCall.continuesName_eq_false.1 h c rfl
  refine Bool.eq_false_iff.2 fun hmay => ?_
  have hall : ∀ n < 128, NumberLiteral.mayHold (Char.ofNat n) = true →
      isAlphanumeric (Char.ofNat n) = false → Char.ofNat n = '_' ∨ Char.ofNat n = '.' := by
    decide +kernel
  have hc := hall c.toNat (toNat_lt_of_mayHold hmay)
  rw [Char.ofNat_toNat] at hc
  rcases hc hmay hletter with rfl | rfl
  · exact hscore rfl
  · exact hdot rfl

namespace Word

/-- Trivia does not begin with a bracket. -/
theorem head?_ne_of_isTrivia {w : Word} {ws : List Word} {e : Text} (hw : w.text ≠ [])
    (hk : w.kind.isTrivia = true) (hcut : AllCut (rawOf (w :: ws)) e) : w.text.head? ≠ some '(' := by
  have hparen {w : Word} {rest : Text} (h : w.Cut rest) (hhead : w.text.head? = some '(') :
      w.kind = .lParen := by
    obtain ⟨c, cs, htext, hmunch⟩ := h
    obtain rfl : '(' = c := by simpa [htext, eq_comm] using hhead
    obtain ⟨d, ds, heq, hsign⟩ := cut_sign (w := leftParen) (by simp [signs]) (cs ++ rest)
    obtain ⟨hd, rfl⟩ : '(' = d ∧ [] = ds := List.cons.inj heq
    rw [← hd, List.nil_append, hmunch] at hsign
    exact congrArg Prod.fst hsign
  intro hhead
  rw [rawOf_cons, allCut_append] at hcut
  unfold raw at hcut
  rw [if_neg hw] at hcut
  split at hcut
  · cases hparen hcut.1.1 hhead
  · rw [hparen hcut.1.1 hhead] at hk
    cases hk

end Word

namespace LegacyText

open Tree GroupTargets StringCall

/-- The calls that the rule writes anew: those that it finds and that begin in no other. -/
def rewritten (v : Vocabulary) (t : Text) : List StringCall :=
  apart 0 (findAll v.legacyTextConstructor t)

/-- Where they begin. -/
def places (v : Vocabulary) (t : Text) : List Nat := (rewritten v t).map StringCall.start

/-- Whether arguments are what the rule takes them for: the literal that is found is all of the
first one, and a font is passed just if `font=` stands behind it; if none is, no further argument is
given by position. -/
def isPlain (found : StringArgument) : List Argument → Bool
  | .positional first :: others =>
    first.text == found.literal && found.rest.hasPart "font=".toList == passesFont others &&
      (passesFont others || !others.any Argument.isPositional)
  | _ => false

variable {v : Vocabulary} {t : Text} {found : StringCall} {l : Located}

/-! ## Calls that are found in the tree -/

section Parts

variable {ts mid : List Tree} {callee : Tree} {gap : List Token} {o c : Token}
  (hp : CallParts ts callee gap o mid c) (h : (Tree.node .callExpr ts).InProgram)

include hp h

/-- The name that is called by its bare name. -/
theorem exists_name (hbare : isBareCall v (.node .callExpr ts) = true) :
    ∃ k, callee = .node .nameRef [.leaf k] ∧ k.word = ⟨.ident, v.legacyTextConstructor⟩ := by
  rw [isBareCall, hp.callee?] at hbare
  simp only [Bool.and_eq_true, Option.any_some, beq_iff_eq] at hbare
  obtain ⟨-, hkind, hname⟩ := hbare
  have hcallee := hp.callee_inProgram h
  cases callee with
  | leaf => cases hp.isNode
  | node kind us =>
    obtain rfl : kind = .nameRef := hkind
    obtain ⟨k, rfl, hk⟩ := hcallee.node.name (.inr rfl)
    refine ⟨k, rfl, ?_⟩
    have hbare : (Tree.node .nameRef [.leaf k]).bareText = k.text := by
      simp [bareText, Token.isTrivia, hk, Kind.isTrivia, spelling]
    rw [← hname, hbare, ← hk]
    rfl

/-- Where a bracket stands right behind the name, there is no trivia between them. -/
theorem gap_eq_nil {a back : Text}
    (htext : spelling gap ++ (o.text ++ (mid.flatMap Tree.text ++ (c.text ++ back))) = '(' :: a) :
    gap = [] := by
  obtain ⟨e, hcut⟩ := h.placed.allCut
  rw [← written, hp.written_eq, Word.rawOf_append, Word.allCut_append] at hcut
  replace hcut := hcut.2
  cases gap with
  | nil => rfl
  | cons g gap =>
    have htrivia : g.word.kind.isTrivia = true := hp.gap g (by simp)
    have hne : g.word.text ≠ [] := by
      refine h.placed.text_ne (by rw [← written, hp.written_eq]; simp) fun hmem => ?_
      simp only [List.mem_cons, List.not_mem_nil, or_false] at hmem
      rcases hmem with hk | hk | hk <;> rw [hk] at htrivia <;> cases htrivia
    refine absurd ?_ (Word.head?_ne_of_isTrivia hne htrivia hcut)
    obtain ⟨x, u, hx⟩ := List.exists_cons_of_ne_nil (show g.text ≠ [] from hne)
    rw [spelling_cons, hx] at htext
    rw [show g.word.text = g.text from rfl, hx, List.head?_cons, (List.cons.inj htext).1]

/-- Where what stands behind the bracket ends no words, it begins an argument. -/
theorem exists_first {a back : Text} (ha : ∀ x ∈ a.head?, x ∉ stops)
    (htext : mid.flatMap Tree.text ++ (c.text ++ back) = a) :
    ∃ first more, mid = first :: more ∧ first.isNode = true := by
  obtain ⟨e, hcut⟩ := h.placed.allCut
  rw [← written, hp.written_eq, Word.rawOf_append, Word.allCut_append, Word.rawOf_append,
    Word.allCut_append] at hcut
  replace hcut := hcut.2.2
  have hclose : c.word = .rightParen :=
    hp.eq_sign h (by simp) (by simp [Word.signs]) (show c.kind = _ from hp.closes)
  cases mid with
  | nil =>
    rw [show c.text = [')'] from congrArg Word.text hclose] at htext
    exact absurd (by decide) (ha ')' (by rw [← htext]; rfl))
  | cons first more =>
    refine ⟨first, more, rfl, ?_⟩
    cases first with
    | node => rfl
    | leaf j =>
      -- trivia or a comma would end words
      have hstops : j.kind.stops = true := by
        rcases leaf_of_areArguments hp.holds (k := j) (by simp) with hk | hk
        · exact Word.kind_stops_of_isTrivia (w := j.word) hk
        · rw [hk]; rfl
      have hne : j.word.text ≠ [] := (hp.inside j.word (by simp [wordsOf])).text_ne
      have hbehind : Word.AllCut (Word.rawOf (j.word :: (wordsOf more ++ [c.word]))) e := by
        rw [Word.rawOf_cons, Word.allCut_append] at hcut
        simpa using hcut.2
      obtain ⟨⟨x, u, hx, hmem⟩, -⟩ := Word.stops_of_allCut hne hstops hbehind
        (more.flatMap Tree.text ++ (c.text ++ back))
      refine absurd hmem (ha x ?_)
      rw [← htext, List.flatMap_cons, text_leaf, List.append_assoc]
      exact congrArg List.head? hx

end Parts

theorem ofTree?_eq_positional {u x : Tree} (h : Argument.ofTree? u = some (.positional x)) :
    u.kind = .arg ∧ x = u := by
  unfold Argument.ofTree? at h
  split at h <;> cases h
  exact ⟨‹_›, rfl⟩

/-- An argument of a program is one by its kind. -/
theorem exists_ofTree? {u : Tree} (h : u.kind ∈ Kind.arguments) :
    ∃ a, Argument.ofTree? u = some a := by
  simp only [Kind.arguments, List.mem_cons, List.not_mem_nil, or_false] at h
  rcases h with h | h | h | h <;> exact ⟨_, by rw [Argument.ofTree?, h]⟩

/-- Where no argument is positional, there is none by its kind. -/
theorem argumentsOf_arg_eq_nil {us : List Tree}
    (h : ((us.filter Tree.isNode).filterMap Argument.ofTree?).any Argument.isPositional = false) :
    argumentsOf .arg us = [] := by
  refine List.filter_eq_nil_iff.2 fun u hu harg => ?_
  rw [Bool.and_eq_true, beq_iff_eq] at harg
  have hsome : Argument.ofTree? u = some (.positional u) := by rw [Argument.ofTree?, harg.2]
  have hmem : Argument.positional u ∈ (us.filter Tree.isNode).filterMap Argument.ofTree? :=
    List.mem_filterMap.2 ⟨u, List.mem_filter.2 ⟨hu, harg.1⟩, hsome⟩
  rw [List.any_eq_false] at h
  exact h _ hmem rfl

/-- Two calls that the rule writes anew begin behind each other. -/
theorem start_of_rewritten {a b : StringCall} (ha : a ∈ rewritten v t) (hb : b ∈ rewritten v t) :
    b.start ≤ a.start ∨ a.stop ≤ b.start := by
  obtain ⟨-, hbefore⟩ := before_apart (fun c => ⟨c.start, c.length, []⟩) (fun _ => rfl) (fun _ => rfl) 0
    (findAll v.legacyTextConstructor t)
  -- told of both orders at once, the relation is symmetric
  let Apart (a b : StringCall) : Prop :=
    (b.start ≤ a.start ∨ a.stop ≤ b.start) ∧ (a.start ≤ b.start ∨ b.stop ≤ a.start)
  have hsymm : Std.Symm Apart := ⟨fun _ _ h => h.symm⟩
  have happart : (rewritten v t).Pairwise Apart :=
    (List.pairwise_map.1 hbefore).imp fun h => ⟨.inr h.1, .inl (Nat.le_of_lt h.2)⟩
  have hself (a : StringCall) : Apart a a := ⟨.inl (Nat.le_refl _), .inl (Nat.le_refl _)⟩
  exact (List.Pairwise.forall_of_forall (fun a _ => hself a) happart ha hb).1

theorem stands_of_rewritten (h : found ∈ rewritten v t) :
    StringCall.Stands v.legacyTextConstructor none 0 t found :=
  stands_of_mem_findAll ((apart_sublist _ _).mem h)

/-- Where a text is written at the place of a call that is found, it begins with that call, and no
name goes on in front of it. -/
theorem exists_source (hfound : found ∈ rewritten v t) {front s back : Text}
    (htext : t = front ++ s ++ back) (hbytes : front.bytes = found.start) :
    (∃ rest, s ++ back = found.source ++ rest) ∧ continuesName front.getLast? = false := by
  obtain ⟨front', back', htext', hfront', hbefore⟩ := (stands_of_rewritten hfound).place
  rw [htext, List.append_assoc, List.append_assoc] at htext'
  obtain ⟨rfl, hsource⟩ := Text.append_inj_of_bytes htext' (by omega)
  exact ⟨⟨back', hsource⟩, by rwa [Option.or_none] at hbefore⟩

/-- A call in the tree of a program lies in the program. -/
theorem mem_locateAll_of_isBareCall {parts : List Tree} (hroot : (parse t).tree = .node .sourceFile parts)
    (hl : l ∈ (parse t).tree.locate 0 0) (hbare : isBareCall v l.tree = true) : l ∈ locateAll 0 1 parts := by
  rw [hroot, locate] at hl
  refine (List.mem_cons.1 hl).resolve_left fun heq => ?_
  rw [heq] at hbare
  cases kind_of_isBareCall hbare

section Renewable

variable {ts : List Tree} {back rest : Text}

/-- What stands behind the name of a call that is written as one that is found. -/
theorem behind_name {k o c : Token} {gap : List Token} {mid : List Tree}
    (hp : CallParts ts (.node .nameRef [.leaf k]) gap o mid c)
    (hk : k.word = ⟨.ident, v.legacyTextConstructor⟩) (hcallee : found.callee = v.legacyTextConstructor)
    (hsource : (Tree.node .callExpr ts).text ++ back = found.source ++ rest) :
    spelling gap ++ (o.text ++ (mid.flatMap Tree.text ++ (c.text ++ back))) =
      '(' :: (found.argument.source ++ rest) := by
  have hname : k.text = v.legacyTextConstructor := congrArg Word.text hk
  have hgap : (gap.map leaf).flatMap Tree.text = spelling gap := by
    rw [List.flatMap_map, spelling]
    exact List.flatMap_congr fun g _ => text_leaf g
  rw [hp.eq, text_node, source, hcallee, ← hname] at hsource
  simpa [text_node, text_leaf, hgap] using hsource

/-- A call of a program that is written as one that is found, and is what the rule takes it for, has
the parts of a call that is renewed. -/
theorem exists_renewable (h : (Tree.node .callExpr ts).InProgram)
    (hbare : isBareCall v (.node .callExpr ts) = true) (hfound : found ∈ rewritten v t)
    (hsource : (Tree.node .callExpr ts).text ++ back = found.source ++ rest)
    (hplain : isPlain found.argument (Call.arguments (.node .callExpr ts)) = true) :
    ∃ k o first more c, Renewable v ts k o first more c ∧ first.text = found.argument.literal ∧
      passesFont (Call.arguments (.node .callExpr ts)) = found.argument.rest.hasPart "font=".toList := by
  obtain ⟨callee, gap, o, mid, c, hp⟩ := exists_callParts h
  obtain ⟨k, rfl, hk⟩ := exists_name hp h hbare
  -- the bracket and the first argument stand right behind the name
  have hstands := stands_of_rewritten hfound
  obtain ⟨x, u, hx, hends⟩ := hstands.argument.head
  have hbehind := behind_name hp hk hstands.callee hsource
  obtain rfl := gap_eq_nil hp h hbehind
  have hopen : o.word = .leftParen :=
    hp.eq_sign h (by simp) (by simp [Word.signs]) (show o.kind = _ from hp.opens)
  rw [show o.text = ['('] from congrArg Word.text hopen] at hbehind
  obtain ⟨first, more, rfl, hnode⟩ :=
    exists_first hp h (by rw [hx]; simpa using hends) (List.cons.inj hbehind).2
  -- and the first argument is given by position
  obtain ⟨a, ha⟩ := exists_ofTree? (node_of_areArguments hp.holds (t := first) (by simp) hnode)
  have hargs := arguments_eq hp.toCallShape
  rw [List.filter_cons_of_pos hnode, List.filterMap_cons_some ha] at hargs
  rw [hargs] at hplain
  obtain ⟨y, rfl⟩ : ∃ y, a = .positional y := by
    cases a with
    | positional y => exact ⟨y, rfl⟩
    | keyword | starred | doubleStarred => cases hplain
  obtain ⟨hkind, rfl⟩ := ofTree?_eq_positional ha
  simp only [isPlain, Bool.and_eq_true, beq_iff_eq, Bool.or_eq_true, Bool.not_eq_true'] at hplain
  obtain ⟨⟨hfirst, hfont⟩, hkeywords⟩ := hplain
  have hpasses : passesFont (Call.arguments (.node .callExpr ts)) =
      found.argument.rest.hasPart "font=".toList := by
    rw [hargs, hfont]
    simp [passesFont, Argument.isNamed]
  refine ⟨k, o, y, more, c, ⟨h, hp, hk, hopen, hnode, hkind, fun hnone => ?_⟩, hfirst, hpasses⟩
  rw [hpasses, hfont] at hnone
  exact argumentsOf_arg_eq_nil (hkeywords.resolve_left (by simp [hnone]))

/-- No call that the rule writes anew begins in the head of another. -/
theorem apart_of_renewable {k o c : Token} {first : Tree} {more : List Tree}
    (hr : Renewable v ts k o first more c) (hfound : found ∈ rewritten v t)
    (hfirst : first.text = found.argument.literal) {n : Nat} (hn : n ∈ places v t) :
    n ≤ found.start ∨ found.start + (k.text ++ o.text ++ first.text).bytes ≤ n := by
  obtain ⟨other, hother, rfl⟩ := List.mem_map.1 hn
  have hwhole : found.source = k.text ++ o.text ++ first.text ++ (found.argument.rest ++ [')']) := by
    rw [source, (stands_of_rewritten hfound).callee, StringArgument.source_eq, ← hfirst, hr.calleeText,
      hr.opensText]
    simp
  have hlength : (k.text ++ o.text ++ first.text).bytes ≤ found.length := by
    rw [StringCall.length, hwhole, Text.bytes_append _ (found.argument.rest ++ [')'])]
    exact Nat.le_add_right ..
  exact (start_of_rewritten hfound hother).imp_right (Nat.le_trans (Nat.add_le_add_left hlength _))

end Renewable

/-- A call of the tree that begins where the rule writes one anew, and is what the rule takes it
for, is fit to be renewed. -/
theorem exists_ready (h : (parse t).ok = true) (hl : l ∈ (parse t).tree.locate 0 0)
    (hbare : isBareCall v l.tree = true) (hfound : found ∈ rewritten v t)
    (hstart : l.start = found.start) (hplain : isPlain found.argument (Call.arguments l.tree) = true) :
    ∃ k o first more c, Ready v (places v t) t l.start l.tree.parts k o first more c ∧
      first.text = found.argument.literal ∧
      passesFont (Call.arguments l.tree) = found.argument.rest.hasPart "font=".toList := by
  obtain ⟨parts, hroot⟩ := parse_root t
  have hparts := inProgram_parse h
  rw [hroot] at hparts
  have hprogram := (inProgram_of_mem_locateAll hparts (mem_locateAll_of_isBareCall hroot hl hbare)).1
  obtain ⟨front, back, htext, hfront⟩ := exists_text_of_mem_locate hl
  rw [text_parse] at htext
  have hnode := node_of_isBareCall hbare
  rw [hnode] at hprogram htext hbare hplain ⊢
  obtain ⟨⟨rest, hsource⟩, -⟩ := exists_source hfound htext (by omega)
  obtain ⟨k, o, first, more, c, hr, hfirst, hfont⟩ := exists_renewable hprogram hbare hfound hsource hplain
  refine ⟨k, o, first, more, c, ⟨hr, fun f b hf hbytes p hp => ?_, fun n hn => ?_⟩, hfirst, hfont⟩
  · have hbefore := (exists_source hfound hf (hbytes.trans hstart)).2
    rw [hp] at hbefore
    exact mayHold_of_continuesName hbefore
  · rw [hstart]
    exact apart_of_renewable hr hfound hfirst hn

/-! ## The edits of the rule -/

theorem renewal_length_pos (v : Vocabulary) (start : Nat) (first : Text) (passed : Bool) :
    0 < (renewal v start first passed).length :=
  Text.bytes_pos (List.append_ne_nil_of_right_ne_nil _ (List.cons_ne_nil _ _))

/-- The edit of a call that is found, up to the end of its literal. -/
def narrowed (v : Vocabulary) (found : StringCall) : Span :=
  renewal v found.start found.argument.literal (found.argument.rest.hasPart "font=".toList)

theorem narrows_span (hcallee : found.callee = v.legacyTextConstructor) :
    found.Narrows (span v found) (narrowed v found) := by
  refine ⟨[], v.legacyTextConstructor ++ '(' :: found.argument.literal, found.argument.rest ++ [')'],
    v.textConstructor ++ '(' :: (found.argument.literal ++
      fontSource v (found.argument.rest.hasPart "font=".toList)), ?_, ?_, rfl⟩
  · rw [source, hcallee, StringArgument.source_eq]
    simp
  · rw [span, withFont, fontSource]
    cases found.argument.rest.hasPart "font=".toList <;> simp [StringArgument.source, StringArgument.literal]

/-- What comes out of a text, by the narrow edits. -/
theorem substituted_narrowed (v : Vocabulary) (t : Text) :
    Substituted 0 ((rewritten v t).map (narrowed v)) t ((rule v).apply t) := by
  have hfirst : Span.firstCome none (spans v t) = (rewritten v t).map (span v) := by
    have hsorted := pairwise_start_findAll v.legacyTextConstructor t
    rw [spans, rewritten]
    cases hfound : findAll v.legacyTextConstructor t with
    | nil => rfl
    | cons call calls =>
      rw [hfound] at hsorted
      obtain ⟨hcall, hcalls⟩ := List.pairwise_cons.1 hsorted
      rw [List.map_cons, Span.firstCome, if_pos (by rfl), apart, if_pos (Nat.zero_le _), List.map_cons,
        firstCome_map (fun _ => rfl) (fun _ => rfl) hcall hcalls]
      rfl
  obtain ⟨out, hout⟩ := (leftToRight v t).exists_substituted
  have happly : (rule v).apply t = out := Edits.applyOrKeep_ordered (leftToRight v t).sorted hout
  rw [hfirst] at hout
  rw [happly]
  have hin : ∀ c ∈ rewritten v t, c.LiesIn ([] ++ t) := fun c hc => (stands_of_rewritten hc).liesIn
  exact substituted_narrow (fun c hc => narrows_span (stands_of_rewritten hc).callee) hin hout

/-- What is rewritten in a text are calls of its tree. -/
def FindsCalls (v : Vocabulary) (t : Text) : Prop :=
  ∀ found ∈ rewritten v t, ∃ call ∈ (parse t).tree.findAll .callExpr,
    isBareCall v call.tree = true ∧ call.start = found.start

/-- The calls of the tree that are rewritten are what the rule takes them for. -/
def FindsArguments (v : Vocabulary) (t : Text) : Prop :=
  ∀ call ∈ (parse t).tree.findAll .callExpr, isBareCall v call.tree = true →
    ∀ found ∈ rewritten v t, call.start = found.start →
      isPlain found.argument (Call.arguments call.tree) = true

instance : Decidable (FindsCalls v t) :=
  inferInstanceAs (Decidable (∀ found ∈ rewritten v t, ∃ call ∈ (parse t).tree.findAll .callExpr,
    isBareCall v call.tree = true ∧ call.start = found.start))

instance : Decidable (FindsArguments v t) :=
  inferInstanceAs (Decidable (∀ call ∈ (parse t).tree.findAll .callExpr,
    isBareCall v call.tree = true → ∀ found ∈ rewritten v t, call.start = found.start →
      isPlain found.argument (Call.arguments call.tree) = true))

section Edits

variable {parts : List Tree} (h : (parse t).ok = true) (hroot : (parse t).tree = .node .sourceFile parts)
  (hplain : FindsArguments v t)

theorem exists_found (hcall : ((places v t).contains l.start && isBareCall v l.tree) = true) :
    isBareCall v l.tree = true ∧ ∃ found ∈ rewritten v t, l.start = found.start := by
  obtain ⟨hplace, hbare⟩ := Bool.and_eq_true_iff.1 hcall
  obtain ⟨found, hfound, hstart⟩ := List.mem_map.1 (List.contains_iff_mem.1 hplace)
  exact ⟨hbare, found, hfound, hstart.symm⟩

theorem contains_start (hfound : found ∈ rewritten v t) (hstart : l.start = found.start) :
    (places v t).contains l.start = true :=
  List.contains_iff_mem.2 (hstart ▸ List.mem_map_of_mem hfound)

include hroot in
theorem mem_locate_root (hl : l ∈ locateAll 0 1 parts) : l ∈ (parse t).tree.locate 0 0 := by
  rw [hroot, locate]
  exact List.mem_cons_of_mem _ hl

include h hroot hplain

/-- The call that the rule writes anew is fit to be renewed. -/
theorem ready_of_found (hl : l ∈ locateAll 0 1 parts) (hbare : isBareCall v l.tree = true)
    (hfound : found ∈ rewritten v t) (hstart : l.start = found.start) :
    ∃ k o first more c, Ready v (places v t) t l.start l.tree.parts k o first more c ∧
      first.text = found.argument.literal ∧
      passesFont (Call.arguments l.tree) = found.argument.rest.hasPart "font=".toList := by
  have hl := mem_locate_root hroot hl
  have hcall : l ∈ (parse t).tree.findAll .callExpr :=
    List.mem_filter.2 ⟨hl, (Bool.and_eq_true_iff.1 hbare).1⟩
  exact exists_ready h hl hbare hfound hstart (hplain l hcall hbare found hfound hstart)

/-- Its edit is the one of the tree. -/
theorem edit?_of_found (hl : l ∈ locateAll 0 1 parts) (hbare : isBareCall v l.tree = true)
    (hfound : found ∈ rewritten v t) (hstart : l.start = found.start) :
    edit? v (places v t) l = some (narrowed v found) := by
  obtain ⟨k, o, first, more, c, hr, hfirst, hfont⟩ := ready_of_found h hroot hplain hl hbare hfound hstart
  have hnode := node_of_isBareCall hbare
  have hcall : ((places v t).contains l.start && isBareCall v l.tree) = true :=
    Bool.and_eq_true_iff.2 ⟨contains_start hfound hstart, hbare⟩
  rw [hr.renewable.edit? hnode hcall, ← hnode, hfont, hfirst, hstart]
  rfl

/-- The edits of the tree are those of the rule. -/
theorem mem_edits_iff (hcalls : FindsCalls v t) (s : Span) :
    s ∈ (locateAll 0 1 parts).filterMap (edit? v (places v t)) ↔
      s ∈ (rewritten v t).map (narrowed v) := by
  constructor
  · intro hs
    obtain ⟨l, hl, hs⟩ := List.mem_filterMap.1 hs
    have hcall : ((places v t).contains l.start && isBareCall v l.tree) = true := by
      by_contra hcall
      rw [edit?, if_neg hcall] at hs
      cases hs
    obtain ⟨hbare, found, hfound, hstart⟩ := exists_found hcall
    rw [edit?_of_found h hroot hplain hl hbare hfound hstart] at hs
    exact List.mem_map.2 ⟨found, hfound, Option.some.inj hs⟩
  · intro hs
    obtain ⟨found, hfound, rfl⟩ := List.mem_map.1 hs
    obtain ⟨call, hcall, hbare, hstart⟩ := hcalls found hfound
    have hl := mem_locateAll_of_isBareCall hroot (List.mem_filter.1 hcall).1 hbare
    exact List.mem_filterMap.2 ⟨call, hl, edit?_of_found h hroot hplain hl hbare hfound hstart⟩

end Edits

/-- The rule renews the calls of the tree. -/
theorem exists_fit (h : (parse t).ok = true) (hcalls : FindsCalls v t) (hplain : FindsArguments v t) :
    ∃ parts, (parse t).tree = .node .sourceFile parts ∧ Fit v (places v t) t [] parts ∧
      renew v (places v t) 0 (parse t).tree = .node .sourceFile (renewAll v (places v t) 0 parts) ∧
      (rule v).apply t = (renew v (places v t) 0 (parse t).tree).text := by
  obtain ⟨parts, hroot⟩ := parse_root t
  have htext : t = parts.flatMap Tree.text := by
    rw [← text_node .sourceFile, ← hroot, text_parse]
  have hprogram := inProgram_parse h
  rw [hroot, Tree.parts] at hprogram
  have hfit : Fit v (places v t) t [] parts :=
    fit_of_ready parts [] [] 1 (by simpa using htext) hprogram fun l hl hcall => by
      obtain ⟨hbare, found, hfound, hstart⟩ := exists_found hcall
      obtain ⟨k, o, first, more, c, hr, -⟩ := ready_of_found h hroot hplain hl hbare hfound hstart
      exact ⟨k, o, first, more, c, hr⟩
  have hroot' : renew v (places v t) 0 (parse t).tree =
      .node .sourceFile (renewAll v (places v t) 0 parts) := by
    rw [hroot, renew_node]
    simp [isBareCall, Tree.kind]
  refine ⟨parts, hroot, hfit, hroot', ?_⟩
  -- both lists of edits come from left to right, and have the same members
  have hnarrow := substituted_narrowed v t
  have htree : Substituted 0 ((locateAll 0 1 parts).filterMap (edit? v (places v t))) t
      ((renewAll v (places v t) 0 parts).flatMap Tree.text) :=
    htext ▸ (hfit.renewed 1).substituted
  have hiff := mem_edits_iff h hroot hplain hcalls
  have hpos : ∀ s ∈ (rewritten v t).map (narrowed v), 0 < s.length := fun s hs => by
    obtain ⟨found, -, rfl⟩ := List.mem_map.1 hs
    exact renewal_length_pos ..
  have hbefore := (hnarrow.before hpos).2
  have hbefore' := (htree.before fun s hs => hpos s ((hiff s).1 hs)).2
  rw [Span.eq_of_mem_iff hbefore' hbefore hiff] at htree
  rw [hroot', hnarrow.unique htree, text_node]

/-- What the rule makes of a program is a program, and its tree is the one whose calls are renewed. -/
theorem parse_rule {M N : Identifier} (hM : v.legacyTextConstructor = M.word.text)
    (hN : v.textConstructor = N.word.text) (hM' : M.first ≠ '_') (hN' : N.first ≠ '_')
    (hfont : StringArgument.IsContent '"' v.defaultFont) (h : (parse t).ok = true)
    (hcalls : FindsCalls v t) (hplain : FindsArguments v t) :
    (parse ((rule v).apply t)).ok = true ∧
      (parse ((rule v).apply t)).tree.unplaced = (renew v (places v t) 0 (parse t).tree).unplaced := by
  obtain ⟨parts, hroot, hfit, hrenew, happly⟩ := exists_fit h hcalls hplain
  rw [happly, hrenew]
  exact parse_renewed hM hN hM' hN' hfont h hroot (hfit.renewed 1)

/-- Where the rule takes calls and their arguments for what they are, its output is the program
with the calls renewed: each call that it rewrites gives a call of the new constructor with the same
arguments, and the font if none was passed. -/
theorem rule_renews_calls {M N : Identifier} (hM : v.legacyTextConstructor = M.word.text)
    (hN : v.textConstructor = N.word.text) (hM' : M.first ≠ '_') (hN' : N.first ≠ '_')
    (hfont : StringArgument.IsContent '"' v.defaultFont) (h : (parse t).ok = true)
    (hcalls : FindsCalls v t) (hplain : FindsArguments v t) :
    (parse ((rule v).apply t)).ok = true ∧
      (parse ((rule v).apply t)).tree.unplaced = (renew v (places v t) 0 (parse t).tree).unplaced ∧
      ∀ call ∈ (parse t).tree.findAll .callExpr, isBareCall v call.tree = true →
        call.start ∈ places v t →
          KeepsArguments v (places v t) call.tree (renew v (places v t) call.start call.tree) ∧
            ∃ call' ∈ (parse ((rule v).apply t)).tree.findAll .callExpr,
              call'.tree.unplaced = (renew v (places v t) call.start call.tree).unplaced := by
  obtain ⟨hok, htree⟩ := parse_rule hM hN hM' hN' hfont h hcalls hplain
  refine ⟨hok, htree, fun call hcall hbare hplace => ?_⟩
  obtain ⟨parts, hroot, hfit, hrenew, -⟩ := exists_fit h hcalls hplain
  have hchosen : ((places v t).contains call.start && isBareCall v call.tree) = true :=
    Bool.and_eq_true_iff.2 ⟨List.contains_iff_mem.2 hplace, hbare⟩
  have hlocated := (List.mem_filter.1 hcall).1
  constructor
  · obtain ⟨-, found, hfound, hstart⟩ := exists_found hchosen
    obtain ⟨k, o, first, more, c, hr, -⟩ :=
      exists_ready h hlocated hbare hfound hstart (hplain call hcall hbare found hfound hstart)
    rw [node_of_isBareCall hbare] at hchosen ⊢
    exact hr.renewable.keepsArguments hchosen
  · have hl := mem_locateAll_of_isBareCall hroot hlocated hbare
    obtain ⟨new, hnew, hnewTree⟩ := hfit.exists_mem hl hchosen 0
    have hmem : new ∈ (renew v (places v t) 0 (parse t).tree).findAll .callExpr := by
      refine List.mem_filter.2 ⟨?_, ?_⟩
      · rw [hrenew, locate]
        exact List.mem_cons_of_mem _ hnew
      · rw [hnewTree, isNode_renew, kind_renew]
        exact (List.mem_filter.1 hcall).2
    have hsame := congrArg (Tree.findAll .callExpr) htree
    rw [findAll_unplaced, findAll_unplaced] at hsame
    obtain ⟨call', hcall', heq⟩ := List.mem_map.1 (hsame ▸ List.mem_map_of_mem hmem)
    exact ⟨call', hcall', by rw [← hnewTree]; exact congrArg Located.tree heq⟩

/-- A program in which a call of the old constructor lies in the arguments of another. -/
def nestedTexts : Text := "t = TexText(\"A\", size=f(x), next=TexText(\"B\", font=\"C\"))\n".toList

theorem rule_renews_calls_nested :
    places {} nestedTexts = [4, 33] ∧ (parse ((rule {}).apply nestedTexts)).ok = true ∧
      ∀ call ∈ (parse nestedTexts).tree.findAll .callExpr, isBareCall {} call.tree = true →
        call.start ∈ places {} nestedTexts →
          KeepsArguments {} (places {} nestedTexts) call.tree
            (renew {} (places {} nestedTexts) call.start call.tree) := by
  let M : Identifier := ⟨'T', "exText".toList, by decide, by decide, by decide⟩
  let N : Identifier := ⟨'T', "ext".toList, by decide, by decide, by decide⟩
  have hfont : StringArgument.IsContent '"' ({} : Vocabulary).defaultFont :=
    StringArgument.isContent_of_forall (by decide)
  obtain ⟨hok, -, hcalls⟩ := rule_renews_calls (v := {}) (t := nestedTexts) (M := M) (N := N) rfl rfl
    (by decide) (by decide) hfont (by decide +kernel) (by decide +kernel) (by decide +kernel)
  exact ⟨by decide +kernel, hok, fun call hcall hbare hplace => (hcalls call hcall hbare hplace).1⟩

/-- A font that is passed is missed where a blank stands in front of the equals sign. -/
theorem rule_passes_font_twice :
    let t := "t = TexText(\"A\", font = \"Roboto\")\n".toList
    (parse t).ok = true ∧
      (∃ call ∈ (parse t).tree.findAll .callExpr, isBareCall {} call.tree = true ∧
        call.start ∈ places {} t ∧ passesFont (Call.arguments call.tree) = true) ∧
      ∃ call ∈ (parse ((rule {}).apply t)).tree.findAll .callExpr,
        ((Call.arguments call.tree).filter (Argument.isNamed fontName.word.text)).length = 2 := by
  decide +kernel

end LegacyText

end SceneGate
