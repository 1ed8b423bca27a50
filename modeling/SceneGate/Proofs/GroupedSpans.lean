/-
The edits of one pass. The calls that are to be grouped come with the outer ones before
those that lie in them, and each span that is taken up turns away those inside its range.
So what is carried out are the edits of the outermost calls (`outerSpans`), which turn the
text of a tree into that of the grouped tree (`apply_ofSpans_spans`); and a span is turned
away only if calls lie in one another (`nesting_le_one`).
-/
import SceneGate.Proofs.NestedCalls
import SceneGate.Proofs.Substitution

namespace SceneGate

/-! ## Pieces of a text -/

namespace Substituted

variable {o : Nat} {spans spans' : List Span} {t t' out out' : Text}

/-- A piece of the text that is kept. -/
theorem behind (kept : Text) (h : Substituted (o + kept.bytes) spans t out) :
    Substituted o spans (kept ++ t) (kept ++ out) := by
  generalize hstart : o + kept.bytes = start at h
  cases h with
  | keep => exact .keep o _
  | @replace _ s _ _ _ between replaced hbetween hlength h =>
    have hkept : o + Text.bytes (kept ++ between) = s.start := by
      rw [Text.bytes_append, ← Nat.add_assoc, hstart, hbetween]
    simpa using Substituted.replace (kept ++ between) replaced hkept hlength h

/-- Texts that stand side by side. -/
theorem append (h : Substituted o spans t out) (h' : Substituted (o + t.bytes) spans' t' out') :
    Substituted o (spans ++ spans') (t ++ t') (out ++ out') := by
  induction h with
  | keep o t => exact h'.behind t
  | @replace o s spans t out kept replaced hstart hlength _ ih =>
    have hbytes : o + (kept ++ replaced ++ t).bytes = s.stop + t.bytes := by
      simp only [Text.bytes_append, Span.stop]
      omega
    rw [hbytes] at h'
    simpa using Substituted.replace kept replaced hstart hlength (ih h')

/-- Ranges that are not empty lie one before the other. -/
theorem before (h : Substituted o spans t out) (hpos : ∀ s ∈ spans, 0 < s.length) :
    (∀ s ∈ spans, o ≤ s.start) ∧ spans.Pairwise Span.Before := by
  induction h with
  | keep => simp
  | @replace o s spans t out kept replaced hstart hlength _ ih =>
    obtain ⟨hs, hspans⟩ := List.forall_mem_cons.1 hpos
    obtain ⟨hbehind, hpairwise⟩ := ih hspans
    have hfirst (u : Span) (hu : u ∈ spans) : s.Before u := by
      have := hbehind u hu
      exact ⟨this, by rw [Span.stop] at this; omega⟩
    refine ⟨List.forall_mem_cons.2 ⟨by omega, fun u hu => ?_⟩,
      List.pairwise_cons.2 ⟨hfirst, hpairwise⟩⟩
    have := (hfirst u hu).2
    omega

end Substituted

namespace Tree

/-- The text of trees that stand side by side. -/
theorem text_node (kind : Kind) (ts : List Tree) : (node kind ts).text = ts.flatMap text := by
  rw [text, tokens_node]
  induction ts with
  | nil => rfl
  | cons t ts ih => rw [tokensOf_cons, spelling_append, ih, List.flatMap_cons, text]

end Tree

namespace GroupTargets

open SceneGate.Tree

variable {v : Vocabulary} {G : Identifier} {n o d : Nat} {kind : Kind} {ts : List Tree} {t : Tree}

/-! ## The edit for a call -/

theorem text_ofWord (w : Word) : (ofWord w).text = w.text := by
  simp [ofWord, text, spelling, Word.token]

/-- The text of arguments in brackets. -/
theorem text_argumentList (ts : List Tree) :
    (argumentList ts).text = '(' :: (Text.joinWith ", ".toList (ts.map text) ++ [')']) := by
  have hcommas (t : Text) (ts : List Tree) :
      t ++ (behindCommas ts).flatMap text = Text.joinWith ", ".toList (t :: ts.map text) := by
    induction ts generalizing t with
    | nil => simp [behindCommas, Text.joinWith]
    | cons u us ih =>
      have hmark : ", ".toList = Word.comma.text ++ Word.blank.text := rfl
      have hrest := ih u.text
      rw [Text.joinWith] at hrest ⊢
      rw [behindCommas_cons, List.map_cons, List.intersperse_cons_cons, List.flatten_cons,
        List.flatten_cons, ← hrest, hmark]
      simp [text_ofWord]
  cases ts with
  | nil => rfl
  | cons t ts =>
    have hopen : Word.leftParen.text = ['('] := rfl
    have hclose : Word.rightParen.text = [')'] := rfl
    rw [argumentList_cons, text_node, List.map_cons, ← hcommas]
    simp [text, spelling, Word.token, hopen, hclose]

theorem text_callOf (name : Text) (ts : List Tree) : (callOf name ts).text =
    name ++ '(' :: (Text.joinWith ", ".toList (ts.map text) ++ [')']) := by
  have hlist := text_argumentList ts
  simp [callOf, text_node, hlist, text_ofWord]

/-- The arguments that are grouped, and what comes of them. -/
theorem groupedArguments?_eq (group : Text) (list : Tree) :
    groupedArguments? group list.arguments =
      if !list.arguments.any Argument.isUnpacked && 2 ≤ list.positional.length &&
          !list.positional.head?.any fun first => (group ++ ['(']).isPrefixOf first.text then
        some (Text.joinWith ", ".toList ((callOf group list.positional :: list.keywords).map text))
      else none := by
  have hsources (p : Argument → Bool) :
      (list.arguments.filter p).map (·.tree.text) =
        ((list.arguments.filter p).map Argument.tree).map text := by simp
  rw [groupedArguments?]
  simp only [hsources]
  cases hunpacked : list.arguments.any Argument.isUnpacked with
  | true =>
    split <;> simp
  | false =>
    -- where nothing is unpacked, what is not passed by a name is given by position
    have hfilter : list.arguments.filter (!·.isKeyword) =
        list.arguments.filter Argument.isPositional := by
      refine List.filter_congr fun a ha => ?_
      have := (List.any_eq_false.1 hunpacked) a ha
      cases a <;> simp_all [Argument.isUnpacked, Argument.isKeyword, Argument.isPositional]
    rw [hfilter, ← positional, ← keywords, List.map_cons, text_callOf]
    rcases list.positional with _ | ⟨first, _ | ⟨second, more⟩⟩
    · simp
    · simp
    · simp only [List.map_cons, List.head?_cons, Option.any_some]
      generalize (group ++ ['(']).isPrefixOf first.text = begins
      cases begins <;> simp

/-- The edit for a call. -/
theorem span?_eq (l : Located) (hnode : l.tree.isNode = true) (hkind : l.tree.kind = .callExpr) :
    span? v l = if isEligible v l.tree then
      some ⟨l.start, l.tree.bytes, (groupCall v.groupConstructor l.tree).text⟩ else none := by
  simp only [span?, isEligible, groupCall, hnode, hkind, Call.calleeName?]
  cases Call.callee? l.tree with
  | none => rfl
  | some callee =>
    cases hname : callee.tailName? with
    | none => simp [hname]
    | some name =>
      cases Call.argumentList? l.tree with
      | none => simp [hname]
      | some list =>
        cases heffect : v.isSingleTargetEffect name with
        | false => cases hgrouped : groupedArguments? v.groupConstructor list.arguments <;>
            simp [hname, heffect, hgrouped]
        | true =>
          have htext (ts : List Tree) : (Tree.node .callExpr [callee, argumentList ts]).text =
              callee.text ++ '(' :: (Text.joinWith ", ".toList (ts.map text) ++ [')']) := by
            rw [text_node, List.flatMap_cons, List.flatMap_cons, text_argumentList]
            simp
          have harguments := groupedArguments?_eq v.groupConstructor list
          simp only [Option.any_some, Option.bind_some, hname, heffect, Bool.true_and, BEq.rfl,
            htext]
          generalize (!list.arguments.any Argument.isUnpacked &&
            decide (2 ≤ list.positional.length) && !list.positional.head?.any fun first =>
              (v.groupConstructor ++ ['(']).isPrefixOf first.text) = groups at harguments ⊢
          cases groups <;> simp [hname, heffect, harguments]

/-- The edits for those of the trees in their places that are calls to be grouped. -/
def editsOf (v : Vocabulary) (ls : List Located) : List Span :=
  (ls.filter fun l => isEligible v l.tree).map fun l =>
    ⟨l.start, l.tree.bytes, (groupCall v.groupConstructor l.tree).text⟩

theorem spans_eq (v : Vocabulary) (t : Tree) : spans v t = editsOf v (t.locate 0 0) := by
  rw [spans, findAll, List.filterMap_filter, editsOf, ← List.filterMap_eq_map,
    List.filterMap_filter]
  refine List.filterMap_congr fun l _ => ?_
  cases he : isEligible v l.tree with
  | true =>
    have hnode : l.tree.isNode = true := by
      simp only [isEligible, Bool.and_eq_true] at he
      exact he.1.1.1
    have hkind := kind_of_isEligible he
    simp [span?_eq l hnode hkind, he, hnode, hkind]
  | false =>
    by_cases hcall : l.tree.isNode = true ∧ l.tree.kind = .callExpr
    · simp [span?_eq l hcall.1 hcall.2, he]
    · simp [hcall]

theorem editsOf_append (ls ms : List Located) :
    editsOf v (ls ++ ms) = editsOf v ls ++ editsOf v ms := by
  simp [editsOf]

/-! ## The outermost calls -/

mutual

/-- The ranges of the calls that are to be grouped and lie in no others, with their text
once the calls are grouped that lie in fewer than `n` others. -/
def outerSpans (v : Vocabulary) (n start : Nat) : Tree → List Span
  | .leaf _ => []
  | .node kind ts =>
    if isEligible v (.node kind ts) then
      [⟨start, (Tree.node kind ts).bytes, (regroup v n (.node kind ts)).text⟩]
    else outerSpansAll v n start ts

/-- The ranges of such calls in trees that stand side by side from `start` on. -/
def outerSpansAll (v : Vocabulary) (n start : Nat) : List Tree → List Span
  | [] => []
  | t :: ts => outerSpans v n start t ++ outerSpansAll v n (start + t.bytes) ts

end

theorem outerSpans_call (h : isEligible v (.node kind ts) = true) :
    outerSpans v n o (.node kind ts) =
      [⟨o, (Tree.node kind ts).bytes, (regroup v n (.node kind ts)).text⟩] := by
  rw [outerSpans, if_pos h]

theorem outerSpans_node (h : isEligible v (.node kind ts) = false) :
    outerSpans v n o (.node kind ts) = outerSpansAll v n o ts := by
  rw [outerSpans, if_neg (by simp [h])]

mutual

/-- Grouping calls replaces the ranges of the outermost calls in the text of a tree. -/
theorem substituted_regroup (v : Vocabulary) (n : Nat) : ∀ (o : Nat) (t : Tree),
    Substituted o (outerSpans v n o t) t.text (regroup v n t).text
  | o, .leaf k => by
    rw [outerSpans, regroup_leaf]
    exact .keep o _
  | o, .node kind ts => by
    cases he : isEligible v (.node kind ts) with
    | true =>
      rw [outerSpans_call he]
      have hone : Substituted o
          [⟨o, (Tree.node kind ts).bytes, (regroup v n (.node kind ts)).text⟩]
          ([] ++ (Tree.node kind ts).text ++ []) ([] ++ (regroup v n (.node kind ts)).text ++ []) :=
        .replace [] (Tree.node kind ts).text rfl rfl (.keep _ [])
      simpa using hone
    | false =>
      rw [outerSpans_node he, regroup_node he, text_node, text_node]
      exact substituted_regroupAll v n o ts

theorem substituted_regroupAll (v : Vocabulary) (n : Nat) : ∀ (o : Nat) (ts : List Tree),
    Substituted o (outerSpansAll v n o ts) (ts.flatMap text) ((ts.map (regroup v n)).flatMap text)
  | o, [] => by
    rw [outerSpansAll]
    exact .keep o []
  | o, t :: ts => by
    rw [outerSpansAll, List.map_cons, List.flatMap_cons, List.flatMap_cons]
    exact (substituted_regroup v n o t).append (substituted_regroupAll v n (o + t.bytes) ts)

end

/-! ## Edits that are taken up -/

mutual

/-- The trees in a tree of a program lie in its range. -/
theorem inProgram_of_mem_locate {l : Located} : ∀ {t : Tree} {o d : Nat}, t.InProgram →
    l ∈ t.locate o d → l.tree.InProgram ∧ o ≤ l.start ∧ l.stop ≤ o + t.bytes
  | .leaf k, o, d, h, hl => by
    simp only [locate, List.mem_singleton] at hl
    subst hl
    exact ⟨h, Nat.le_refl _, Nat.le_refl _⟩
  | .node kind ts, o, d, h, hl => by
    simp only [locate, List.mem_cons] at hl
    rcases hl with rfl | hl
    · exact ⟨h, Nat.le_refl _, Nat.le_refl _⟩
    · have := inProgram_of_mem_locateAll (fun t ht => h.part ht) hl
      rwa [bytes, text_node]

theorem inProgram_of_mem_locateAll {l : Located} : ∀ {ts : List Tree} {o d : Nat},
    (∀ t ∈ ts, t.InProgram) → l ∈ locateAll o d ts →
      l.tree.InProgram ∧ o ≤ l.start ∧ l.stop ≤ o + Text.bytes (ts.flatMap text)
  | [], o, d, _, hl => by simp [locateAll] at hl
  | t :: ts, o, d, h, hl => by
    obtain ⟨ht, hts⟩ := List.forall_mem_cons.1 h
    rw [List.flatMap_cons, Text.bytes_append]
    simp only [locateAll, List.mem_append] at hl
    rcases hl with hl | hl
    · obtain ⟨hprogram, hstart, hstop⟩ := inProgram_of_mem_locate ht hl
      refine ⟨hprogram, hstart, ?_⟩
      rw [bytes] at hstop
      omega
    · obtain ⟨hprogram, hstart, hstop⟩ := inProgram_of_mem_locateAll hts hl
      rw [bytes] at hstart hstop
      exact ⟨hprogram, by omega, by omega⟩

end

/-- A call of a program is not empty. -/
theorem bytes_pos_of_isEligible (h : t.InProgram) (he : isEligible v t = true) : 0 < t.bytes := by
  cases t with
  | leaf k => cases he
  | node kind ts =>
    obtain rfl : kind = .callExpr := kind_of_isEligible he
    obtain ⟨callee, gap, o, mid, c, hp⟩ := exists_callParts h
    have hmem : o.word ∈ (Tree.node .callExpr ts).written := by rw [hp.written_eq]; simp
    have htext : o.word.text ≠ [] := h.placed.text_ne hmem
      (by rw [show o.word.kind = _ from hp.opens]; decide)
    refine Text.bytes_pos fun hempty => htext ?_
    rw [← spell_written, Word.spell, List.flatMap_eq_nil_iff] at hempty
    exact hempty _ hmem

/-- What lies in the range of a span that is taken up is turned away. -/
theorem pushAll_of_covered {edits : Edits} {spans : List Span}
    (h : ∀ s ∈ spans, ∃ a ∈ edits.spans, a.overlaps s = true) : edits.pushAll spans = edits := by
  induction spans with
  | nil => rfl
  | cons s spans ih =>
    obtain ⟨⟨a, ha, hover⟩, hspans⟩ := List.forall_mem_cons.1 h
    have hkept : (edits.push s).1 = edits := by
      unfold Edits.push
      rw [dif_pos (List.any_eq_true.2 ⟨a, ha, hover⟩)]
    rw [Edits.pushAll, List.foldl_cons, hkept]
    exact ih hspans

/-- The ranges lie side by side and are not empty. -/
def EndBefore (o : Nat) (spans : List Span) : Prop := ∀ a ∈ spans, 0 < a.length ∧ a.stop ≤ o

mutual

/-- Of the edits for the calls in a tree those for the outermost calls are taken up. -/
theorem spans_pushAll (v : Vocabulary) : ∀ {t : Tree} {o d : Nat} {edits : Edits}, t.InProgram →
    EndBefore o edits.spans →
      (edits.pushAll (editsOf v (t.locate o d))).spans = edits.spans ++ outerSpans v 1 o t ∧
        EndBefore (o + t.bytes) (edits.spans ++ outerSpans v 1 o t)
  | .leaf k, o, d, edits, _, h => by
    have hnone : editsOf v ((leaf k).locate o d) = [] := by
      simp [editsOf, locate, isEligible, isNode]
    rw [hnone, outerSpans, List.append_nil]
    exact ⟨rfl, fun a ha => ⟨(h a ha).1, Nat.le_trans (h a ha).2 (Nat.le_add_right ..)⟩⟩
  | .node kind ts, o, d, edits, hprogram, h => by
    rw [locate]
    cases he : isEligible v (.node kind ts) with
    | true =>
      have hpos := bytes_pos_of_isEligible hprogram he
      rw [outerSpans_call he, regroup_one_call he]
      generalize hs : (⟨o, (Tree.node kind ts).bytes,
        (groupCall v.groupConstructor (.node kind ts)).text⟩ : Span) = s
      have hfirst : editsOf v (⟨o, d, .node kind ts⟩ :: locateAll o (d + 1) ts) =
          s :: editsOf v (locateAll o (d + 1) ts) := by simp [editsOf, he, hs]
      have hfree : (edits.push s).2 = true := by
        refine (Edits.push_snd edits s).2 fun a ha => Span.overlaps_of_before ?_
        obtain ⟨hlength, hstop⟩ := h a ha
        subst hs
        exact ⟨hstop, by simp only [Span.stop] at hstop ⊢; omega⟩
      have hpushed : (edits.push s).1.spans = edits.spans ++ [s] := by
        rw [Edits.spans_push, if_pos hfree]
      have hcovered : (edits.push s).1.pushAll (editsOf v (locateAll o (d + 1) ts)) =
          (edits.push s).1 := by
        refine pushAll_of_covered fun u hu => ⟨s, by simp [hpushed], ?_⟩
        obtain ⟨l, hl, rfl⟩ := List.mem_map.1 hu
        obtain ⟨hl, hle⟩ := List.mem_filter.1 hl
        obtain ⟨hin, hstart, hstop⟩ := inProgram_of_mem_locateAll (fun t ht => hprogram.part ht) hl
        have hlpos := bytes_pos_of_isEligible hin hle
        subst hs
        rw [← text_node kind, ← bytes, Located.stop] at hstop
        rw [Span.overlaps, if_neg (by simp only; omega), decide_eq_true_eq]
        simp only [Span.stop]
        omega
      rw [hfirst, Edits.pushAll, List.foldl_cons]
      refine ⟨(congrArg Edits.spans hcovered).trans hpushed, fun a ha => ?_⟩
      rcases List.mem_append.1 ha with ha | ha
      · exact ⟨(h a ha).1, Nat.le_trans (h a ha).2 (Nat.le_add_right ..)⟩
      · obtain rfl := List.mem_singleton.1 ha
        subst hs
        exact ⟨hpos, Nat.le_refl _⟩
    | false =>
      have hnone : editsOf v (⟨o, d, .node kind ts⟩ :: locateAll o (d + 1) ts) =
          editsOf v (locateAll o (d + 1) ts) := by simp [editsOf, he]
      rw [hnone, outerSpans_node he, bytes, text_node]
      exact spans_pushAll_all v (fun t ht => hprogram.part ht) h

theorem spans_pushAll_all (v : Vocabulary) : ∀ {ts : List Tree} {o d : Nat} {edits : Edits},
    (∀ t ∈ ts, t.InProgram) → EndBefore o edits.spans →
      (edits.pushAll (editsOf v (locateAll o d ts))).spans =
          edits.spans ++ outerSpansAll v 1 o ts ∧
        EndBefore (o + Text.bytes (ts.flatMap text)) (edits.spans ++ outerSpansAll v 1 o ts)
  | [], o, d, edits, _, h => by
    simpa [editsOf, locateAll, outerSpansAll, Edits.pushAll] using h
  | t :: ts, o, d, edits, hprogram, h => by
    obtain ⟨ht, hts⟩ := List.forall_mem_cons.1 hprogram
    obtain ⟨hfirst, hends⟩ := spans_pushAll v (d := d) ht h
    rw [← hfirst] at hends
    obtain ⟨hrest, hends⟩ := spans_pushAll_all v (d := d) hts hends
    have happend : edits.pushAll (editsOf v (locateAll o d (t :: ts))) =
        (edits.pushAll (editsOf v (t.locate o d))).pushAll
          (editsOf v (locateAll (o + t.bytes) d ts)) := by
      simp [locateAll, editsOf_append, Edits.pushAll]
    rw [hfirst, List.append_assoc] at hrest hends
    rw [happend, outerSpansAll, List.flatMap_cons, Text.bytes_append, ← Nat.add_assoc]
    exact ⟨hrest, hends⟩

end

/-! ## Calls that lie in one another -/

mutual

/-- Fewer ranges than calls mean that calls lie in one another. -/
theorem nesting_of_length (v : Vocabulary) (n d : Nat) : ∀ (o : Nat) (t : Tree),
    (outerSpans v n o t).length ≤ (editsOf v (t.locate o d)).length ∧
      ((editsOf v (t.locate o d)).length = 0 → nesting v t = 0) ∧
      ((editsOf v (t.locate o d)).length ≤ (outerSpans v n o t).length → nesting v t ≤ 1)
  | o, .leaf k => by simp [outerSpans]
  | o, .node kind ts => by
    have hparts := nesting_of_length_all v n (d + 1) o ts
    rw [locate, nesting_node]
    cases he : isEligible v (.node kind ts) with
    | true =>
      have hfirst : (editsOf v (⟨o, d, .node kind ts⟩ :: locateAll o (d + 1) ts)).length =
          (editsOf v (locateAll o (d + 1) ts)).length + 1 := by simp [editsOf, he]
      rw [hfirst, outerSpans_call he, List.length_singleton, if_pos rfl]
      omega
    | false =>
      have hnone : editsOf v (⟨o, d, .node kind ts⟩ :: locateAll o (d + 1) ts) =
          editsOf v (locateAll o (d + 1) ts) := by simp [editsOf, he]
      rw [hnone, outerSpans_node he, if_neg (by simp), Nat.zero_add]
      exact hparts

theorem nesting_of_length_all (v : Vocabulary) (n d : Nat) : ∀ (o : Nat) (ts : List Tree),
    (outerSpansAll v n o ts).length ≤ (editsOf v (locateAll o d ts)).length ∧
      ((editsOf v (locateAll o d ts)).length = 0 → nestingAll v ts = 0) ∧
      ((editsOf v (locateAll o d ts)).length ≤ (outerSpansAll v n o ts).length →
        nestingAll v ts ≤ 1)
  | o, [] => by simp [outerSpansAll, nestingAll]
  | o, t :: ts => by
    have hfirst := nesting_of_length v n d o t
    have hrest := nesting_of_length_all v n d (o + t.bytes) ts
    rw [locateAll, editsOf_append, outerSpansAll, nestingAll, List.length_append,
      List.length_append]
    omega

end

/-! ## One pass -/

/-- Carrying out the edits for a program groups the outermost calls. -/
theorem apply_ofSpans_spans {t : Text} (h : (parse t).ok = true) :
    (Edits.ofSpans (spans v (parse t).tree)).spans = outerSpans v 1 0 (parse t).tree ∧
      (Edits.ofSpans (spans v (parse t).tree)).apply t =
        .ok (regroup v 1 (parse t).tree).text := by
  obtain ⟨parts, hroot⟩ := parse_root t
  have hprogram := inProgram_parse h
  have htext : (parse t).tree.text = t := by rw [text, tokens_parse, spelling_layout]
  have hsubstituted := substituted_regroup v 1 0 (parse t).tree
  rw [htext] at hsubstituted
  have hnot : isEligible v (.node .sourceFile parts) = false := isEligible_of_kind (by decide) _
  have htaken : (Edits.ofSpans (spans v (parse t).tree)).spans = outerSpans v 1 0 (parse t).tree ∧
      EndBefore (0 + Text.bytes (parts.flatMap text)) (outerSpans v 1 0 (parse t).tree) := by
    rw [hroot] at hprogram ⊢
    have hskip : spans v (.node .sourceFile parts) = editsOf v (locateAll 0 1 parts) := by
      rw [spans_eq, locate]
      simp [editsOf, hnot]
    rw [hskip, outerSpans_node hnot]
    have hempty : EndBefore 0 Edits.empty.spans := fun a ha => absurd ha List.not_mem_nil
    exact spans_pushAll_all v hprogram hempty
  obtain ⟨hspans, hends⟩ := htaken
  refine ⟨hspans, Edits.apply_eq_ok.2 ?_⟩
  have hperm := (Edits.ofSpans (spans v (parse t).tree)).perm_inOrder
  rw [hspans] at hperm
  rw [Span.eq_of_before hperm (Edits.before_inOrder _)
    (hsubstituted.before fun a ha => (hends a ha).1).2]
  exact hsubstituted

end GroupTargets

end SceneGate
