/-
Rules edit what is there. Whatever a rule finds in a text, in the tree, in its lines or
behind the name of a constructor, it finds at a range of whole characters; so its edits can
always be carried out, and no rule ever falls back on the text as it was
(`rules_carry_out_edits`).
-/
import SceneGate.Proofs.GroupPasses
import SceneGate.Proofs.LineByLine
import SceneGate.Proofs.QuotedLines
import SceneGate.Proofs.Sites

namespace SceneGate

/-! ## Ranges of a text -/

/-- The part of a text between two offsets; `none` unless they lie in order in the text, at
its ends or between two characters. -/
def Text.slice? (start stop : Nat) (t : Text) : Option Text :=
  (t.cut? stop).bind fun parts => (parts.1.cut? start).map Prod.snd

theorem Text.slice?_append (a b c : Text) :
    (a ++ b ++ c).slice? a.bytes (a.bytes + b.bytes) = some b := by
  rw [slice?, ← bytes_append, cut?_append, Option.bind_some, cut?_append, Option.map_some]

namespace Tree

mutual

/-- A tree that is located in another spells a part of its text, at its place. -/
theorem exists_text_of_mem_locate {l : Located} : ∀ {t : Tree} {o d : Nat}, l ∈ t.locate o d →
    ∃ front back : Text, t.text = front ++ l.tree.text ++ back ∧ l.start = o + front.bytes
  | .leaf k, o, d, h => by
    obtain rfl := List.mem_singleton.1 h
    exact ⟨[], [], by simp, rfl⟩
  | .node kind ts, o, d, h => by
    rcases List.mem_cons.1 h with rfl | h
    · exact ⟨[], [], by simp, rfl⟩
    · rw [text_node]
      exact exists_text_of_mem_locateAll h

theorem exists_text_of_mem_locateAll {l : Located} : ∀ {ts : List Tree} {o d : Nat},
    l ∈ locateAll o d ts → ∃ front back : Text, ts.flatMap text = front ++ l.tree.text ++ back ∧
      l.start = o + front.bytes
  | [], o, d, h => by simp [locateAll] at h
  | t :: ts, o, d, h => by
    rw [locateAll, List.mem_append] at h
    rcases h with h | h
    · obtain ⟨front, back, htext, hstart⟩ := exists_text_of_mem_locate h
      exact ⟨front, back ++ ts.flatMap text, by simp [htext], hstart⟩
    · obtain ⟨front, back, htext, hstart⟩ := exists_text_of_mem_locateAll h
      refine ⟨t.text ++ front, back, by simp [htext], ?_⟩
      rw [hstart, Text.bytes_append, bytes, Nat.add_assoc]

end

variable {root u : Tree} {l m : Located} {o d : Nat}

/-- What is located in a tree lies in its range. -/
theorem range_of_mem_locate (h : m ∈ l.tree.locate l.start d) :
    l.start ≤ m.start ∧ m.stop ≤ l.stop := by
  obtain ⟨front, back, htext, hstart⟩ := exists_text_of_mem_locate h
  have hbytes := congrArg Text.bytes htext
  simp only [Text.bytes_append] at hbytes
  rw [Located.stop, Located.stop, bytes, bytes]
  omega

/-- The parts of what is located are located, in its range. -/
theorem exists_located_part (h : l ∈ root.locate o d) (hu : u ∈ l.tree.parts) :
    ∃ m ∈ root.locate o d, m.tree = u ∧ l.start ≤ m.start ∧ m.stop ≤ l.stop := by
  obtain ⟨front, back, hparts⟩ := List.append_of_mem hu
  have hmem := mem_locateAll_part front back u l.start (l.depth + 1)
  rw [← hparts] at hmem
  refine ⟨_, mem_locate_trans h hmem, rfl, range_of_mem_locate (d := l.depth) ?_⟩
  cases hl : l.tree with
  | leaf k => simp [hl, parts] at hu
  | node kind ts =>
    rw [hl, parts] at hmem
    exact List.mem_cons_of_mem _ hmem

end Tree

/-- The range of a tree in the tree of a text can be cut out, and is what the tree spells. -/
theorem slice?_of_mem_locate {t : Text} {l : Located} (h : l ∈ (parse t).tree.locate 0 0) :
    t.slice? l.start l.stop = some l.tree.text := by
  obtain ⟨front, back, htext, hstart⟩ := Tree.exists_text_of_mem_locate h
  rw [GroupTargets.text_parse] at htext
  have hslice := Text.slice?_append front l.tree.text back
  rwa [← htext, ← Nat.zero_add front.bytes, ← hstart] at hslice

/-! ## Edits that fit -/

namespace Edits

variable {spans : List Span} {t : Text}

theorem mem_of_mem_ofSpans {s : Span} (h : s ∈ (ofSpans spans).spans) : s ∈ spans := by
  induction spans using List.reverseRecOn with
  | nil => exact h
  | append_singleton spans u ih =>
    rw [ofSpans_concat, spans_push] at h
    split at h
    · rcases List.mem_append.1 h with h | h
      · exact List.mem_append_left _ (ih h)
      · exact List.mem_append_right _ h
    · exact List.mem_append_left _ (ih h)

/-- Edits that fit are carried out. -/
theorem apply_ofSpans (h : ∀ s ∈ spans, s.Fits t) :
    (ofSpans spans).apply t = .ok ((ofSpans spans).applyOrKeep t) := by
  have happly := (apply_of_fits (ofSpans spans) fun s hs => h s (mem_of_mem_ofSpans hs)).1
  rw [applyOrKeep, happly]

end Edits

namespace QuoteWords

theorem fits_spans (words : List Text) (t : Text) : ∀ s ∈ spans words t, s.Fits t := by
  intro s hs
  have h := misfit?_spans (words.filter (!·.isEmpty)) t.splitLines []
  rw [List.nil_append, Text.flatten_splitLines] at h
  exact Span.misfit?_eq_none.1 (h s hs)

end QuoteWords

namespace GroupTargets

/-- Whether or not the text is a program. -/
theorem fits_spans (v : Vocabulary) (t : Text) : ∀ s ∈ spans v (parse t).tree, s.Fits t := by
  intro s hs
  rw [spans_eq] at hs
  obtain ⟨l, hl, rfl⟩ := List.mem_map.1 hs
  obtain ⟨front, back, htext, hstart⟩ :=
    Tree.exists_text_of_mem_locate (List.mem_filter.1 hl).1
  rw [text_parse] at htext
  exact ⟨front, l.tree.text, back, htext, by rw [hstart, Nat.zero_add], rfl⟩

/-- How passes come to an end, each but the last with edits that were carried out. -/
inductive Passes (v : Vocabulary) : (passes : Nat) → Text → Text → Prop
  | spent {t : Text} : Passes v 0 t t
  | idle {n : Nat} {t : Text} : (parse t).ok = false ∨ spans v (parse t).tree = [] →
      Passes v (n + 1) t t
  | last {n : Nat} {t t' : Text} : (parse t).ok = true →
      (Edits.ofSpans (spans v (parse t).tree)).apply t = .ok t' →
      (spans v (parse t).tree).length ≤ (Edits.ofSpans (spans v (parse t).tree)).spans.length →
      Passes v (n + 1) t t'
  | again {n : Nat} {t t' u : Text} : (parse t).ok = true →
      (Edits.ofSpans (spans v (parse t).tree)).apply t = .ok t' →
      (Edits.ofSpans (spans v (parse t).tree)).spans.length < (spans v (parse t).tree).length →
      Passes v n t' u → Passes v (n + 1) t u

theorem passes_group (v : Vocabulary) (n : Nat) (t : Text) : Passes v n t (group v n t) := by
  induction n generalizing t with
  | zero => exact .spent
  | succ n ih =>
    have happly := Edits.apply_ofSpans (fits_spans v t)
    simp only [group, happly]
    split
    · rename_i h
      obtain ⟨hok, -⟩ := Bool.and_eq_true_iff.1 h
      split
      · rename_i hlt
        exact .again hok happly hlt (ih _)
      · rename_i hle
        exact .last hok happly (Nat.le_of_not_lt hle)
    · rename_i h
      refine .idle ?_
      simpa [Decidable.imp_iff_not_or] using h

end GroupTargets

/-- The trees that a call is rewritten from: what is called, and the arguments. -/
def Call.IsRead (call u : Tree) : Prop :=
  Call.callee? call = some u ∨
    ∃ list, Call.argumentList? call = some list ∧ ∃ a ∈ list.arguments, a.tree = u

theorem Tree.mem_parts_of_mem_children {t u : Tree} (h : u ∈ t.children) : u ∈ t.parts :=
  (List.mem_filter.1 h).1

theorem Tree.mem_children_of_arguments {list : Tree} {a : Argument} (h : a ∈ list.arguments) :
    a.tree ∈ list.children := by
  obtain ⟨u, hu, ha⟩ := List.mem_filterMap.1 h
  have htree : a.tree = u := by
    unfold Argument.ofTree? at ha
    split at ha <;> cases ha <;> rfl
  rwa [htree]

/-- What a call is rewritten from is located in the call. -/
theorem Call.IsRead.exists_located {root u : Tree} {call : Located} {o d : Nat}
    (h : Call.IsRead call.tree u) (hcall : call ∈ root.locate o d) :
    ∃ l ∈ root.locate o d, l.tree = u ∧ call.start ≤ l.start ∧ l.stop ≤ call.stop := by
  rcases h with hcallee | ⟨list, hlist, a, ha, rfl⟩
  · have hmem : u ∈ call.tree.children := List.mem_of_head? hcallee
    exact Tree.exists_located_part hcall (Tree.mem_parts_of_mem_children hmem)
  · have hmem : list ∈ call.tree.children := List.mem_of_find?_eq_some hlist
    obtain ⟨l, hl, rfl, hstart, hstop⟩ :=
      Tree.exists_located_part hcall (Tree.mem_parts_of_mem_children hmem)
    obtain ⟨m, hm, htree, hstart', hstop'⟩ := Tree.exists_located_part hl
      (Tree.mem_parts_of_mem_children (Tree.mem_children_of_arguments ha))
    exact ⟨m, hm, htree, hstart.trans hstart', hstop'.trans hstop⟩

/-! ## No rule falls back -/

/-- Rules carry out what they find. The edits that the rules for targets, for text in
formulas, for the removed constructor and for words without quotes want to make of a text
lie in the text, between characters. Every range that a tree of the text has can be cut out
of it, and so can what a call is rewritten from. So edits are always carried out, in every
pass over the calls and by the other rules, whatever the text, the names and the words. -/
theorem rules_carry_out_edits (v : Vocabulary) (words : List Text) (t : Text) :
    (∀ s ∈ GroupTargets.spans v (parse t).tree ++ InlineText.spans v t ++ LegacyText.spans v t ++
        QuoteWords.spans words t,
      s.stop ≤ t.bytes ∧ t.isBoundary s.start = true ∧ t.isBoundary s.stop = true) ∧
    (∀ l ∈ (parse t).tree.locate 0 0, t.slice? l.start l.stop = some l.tree.text) ∧
    (∀ call ∈ (parse t).tree.findAll .callExpr, ∀ u, Call.IsRead call.tree u →
      ∃ l ∈ (parse t).tree.locate 0 0, l.tree = u ∧ (call.start ≤ l.start ∧ l.stop ≤ call.stop) ∧
        t.slice? l.start l.stop = some u.text) ∧
    (∃ t', (Edits.ofSpans (GroupTargets.spans v (parse t).tree)).apply t = .ok t') ∧
    (∀ passes, GroupTargets.Passes v (max passes 1) t ((GroupTargets.rule v passes).apply t)) ∧
    (Edits.ofSpans (InlineText.spans v t)).apply t = .ok ((InlineText.rule v).apply t) ∧
    (Edits.ofSpans (LegacyText.spans v t)).apply t = .ok ((LegacyText.rule v).apply t) ∧
    (Edits.ofSpans (QuoteWords.spans words t)).apply t = .ok ((QuoteWords.rule words).apply t) := by
  have hgroup := GroupTargets.fits_spans v t
  have hinline := (InlineText.leftToRight v t).fits
  have hlegacy := (LegacyText.leftToRight v t).fits
  have hquote := QuoteWords.fits_spans words t
  refine ⟨fun s hs => Span.fits_iff.1 ?_, fun l => slice?_of_mem_locate, fun call hcall u hu => ?_,
    ⟨_, Edits.apply_ofSpans hgroup⟩, fun passes => GroupTargets.passes_group v _ t,
    Edits.apply_ofSpans hinline, Edits.apply_ofSpans hlegacy, Edits.apply_ofSpans hquote⟩
  · simp only [List.mem_append] at hs
    rcases hs with ((hs | hs) | hs) | hs
    · exact hgroup s hs
    · exact hinline s hs
    · exact hlegacy s hs
    · exact hquote s hs
  · obtain ⟨l, hl, rfl, hrange⟩ := hu.exists_located (List.mem_filter.1 hcall).1
    exact ⟨l, hl, rfl, hrange, slice?_of_mem_locate hl⟩

/-- A call to be grouped, behind letters of two bytes. -/
def accentedTargets : Text := "á = FadeIn(đáp, b)
".toList

theorem rules_carry_out_edits_accented :
    ((⟨5, 16, "FadeIn(VGroup(đáp, b))".toList⟩ : Span) ∈
        GroupTargets.spans {} (parse accentedTargets).tree ++ InlineText.spans {} accentedTargets ++
          LegacyText.spans {} accentedTargets ++ QuoteWords.spans [] accentedTargets ∧
      21 ≤ accentedTargets.bytes ∧ accentedTargets.isBoundary 5 = true ∧
      accentedTargets.isBoundary 21 = true) ∧
    ∃ call ∈ (parse accentedTargets).tree.findAll .callExpr, ∃ u, Call.IsRead call.tree u ∧
      u.text = "FadeIn".toList ∧ ∃ l ∈ (parse accentedTargets).tree.locate 0 0, l.tree = u ∧
        accentedTargets.slice? l.start l.stop = some "FadeIn".toList := by
  obtain ⟨hfits, -, hread, -⟩ := rules_carry_out_edits {} [] accentedTargets
  have hmem : (⟨5, 16, "FadeIn(VGroup(đáp, b))".toList⟩ : Span) ∈
      GroupTargets.spans {} (parse accentedTargets).tree ++ InlineText.spans {} accentedTargets ++
        LegacyText.spans {} accentedTargets ++ QuoteWords.spans [] accentedTargets := by
    decide +kernel
  have hcall : ((parse accentedTargets).tree.findAll .callExpr).any (fun call =>
      (Call.callee? call.tree).any fun u => u.text == "FadeIn".toList) = true := by decide +kernel
  obtain ⟨call, hcall, hcallee⟩ := List.any_eq_true.1 hcall
  obtain ⟨u, hu, htext⟩ := (Option.any_eq_true ..).1 hcallee
  have htext : u.text = "FadeIn".toList := beq_iff_eq.1 htext
  obtain ⟨l, hl, htree, -, hslice⟩ := hread call hcall u (.inl hu)
  exact ⟨⟨hmem, hfits _ hmem⟩, call, hcall, u, .inl hu, htext, l, hl, htree, htext ▸ hslice⟩

end SceneGate
