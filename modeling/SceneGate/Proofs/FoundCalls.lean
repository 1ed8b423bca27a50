/-
Calls that are found are the calls that are written. The places where a mark stands are taken
from left to right, each time the first behind the last one (`Text.Taken`), and a call opens
at such a place if its name is not the end of a longer one and arguments follow
(`mem_findFrom`). Between quotes stands what has no line feed, no quote but behind a
backslash that takes it, and no such backslash at its end (`isContent_iff`). So every call is
cut into its parts as it is written, and none is missed (`findAll_decomposes`).
-/
import SceneGate.Proofs.LabelWords
import SceneGate.Proofs.RuleSpans

namespace SceneGate

/-! ## Places taken from left to right -/

namespace Text

variable {mark t front back : Text} {c : Char}

/-- A mark stands in a text between `front` and `back`, and at no earlier place. -/
structure First (mark t front back : Text) : Prop where
  text : t = front ++ mark ++ back
  le : ∀ front' back', t = front' ++ mark ++ back' → front.length ≤ front'.length

/-- The places where a mark stands, taken from left to right: the first one, and then those in
the text behind it, so that they never overlap. -/
inductive Taken (mark : Text) : (t front back : Text) → Prop
  | first {t front back : Text} : First mark t front back → Taken mark t front back
  | next {t front rest front' back : Text} : First mark t front rest →
      Taken mark rest front' back → Taken mark t (front ++ mark ++ front') back

theorem not_taken_nil (hm : mark ≠ []) : ¬ Taken mark [] front back := by
  have hnone {front back : Text} (h : First mark [] front back) : False := by
    have htext := h.text
    simp [hm] at htext
  rintro (h | ⟨h, -⟩)
  · exact hnone h
  · exact hnone h

theorem first_append : First mark (mark ++ t) front back ↔ front = [] ∧ back = t := by
  constructor
  · intro h
    have hlength := h.le [] t rfl
    have hfront : front = [] := List.length_eq_zero_iff.1 (Nat.le_zero.1 hlength)
    have htext := h.text
    rw [hfront, List.nil_append] at htext
    exact ⟨hfront, (List.append_cancel_left htext).symm⟩
  · rintro ⟨rfl, rfl⟩
    exact ⟨rfl, fun _ _ _ => Nat.zero_le _⟩

/-- Behind a mark at the front of a text the next ones are looked for. -/
theorem taken_append : Taken mark (mark ++ t) front back ↔
    (front = [] ∧ back = t) ∨ ∃ front', front = mark ++ front' ∧ Taken mark t front' back := by
  constructor
  · rintro (h | ⟨h, hrest⟩)
    · exact .inl (first_append.1 h)
    · obtain ⟨rfl, rfl⟩ := first_append.1 h
      exact .inr ⟨_, rfl, hrest⟩
  · rintro (h | ⟨front', rfl, h⟩)
    · exact .first (first_append.2 h)
    · exact .next (first_append.2 ⟨rfl, rfl⟩) h

theorem first_cons (hc : ¬ mark <+: c :: t) :
    First mark (c :: t) front back ↔ ∃ front', front = c :: front' ∧ First mark t front' back := by
  -- where the mark stands, the text begins with `c`
  have hcons {front back : Text} (h : c :: t = front ++ mark ++ back) :
      ∃ front', front = c :: front' ∧ t = front' ++ mark ++ back := by
    cases front with
    | nil => exact absurd ⟨back, h.symm⟩ hc
    | cons d front =>
      obtain ⟨rfl, ht⟩ := List.cons.inj h
      exact ⟨front, rfl, ht⟩
  constructor
  · rintro ⟨htext, hle⟩
    obtain ⟨front, rfl, ht⟩ := hcons htext
    refine ⟨front, rfl, ht, fun front' back' h => ?_⟩
    exact Nat.le_of_succ_le_succ (hle (c :: front') back' (congrArg (c :: ·) h))
  · rintro ⟨front, rfl, ht, hle⟩
    refine ⟨congrArg (c :: ·) ht, fun front' back' h => ?_⟩
    obtain ⟨front', rfl, ht'⟩ := hcons h
    exact Nat.succ_le_succ (hle front' back' ht')

theorem taken_cons (hc : ¬ mark <+: c :: t) :
    Taken mark (c :: t) front back ↔ ∃ front', front = c :: front' ∧ Taken mark t front' back := by
  constructor
  · rintro (h | ⟨h, hrest⟩)
    · obtain ⟨front', rfl, hfirst⟩ := (first_cons hc).1 h
      exact ⟨front', rfl, .first hfirst⟩
    · obtain ⟨front', rfl, hfirst⟩ := (first_cons hc).1 h
      exact ⟨_, rfl, .next hfirst hrest⟩
  · rintro ⟨front', rfl, h | ⟨h, hrest⟩⟩
    · exact .first ((first_cons hc).2 ⟨_, rfl, h⟩)
    · exact .next ((first_cons hc).2 ⟨_, rfl, h⟩) hrest

end Text

/-! ## What stands between quotes -/

namespace StringArgument

open AxisLabels (endsEscaped)

variable {q : Char} {t : Text} {a : StringArgument}

/-- Arguments that begin with a literal, told by their characters: of the quotes behind the one
that opens the literal, the first that no backslash takes closes it. -/
structure Delimited (a : StringArgument) : Prop where
  mark : a.mark = [] ∨ a.mark = ['r'] ∨ a.mark = ['R']
  quote : a.quote = '"' ∨ a.quote = '\''
  escaped : ∀ front back, a.content = front ++ a.quote :: back → endsEscaped front = true
  closed : endsEscaped a.content = false
  content : '\n' ∉ a.content
  rest : ')' ∉ a.rest ∧ '\n' ∉ a.rest

theorem endsEscaped_cons {c : Char} (hc : c ≠ '\\') (t : Text) :
    endsEscaped (c :: t) = endsEscaped t := by
  rw [endsEscaped]
  · rintro rfl
    exact absurd rfl hc
  · rintro _ _ rfl
    exact absurd rfl hc

theorem IsContent.endsEscaped (h : IsContent q t) : AxisLabels.endsEscaped t = false := by
  induction h with
  | nil => rfl
  | escaped _ _ ih => exact ih
  | plain hslash _ _ _ ih => rwa [endsEscaped_cons hslash]

theorem IsContent.quote_escaped (hq : q ≠ '\\') (h : IsContent q t) {front back : Text}
    (ht : t = front ++ q :: back) : AxisLabels.endsEscaped front = true := by
  induction h generalizing front with
  | nil => simp at ht
  | escaped _ _ ih =>
    -- the quote is the character behind the backslash, or stands behind both
    match front, ht with
    | [], ht => exact absurd (List.cons.inj ht).1.symm hq
    | [d], ht =>
      obtain ⟨rfl, -⟩ := List.cons.inj ht
      rfl
    | d :: e :: front, ht =>
      obtain ⟨rfl, hrest⟩ := List.cons.inj ht
      show AxisLabels.endsEscaped front = true
      exact ih (List.cons.inj hrest).2
  | plain hslash hquote _ _ ih =>
    cases front with
    | nil => exact absurd (List.cons.inj ht).1 hquote
    | cons d front =>
      obtain ⟨rfl, hrest⟩ := List.cons.inj ht
      rw [endsEscaped_cons hslash]
      exact ih hrest

theorem isContent_of_escaped (hfeed : '\n' ∉ t) (hends : endsEscaped t = false)
    (hquote : ∀ front back, t = front ++ q :: back → endsEscaped front = true) :
    IsContent q t := by
  fun_induction endsEscaped t with
  | case1 => exact .nil
  | case2 => cases hends
  | case3 c t ih =>
    simp only [List.mem_cons, not_or] at hfeed
    refine .escaped (Ne.symm hfeed.2.1) (ih hfeed.2.2 hends fun front back h => ?_)
    exact hquote ('\\' :: c :: front) back (by rw [h]; rfl)
  | case4 c t hlast hpair ih =>
    simp only [List.mem_cons, not_or] at hfeed
    have hslash : c ≠ '\\' := by
      rintro rfl
      cases t with
      | nil => exact hlast rfl rfl
      | cons d t => exact hpair d t rfl rfl
    have hne : c ≠ q := by
      rintro rfl
      exact absurd (hquote [] t rfl) (by decide)
    refine .plain hslash hne (Ne.symm hfeed.1) (ih hfeed.2 hends fun front back h => ?_)
    rw [← endsEscaped_cons hslash]
    exact hquote (c :: front) back (by rw [h]; rfl)

/-- What may stand between quotes, told by its quotes. -/
theorem isContent_iff (hq : q ≠ '\\') : IsContent q t ↔ '\n' ∉ t ∧ endsEscaped t = false ∧
    ∀ front back, t = front ++ q :: back → endsEscaped front = true :=
  ⟨fun h => ⟨h.lineFeed_notMem, h.endsEscaped, fun _ _ => h.quote_escaped hq⟩,
    fun ⟨hfeed, hends, hquote⟩ => isContent_of_escaped hfeed hends hquote⟩

theorem wellFormed_iff_delimited : a.WellFormed ↔ a.Delimited := by
  have hquote : StringLiteral.isQuote a.quote = true ↔ a.quote = '"' ∨ a.quote = '\'' := by
    simp [StringLiteral.isQuote]
  have hrest : (∀ c ∈ a.rest, c ≠ ')' ∧ c ≠ '\n') ↔ ')' ∉ a.rest ∧ '\n' ∉ a.rest := by
    grind
  constructor
  · rintro ⟨hmark, hq, hcontent, hr⟩
    obtain ⟨hfeed, hends, hescaped⟩ := (isContent_iff (ne_of_isQuote hq).1).1 hcontent
    exact ⟨hmark, hquote.1 hq, hescaped, hends, hfeed, hrest.1 hr⟩
  · rintro ⟨hmark, hq, hescaped, hends, hfeed, hr⟩
    have hslash := (ne_of_isQuote (hquote.2 hq)).1
    exact ⟨hmark, hquote.2 hq, (isContent_iff hslash).2 ⟨hfeed, hends, hescaped⟩, hrest.2 hr⟩

end StringArgument

/-! ## The calls of a text -/

namespace StringCall

open Text

variable {callee t : Text} {before : Option Char} {offset : Nat} {call : StringCall}

/-- The call of a name in a text that begins at `offset` after the character `before`: its
name and bracket are a place that is taken, arguments follow there, and the name is not the
end of a longer one. -/
@[mk_iff]
structure Opens (callee : Text) (before : Option Char) (offset : Nat) (t : Text)
    (call : StringCall) : Prop where
  named : call.callee = callee
  argument : call.argument.WellFormed
  place : ∃ front back, Taken (callee ++ ['(']) t front (call.argument.source ++ back) ∧
    call.start = offset + front.bytes ∧ continuesName (front.getLast?.or before) = false

theorem not_opens_nil : ¬ Opens callee before offset [] call := by
  rintro ⟨-, -, front, back, htaken, -⟩
  exact not_taken_nil (List.append_ne_nil_of_right_ne_nil callee (List.cons_ne_nil '(' [])) htaken

theorem opens_cons {c : Char} (hc : ¬ callee ++ ['('] <+: c :: t) :
    Opens callee before offset (c :: t) call ↔
      Opens callee (some c) (offset + c.utf8Size) t call := by
  constructor
  · rintro ⟨hcallee, hargument, front, back, htaken, hstart, hbefore⟩
    obtain ⟨front, rfl, hrest⟩ := (taken_cons hc).1 htaken
    rw [getLast?_cons_or] at hbefore
    exact ⟨hcallee, hargument, front, back, hrest, by rw [hstart, bytes_cons, Nat.add_assoc],
      hbefore⟩
  · rintro ⟨hcallee, hargument, front, back, htaken, hstart, hbefore⟩
    rw [← getLast?_cons_or c front before] at hbefore
    exact ⟨hcallee, hargument, c :: front, back, (taken_cons hc).2 ⟨front, rfl, htaken⟩,
      by rw [hstart, bytes_cons, Nat.add_assoc], hbefore⟩

theorem opens_append (t : Text) : Opens callee before offset (callee ++ ['('] ++ t) call ↔
    (continuesName before = false ∧
      (StringArgument.read? t).map (StringCall.mk offset callee) = some call) ∨
      Opens callee (some '(') (offset + (callee ++ ['(']).bytes) t call := by
  have hlast (front : Text) :
      (callee ++ ['('] ++ front).getLast?.or before = front.getLast?.or (some '(') := by
    rw [getLast?_append_or, List.getLast?_concat, Option.some_or]
  rw [Option.map_eq_some_iff]
  constructor
  · rintro ⟨hcallee, hargument, front, back, htaken, hstart, hbefore⟩
    rcases taken_append.1 htaken with ⟨rfl, hback⟩ | ⟨front, rfl, hrest⟩
    · have hread := StringArgument.read?_eq_some.2 ⟨hargument, back, hback.symm⟩
      rw [bytes_nil, Nat.add_zero] at hstart
      exact .inl ⟨hbefore, call.argument, hread, by rw [← hcallee, ← hstart]⟩
    · rw [hlast] at hbefore
      exact .inr ⟨hcallee, hargument, front, back, hrest,
        by rw [hstart, bytes_append (callee ++ ['(']), Nat.add_assoc], hbefore⟩
  · rintro (⟨hbefore, a, ha, rfl⟩ | ⟨hcallee, hargument, front, back, htaken, hstart, hbefore⟩)
    · obtain ⟨hargument, back, rfl⟩ := StringArgument.read?_eq_some.1 ha
      exact ⟨rfl, hargument, [], back, taken_append.2 (.inl ⟨rfl, rfl⟩), rfl, hbefore⟩
    · rw [← hlast] at hbefore
      exact ⟨hcallee, hargument, _, back, taken_append.2 (.inr ⟨front, rfl, htaken⟩),
        by rw [hstart, bytes_append (callee ++ ['(']), Nat.add_assoc], hbefore⟩

/-- Characters that are passed over. -/
theorem findFrom_skip (a t : Text) : findFrom callee before offset a.length (a ++ t) =
    findFrom callee (a.getLast?.or before) (offset + a.bytes) 0 t := by
  induction a generalizing before offset with
  | nil => rfl
  | cons c a ih =>
    rw [List.length_cons, List.cons_append, findFrom, ih, getLast?_cons_or, bytes_cons,
      Nat.add_assoc]

/-- Where a call opens, what is found is found there or behind. -/
theorem findFrom_opening (t : Text) : findFrom callee before offset 0 (callee ++ ['('] ++ t) =
    (if continuesName before then none
      else (StringArgument.read? t).map (StringCall.mk offset callee)).toList ++
      findFrom callee (some '(') (offset + (callee ++ ['(']).bytes) 0 t := by
  obtain ⟨c, a, hopening⟩ := List.exists_cons_of_ne_nil (List.append_ne_nil_of_right_ne_nil callee
    (List.cons_ne_nil '(' []))
  have hlength : a.length = callee.length := by
    simpa using (congrArg List.length hopening).symm
  have hlast : a.getLast?.or (some c) = some '(' := by
    rw [← getLast?_cons_or c a none, ← hopening, List.getLast?_concat, Option.some_or]
  have hlater : findFrom callee (some c) (offset + c.utf8Size) callee.length (a ++ t) =
      findFrom callee (some '(') (offset + (callee ++ ['(']).bytes) 0 t := by
    rw [← hlength, findFrom_skip, hlast, hopening, bytes_cons, Nat.add_assoc]
  have hfront : (callee ++ ['(']).isPrefixOf (c :: (a ++ t)) = true :=
    List.isPrefixOf_iff_prefix.2 ⟨t, by rw [hopening]; rfl⟩
  have hdrop : (c :: (a ++ t)).drop (callee ++ ['(']).length = t := by
    rw [hopening, ← List.cons_append, List.drop_left]
  rw [hopening, List.cons_append, findFrom, ← hopening]
  simp only [hfront, hdrop, hlater, if_true]
  cases continuesName before with
  | true => rfl
  | false => cases StringArgument.read? t <;> rfl

theorem findFrom_cons {c : Char} (hc : ¬ callee ++ ['('] <+: c :: t) :
    findFrom callee before offset 0 (c :: t) =
      findFrom callee (some c) (offset + c.utf8Size) 0 t := by
  rw [← List.isPrefixOf_iff_prefix] at hc
  rw [findFrom]
  exact if_neg hc

/-- The calls that are found are those that open at a place that is taken. -/
theorem mem_findFrom : call ∈ findFrom callee before offset 0 t ↔
    Opens callee before offset t call := by
  induction hn : t.length using Nat.strongRecOn generalizing before offset t with
  | _ n ih =>
    rcases em (callee ++ ['('] <+: t) with ⟨t', rfl⟩ | hfront
    · have hlt : t'.length < n := by
        simp only [List.length_append, List.length_singleton] at hn
        omega
      rw [findFrom_opening, opens_append, List.mem_append, ih _ hlt rfl]
      refine or_congr_left ?_
      cases continuesName before <;> simp
    · cases t with
      | nil => simp [findFrom, not_opens_nil]
      | cons c t =>
        have hlt : t.length < n := by simp [← hn]
        rw [findFrom_cons hfront, opens_cons hfront]
        exact ih _ hlt rfl

theorem continuesName_eq_false : continuesName before = false ↔
    ∀ c ∈ before, c ≠ '_' ∧ c ≠ '.' ∧ isAlphanumeric c = false := by
  cases before <;> simp [continuesName, and_assoc]

/-- The range of a call is what the call is written as. -/
theorem LiesIn.slice? (h : call.LiesIn t) :
    t.slice? call.start (call.start + call.length) = some call.source := by
  obtain ⟨front, back, rfl, hfront⟩ := h
  rw [← hfront]
  exact slice?_append front call.source back

/-- Calls are cut into their parts exactly. The calls of a name that are found in a text come
from left to right, and the range of each is the name, a bracket, a mark, a literal between
quotes, the rest of the arguments and a closing bracket. The places where the name and the
bracket stand are taken from left to right, without overlap. At such a place a call is found
with certain parts just if the text goes on with these parts, they are as they should be
(`Delimited`), and the character in front goes on no name. -/
theorem findAll_decomposes (callee t : Text) :
    (findAll callee t).Pairwise (fun a b => a.start < b.start) ∧
    (∀ call ∈ findAll callee t, t.slice? call.start (call.start + call.length) =
      some (callee ++ '(' :: (call.argument.mark ++ call.argument.quote :: call.argument.content ++
        call.argument.quote :: call.argument.rest ++ [')']))) ∧
    ∀ call : StringCall, call ∈ findAll callee t ↔
      call.callee = callee ∧ call.argument.Delimited ∧
        ∃ front back, Taken (callee ++ ['(']) t front (call.argument.source ++ back) ∧
          call.start = front.bytes ∧
          ∀ c ∈ front.getLast?, c ≠ '_' ∧ c ≠ '.' ∧ isAlphanumeric c = false := by
  refine ⟨pairwise_start_findAll callee t, fun call hcall => ?_, fun call => ?_⟩
  · have hstands := stands_of_mem_findAll hcall
    rw [hstands.liesIn.slice?, source, hstands.callee]
    rfl
  · rw [findAll, mem_findFrom, opens_iff, StringArgument.wellFormed_iff_delimited]
    simp only [Nat.zero_add, Option.or_none, continuesName_eq_false]

/-- The end of a longer name, and a call with escapes, both behind letters of two bytes. -/
def accentedFormulas : Text := "á = MathTex('x')
é = Tex(r'\\'x\\\\', color=RED)
".toList

/-- The call among them. -/
def escapedFormula : StringCall :=
  ⟨23, "Tex".toList, ⟨['r'], '\'', "\\'x\\\\".toList, ", color=RED".toList⟩⟩

theorem findAll_decomposes_accented :
    findAll "Tex".toList accentedFormulas = [escapedFormula] ∧
      accentedFormulas.slice? 23 47 = some "Tex(r'\\'x\\\\', color=RED)".toList ∧
      escapedFormula.argument.Delimited ∧
      ∃ front back, Taken "Tex(".toList accentedFormulas front
        (escapedFormula.argument.source ++ back) ∧ front.bytes = 23 := by
  have hfound : findAll "Tex".toList accentedFormulas = [escapedFormula] := by decide +kernel
  obtain ⟨-, hslice, hmem⟩ := findAll_decomposes "Tex".toList accentedFormulas
  rw [hfound] at hslice hmem
  obtain ⟨-, hdelimited, front, back, htaken, hstart, -⟩ :=
    (hmem escapedFormula).1 (List.mem_singleton.2 rfl)
  exact ⟨hfound, hslice escapedFormula (List.mem_singleton.2 rfl), hdelimited, front, back, htaken,
    hstart.symm⟩

end StringCall

end SceneGate
