/-
Calls that begin with a string literal, as they stand in a text. `read?` finds the
arguments that are well formed and no others (`read?_eq_some`), so each call that is found
stands in the text as it is written, behind nothing that would make its name longer
(`stands_of_mem_findAll`), and the calls come from left to right
(`pairwise_start_findAll`).
-/
import SceneGate.Rules.StringCall

namespace SceneGate

namespace StringArgument

/-- What may stand between quotes `q`: a backslash only in front of another character, no
quote `q` but behind one, and no line feed. -/
inductive IsContent (q : Char) : Text → Prop
  | nil : IsContent q []
  | escaped {c : Char} {cs : Text} : c ≠ '\n' → IsContent q cs → IsContent q ('\\' :: c :: cs)
  | plain {c : Char} {cs : Text} : c ≠ '\\' → c ≠ q → c ≠ '\n' → IsContent q cs →
      IsContent q (c :: cs)

/-- Arguments that a call may begin with. -/
structure WellFormed (a : StringArgument) : Prop where
  mark : a.mark = [] ∨ a.mark = ['r'] ∨ a.mark = ['R']
  quote : StringLiteral.isQuote a.quote = true
  content : IsContent a.quote a.content
  rest : ∀ c ∈ a.rest, c ≠ ')' ∧ c ≠ '\n'

variable {q : Char} {t content after mark : Text} {a : StringArgument}

theorem IsContent.lineFeed_notMem (h : IsContent q t) : '\n' ∉ t := by
  induction h with
  | nil => simp
  | escaped hc _ ih => simpa using And.intro (Ne.symm hc) ih
  | plain _ _ hc _ ih => simpa using And.intro (Ne.symm hc) ih

theorem ne_of_isQuote (h : StringLiteral.isQuote q = true) : q ≠ '\\' ∧ q ≠ '\n' := by
  simp only [StringLiteral.isQuote, Bool.or_eq_true, beq_iff_eq] at h
  rcases h with rfl | rfl <;> decide

theorem content?_append (hq : q ≠ '\\') (h : IsContent q content) (after : Text) :
    content? q (content ++ q :: after) = some (content, after) := by
  induction h with
  | nil => simp [content?, hq]
  | escaped hc _ ih => simp [content?, hc, ih]
  | plain hslash hquote hfeed _ ih => simp [content?, hslash, hquote, hfeed, ih]

theorem of_content?_eq_some (h : content? q t = some (content, after)) :
    t = content ++ q :: after ∧ IsContent q content := by
  fun_induction content? q t generalizing content after with
  | case1 => cases h
  | case2 => cases h
  | case3 => cases h
  | case4 c cs hc ih =>
    obtain ⟨⟨inner, rest⟩, hinner, heq⟩ := Option.map_eq_some_iff.1 h
    cases heq
    obtain ⟨rfl, hcontent⟩ := ih hinner
    exact ⟨rfl, .escaped (by simpa using hc) hcontent⟩
  | case5 c cs hlast hslash hc =>
    cases h
    obtain rfl := beq_iff_eq.1 hc
    exact ⟨rfl, .nil⟩
  | case6 => cases h
  | case7 c cs hlast hslash hquote hfeed ih =>
    obtain ⟨⟨inner, rest⟩, hinner, heq⟩ := Option.map_eq_some_iff.1 h
    cases heq
    obtain ⟨rfl, hcontent⟩ := ih hinner
    refine ⟨rfl, .plain ?_ (by simpa using hquote) (by simpa using hfeed) hcontent⟩
    -- a backslash is read with the character behind it
    rintro rfl
    cases inner with
    | nil => exact hslash _ _ rfl rfl
    | cons d inner => exact hslash d _ rfl rfl

theorem afterQuote?_eq_some (hq : StringLiteral.isQuote q = true) :
    afterQuote? mark q t = some a ↔ a.mark = mark ∧ a.quote = q ∧ IsContent q a.content ∧
      (∀ c ∈ a.rest, c ≠ ')' ∧ c ≠ '\n') ∧
      ∃ back, t = a.content ++ q :: a.rest ++ ')' :: back := by
  constructor
  · intro h
    unfold afterQuote? at h
    split at h
    · rename_i content after hcontent
      obtain ⟨rfl, hcontent'⟩ := of_content?_eq_some hcontent
      dsimp only at h
      split at h
      · rename_i hclose
        cases h
        refine ⟨rfl, rfl, hcontent', fun c hc => ?_, ?_⟩
        · have hall := List.all_takeWhile (p := fun c => c != ')' && c != '\n') (l := after)
          simpa using List.all_eq_true.1 hall c hc
        · obtain ⟨back, hback⟩ := List.head?_eq_some_iff.1 hclose
          refine ⟨back, ?_⟩
          rw [← hback]
          simp only [List.append_assoc, List.cons_append]
          rw [List.prefix_iff_eq_append.1 (List.takeWhile_prefix _)]
      · cases h
    · cases h
  · rintro ⟨rfl, rfl, hcontent, hrest, back, rfl⟩
    have htake : ((a.rest ++ ')' :: back).takeWhile fun c => c != ')' && c != '\n') = a.rest := by
      rw [List.takeWhile_append_of_pos fun c hc => by simpa using hrest c hc]
      simp
    have happend : a.content ++ a.quote :: a.rest ++ ')' :: back =
        a.content ++ a.quote :: (a.rest ++ ')' :: back) := by simp
    rw [happend, afterQuote?, content?_append (ne_of_isQuote hq).1 hcontent]
    simp only [htake, List.drop_left, List.head?_cons, if_true]

/-- Arguments are found exactly where they are written. -/
theorem read?_eq_some : read? t = some a ↔ a.WellFormed ∧ ∃ back, t = a.source ++ back := by
  have hsource (back : Text) : a.source ++ back =
      a.mark ++ a.quote :: (a.content ++ a.quote :: a.rest ++ ')' :: back) := by simp [source]
  constructor
  · intro h
    unfold read? at h
    split at h
    · rename_i m cs
      split at h
      · rename_i hm
        obtain ⟨hmark, rfl, hcontent, hrest, back, rfl⟩ := (afterQuote?_eq_some hm).1 h
        exact ⟨⟨.inl hmark, hm, hcontent, hrest⟩, back, by rw [hsource, hmark, List.nil_append]⟩
      · split at h
        · rename_i hletter
          split at h
          · rename_i q cs
            split at h
            · rename_i hq
              obtain ⟨hmark, rfl, hcontent, hrest, back, rfl⟩ := (afterQuote?_eq_some hq).1 h
              refine ⟨⟨.inr ?_, hq, hcontent, hrest⟩, back, by rw [hsource, hmark]; rfl⟩
              simpa [hmark] using hletter
            · cases h
          · cases h
        · cases h
    · cases h
  · rintro ⟨⟨hmark, hquote, hcontent, hrest⟩, back, rfl⟩
    rw [hsource]
    have hafter {mark : Text} (h : a.mark = mark) :
        afterQuote? mark a.quote (a.content ++ a.quote :: a.rest ++ ')' :: back) = some a :=
      (afterQuote?_eq_some hquote).2 ⟨h, rfl, hcontent, hrest, back, rfl⟩
    rcases hmark with hmark | hmark | hmark
    · simp [hmark, read?, hquote, ← hafter hmark]
    · have hletter : StringLiteral.isQuote 'r' = false := by decide
      simp [hmark, read?, hletter, hquote, ← hafter hmark]
    · have hletter : StringLiteral.isQuote 'R' = false := by decide
      simp [hmark, read?, hletter, hquote, ← hafter hmark]

theorem WellFormed.lineFeed_notMem (h : a.WellFormed) : '\n' ∉ a.source := by
  have hmark : '\n' ∉ a.mark := by rcases h.mark with h | h | h <;> simp [h]
  have hcontent := h.content.lineFeed_notMem
  have hrest : '\n' ∉ a.rest := fun hm => (h.rest _ hm).2 rfl
  have hquote := (ne_of_isQuote h.quote).2.symm
  simp [source, hmark, hcontent, hrest, hquote]

end StringArgument

/-! ## Calls in their places -/

namespace Text

/-- The last character in front of a place, where `before` is in front of the text. -/
theorem getLast?_append_or (a b : Text) (before : Option Char) :
    (a ++ b).getLast?.or before = b.getLast?.or (a.getLast?.or before) := by
  rw [List.getLast?_append, Option.or_assoc]

theorem getLast?_cons_or (c : Char) (t : Text) (before : Option Char) :
    (c :: t).getLast?.or before = t.getLast?.or (some c) :=
  getLast?_append_or [c] t before

end Text

namespace StringCall

variable {callee t : Text} {before : Option Char} {offset skip : Nat} {call : StringCall}

/-- The call of a name in a text that begins at `offset` after the character `before`: it
is written there, and its name is not the end of a longer one. -/
structure Stands (callee : Text) (before : Option Char) (offset : Nat) (t : Text)
    (call : StringCall) : Prop where
  callee : call.callee = callee
  argument : call.argument.WellFormed
  place : ∃ front back, t = front ++ call.source ++ back ∧ call.start = offset + front.bytes ∧
    continuesName (front.getLast?.or before) = false

theorem Stands.behind {c : Char}
    (h : Stands callee (some c) (offset + c.utf8Size) t call) :
    Stands callee before offset (c :: t) call := by
  obtain ⟨hcallee, hargument, front, back, rfl, hstart, hbefore⟩ := h
  refine ⟨hcallee, hargument, c :: front, back, rfl, ?_, ?_⟩
  · rw [hstart, Text.bytes_cons, Nat.add_assoc]
  · rwa [Text.getLast?_cons_or]

theorem Stands.le_start (h : Stands callee before offset t call) : offset ≤ call.start := by
  obtain ⟨front, back, -, hstart, -⟩ := h.place
  exact hstart ▸ Nat.le_add_right ..

/-- What is found at a place where a call opens. -/
theorem stands_here (hopen : (callee ++ ['(']).isPrefixOf t = true)
    (hbefore : continuesName before = false) {a : StringArgument}
    (ha : StringArgument.read? (t.drop (callee ++ ['(']).length) = some a) :
    Stands callee before offset t ⟨offset, callee, a⟩ := by
  obtain ⟨hwell, back, hback⟩ := StringArgument.read?_eq_some.1 ha
  have happend := List.prefix_iff_eq_append.1 (List.isPrefixOf_iff_prefix.1 hopen)
  refine ⟨rfl, hwell, [], back, ?_, rfl, hbefore⟩
  rw [← happend, hback]
  simp [source]

theorem stands_of_mem_findFrom (h : call ∈ findFrom callee before offset skip t) :
    Stands callee before offset t call := by
  fun_induction findFrom callee before offset skip t with
  | case1 => cases h
  | case2 before offset skip c cs ih => exact (ih h).behind
  | case3 before offset c cs opening hopen found later argument hfound ih =>
    rcases List.mem_cons.1 h with rfl | h
    · simp only [found, Option.ite_none_left_eq_some, Bool.not_eq_true] at hfound
      exact stands_here hopen hfound.1 hfound.2
    · exact (ih h).behind
  | case4 before offset c cs opening hopen found later hfound ih => exact (ih h).behind
  | case5 before offset c cs opening hopen ih => exact (ih h).behind

theorem pairwise_start_findFrom (callee : Text) (before : Option Char) (offset skip : Nat)
    (t : Text) :
    (findFrom callee before offset skip t).Pairwise fun a b => a.start < b.start := by
  fun_induction findFrom callee before offset skip t with
  | case1 => exact .nil
  | case2 before offset skip c cs ih => exact ih
  | case3 before offset c cs opening hopen found later argument hfound ih =>
    refine List.pairwise_cons.2 ⟨fun call hcall => ?_, ih⟩
    have hstart := (stands_of_mem_findFrom hcall).le_start
    have hpos := c.utf8Size_pos
    show offset < call.start
    omega
  | case4 before offset c cs opening hopen found later hfound ih => exact ih
  | case5 before offset c cs opening hopen ih => exact ih

/-- A call that is found stands in the text as it is written. -/
theorem stands_of_mem_findAll (h : call ∈ findAll callee t) : Stands callee none 0 t call :=
  stands_of_mem_findFrom h

/-- Calls are found from left to right. -/
theorem pairwise_start_findAll (callee t : Text) :
    (findAll callee t).Pairwise fun a b => a.start < b.start :=
  pairwise_start_findFrom ..

/-- A call lies on one line if the name that is called does. -/
theorem Stands.lineFeed_notMem (h : Stands callee before offset t call) (hcallee : '\n' ∉ callee) :
    '\n' ∉ call.source := by
  have hsource := h.argument.lineFeed_notMem
  simp [source, h.callee, hcallee, hsource]

end StringCall

end SceneGate
