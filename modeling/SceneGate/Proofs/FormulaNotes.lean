/-
Notes above formulas. The edits for calls come line by line (`spansFrom_eq`), and those of
a line carry out one thing each: the note goes to the beginning of the line, and each call
that begins behind the one taken before it gets its cleaned content (`substituted_noted`).
So the text that comes out has the lines of the text, with one line more above each line on
which a call begins (`notes_stand_above`).
-/
import SceneGate.Proofs.InsertedQuotes
import SceneGate.Proofs.OrderedEdits
import SceneGate.Rules.InlineText

namespace SceneGate

namespace Text

/-- What is replaced brings the characters of its replacements only. -/
theorem mem_replaceFindsFrom {f : Text → Option Find} {skip : Nat} {t : Text} {c : Char}
    (h : c ∈ replaceFindsFrom f skip t) :
    c ∈ t ∨ ∃ u found, f u = some found ∧ c ∈ found.replacement := by
  fun_induction replaceFindsFrom f skip t with
  | case1 => exact .inl h
  | case2 skip d cs ih => exact (ih h).imp_left (List.mem_cons_of_mem _)
  | case3 d cs found hfound ih =>
    rcases List.mem_append.1 h with h | h
    · exact .inr ⟨_, found, hfound, h⟩
    · exact (ih h).imp_left (List.mem_cons_of_mem _)
  | case4 d cs hnone ih =>
    rcases List.mem_cons.1 h with rfl | h
    · exact .inl List.mem_cons_self
    · exact (ih h).imp_left (List.mem_cons_of_mem _)

theorem mem_of_mem_trim {t : Text} {c : Char} (h : c ∈ t.trim) : c ∈ t := by
  rw [trim, trimEnd, List.mem_reverse] at h
  exact (List.dropWhile_sublist _).mem (List.mem_reverse.1 ((List.dropWhile_sublist _).mem h))

end Text

/-- What comes out of a substitution has the characters of the text and of the
replacements. -/
theorem Substituted.mem {offset : Nat} {spans : List Span} {t out : Text} {c : Char}
    (h : Substituted offset spans t out) (hc : c ∈ out) :
    c ∈ t ∨ ∃ s ∈ spans, c ∈ s.replacement := by
  induction h with
  | keep => exact .inl hc
  | @replace offset s spans t out kept replaced _ _ _ ih =>
    simp only [List.mem_append] at hc
    rcases hc with (hc | hc) | hc
    · exact .inl (by simp [hc])
    · exact .inr ⟨s, by simp, hc⟩
    · rcases ih hc with hc | ⟨u, hu, hc⟩
      · exact .inl (by simp [hc])
      · exact .inr ⟨u, by simp [hu], hc⟩

namespace InlineText

open StringCall

variable {v : Vocabulary} {calls : List StringCall} {call : StringCall} {start : Nat}
  {t l m : Text}

/-! ## The edits of a call -/

/-- The calls that the rule is about: those of the formula constructor whose string has a
block of text and natural language. -/
def proseCalls (v : Vocabulary) (t : Text) : List StringCall :=
  (findAll v.texConstructor t).filter (hasProseBlock ·.argument.content)

/-- The edit that cleans a call and writes something in front of it. -/
def edit (above : Text) (call : StringCall) : Span :=
  ⟨call.start, call.length, above ++ cleanedCall call⟩

/-- What stands in a call before the content of its string. -/
def lead (call : StringCall) : Text :=
  call.callee ++ '(' :: (call.argument.mark ++ [call.argument.quote])

/-- What stands in a call behind the content of its string. -/
def tail (call : StringCall) : Text :=
  call.argument.quote :: (call.argument.rest ++ [')'])

/-- The content of a call's string, to be cleaned. -/
def contentSpan (call : StringCall) : Span :=
  ⟨call.start + (lead call).bytes, call.argument.content.bytes, clean call.argument.content⟩

theorem source_eq (call : StringCall) :
    call.source = lead call ++ call.argument.content ++ tail call := by
  simp [source, StringArgument.source, lead, tail]

theorem cleanedCall_eq (call : StringCall) :
    cleanedCall call = lead call ++ clean call.argument.content ++ tail call := by
  simp [cleanedCall, StringArgument.source, lead, tail]

/-- Cleaning calls is cleaning the contents of their strings. -/
theorem substituted_contents {pre out : Text}
    (h : Substituted pre.bytes (calls.map (edit [])) m out)
    (hin : ∀ c ∈ calls, c.LiesIn (pre ++ m)) :
    Substituted pre.bytes (calls.map contentSpan) m out := by
  refine substituted_narrow (fun c _ => ?_) hin h
  exact ⟨lead c, c.argument.content, tail c, clean c.argument.content, source_eq c,
    by rw [edit, cleanedCall_eq, List.nil_append], rfl⟩

/-! ## The edits of a line -/

/-- The calls that begin on a line that begins at `start`. -/
def callsOn (calls : List StringCall) (start : Nat) (line : Text) : List StringCall :=
  calls.filter fun c => start ≤ c.start && c.start < start + line.bytes

/-- The note above a line, as deep as the line. -/
def noteLine (v : Vocabulary) (line : Text) : Text :=
  line.withoutLineEnding.indentation ++ note v ++ ['\n']

/-- The edits for the calls on a line, with the note in front. -/
def lineEdits (start : Nat) (above : Text) : List StringCall → List Span
  | [] => []
  | call :: calls =>
    if start = call.start then edit above call :: calls.map (edit [])
    else .insertion start above :: (call :: calls).map (edit [])

/-- The edits for calls, line by line. -/
def editsFrom (v : Vocabulary) (calls : List StringCall) : (start : Nat) → List Text → List Span
  | _, [] => []
  | start, l :: ls =>
    lineEdits start (noteLine v l) (callsOn calls start l) ++ editsFrom v calls (start + l.bytes) ls

theorem mem_callsOn : call ∈ callsOn calls start l ↔
    call ∈ calls ∧ start ≤ call.start ∧ call.start < start + l.bytes := by
  simp [callsOn]

/-- An edit of a line begins where a call begins, or where the line does. -/
theorem mem_lineEdits {above : Text} {s : Span} (h : s ∈ lineEdits start above calls) :
    (s.start = start ∧ s.length = 0 ∧ calls ≠ []) ∨
      ∃ c ∈ calls, s.start = c.start ∧ s.length = c.length := by
  cases calls with
  | nil => cases h
  | cons call calls =>
    rw [lineEdits] at h
    split at h
    · rcases List.mem_cons.1 h with rfl | h
      · exact .inr ⟨call, by simp, rfl, rfl⟩
      · obtain ⟨c, hc, rfl⟩ := List.mem_map.1 h
        exact .inr ⟨c, by simp [hc], rfl, rfl⟩
    · rcases List.mem_cons.1 h with rfl | h
      · exact .inl ⟨rfl, rfl, by simp⟩
      · obtain ⟨c, hc, rfl⟩ := List.mem_map.1 h
        exact .inr ⟨c, hc, rfl, rfl⟩

theorem pairwise_lineEdits {above : Text} (hle : ∀ c ∈ calls, start ≤ c.start)
    (hsorted : calls.Pairwise fun a b => a.start < b.start) :
    (lineEdits start above calls).Pairwise fun a b => a.start ≤ b.start := by
  have hmap {calls : List StringCall} (h : calls.Pairwise fun a b => a.start < b.start) :
      (calls.map (edit [])).Pairwise fun a b => a.start ≤ b.start :=
    List.pairwise_map.2 (h.imp Nat.le_of_lt)
  cases calls with
  | nil => exact .nil
  | cons call calls =>
    obtain ⟨hcall, hcalls⟩ := List.pairwise_cons.1 hsorted
    rw [lineEdits]
    split
    · refine List.pairwise_cons.2 ⟨fun s hs => ?_, hmap hcalls⟩
      obtain ⟨c, hc, rfl⟩ := List.mem_map.1 hs
      exact Nat.le_of_lt (hcall c hc)
    · refine List.pairwise_cons.2 ⟨fun s hs => ?_, hmap hsorted⟩
      obtain ⟨c, hc, rfl⟩ := List.mem_map.1 hs
      exact hle c hc

/-- What the edits of a line make of it: the note stands above it, and the calls behind
each other are cleaned. -/
theorem substituted_noted {above out : Text} (hne : calls ≠ []) (hle : ∀ c ∈ calls, start ≤ c.start)
    (hsorted : calls.Pairwise fun a b => a.start < b.start)
    (h : Substituted start ((apart start calls).map (edit [])) l out) :
    Substituted start (Span.firstCome none (lineEdits start above calls)) l (above ++ out) := by
  cases calls with
  | nil => exact absurd rfl hne
  | cons call calls =>
    obtain ⟨hcall, hcalls⟩ := List.pairwise_cons.1 hsorted
    rw [lineEdits]
    split
    · rename_i hstart
      have hstop : (edit above call).stop = call.stop := rfl
      rw [apart, if_pos (Nat.le_of_eq hstart), List.map_cons] at h
      rw [Span.firstCome, if_pos (by rfl), firstCome_map (fun _ => rfl) (fun _ => rfl) hcall hcalls,
        hstop]
      obtain ⟨kept, replaced, rest, out', rfl, rfl, hkept, hlength, hrest⟩ := h.of_cons
      obtain rfl : kept = [] := by
        rcases Decidable.em (kept = []) with hk | hk
        · exact hk
        · have hpos := Text.bytes_pos hk
          have hkept' : start + kept.bytes = call.start := hkept
          omega
      simpa [edit] using Substituted.replace (s := edit above call) [] replaced hkept hlength hrest
    · rename_i hstart
      have hlater : ∀ c ∈ call :: calls, start < c.start := by
        have hfirst := Nat.lt_of_le_of_ne (hle call (by simp)) hstart
        exact List.forall_mem_cons.2 ⟨hfirst, fun c hc => Nat.lt_trans hfirst (hcall c hc)⟩
      rw [Span.firstCome, if_pos (by rfl),
        firstCome_map (fun _ => rfl) (fun _ => rfl) (p := .insertion start above) hlater hsorted]
      exact Substituted.replace (s := .insertion start above) [] [] rfl rfl h

/-! ## The edits line by line -/

theorem le_start_of_mem_linesFrom {ls : List Text} {line : Line}
    (h : line ∈ Text.linesFrom start ls) : start ≤ line.start := by
  induction ls generalizing start with
  | nil => cases h
  | cons l ls ih =>
    rcases List.mem_cons.1 h with rfl | h
    · exact Nat.le_refl _
    · exact Nat.le_trans (Nat.le_add_right ..) (ih h)

/-- An offset lies on the last line that begins before it. -/
theorem lineAt?_eq {before after : List Line} {line : Line} {offset : Nat}
    (hle : line.start ≤ offset) (hlt : ∀ other ∈ after, offset < other.start) :
    lineAt? (before ++ line :: after) offset = some line := by
  have hafter : after.filter (fun line => decide (line.start ≤ offset)) = [] :=
    List.filter_eq_nil_iff.2 fun other hother => by simpa using hlt other hother
  rw [lineAt?, List.filter_append, List.filter_cons_of_pos (by simpa using hle), hafter]
  simp

theorem spansFrom_again {lines : List Line} {noted : List Nat} {line : Line}
    (hat : ∀ c ∈ calls, lineAt? lines c.start = some line) (hnoted : line.start ∈ noted)
    (later : List StringCall) :
    spansFrom v lines noted (calls ++ later) =
      calls.map (edit []) ++ spansFrom v lines noted later := by
  induction calls with
  | nil => rfl
  | cons call calls ih =>
    obtain ⟨hcall, hcalls⟩ := List.forall_mem_cons.1 hat
    have hcontains : noted.contains line.start = true := by simpa using hnoted
    rw [List.cons_append, spansFrom, hcall]
    simp only [hcontains, if_true, ih hcalls, List.map_cons, List.cons_append]
    rfl

theorem spansFrom_line {lines : List Line} {noted : List Nat} {line : Line} (hne : calls ≠ [])
    (hat : ∀ c ∈ calls, lineAt? lines c.start = some line) (hnoted : line.start ∉ noted)
    (later : List StringCall) :
    spansFrom v lines noted (calls ++ later) =
      lineEdits line.start (line.content.indentation ++ note v ++ ['\n']) calls ++
        spansFrom v lines (line.start :: noted) later := by
  cases calls with
  | nil => exact absurd rfl hne
  | cons call calls =>
    obtain ⟨hcall, hcalls⟩ := List.forall_mem_cons.1 hat
    have hcontains : noted.contains line.start = false := by simpa using hnoted
    rw [List.cons_append, spansFrom, hcall, lineEdits]
    simp only [hcontains, Bool.false_eq_true, if_false,
      spansFrom_again hcalls (List.mem_cons_self ..)]
    split <;> rfl

/-- Calls from left to right are those on a line and those behind it. -/
theorem filter_eq_callsOn_append (hsorted : calls.Pairwise fun a b => a.start < b.start)
    (start : Nat) (l : Text) :
    calls.filter (fun c => decide (start ≤ c.start)) =
      callsOn calls start l ++ calls.filter fun c => decide (start + l.bytes ≤ c.start) := by
  induction calls with
  | nil => rfl
  | cons call calls ih =>
    obtain ⟨hcall, hcalls⟩ := List.pairwise_cons.1 hsorted
    rw [callsOn] at ih ⊢
    rcases Nat.lt_or_ge call.start (start + l.bytes) with hlt | hge
    · have hnot : ¬ start + l.bytes ≤ call.start := Nat.not_le.2 hlt
      rcases Nat.lt_or_ge call.start start with hbefore | hbehind
      · simp [hnot, Nat.not_le.2 hbefore, ih hcalls]
      · simp [hnot, hlt, hbehind, ih hcalls]
    · have hle : start ≤ call.start := Nat.le_trans (Nat.le_add_right ..) hge
      -- all others begin behind this one
      have hnone : calls.filter (fun c => decide (start ≤ c.start) &&
          decide (c.start < start + l.bytes)) = [] := by
        refine List.filter_eq_nil_iff.2 fun c hc => ?_
        have hlt := hcall c hc
        simp only [Bool.and_eq_true, decide_eq_true_eq, not_and, Nat.not_lt]
        omega
      rw [hnone, List.nil_append] at ih
      simp [hle, hge, Nat.not_lt.2 hge, hnone, ih hcalls]

/-- The edits for calls come line by line. -/
theorem spansFrom_eq {ls : List Text} (hls : Text.Lines ls) (before : List Line) {noted : List Nat}
    (hnoted : ∀ n ∈ noted, n < start) (hsorted : calls.Pairwise fun a b => a.start < b.start)
    (hcalls : ∀ c ∈ calls, c.start < start + Text.bytes ls.flatten) :
    spansFrom v (before ++ Text.linesFrom start ls) noted
        (calls.filter fun c => decide (start ≤ c.start)) = editsFrom v calls start ls := by
  induction ls generalizing start before noted with
  | nil =>
    have hnone : calls.filter (fun c => decide (start ≤ c.start)) = [] :=
      List.filter_eq_nil_iff.2 fun c hc => by simpa using hcalls c hc
    rw [hnone]
    rfl
  | cons l ls ih =>
    have hpos := Text.bytes_pos hls.ne_nil
    have hbound : ∀ c ∈ calls, c.start < start + l.bytes + Text.bytes ls.flatten := by
      intro c hc
      have := hcalls c hc
      rw [List.flatten_cons, Text.bytes_append] at this
      omega
    have hlines : before ++ Text.linesFrom start (l :: ls) =
        before ++ [⟨start, l.withoutLineEnding⟩] ++ Text.linesFrom (start + l.bytes) ls := by
      simp [Text.linesFrom]
    have hat : ∀ c ∈ callsOn calls start l,
        lineAt? (before ++ Text.linesFrom start (l :: ls)) c.start =
          some ⟨start, l.withoutLineEnding⟩ := by
      intro c hc
      obtain ⟨-, hle, hlt⟩ := mem_callsOn.1 hc
      exact lineAt?_eq hle fun other hother => Nat.lt_of_lt_of_le hlt (le_start_of_mem_linesFrom hother)
    rw [filter_eq_callsOn_append hsorted start l, editsFrom]
    rcases Decidable.em (callsOn calls start l = []) with hnone | hsome
    · rw [hnone, hlines, List.nil_append]
      exact ih hls.tail _ (fun n hn => by have := hnoted n hn; omega) hbound
    · have hfresh : start ∉ noted := fun hm => Nat.lt_irrefl _ (hnoted start hm)
      rw [spansFrom_line hsome hat hfresh, hlines]
      refine congrArg _ (ih hls.tail _ (fun n hn => ?_) hbound)
      rcases List.mem_cons.1 hn with rfl | hn
      · exact Nat.lt_add_of_pos_right hpos
      · have := hnoted n hn
        omega

theorem mem_editsFrom {ls : List Text} {s : Span} (h : s ∈ editsFrom v calls start ls) :
    start ≤ s.start := by
  induction ls generalizing start with
  | nil => cases h
  | cons l ls ih =>
    rcases List.mem_append.1 h with h | h
    · rcases mem_lineEdits h with ⟨hs, -⟩ | ⟨c, hc, hs, -⟩
      · exact Nat.le_of_eq hs.symm
      · exact hs ▸ (mem_callsOn.1 hc).2.1
    · exact Nat.le_trans (Nat.le_add_right ..) (ih h)

theorem pairwise_callsOn (hsorted : calls.Pairwise fun a b => a.start < b.start) (start : Nat)
    (l : Text) : (callsOn calls start l).Pairwise fun a b => a.start < b.start :=
  hsorted.sublist List.filter_sublist

theorem pairwise_editsFrom (hsorted : calls.Pairwise fun a b => a.start < b.start)
    (start : Nat) (ls : List Text) :
    (editsFrom v calls start ls).Pairwise fun a b => a.start ≤ b.start := by
  induction ls generalizing start with
  | nil => exact .nil
  | cons l ls ih =>
    refine List.pairwise_append.2 ⟨pairwise_lineEdits (fun c hc => (mem_callsOn.1 hc).2.1)
      (pairwise_callsOn hsorted start l), ih _, fun a ha b hb => ?_⟩
    have hb := mem_editsFrom hb
    rcases mem_lineEdits ha with ⟨hs, -⟩ | ⟨c, hc, hs, -⟩
    · omega
    · have := (mem_callsOn.1 hc).2.2
      omega

/-! ## Lines with notes -/

/-- Lines that follow one another from `start` on, and what becomes of them: above each
line on which calls begin stands the note, as deep as the line, and on the line nothing is
changed but the contents of the strings of calls that begin on it, each behind the end of
the one before; every other line stays as it is. -/
inductive Noted (v : Vocabulary) (calls : List StringCall) :
    (start : Nat) → List Text → List Text → Prop
  | nil {start : Nat} : Noted v calls start [] []
  | kept {start : Nat} {l : Text} {ls out : List Text} : callsOn calls start l = [] →
      Noted v calls (start + l.bytes) ls out → Noted v calls start (l :: ls) (l :: out)
  | noted {start : Nat} {l l' : Text} {ls out : List Text} : callsOn calls start l ≠ [] →
      Substituted start ((apart start (callsOn calls start l)).map contentSpan) l l' →
      Noted v calls (start + l.bytes) ls out →
      Noted v calls start (l :: ls) (noteLine v l :: l' :: out)

/-- The number of lines on which calls begin, of lines that follow one another from `start`
on. -/
def affectedLines (calls : List StringCall) : (start : Nat) → List Text → Nat
  | _, [] => 0
  | start, l :: ls =>
    (if callsOn calls start l = [] then 0 else 1) + affectedLines calls (start + l.bytes) ls

theorem Noted.length {ls out : List Text} (h : Noted v calls start ls out) :
    out.length = ls.length + affectedLines calls start ls := by
  induction h with
  | nil => rfl
  | kept hnone _ ih =>
    simp only [List.length_cons, ih, affectedLines, if_pos hnone]
    omega
  | noted hsome _ _ ih =>
    simp only [List.length_cons, ih, affectedLines, if_neg hsome]
    omega

/-- A call that begins on a line lies on it. -/
theorem liesIn_line {pre post : Text} (h : call.LiesIn (pre ++ m ++ post))
    (hfeed : '\n' ∉ call.source) (hpost : post = [] ∨ post.head? = some '\n')
    (hlt : call.start ≤ (pre ++ m).bytes) : call.LiesIn (pre ++ m) := by
  rcases hpost with rfl | hpost
  · simpa using h
  · obtain ⟨front, back, htext, hfront⟩ := h
    obtain ⟨post, rfl⟩ := List.head?_eq_some_iff.1 hpost
    rw [List.append_assoc front] at htext
    obtain ⟨m', hm', hbehind⟩ := Text.exists_append_of_bytes_le htext.symm (hfront ▸ hlt)
    rcases List.append_eq_append_iff.1 hbehind with ⟨x, hx, -⟩ | ⟨x, hx, hpost⟩
    · exact ⟨front, x, by rw [hm', hx, List.append_assoc], hfront⟩
    · cases x with
      | nil => exact ⟨front, [], by rw [hm', hx]; simp, hfront⟩
      | cons c x =>
        -- the line ends before the call does
        obtain ⟨rfl, -⟩ := List.cons_eq_cons.1 hpost
        exact absurd (hx ▸ by simp) hfeed

theorem lineFeed_notMem_clean {content : Text} (h : '\n' ∉ content) : '\n' ∉ clean content := by
  intro hm
  rcases Text.mem_replaceFindsFrom (Text.mem_of_mem_trim hm) with hm | ⟨u, found, hfound, hm⟩
  · rcases Text.mem_replaceFindsFrom hm with hm | ⟨u, found, hfound, hm⟩
    · exact h hm
    · have hempty : found.replacement = [] := by
        unfold block? at hfound
        dsimp only at hfound
        split at hfound
        · split at hfound
          · split at hfound
            · cases hfound; rfl
            · cases hfound
          · cases hfound
        · cases hfound
      rw [hempty] at hm
      cases hm
  · have hspace : found.replacement = [' '] := by
      unfold blanks? at hfound
      dsimp only at hfound
      split at hfound
      · cases hfound
      · cases hfound; rfl
    rw [hspace] at hm
    simp at hm

theorem lineFeed_notMem_note (htex : '\n' ∉ v.texConstructor) (htext : '\n' ∉ v.textConstructor) :
    '\n' ∉ note v := by
  refine List.not_mem_append (List.not_mem_append (List.not_mem_append
    (List.not_mem_append ?_ htext) ?_) htex) ?_ <;> decide +kernel

/-- A call that can be cleaned: it lies in the text, on one line. -/
structure OneLine (t : Text) (call : StringCall) : Prop where
  lies : call.LiesIn t
  lineFeed_notMem : '\n' ∉ call.source

theorem OneLine.lineFeed_notMem_clean (h : OneLine t call) :
    '\n' ∉ clean call.argument.content := by
  refine InlineText.lineFeed_notMem_clean fun hm => h.lineFeed_notMem ?_
  rw [source_eq]
  simp [hm]

/-- What the edits of a line make of it, `m` being the line without its line feed. -/
theorem exists_line {pre e : Text} (post above : Text) (hm : '\n' ∉ m) (he : e = [] ∨ e = ['\n'])
    (hpost : e = [] → post = []) (hsorted : calls.Pairwise fun a b => a.start < b.start)
    (hcalls : ∀ c ∈ calls, OneLine (pre ++ (m ++ e) ++ post) c)
    (hsome : callsOn calls pre.bytes (m ++ e) ≠ []) :
    ∃ m', m' ≠ [] ∧ '\n' ∉ m' ∧
      Substituted pre.bytes ((apart pre.bytes (callsOn calls pre.bytes (m ++ e))).map contentSpan)
        (m ++ e) (m' ++ e) ∧
      Substituted pre.bytes (Span.firstCome none
        (lineEdits pre.bytes above (callsOn calls pre.bytes (m ++ e)))) (m ++ e)
        (above ++ (m' ++ e)) ∧
      ∀ s ∈ lineEdits pre.bytes above (callsOn calls pre.bytes (m ++ e)),
        s.stop ≤ (pre ++ m).bytes := by
  have hlies : ∀ c ∈ callsOn calls pre.bytes (m ++ e), c.LiesIn (pre ++ m) := by
    intro c hc
    obtain ⟨hmem, -, hlt⟩ := mem_callsOn.1 hc
    obtain ⟨hlies, hfeed⟩ := hcalls c hmem
    have hassoc : pre ++ (m ++ e) ++ post = pre ++ m ++ (e ++ post) := by simp
    rw [hassoc] at hlies
    refine liesIn_line hlies hfeed ?_ ?_
    · rcases he with rfl | rfl
      · exact .inl (by simp [hpost rfl])
      · exact .inr rfl
    · have hbytes : e.bytes ≤ 1 := by rcases he with rfl | rfl <;> decide
      simp only [Text.bytes_append] at hlt ⊢
      omega
  have hon := pairwise_callsOn hsorted pre.bytes (m ++ e)
  have hle : ∀ c ∈ callsOn calls pre.bytes (m ++ e), pre.bytes ≤ c.start :=
    fun c hc => (mem_callsOn.1 hc).2.1
  have hsub : ∀ c ∈ apart pre.bytes (callsOn calls pre.bytes (m ++ e)),
      c ∈ callsOn calls pre.bytes (m ++ e) := fun c hc => (apart_sublist _ _).mem hc
  obtain ⟨hfirst, hbefore⟩ := before_apart (edit []) (fun _ => rfl) (fun _ => rfl) pre.bytes
    (callsOn calls pre.bytes (m ++ e))
  obtain ⟨m', hedits⟩ := exists_substituted pre m hbefore
    (by
      intro s hs
      obtain ⟨c, hc, rfl⟩ := List.mem_map.1 hs
      exact (hlies c (hsub c hc)).fits rfl rfl)
    (by
      intro s hs
      obtain ⟨c, hc, rfl⟩ := List.mem_map.1 hs
      exact hfirst c hc)
  have hcontents := substituted_contents hedits fun c hc => hlies c (hsub c hc)
  have hend {spans : List Span} (h : Substituted pre.bytes spans m m') :
      Substituted pre.bytes spans (m ++ e) (m' ++ e) := by
    simpa using h.append (.keep _ e)
  refine ⟨m', ?_, fun hfeed => ?_, hend hcontents, substituted_noted hsome hle hon (hend hedits), ?_⟩
  · obtain ⟨c, cs, hcs⟩ := List.exists_cons_of_ne_nil hsome
    rw [hcs, apart, if_pos (hle c (by simp [hcs])), List.map_cons] at hedits
    obtain ⟨kept, replaced, rest, out', -, rfl, -⟩ := hedits.of_cons
    simp [edit, cleanedCall]
  · rcases hcontents.mem hfeed with hfeed | ⟨s, hs, hfeed⟩
    · exact hm hfeed
    · obtain ⟨c, hc, rfl⟩ := List.mem_map.1 hs
      exact (hcalls c (mem_callsOn.1 (hsub c hc)).1).lineFeed_notMem_clean hfeed
  · intro s hs
    rcases mem_lineEdits hs with ⟨hstart, hlength, -⟩ | ⟨c, hc, hstart, hlength⟩
    · rw [Span.stop, hstart, hlength, Text.bytes_append]
      omega
    · obtain ⟨front, back, htext, hfront⟩ := hlies c hc
      rw [Span.stop, hstart, hlength, htext, Text.bytes_append, Text.bytes_append, hfront]
      exact Nat.le_add_right ..

/-- What the edits of lines make of them. -/
theorem exists_noted (hnote : '\n' ∉ note v) {ls : List Text} (hls : Text.Lines ls) (pre : Text)
    (hsorted : calls.Pairwise fun a b => a.start < b.start)
    (hcalls : ∀ c ∈ calls, OneLine (pre ++ ls.flatten) c) :
    ∃ out, Noted v calls pre.bytes ls out ∧ Text.Lines out ∧
      Substituted pre.bytes (Span.firstCome none (editsFrom v calls pre.bytes ls))
        ls.flatten out.flatten := by
  -- the note is a line of its own
  have habove (line : Text) (hline : '\n' ∉ line.withoutLineEnding) {out : List Text}
      (hout : Text.Lines out) : Text.Lines (noteLine v line :: out) := by
    refine .cons (fun hm => ?_) hout
    rcases List.mem_append.1 hm with hm | hm
    · exact hline ((List.takeWhile_prefix _).subset hm)
    · exact hnote hm
  induction hls generalizing pre with
  | nil => exact ⟨[], .nil, .nil, .keep _ _⟩
  | @last l hne hl =>
    rw [List.flatten_singleton] at hcalls ⊢
    rw [editsFrom, editsFrom, List.append_nil]
    rcases Decidable.em (callsOn calls pre.bytes l = []) with hnone | hsome
    · refine ⟨[l], .kept hnone .nil, .last hne hl, ?_⟩
      rw [hnone, List.flatten_singleton]
      exact .keep _ _
    · obtain ⟨m', hne', hfeed, hcontents, hedits, -⟩ := exists_line (e := []) []
        (noteLine v l) hl (.inl rfl) (fun _ => rfl) hsorted (by simpa using hcalls)
        (by simpa using hsome)
      simp only [List.append_nil] at hcontents hedits
      refine ⟨[noteLine v l, m'], .noted hsome hcontents .nil, habove l ?_ (.last hne' hfeed), ?_⟩
      · exact fun hm => hl ((Text.prefix_withoutLineEnding l).subset hm)
      · simpa using hedits
  | @cons m ls hm hls ih =>
    have hbytes : (pre ++ (m ++ ['\n'])).bytes = pre.bytes + Text.bytes (m ++ ['\n']) :=
      Text.bytes_append ..
    obtain ⟨out, hnoted, hout, hsubstituted⟩ := ih (pre ++ (m ++ ['\n'])) (by simpa using hcalls)
    rw [hbytes] at hnoted hsubstituted
    rw [editsFrom]
    rcases Decidable.em (callsOn calls pre.bytes (m ++ ['\n']) = []) with hnone | hsome
    · refine ⟨_, .kept hnone hnoted, .cons hm hout, ?_⟩
      rw [hnone]
      exact hsubstituted.behind _
    · obtain ⟨m', -, hfeed, hcontents, hedits, hstop⟩ := exists_line ls.flatten
        (noteLine v (m ++ ['\n'])) hm (.inr rfl) (by simp) hsorted (by simpa using hcalls) hsome
      refine ⟨_, .noted hsome hcontents hnoted, habove _ ?_ (.cons hfeed hout), ?_⟩
      · exact (Text.Lines.cons hm hls).lineFeed_notMem (by simp)
      · rw [Span.firstCome_append]
        · simpa using hedits.append hsubstituted
        · intro a ha b hb
          have hstop := hstop a ha
          have hb := mem_editsFrom hb
          simp only [Text.bytes_append] at hstop hb
          simp only [Span.Before, Span.stop] at hstop ⊢
          have hfeed : Text.bytes ['\n'] = 1 := rfl
          omega

theorem oneLine_of_mem (htex : '\n' ∉ v.texConstructor) (h : call ∈ proseCalls v t) :
    OneLine t call := by
  have hstands := stands_of_mem_findAll (List.mem_filter.1 h).1
  exact ⟨hstands.liesIn, hstands.lineFeed_notMem htex⟩

theorem pairwise_proseCalls (v : Vocabulary) (t : Text) :
    (proseCalls v t).Pairwise fun a b => a.start < b.start :=
  (pairwise_start_findAll _ _).sublist List.filter_sublist

/-- What the rule makes of a text, if the names of the constructors hold no line feed: above
each line on which a call with natural language in a block of text begins stands one note,
as deep as the line, and on the line nothing but contents of such calls is changed; every
other line is what it was. So there are as many lines more as there are lines on which such
calls begin. -/
theorem notes_stand_above (htex : '\n' ∉ v.texConstructor) (htext : '\n' ∉ v.textConstructor)
    (t : Text) :
    Noted v (proseCalls v t) 0 t.splitLines ((rule v).apply t).splitLines ∧
      ((rule v).apply t).splitLines.length =
        t.splitLines.length + affectedLines (proseCalls v t) 0 t.splitLines := by
  have hsorted := pairwise_proseCalls v t
  have hcalls : ∀ c ∈ proseCalls v t, OneLine t c := fun c => oneLine_of_mem htex
  obtain ⟨out, hnoted, hout, hsubstituted⟩ := exists_noted (lineFeed_notMem_note htex htext)
    (Text.lines_splitLines t) [] hsorted (by simpa using hcalls)
  have hspans : spans v t = editsFrom v (proseCalls v t) 0 t.splitLines := by
    rw [← spansFrom_eq (Text.lines_splitLines t) [] (show ∀ n ∈ [], n < 0 by simp) hsorted]
    · simp [spans, Text.lines, proseCalls]
    · intro c hc
      obtain ⟨front, back, htext, hfront⟩ := (hcalls c hc).lies
      have hpos := c.length_pos
      rw [length] at hpos
      rw [Text.flatten_splitLines, ← hfront, Nat.zero_add, htext, Text.bytes_append,
        Text.bytes_append]
      omega
  have happly : (rule v).apply t = out.flatten := by
    refine Edits.applyOrKeep_ordered ?_ ?_
    · rw [hspans]
      exact pairwise_editsFrom hsorted _ _
    · rw [hspans]
      simpa using hsubstituted
  rw [happly, hout.splitLines_flatten]
  exact ⟨hnoted, hnoted.length⟩

/-- Two formulas on a line, of three lines. -/
def twoFormulas : Text :=
  "a = 1\n  g = VGroup(Tex(\"\\text\x7bBước 1\x7d\"), Tex(\"\\text \x7bBước 2\x7d x\"))\nb = 2".toList

theorem notes_stand_above_twoFormulas :
    '\n' ∉ ({} : Vocabulary).texConstructor ∧ '\n' ∉ ({} : Vocabulary).textConstructor ∧
      Noted {} (proseCalls {} twoFormulas) 0 twoFormulas.splitLines
        ((rule {}).apply twoFormulas).splitLines ∧
      ((rule {}).apply twoFormulas).splitLines.length = 4 := by
  have htex : '\n' ∉ ({} : Vocabulary).texConstructor := by decide
  have htext : '\n' ∉ ({} : Vocabulary).textConstructor := by decide
  obtain ⟨hnoted, hlength⟩ := notes_stand_above htex htext twoFormulas
  exact ⟨htex, htext, hnoted, hlength.trans (by decide +kernel)⟩

/-- A name of the text constructor that goes over two lines. -/
def brokenName : Vocabulary := { textConstructor := "A\nB".toList }

/-- A formula with a block of text. -/
def answerFormula : Text := "Tex(\"\\text\x7bĐáp án\x7d 42\")\n".toList

/-- A note that holds a line feed is more than one line. -/
theorem not_noted_brokenName :
    '\n' ∉ brokenName.texConstructor ∧
      ¬ (Noted brokenName (proseCalls brokenName answerFormula) 0 answerFormula.splitLines
          ((rule brokenName).apply answerFormula).splitLines ∧
        ((rule brokenName).apply answerFormula).splitLines.length =
          answerFormula.splitLines.length +
            affectedLines (proseCalls brokenName answerFormula) 0 answerFormula.splitLines) := by
  refine ⟨by decide, fun h => ?_⟩
  exact absurd h.2 (by decide +kernel)

end InlineText

end SceneGate
