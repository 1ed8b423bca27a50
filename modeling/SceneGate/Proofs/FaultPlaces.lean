/-
Where the faults of a text lie (`faults_are_placed`). What is recorded while a text is read
arises at what is left to read: it is a complaint about the next token, or about the end, or
about an opening bracket that nothing closes and that stood at the beginning of the form
(`Fault.Arises`). So complaints never go back, and no bracket is complained of twice
(`Fault.Precedes`).
-/
import SceneGate.Proofs.Acceptance
import SceneGate.Proofs.Courses
import SceneGate.Proofs.OpenBrackets
import SceneGate.Proofs.Positions
import SceneGate.Proofs.Substitution

namespace SceneGate

/-- Where the first of the lexemes begins, or where the text ends. -/
def Surroundings.front (env : Surroundings) : List Lexeme → Nat
  | l :: _ => l.token.offset
  | [] => env.stop

/-- The lexemes stand one behind the other, up to the end at most, and no bracket among them
is empty. -/
structure Surroundings.Spaced (env : Surroundings) (ls : List Lexeme) : Prop where
  apart : ls.Pairwise fun l m => l.token.stop ≤ m.token.offset
  upTo : ∀ l ∈ ls, l.token.stop ≤ env.stop
  brackets : ∀ l ∈ ls, l.token.kind.opens = true → l.token.offset < l.token.stop

namespace Fault

/-- A fault about the first of the lexemes, or about the end. -/
def atFront (env : Surroundings) (cause : Cause) : List Lexeme → Fault
  | l :: _ => ofToken cause l.token
  | [] => ⟨cause, env.stop, env.stop⟩

@[simp] theorem cause_atFront (env : Surroundings) (cause : Cause) (ls : List Lexeme) :
    (atFront env cause ls).cause = cause := by
  cases ls <;> rfl

@[simp] theorem start_atFront (env : Surroundings) (cause : Cause) (ls : List Lexeme) :
    (atFront env cause ls).start = env.front ls := by
  cases ls <;> rfl

/-- The ways in which a fault arises while the lexemes in front of `left` are taken from those
ahead. -/
inductive Arises (env : Surroundings) (ahead left : List Lexeme) : Fault → Prop
  | complaint {cause : Cause} {ls : List Lexeme} : cause.isComplaint = true → ls <:+ ahead →
      left <:+ ls → Arises env ahead left (atFront env cause ls)
  | unclosed {bracket : Kind} {l : Lexeme} {ls : List Lexeme} :
      l.token.kind.closer? = some bracket → l.token.offset ∈ env.unclosed → l :: ls <:+ ahead →
      left <:+ ls → Arises env ahead left ⟨.neverClosed bracket, l.token.offset, l.token.offset + 1⟩

/-- What may be recorded behind a fault: no other about the same opening bracket, and no
complaint about what stands in front of that complained of. -/
structure Precedes (f g : Fault) : Prop where
  unclosed : f.cause.isUnclosed = true → f.start ≠ g.start
  complaints : f.cause.isUnclosed = false → g.cause.isUnclosed = false → f.start ≤ g.start

end Fault

section

variable {env : Surroundings} {l : Lexeme} {ls ls' ahead left ahead' left' : List Lexeme} {f g : Fault}

namespace Surroundings.Spaced

theorem suffix (h : env.Spaced ls) (hls : ls' <:+ ls) : env.Spaced ls' :=
  ⟨h.apart.sublist hls.sublist, fun l hl => h.upTo l (hls.subset hl),
    fun l hl => h.brackets l (hls.subset hl)⟩

theorem stop_le_front (h : env.Spaced (l :: ls)) (hls : ls' <:+ ls) :
    l.token.stop ≤ env.front ls' := by
  cases ls' with
  | nil => exact h.upTo l (List.mem_cons_self ..)
  | cons m ms => exact (List.pairwise_cons.1 h.apart).1 m (hls.subset (List.mem_cons_self ..))

/-- What is left to read only begins further behind. -/
theorem front_le (h : env.Spaced ls) (hls : ls' <:+ ls) : env.front ls ≤ env.front ls' := by
  cases ls with
  | nil => rw [List.suffix_nil.1 hls]
  | cons l ls =>
    rcases List.suffix_cons_iff.1 hls with rfl | hls
    · exact Nat.le_refl _
    · exact Nat.le_trans (Nat.le_add_right ..) (h.stop_le_front hls)

/-- Behind an opening bracket nothing begins where it does. -/
theorem offset_lt_front (h : env.Spaced (l :: ls)) (hl : l.token.kind.opens = true)
    (hls : ls' <:+ ls) : l.token.offset < env.front ls' :=
  Nat.lt_of_lt_of_le (h.brackets l (List.mem_cons_self ..) hl) (h.stop_le_front hls)

end Surroundings.Spaced

namespace Fault.Arises

theorem mono (h : f.Arises env ahead left) (hleft : ahead <:+ ahead') (hto : left' <:+ left) :
    f.Arises env ahead' left' := by
  cases h with
  | complaint hc hls hls' => exact .complaint hc (hls.trans hleft) (hto.trans hls')
  | unclosed hk hu hls hls' => exact .unclosed hk hu (hls.trans hleft) (hto.trans hls')

/-- A complaint begins no earlier than reading had come. -/
theorem front_le (h : f.Arises env ahead left) (hs : env.Spaced ahead) : env.front ahead ≤ f.start := by
  cases h with
  | complaint _ hls => exact (hs.front_le hls).trans_eq (start_atFront ..).symm
  | unclosed _ _ hls => exact hs.front_le hls

/-- What arises later, of what was left then, may be recorded behind. -/
theorem precedes (h : f.Arises env ahead left) (h' : g.Arises env left left') (hs : env.Spaced ahead) :
    f.Precedes g := by
  cases h with
  | @complaint cause ls hc hls hto =>
    refine ⟨fun hu => ?_, fun _ _ => ?_⟩
    · rw [cause_atFront] at hu
      simp [Fault.Cause.isComplaint, hu] at hc
    · rw [start_atFront]
      have hstep := (hs.suffix hls).front_le hto
      exact hstep.trans (h'.front_le ((hs.suffix hls).suffix hto))
  | @unclosed bracket l ls hk _ hls hto =>
    refine ⟨fun _ => ?_, fun hu => by cases hu⟩
    have hlt := (hs.suffix hls).offset_lt_front (Kind.opens_of_closer? hk) hto
    have hbehind := hto.trans ((List.suffix_cons l ls).trans hls)
    exact Nat.ne_of_lt (hlt.trans_le (h'.front_le (hs.suffix hbehind)))

end Fault.Arises

namespace Progress

variable {s s' : Progress}

theorem complain_eq (env : Surroundings) (cause : Fault.Cause) (s : Progress) :
    s.complain env cause = s.record (.atFront env cause s.rest) := by
  unfold complain
  cases s.rest <;> rfl

theorem rest_take_of_cons {l : Lexeme} {ls : List Lexeme} (h : s.rest = l :: ls) :
    s.take.rest = ls := by
  rw [take_of_cons h]

theorem faults_take (s : Progress) : s.take.faults = s.faults := by
  cases hr : s.rest with
  | nil => rw [take_of_nil hr]; rfl
  | cons l ls => rw [take_of_cons hr]; rfl

/-- What has been recorded on the way from one point to another. -/
structure Records (env : Surroundings) (s s' : Progress) (new : List Fault) : Prop where
  faults : s'.faults = new ++ s.faults
  ordered : new.Pairwise fun g f => f.Precedes g
  arises : ∀ f ∈ new, f.Arises env s.rest s'.rest

theorem exists_records_record (hf : f.Arises env s.rest s.rest) :
    ∃ new, Records env s (s.record f) new := by
  unfold record
  split
  · exact ⟨[], rfl, .nil, by simp⟩
  · exact ⟨[f], rfl, List.pairwise_singleton .., by simpa using hf⟩

/-- What a course records is in order. The induction is on the course; a bracket that is
missed at the end of a form stood in front of all that the form has complained of. -/
theorem Course.exists_records (h : Course env s s') (hs : env.Spaced s.rest) :
    ∃ new, Records env s s' new := by
  induction h with
  | stay _ hfaults => exact ⟨[], hfaults, .nil, by simp⟩
  | take s => exact ⟨[], faults_take s, .nil, by simp⟩
  | complain s hc =>
    rw [complain_eq]
    exact exists_records_record (.complaint hc List.suffix_rfl List.suffix_rfl)
  | @unclosed s s' l ls bracket hl hk hu h ih =>
    have hrest : s.take.rest = ls := rest_take_of_cons hl
    rw [hl] at hs
    obtain ⟨new, hfaults, hordered, harises⟩ := ih (hrest ▸ hs.suffix (List.suffix_cons ..))
    rw [faults_take] at hfaults
    rw [hrest] at harises
    have hbehind : s'.rest <:+ ls := hrest ▸ h.follows.rest
    have hmono : ∀ f ∈ new, f.Arises env s.rest s'.rest := fun f hf =>
      (harises f hf).mono (hl ▸ List.suffix_cons ..) List.suffix_rfl
    unfold record
    split
    · exact ⟨new, hfaults, hordered, hmono⟩
    · refine ⟨_ :: new, by rw [hfaults]; rfl, List.pairwise_cons.2 ⟨fun f hf => ?_, hordered⟩, ?_⟩
      · have hlt := hs.offset_lt_front (Kind.opens_of_closer? hk) (List.suffix_rfl : ls <:+ ls)
        have := (harises f hf).front_le (hs.suffix (List.suffix_cons ..))
        exact ⟨fun _ => by simp only; omega, fun _ hcomplaint => by cases hcomplaint⟩
      · exact List.forall_mem_cons.2 ⟨.unclosed hk hu (hl ▸ List.suffix_rfl) hbehind, hmono⟩
  | @trans s s₁ s₂ h₁ h₂ ih₁ ih₂ =>
    obtain ⟨new₁, hfaults₁, hordered₁, harises₁⟩ := ih₁ hs
    obtain ⟨new₂, hfaults₂, hordered₂, harises₂⟩ := ih₂ (hs.suffix h₁.follows.rest)
    refine ⟨new₂ ++ new₁, by rw [hfaults₂, hfaults₁, List.append_assoc],
      List.pairwise_append.2 ⟨hordered₂, hordered₁, fun g hg f hf => ?_⟩, fun f hf => ?_⟩
    · exact (harises₁ f hf).precedes (harises₂ g hg) hs
    · rcases List.mem_append.1 hf with hf | hf
      · exact (harises₂ f hf).mono h₁.follows.rest List.suffix_rfl
      · exact (harises₁ f hf).mono List.suffix_rfl h₂.follows.rest

end Progress

end

/-! ## The faults of a text -/

namespace Layout

/-- A stray indentation is found at the first token of its line, which the lexer cut off. -/
theorem exists_faults_run (stop : Nat) (s : Layout) (ts : List Token) :
    ∃ ks : List Token, ks.Sublist (s.run stop ts).tokens ∧ (∀ k ∈ ks, k ∈ ts) ∧
      (s.run stop ts).faults = ks.map (Fault.ofToken .strayIndentation) := by
  induction ts generalizing s with
  | nil => exact ⟨[], List.nil_sublist _, by simp, rfl⟩
  | cons t ts ih =>
    have hstep : ∃ js : List Token, js.Sublist (s.step t).2.tokens ∧ (∀ j ∈ js, j = t) ∧
        (s.step t).2.faults = js.map (Fault.ofToken .strayIndentation) := by
      have hsteps := steps_step s t
      generalize (s.step t).1 = s', (s.step t).2 = out at hsteps
      cases hsteps with
      | stray => exact ⟨[t], List.sublist_append_right .., by simp, rfl⟩
      | endLine | joinLines | inLine | blankLine | continuation | trivia | indent | dedent =>
        exact ⟨[], List.nil_sublist _, by simp, rfl⟩
    obtain ⟨js, hjs, hjt, hfaults⟩ := hstep
    obtain ⟨ks, hks, hkts, hfaults'⟩ := ih (s.step t).1
    refine ⟨js ++ ks, hjs.append hks, fun k hk => ?_, ?_⟩
    · rcases List.mem_append.1 hk with hk | hk
      · exact List.mem_cons.2 (.inl (hjt k hk))
      · exact List.mem_cons_of_mem t (hkts k hk)
    · simp only [run, hfaults, hfaults', List.map_append]

end Layout

theorem stop_ofTokens {ts : List Token} (h : Chained 0 ts) :
    (Surroundings.ofTokens ts).stop = (spelling ts).bytes := by
  rcases List.eq_nil_or_concat ts with rfl | ⟨front, k, rfl⟩
  · rfl
  · rw [List.concat_eq_append] at h ⊢
    have hoffset := offset_eq h
    simp [Surroundings.ofTokens, Token.stop, hoffset]

section

variable {t : Text} {f : Fault}

theorem stop_layout (t : Text) : (Surroundings.ofTokens (layout t).tokens).stop = t.bytes := by
  rw [stop_ofTokens (chained_layout t), spelling_layout]

theorem stop_le_of_mem_layout {k : Token} (h : k ∈ (layout t).tokens) : k.stop ≤ t.bytes := by
  have := ((chained_layout t).range k h).2
  rwa [spelling_layout, Nat.zero_add] at this

/-- The words of a text, with their trivia. -/
theorem map_token_layout (t : Text) :
    ((Lexeme.split (layout t).tokens).2.map Lexeme.token).Sublist (layout t).tokens := by
  rw [Lexeme.map_token_split]
  exact List.filter_sublist

theorem mem_layout_of_mem_split {l : Lexeme} (h : l ∈ (Lexeme.split (layout t).tokens).2) :
    l.token ∈ (layout t).tokens :=
  (map_token_layout t).subset (List.mem_map_of_mem h)

theorem spaced_layout (t : Text) :
    (Surroundings.ofTokens (layout t).tokens).Spaced (Lexeme.split (layout t).tokens).2 where
  apart := List.pairwise_map.1 ((chained_layout t).apart.sublist (map_token_layout t))
  upTo _ hl := stop_layout t ▸ stop_le_of_mem_layout (mem_layout_of_mem_split hl)
  brackets _ hl hopens :=
    Token.offset_lt_stop (isWord_of_opens hopens (mem_layout_of_mem_split hl))

theorem exists_strays (t : Text) : ∃ strays : List Token, strays.Sublist (layout t).tokens ∧
    (∀ k ∈ strays, k.Raw) ∧ (layout t).faults = strays.map (Fault.ofToken .strayIndentation) := by
  obtain ⟨ks, hks, hkts, hfaults⟩ := Layout.exists_faults_run t.bytes .start (tokenize t)
  exact ⟨ks, hks, fun k hk => raw_tokenize (hkts k hk), hfaults⟩

/-- The faults of the layout are recorded first, and then what is found while the text is
read. -/
theorem exists_found (t : Text) : ∃ found, (parse t).faults = (layout t).faults ++ found ∧
    found.Pairwise Fault.Precedes ∧ ∀ f ∈ found, f.Arises (.ofTokens (layout t).tokens)
      (Lexeme.split (layout t).tokens).2 [] := by
  obtain ⟨s, hcourse, hrest, hparse⟩ := exists_course t
  obtain ⟨new, hfaults, hordered, harises⟩ := hcourse.exists_records (spaced_layout t)
  refine ⟨new.reverse, ?_, List.pairwise_reverse.2 hordered,
    fun f hf => hrest ▸ harises f (List.mem_reverse.1 hf)⟩
  simp [hparse, hfaults, Progress.start]

/-- Where a fault of a text may lie: at a token of its layout; behind all of them, where the
text ends; or, if it says so of the bracket, at the one byte of an opening bracket behind
which the closing brackets never outnumber the opening ones. -/
inductive Fault.Placed (t : Text) : Fault → Prop
  | token {cause : Cause} {k : Token} : cause.isUnclosed = false → k ∈ (layout t).tokens →
      Placed t (.ofToken cause k)
  | ending {cause : Cause} : cause.isUnclosed = false → Placed t ⟨cause, t.bytes, t.bytes⟩
  | bracket {cause : Cause} {c : Char} {k : Token} {before after : List Token} :
      (layout t).tokens = before ++ k :: after → k.kind.opens = true → Outlasts 0 after →
      k.text = [c] → cause.message = '\'' :: c :: "' was never closed".toList →
      Placed t ⟨cause, k.offset, k.offset + 1⟩

/-- What arises while a text is read is placed in it. A bracket complained of is the one that
nothing closes, for no two begin at one place. -/
theorem Fault.Arises.placed {left : List Lexeme} (h : f.Arises (.ofTokens (layout t).tokens)
    (Lexeme.split (layout t).tokens).2 left) : f.Placed t := by
  cases h with
  | @complaint cause ls hc hls =>
    have hu : cause.isUnclosed = false := by
      simp only [Cause.isComplaint, Bool.and_eq_true, Bool.not_eq_true'] at hc
      exact hc.2
    cases ls with
    | nil =>
      rw [atFront, stop_layout]
      exact .ending hu
    | cons l ls => exact .token hu (mem_layout_of_mem_split (hls.subset (List.mem_cons_self ..)))
  | @unclosed bracket l ls hk hunclosed hls =>
    have hl := mem_layout_of_mem_split (hls.subset (List.mem_cons_self ..))
    obtain ⟨before, k, after, htokens, hopens, hoffset, hafter⟩ := mem_unclosed.1 hunclosed
    have hmem : k ∈ (layout t).tokens := by simp [htokens]
    obtain rfl := eq_of_offset_eq hmem hl hopens (Kind.opens_of_closer? hk) hoffset
    exact .bracket htokens hopens hafter (text_of_closer? hk hl) rfl

theorem placed_of_mem_faults (h : f ∈ (parse t).faults) : f.Placed t := by
  obtain ⟨found, hfaults, -, harises⟩ := exists_found t
  rw [hfaults] at h
  rcases List.mem_append.1 h with h | h
  · obtain ⟨strays, hsublist, -, hstrays⟩ := exists_strays t
    rw [hstrays] at h
    obtain ⟨k, hk, rfl⟩ := List.mem_map.1 h
    exact .token rfl (hsublist.subset hk)
  · exact (harises f h).placed

theorem isBoundary_token {k : Token} (h : k ∈ (layout t).tokens) :
    t.isBoundary k.offset = true ∧ t.isBoundary k.stop = true := by
  obtain ⟨before, after, htokens⟩ := List.append_of_mem h
  have hchained := chained_layout t
  rw [htokens] at hchained
  have hoffset := offset_eq hchained
  have hspelled := spelling_layout t
  rw [htokens, spelling_append, spelling_cons] at hspelled
  refine ⟨Text.isBoundary_iff.2 ⟨spelling before, _, hspelled.symm, by omega⟩,
    Text.isBoundary_iff.2 ⟨spelling before ++ k.text, spelling after, ?_, ?_⟩⟩
  · rw [List.append_assoc, hspelled]
  · rw [Text.bytes_append, Token.stop]
    omega

/-- A fault lies in the text. -/
theorem Fault.Placed.inText (h : f.Placed t) : f.start ≤ f.stop ∧ f.stop ≤ t.bytes ∧
    t.isBoundary f.start = true ∧ t.isBoundary f.stop = true := by
  cases h with
  | @token cause k _ hk =>
    exact ⟨Nat.le_add_right .., stop_le_of_mem_layout hk, isBoundary_token hk⟩
  | ending =>
    have hend : t.isBoundary t.bytes = true := Text.isBoundary_iff.2 ⟨t, [], by simp, rfl⟩
    exact ⟨Nat.le_refl _, Nat.le_refl _, hend, hend⟩
  | @bracket cause c k before after htokens hopens _ htext =>
    have hk : k ∈ (layout t).tokens := by simp [htokens]
    obtain ⟨close, hclose⟩ := Option.isSome_iff_exists.1 hopens
    have hone : k.offset + 1 = k.stop := by
      have hbyte : ∀ close, (openerOf close).utf8Size = 1 := by
        intro close
        unfold openerOf
        split <;> decide
      rw [Token.stop, text_of_closer? hclose hk, Text.bytes_cons, hbyte]
      rfl
    rw [hone]
    exact ⟨Nat.le_add_right .., stop_le_of_mem_layout hk, isBoundary_token hk⟩

end

/-! ## The line that is reported -/

namespace Fault

/-- The first fault is one of the faults, and none begins before it. -/
theorem first?_eq_some {fs : List Fault} {f : Fault} (h : first? fs = some f) :
    f ∈ fs ∧ ∀ g ∈ fs, f.start ≤ g.start := by
  induction fs generalizing f with
  | nil => cases h
  | cons e fs ih =>
    rw [first?] at h
    cases hrest : first? fs with
    | none =>
      rw [hrest] at h
      cases h
      simp [first?_eq_none.1 hrest]
    | some g =>
      obtain ⟨hmem, hfirst⟩ := ih hrest
      rw [hrest] at h
      simp only at h
      split at h
      · rename_i hlt
        cases h
        exact ⟨List.mem_cons_of_mem e hmem, List.forall_mem_cons.2 ⟨Nat.le_of_lt hlt, hfirst⟩⟩
      · rename_i hle
        cases h
        refine ⟨List.mem_cons_self .., List.forall_mem_cons.2 ⟨Nat.le_refl _, fun j hj => ?_⟩⟩
        have := hfirst j hj
        omega

end Fault

namespace LineIndex

variable {t : Text}

theorem lineOf_mono {o o' : Nat} (h : o ≤ o') : (ofText t).lineOf o ≤ (ofText t).lineOf o' := by
  rcases position_mono (t := t) h with hlt | ⟨heq, -⟩
  · exact Nat.le_of_lt hlt
  · exact Nat.le_of_eq heq

theorem lineCount_ofText (t : Text) : (ofText t).lineCount = t.count '\n' + 1 := by
  have hlength (o : Nat) : (startsFrom o t).length = t.count '\n' := by
    induction t generalizing o with
    | nil => rfl
    | cons c t ih =>
      rw [startsFrom]
      split
      · rename_i hc
        rw [hc, List.count_cons_self, List.length_cons, ih]
      · rename_i hc
        rw [List.count_cons_of_ne hc, ih]
  rw [lineCount, later_eq, hlength]

/-- An offset lies on one of the lines. -/
theorem lineOf_mem (o : Nat) : 1 ≤ (ofText t).lineOf o ∧ (ofText t).lineOf o ≤ t.count '\n' + 1 := by
  rw [← lineCount_ofText]
  exact ⟨Nat.le_add_left .., Nat.succ_le_succ List.countP_le_length⟩

end LineIndex

theorem Scene.defect_of_mem_issuesOf {v : Vocabulary} {root : Tree} {i : Issue}
    (h : i ∈ issuesOf v root) : i.defect = .structural := by
  simp only [issuesOf, List.mem_append] at h
  rcases h with (h | h) | h
  · split at h <;> simp_all [Issue.defect]
  · split at h <;> simp_all [Issue.defect]
  · split at h <;> simp_all [Issue.defect]

/-- The faults of a text are placed in it. Each is about a token of its layout, about the end
of the text, or about an opening bracket of the text, which it names and which no bracket
behind it closes; so it lies in the text, between characters. The line that a check reports,
if the text is no program, is a line of the text, and of those that faults begin on the first. -/
theorem faults_are_placed (t : Text) :
    (∀ f ∈ (parse t).faults, f.Placed t ∧ f.start ≤ f.stop ∧ f.stop ≤ t.bytes ∧
      t.isBoundary f.start = true ∧ t.isBoundary f.stop = true) ∧
    ∀ v, ((parse t).faults = [] ∧ ∀ i ∈ Scene.check v t, i.defect = .structural) ∨
      ∃ f ∈ (parse t).faults,
        Scene.check v t = [.notAProgram f.cause ((parse t).lineOf f.start)] ∧
        (1 ≤ (parse t).lineOf f.start ∧ (parse t).lineOf f.start ≤ t.count '\n' + 1) ∧
        ∀ g ∈ (parse t).faults, (parse t).lineOf f.start ≤ (parse t).lineOf g.start := by
  refine ⟨fun f hf => ⟨placed_of_mem_faults hf, (placed_of_mem_faults hf).inText⟩, fun v => ?_⟩
  have hcheck : Scene.check v t = Scene.inspect v (parse t) := rfl
  cases hfirst : Fault.first? (parse t).faults with
  | none =>
    left
    rw [Scene.inspect, Parse.firstFault?, hfirst] at hcheck
    exact ⟨Fault.first?_eq_none.1 hfirst,
      fun i hi => Scene.defect_of_mem_issuesOf (hcheck ▸ hi)⟩
  | some f =>
    right
    obtain ⟨hmem, hle⟩ := Fault.first?_eq_some hfirst
    rw [Scene.inspect, Parse.firstFault?, hfirst] at hcheck
    exact ⟨f, hmem, hcheck, LineIndex.lineOf_mem f.start,
      fun g hg => LineIndex.lineOf_mono (hle g hg)⟩

/-- Two brackets that nothing closes, the outer one found last and reported first. -/
def openBracketLines : Text := "if á (
x = [1
".toList

theorem faults_are_placed_open :
    ⟨.neverClosed .rBracket, 12, 13⟩ ∈ (parse openBracketLines).faults ∧
      Fault.Placed openBracketLines ⟨.neverClosed .rBracket, 12, 13⟩ ∧
      Scene.check {} openBracketLines = [.notAProgram (.neverClosed .rParen) 1] := by
  have hmem : ⟨.neverClosed .rBracket, 12, 13⟩ ∈ (parse openBracketLines).faults := by
    decide +kernel
  exact ⟨hmem, ((faults_are_placed openBracketLines).1 _ hmem).1, by decide +kernel⟩

end SceneGate
