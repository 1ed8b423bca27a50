/-
Lines of simple statements, told by their words. What a phrase reads does not depend on what
was built before it (`Phrase.Reads.onto`), so behind a semicolon the statements of a line are
read as they would be on a line of their own. A text whose words are one such line is a
program if these words can be read as simple statements (`SimpleLine`, `OneLine.parse`,
`OneLine.simpleLine`).
-/
import SceneGate.Proofs.Advance
import SceneGate.Proofs.ArgumentLists
import SceneGate.Proofs.LogicalLines
import SceneGate.Proofs.ProgramTrees

namespace SceneGate

open Form Progress

/-! ## What stands beneath -/

/-- The same point, with more built before. -/
def Progress.onto (s : Progress) (ts : List Tree) : Progress := { s with built := s.built ++ ts }

/-- Whether a form makes no node of parts that were built before it. -/
def Form.keepsBuilt : Form → Bool
  | .wrap _ _ => false
  | .seq first second => first.keepsBuilt && second.keepsBuilt
  | .cond test yes no => test.keepsBuilt && yes.keepsBuilt && no.keepsBuilt
  | .loop test body => test.keepsBuilt && body.keepsBuilt
  | .enclosed _ body => body.keepsBuilt
  | .node _ _ | .mark _ | .answer _ | .next _ | .nextTwo _ _ | .take | .complain _
  | .complainOfToken | .call _ => true

theorem Phrase.keepsBuilt (p : Phrase) : p.form.keepsBuilt = true := by
  revert p
  decide +kernel

section Onto

variable {env : Surroundings} {s s' : Progress} {a : Bool} {f : Form} {p : Phrase}

namespace Progress

variable (s s' : Progress) (ts : List Tree)

@[simp] theorem rest_onto : (s.onto ts).rest = s.rest := rfl

@[simp] theorem current_onto : (s.onto ts).current = s.current := rfl

theorem onto_flush : (s.onto ts).flush = s.flush.onto ts := by simp [onto, flush]

theorem onto_take : (s.onto ts).take = s.take.onto ts := by
  cases hr : s.rest with
  | nil => rw [take_of_nil hr, take_of_nil (s := s.onto ts) hr, onto_flush]
  | cons l ls =>
    rw [take_of_cons hr, take_of_cons (s := s.onto ts) hr, onto_flush]
    rfl

theorem onto_inside : (s.onto ts).inside = s.inside := by simp [inside, onto, flush]

theorem onto_rejoin (parts : List Tree) :
    (s.onto ts).rejoin s' parts = (s.rejoin s' parts).onto ts := by
  rw [rejoin, onto_flush]
  simp [onto, rejoin]

theorem onto_record (f : Fault) : (s.onto ts).record f = (s.record f).onto ts := by
  unfold record
  rw [apply_ite (Progress.onto · ts)]
  rfl

theorem onto_complain (env : Surroundings) (cause : Fault.Cause) :
    (s.onto ts).complain env cause = (s.complain env cause).onto ts := by
  unfold complain
  rw [rest_onto]
  cases s.rest <;> exact onto_record ..

theorem onto_close (env : Surroundings) (bracket : Kind) (opened : Nat) :
    (s.onto ts).close env bracket opened = (s.close env bracket opened).onto ts := by
  unfold close
  rw [current_onto, onto_take, onto_record, onto_complain, apply_ite (Progress.onto · ts),
    apply_ite (Progress.onto · ts)]

end Progress

/-- What it means that a phrase reads the same whatever was built before it. -/
def Phrase.ReadsOnto (env : Surroundings) (p : Phrase) (s : Progress) (a : Bool) (s' : Progress) :
    Prop :=
  ∀ ts, Phrase.Reads env p (s.onto ts) a (s'.onto ts)

/-- A form that keeps what was built reads the same on top of it, if the phrases in it do. -/
theorem Form.Reads.onto
    (h : Form.Reads env (fun q s a s' => Phrase.Reads env q s a s' ∧ q.ReadsOnto env s a s') f s a s')
    (hf : f.keepsBuilt = true) (ts : List Tree) :
    Form.Reads env (Phrase.Reads env) f (s.onto ts) a (s'.onto ts) := by
  induction h with
  | answer => exact .answer
  | next => exact .next
  | nextTwo => exact .nextTwo
  | take => exact onto_take .. ▸ .take
  | complain => exact onto_complain .. ▸ .complain
  | complainOfToken => exact onto_complain .. ▸ .complainOfToken
  | seq _ _ ih₁ ih₂ =>
    simp only [keepsBuilt, Bool.and_eq_true] at hf
    exact .seq (ih₁ hf.1) (ih₂ hf.2)
  | condYes _ _ ih₁ ih₂ =>
    simp only [keepsBuilt, Bool.and_eq_true] at hf
    exact .condYes (ih₁ hf.1.1) (ih₂ hf.1.2)
  | condNo _ _ ih₁ ih₂ =>
    simp only [keepsBuilt, Bool.and_eq_true] at hf
    exact .condNo (ih₁ hf.1.1) (ih₂ hf.2)
  | loopEnd _ ih =>
    simp only [keepsBuilt, Bool.and_eq_true] at hf
    exact .loopEnd (ih hf.1)
  | loopAgain _ _ _ ih₁ ih₂ ih₃ =>
    have hboth := hf
    simp only [keepsBuilt, Bool.and_eq_true] at hboth
    exact .loopAgain (ih₁ hboth.1) (ih₂ hboth.2) (ih₃ hf)
  | call h => exact .call (h.2 ts)
  | node h _ =>
    rw [← onto_rejoin]
    exact .node (onto_inside _ ts ▸ h.imp fun _ _ _ _ hq => hq.1)
  | mark h _ =>
    rw [← onto_rejoin]
    exact .mark (onto_inside _ ts ▸ h.imp fun _ _ _ _ hq => hq.1)
  | wrap => cases hf
  | enclosed _ ih =>
    rw [← onto_close]
    exact .enclosed (onto_take _ ts ▸ ih hf)

/-- What a phrase reads does not depend on what was built before it. -/
theorem Phrase.Reads.onto (h : Phrase.Reads env p s a s') (ts : List Tree) :
    Phrase.Reads env p (s.onto ts) a (s'.onto ts) :=
  h.induct (Phrase.ReadsOnto env)
    (fun p _ _ _ h ts => Phrase.reads_iff.2 (h.onto p.keepsBuilt ts)) ts

/-- The same on top of outlines of words. -/
theorem Phrase.answers_onto {b b' : List (Outline Word)} {ws ws' : List Word}
    (h : p.form.Answers b ws a b' ws') (os : List (Outline Word)) :
    p.form.Answers (b ++ os) ws a (b' ++ os) ws' := by
  have honto := (Phrase.reads_iff.2 h).onto (os.map Outline.tree)
  have hbare (b : List (Outline Word)) (ws : List Word) :
      (bare b ws).onto (os.map Outline.tree) = bare (b ++ os) ws := by simp [Progress.onto, bare]
  rw [hbare, hbare] at honto
  exact Phrase.reads_iff.1 honto

/-- What a phrase reads without a fault can be read of the words alone. -/
theorem Phrase.Reads.answers (h : Phrase.Reads env p s a s') (hstart : p.startsOn.has s.current = true)
    (hs : s.Sorted) (hg : s'.faults = []) :
    ∃ os, p.form.Answers [] s.words a os s'.words := by
  have hE : ArgumentSwaps fun _ _ => False := fun _ _ h => h.elim
  -- what was built before is left out
  obtain ⟨b, u, hu⟩ := p.exists_reads (s := { s with built := [] }) env hstart
  have honto : ({ s with built := [] } : Progress).onto s.built = s := rfl
  obtain ⟨rfl, rfl⟩ := h.unique (honto ▸ hu.onto s.built)
  obtain ⟨b₀, ws, hb, -, -, hread⟩ := hu.replays hE ⟨hs.pending, hs.rest⟩ hg true u.outlines u.words
    (.inl rfl) (Outline.forall₂_swap_refl _) (.inl (.refl _))
  obtain rfl : b₀ = [] := List.forall₂_nil_left_iff.1 hb
  have hwords := hread.words_eq.symm.trans (hu.form.words_eq ⟨hs.pending, hs.rest⟩)
  obtain rfl : ws = s.words := by simpa [outlines, words] using hwords
  exact ⟨u.outlines, hread⟩

end Onto

/-! ## What begins no simple statement -/

/-- The kinds of words that compound statements begin with. -/
def Kind.compoundStarts : List Kind :=
  [.ifKw, .whileKw, .forKw, .withKw, .tryKw, .defKw, .classKw, .atSign, .asyncKw]

/-- Phrases that complain where a compound statement begins. -/
def Phrase.refuses : Phrase → Bool
  | .smallStatement | .expressionStatement | .assignedValue | .starExpressions | .starExpression
  | .expression | .disjunction | .conjunction | .inversion | .comparison | .bitOr | .bitXor
  | .bitAnd | .shift | .sum | .product | .factor | .power | .primary | .atom => true
  | _ => false

/-- Watches readings without a fault: where a compound statement begins, none comes of a phrase
that refuses it. -/
def Watch.refusal : Watch where
  taken S := if S.isEmpty then .nothing else .anything
  faulted _ := .nothing
  left p S :=
    if S.isEmpty || p.refuses && S.within ⟨.only Kind.compoundStarts, .only Kind.compoundStarts⟩
    then .nothing else .anything
  mayTake _ := true
  mayCall _ _ := true
  mayOpen _ _ _ := true
  mayWrap _ := true

/-- What it means that a phrase refuses the beginning of a compound statement. -/
def Phrase.Refuses (p : Phrase) (s : Progress) (_ : Bool) (s' : Progress) : Prop :=
  p.refuses = true → s'.faults = [] → s.current ∉ Kind.compoundStarts

theorem Phrase.refuses_fits (p : Phrase) :
    p.refuses = false ∨
      Watch.refusal.fits true p.form ⟨.only Kind.compoundStarts, .none⟩ = true ∧
        (Watch.refusal.after p.form ⟨.only Kind.compoundStarts, .none⟩).either.isEmpty = true := by
  revert p
  decide +kernel

theorem Watch.refusal_sound (env : Surroundings) :
    Watch.refusal.Sound env Phrase.Refuses (fun s => s.faults = [])
      (fun (_ : Unit) _ _ => True) id where
  back h hg := List.suffix_nil.1 (hg ▸ h.faults)
  take := by
    rintro _ S s - ⟨flag, -, hk⟩
    exact ⟨false, trivial, by simp [refusal, Sight.isEmpty_of_has hk]⟩
  fault hg := absurd hg (faults_record_ne _ _)
  call := by
    rintro _ S p s b s' - - hrefuses hg ⟨flag, -, hk⟩
    simp only [refusal, Sight.isEmpty_of_has hk, Bool.false_or, Bool.and_eq_true]
    split
    · rename_i hp
      have hmem := Sight.has_of_within hp.2 hk
      refine absurd ?_ (hrefuses hp.1 hg)
      cases flag <;> simpa [Sight.has] using hmem
    · exact ⟨false, trivial, Sight.has_anything⟩
  inside _ := trivial
  node _ _ _ _ := trivial
  mark _ _ := trivial
  wrap _ _ := trivial

/-- No simple statement begins as a compound one does. -/
theorem Phrase.Reads.refuses {env : Surroundings} {p : Phrase} {s s' : Progress} {a : Bool}
    (h : Phrase.Reads env p s a s') : p.Refuses s a s' := by
  refine h.induct Phrase.Refuses fun p s a s' h hp hg hk => ?_
  obtain ⟨hfits, hempty⟩ := p.refuses_fits.resolve_left (by simp [hp])
  obtain ⟨flag, -, hend⟩ := ((Watch.refusal_sound env).holds h hg (fun _ => ⟨(), rfl⟩) hfits
    ⟨false, trivial, by simpa [Sight.has] using hk⟩).either
  rw [Sight.isEmpty_of_has hend] at hempty
  cases hempty

/-! ## Lines -/

section Select

variable {env : Surroundings} {calls : Phrase → Progress → Bool → Progress → Prop} {a : Bool}
  {s s' : Progress} {otherwise form : Form} {branches : List (Form × Form)}

theorem Form.Reads.of_misses {f : Form} (h : Form.Reads env calls f s a s')
    (hf : f.misses s.current = true) : s' = s ∧ a = false := by
  cases f with
  | next kinds =>
    obtain ⟨rfl, rfl⟩ := h.of_next
    exact ⟨rfl, by simpa [misses] using hf⟩
  | nextTwo first second =>
    cases h
    refine ⟨rfl, ?_⟩
    have hne : s.current ≠ first := by simpa [misses] using hf
    rw [beq_eq_false_iff_ne.2 hne, Bool.false_and]
  | _ => cases hf

/-- Where all tests answer no, the form for all other cases was read. -/
theorem Form.Reads.of_otherwise (h : Form.Reads env calls (select otherwise branches) s a s')
    (hmiss : ∀ branch ∈ branches, branch.1.misses s.current = true) :
    Form.Reads env calls otherwise s a s' := by
  induction branches with
  | nil => exact h
  | cons branch branches ih =>
    obtain ⟨hfirst, hrest⟩ := List.forall_mem_cons.1 hmiss
    obtain ⟨c, s₀, htest, hform⟩ := h.of_cond
    obtain ⟨rfl, rfl⟩ := htest.of_misses hfirst
    exact ih hform hrest

/-- The chosen form was read. -/
theorem Form.Reads.of_chosen (h : Form.Reads env calls (select otherwise branches) s a s')
    (hform : chosen? s.current branches = some form) : Form.Reads env calls form s a s' := by
  induction branches with
  | nil => cases hform
  | cons branch branches ih =>
    obtain ⟨test, first⟩ := branch
    by_cases hmiss : test.misses s.current = true
    · obtain ⟨c, s₀, htest, hrest⟩ := h.of_cond
      obtain ⟨rfl, rfl⟩ := htest.of_misses hmiss
      refine ih hrest ?_
      cases test <;> simp_all [chosen?, misses]
    · cases test with
      | next kinds =>
        have hmem : s.current ∈ kinds := by simpa [misses] using hmiss
        obtain rfl : first = form := by simpa [chosen?, hmem] using hform
        have hread := h.of_cond_next
        rwa [List.contains_iff_mem.2 hmem] at hread
      | _ => simp [chosen?, hmiss] at hform

end Select

/-- Words that are read as simple statements with semicolons between them, and as nothing
else. -/
def SimpleLine (ws : List Word) (os : List (Outline Word)) : Prop :=
  Phrase.simpleStatements.form.Makes [] ws os.reverse []

/-- What follows a simple statement on its line. -/
def Form.lineRest : Form :=
  .seq (.loop (both (eat .semicolon) (nextNot [.newline])) (.call .smallStatement))
    (.seq (opt (nextNot [.newline, .endOfFile])
      (.seq (.complain .invalidSyntax) (skipTo [.newline]))) (eat .newline))

section Line

variable {env : Surroundings} {a : Bool} {s s' : Progress} {ws vs : List Word} {v : Word}
  {os : List (Outline Word)}

theorem Phrase.Reads.simpleLine (h : Phrase.Reads env .simpleStatements s a s') (hs : s.Sorted)
    (hg : s'.faults = []) (hend : s'.words = []) : ∃ os, SimpleLine s.words os := by
  obtain ⟨os, hos⟩ := h.answers rfl hs hg
  exact ⟨os.reverse, by simpa [SimpleLine, hend] using hos.makes⟩

theorem Progress.words_take {k : Kind} (h : s.current = k) (hk : k ≠ .endOfFile) :
    ∃ w, w.kind = k ∧ s.words = w :: s.take.words := by
  obtain ⟨l, ls, hl, rfl⟩ := exists_of_current h hk
  exact ⟨l.token.word, rfl, by rw [take_of_cons hl]; simp [words, hl]⟩

/-- Where a line ends, nothing or a line break is next. -/
theorem Form.Reads.lineEnd (h : Form.Reads env (Phrase.Reads env)
      (.seq (opt (nextNot [.newline, .endOfFile])
        (.seq (.complain .invalidSyntax) (skipTo [.newline]))) (eat .newline)) s a s')
    (hg : s'.faults = []) :
    s.current = .endOfFile ∧ s' = s ∨ ∃ v, v.kind = .newline ∧ s.words = v :: s'.words := by
  obtain ⟨b, s₀, hopt, heat⟩ := h.of_seq
  obtain ⟨c, s₁, htest, hbody⟩ := hopt.of_cond
  obtain ⟨rfl, hc⟩ := htest.of_nextNot
  cases c with
  | true =>
    obtain ⟨d, s₂, hcomplain, hskip⟩ := hbody.of_seq
    cases hcomplain
    exact absurd (hskip.faults_eq (heat.faults_eq hg)) (faults_complain_ne _ _ _)
  | false =>
    cases hbody
    cases a with
    | true =>
      obtain ⟨hk, rfl⟩ := heat.of_eat_yes
      exact .inr (words_take hk (by decide))
    | false =>
      obtain ⟨hk, rfl⟩ := heat.of_eat_no
      exact .inl ⟨by simpa [hk] using hc, rfl⟩

/-- Behind a simple statement the line ends, perhaps behind a semicolon, or a semicolon
stands before further statements. -/
theorem Form.Reads.lineRest (h : Form.Reads env (Phrase.Reads env) lineRest s a s')
    (hg : s'.faults = []) :
    s.current = .endOfFile ∨ (∃ v, v.kind = .newline ∧ s.words = v :: s'.words) ∨
      ∃ c, c.kind = .semicolon ∧ s.words = c :: s.take.words ∧
        ((∃ v, v.kind = .newline ∧ s.take.words = v :: s'.words) ∨
          s.take.current ≠ .newline ∧ Phrase.Reads env .simpleStatements s.take a s') := by
  obtain ⟨b, s₀, hloop, hend⟩ := h.of_seq
  cases hloop with
  | loopEnd htest =>
    rcases htest.of_cond_eat with ⟨hk, hnext⟩ | ⟨-, hno⟩
    · obtain ⟨w, hw, hwords⟩ := words_take hk (by decide)
      obtain ⟨rfl, hnl⟩ := hnext.of_nextNot
      refine .inr (.inr ⟨w, hw, hwords, .inl ?_⟩)
      rcases hend.lineEnd hg with ⟨heof, -⟩ | hline
      · simp [heof] at hnl
      · exact hline
    · cases hno
      rcases hend.lineEnd hg with ⟨heof, -⟩ | hline
      · exact .inl heof
      · exact .inr (.inl hline)
  | loopAgain htest hsmall hloop =>
    rcases htest.of_cond_eat with ⟨hk, hnext⟩ | ⟨-, hno⟩
    · obtain ⟨w, hw, hwords⟩ := words_take hk (by decide)
      obtain ⟨rfl, hnl⟩ := hnext.of_nextNot
      have hread : Form.Reads env (Phrase.Reads env) Phrase.simpleStatements.form s.take a s' :=
        .seq hsmall (.seq hloop hend)
      exact .inr (.inr ⟨w, hw, hwords, .inr ⟨by simpa using hnl, Phrase.reads_iff.2 hread⟩⟩)
    · cases hno

/-- Simple statements are read up to the end of their line. -/
theorem Phrase.Reads.words_simpleStatements (h : Phrase.Reads env .simpleStatements s a s')
    (hg : s'.faults = []) (hwords : s.words = ws ++ [v]) (hv : v.kind = .newline)
    (hline : ∀ w ∈ ws, w.kind ∉ Kind.newline :: Kind.addedByLayout) : s'.words = [] := by
  obtain ⟨b, s₁, hsmall, hrest⟩ := h.form.of_seq
  obtain ⟨c, s₂, hloop, hend⟩ := hrest.of_seq
  have hfollows : Follows s s₂ :=
    (hsmall.imp fun _ _ _ _ hq => hq.follows).follows.trans
      (hloop.imp fun _ _ _ _ hq => hq.follows).follows
  have hsuffix : s₂.words <:+ ws ++ [v] := hwords ▸ hfollows.rest.map _
  rcases List.suffix_concat_iff.1 hsuffix with hnil | ⟨us, hus, husws⟩
  · rcases hend.lineEnd hg with ⟨-, rfl⟩ | ⟨w, -, hw⟩
    · exact hnil
    · simp [hnil] at hw
  · cases us with
    | nil =>
      rcases hend.lineEnd hg with ⟨heof, -⟩ | ⟨w, -, hw⟩
      · simp [current_eq_words, hus, hv] at heof
      · rw [hus] at hw
        exact (List.cons.inj hw).2.symm
    | cons u us =>
      -- a word of the line is neither the end nor a line break
      have hu := hline u (husws.subset (by simp))
      simp only [List.mem_cons, Kind.addedByLayout, not_or] at hu
      rcases hend.lineEnd hg with ⟨heof, -⟩ | ⟨w, hw, hws⟩
      · exact absurd heof (by simp [current_eq_words, hus, hu])
      · rw [hus] at hws
        exact absurd hw ((List.cons.inj hws).1 ▸ hu.1)

/-! ### Making lines -/

section Making

variable {b : List (Outline Word)} {c : Word} {o : Outline Word}

theorem Form.makes_lineEnd (hv : v.kind = .newline) (b : List (Outline Word)) :
    (Form.seq (opt (nextNot [.newline, .endOfFile])
      (.seq (.complain .invalidSyntax) (skipTo [.newline]))) (eat .newline)).Makes b [v]
      (.word v :: b) [] :=
  .seq (.cond (answers_nextNot_no (by simp [hv])) makes_skip) (makes_eat hv)

/-- The line may end behind a statement. -/
theorem Form.makes_lineRest (hv : v.kind = .newline) (b : List (Outline Word)) :
    lineRest.Makes b [v] (.word v :: b) [] :=
  .seq (.loopEnd (.cond (answers_eat_no (by simp [hv])) answers_answer)) (makes_lineEnd hv b)

/-- The line may end behind a semicolon. -/
theorem Form.makes_lineRest_closed (hc : c.kind = .semicolon) (hv : v.kind = .newline)
    (b : List (Outline Word)) : lineRest.Makes b [c, v] (.word v :: .word c :: b) [] :=
  .seq (.loopEnd (.cond (answers_eat hc) (answers_nextNot_no (by simp [hv])))) (makes_lineEnd hv _)

/-- Behind a semicolon the line may go on as a line by itself would. -/
theorem SimpleLine.makes_lineRest (h : SimpleLine ws os) (hc : c.kind = .semicolon)
    (hws : nextKind ws ≠ .newline) (b : List (Outline Word)) :
    lineRest.Makes b (c :: ws) (os.reverse ++ .word c :: b) [] := by
  obtain ⟨a, h⟩ := h
  obtain ⟨_, _, hfirst, hrest⟩ := (Phrase.answers_onto h (.word c :: b)).of_seq
  obtain ⟨_, _, hloop, hend⟩ := hrest.of_seq
  have htest : (both (eat .semicolon) (nextNot [.newline])).Answers b (c :: ws) true
      (.word c :: b) ws :=
    .cond (answers_eat hc) (answers_nextNot_yes (by simpa using hws))
  exact ⟨a, Form.Reads.seq (Form.Reads.loopAgain htest hfirst hloop) hend⟩

/-- A line is a statement and what follows it. -/
theorem SimpleLine.of_takes (h : Phrase.smallStatement.Takes ws o vs)
    (hrest : lineRest.Makes [o] vs (os.reverse ++ [o]) []) : SimpleLine ws (o :: os) := by
  rw [SimpleLine, List.reverse_cons]
  exact .callThen h hrest

end Making

end Line

/-! ## Texts of one line -/

/-- The words of the text stand on one line, which the last word ends, and which is not
indented. -/
structure OneLine (t : Text) (ws : List Word) (v : Word) : Prop where
  words : (significant (layout t).tokens).map Token.word = ws ++ [v]
  ends : v.kind = .newline
  line : ∀ w ∈ ws, w.kind ∉ Kind.newline :: Kind.addedByLayout

namespace OneLine

variable {t : Text} {ws : List Word} {v : Word} {os : List (Outline Word)}

/-- A line that is not indented is laid out without a fault. -/
theorem faults_layout (h : OneLine t ws v) : (layout t).faults = [] := by
  have hcount := (lined_layout t).count
  have hnone : countKind .dedent (significant (layout t).tokens) = 0 := by
    refine List.countP_eq_zero.2 fun k hk => ?_
    have hmem : k.word ∈ ws ++ [v] := h.words ▸ List.mem_map_of_mem hk
    rcases List.mem_append.1 hmem with hmem | hmem
    · have hkind := h.line _ hmem
      simp only [Token.word, Kind.addedByLayout, List.mem_cons, not_or] at hkind
      simp [hkind]
    · obtain hv := List.mem_singleton.1 hmem
      have hkind : k.kind = .newline := by rw [← h.ends, ← hv]; rfl
      simp [hkind]
  exact List.length_eq_zero_iff.1 (by omega)

/-- A line of simple statements begins with no word that tells of layout, and as no compound
statement. -/
theorem begins (h : OneLine t ws v) (hne : ws ≠ []) (hstart : nextKind ws ∉ Kind.compoundStarts) :
    nextKind (ws ++ [v]) ∉ Kind.newline :: Kind.addedByLayout ∧
      nextKind (ws ++ [v]) ∉ Kind.compoundStarts := by
  cases ws with
  | nil => exact absurd rfl hne
  | cons w ws => exact ⟨h.line w (by simp), hstart⟩

end OneLine

/-- The statements that are no simple ones, and the words that they begin with. -/
def Form.otherStatements : List (Form × Form) := [
  (.next [.indent], .call .unexpectedIndent),
  (.next [.dedent], rejectToken .unexpectedDedent),
  (.next [.newline], .take),
  (.next [.ifKw], .call .ifStatement),
  (.next [.whileKw], .call .whileStatement),
  (.next [.forKw], .call .forStatement),
  (.next [.withKw], .call .withStatement),
  (.next [.tryKw], .call .tryStatement),
  (.next [.defKw], .node .functionDef (.call .function)),
  (.next [.classKw], .node .classDef (.call .classParts)),
  (.next [.atSign], .call .decorated),
  (.nextTwo .asyncKw .defKw, .node .functionDef (.call .function)),
  (.nextTwo .asyncKw .forKw, .call .forStatement),
  (.nextTwo .asyncKw .withKw, .call .withStatement)]

theorem Form.misses_otherStatements {k : Kind} (h : k ∉ Kind.newline :: Kind.addedByLayout)
    (hk : k ∉ Kind.compoundStarts) : ∀ branch ∈ otherStatements, branch.1.misses k = true := by
  simp only [Kind.addedByLayout, Kind.compoundStarts, List.mem_cons, not_or] at h hk
  simp [otherStatements, misses, h, hk]

namespace OneLine

variable {t : Text} {ws : List Word} {v : Word} {os : List (Outline Word)}

/-- A line whose words are read as simple statements is a program of these statements. -/
theorem parse (h : OneLine t ws v) (hne : ws ≠ []) (hstart : nextKind ws ∉ Kind.compoundStarts)
    (hos : SimpleLine (ws ++ [v]) os) :
    (parse t).ok = true ∧ (parse t).tree.outline Token.word = [.node .sourceFile os] := by
  obtain ⟨hkind, hfirst⟩ := h.begins hne hstart
  refine parse_of_words h.words h.faults_layout (makes_program_again ?_
    (makes_otherwise (misses_otherStatements hkind hfirst) (.call hos)) makes_program_end)
  exact fun hmem => hkind (by rw [List.mem_singleton.1 hmem]; decide)

/-- The words of a program of one line are read as simple statements. -/
theorem exists_reading (h : OneLine t ws v) (hne : ws ≠ [])
    (hstart : nextKind ws ∉ Kind.compoundStarts) (hok : (SceneGate.parse t).ok = true) :
    ∃ env s a s', Phrase.Reads env .simpleStatements s a s' ∧ s.Sorted ∧ s'.faults = [] ∧
      s.words = ws ++ [v] ∧ s'.words = [] := by
  obtain ⟨a, s', hreads, -, -, -, hfaults⟩ := SceneGate.exists_reading t
  have hg : s'.faults = [] := by simpa [Parse.ok, hfaults] using hok
  have hwords : (start (layout t).tokens (layout t).faults).words = ws ++ [v] := by
    rw [← h.words, ← words_start]
    rfl
  obtain ⟨hkind, hfirst⟩ := h.begins hne hstart
  rw [← hwords, ← current_eq_words] at hkind hfirst
  cases hreads.form with
  | loopEnd htest =>
    have heof : (start (layout t).tokens (layout t).faults).current = .endOfFile := by
      simpa using htest.of_nextNot.2
    exact absurd (by rw [heof]; decide) hkind
  | loopAgain htest hcall hloop =>
    obtain ⟨rfl, -⟩ := htest.of_nextNot
    cases hcall with
    | call hstatement =>
      have hg₁ := hloop.faults_eq hg
      cases hstatement.form.of_otherwise (misses_otherStatements hkind hfirst) with
      | call hsimple =>
        exact ⟨_, _, _, _, hsimple, sorted_start .., hg₁, hwords,
          hsimple.words_simpleStatements hg₁ hwords h.ends h.line⟩

theorem simpleLine (h : OneLine t ws v) (hne : ws ≠ []) (hstart : nextKind ws ∉ Kind.compoundStarts)
    (hok : (SceneGate.parse t).ok = true) : ∃ os, SimpleLine (ws ++ [v]) os := by
  obtain ⟨_, _, _, _, hreads, hs, hg, hwords, hend⟩ := h.exists_reading hne hstart hok
  exact hwords ▸ hreads.simpleLine hs hg hend

end OneLine

end SceneGate
