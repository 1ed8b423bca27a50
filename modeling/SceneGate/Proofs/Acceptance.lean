/-
What passes the gate. A text that is let through is a program that imports the
renderer's module, has a scene with the method that is called, and has no stray
prose. Repair judges by the gate: it lets through what the gate lets through,
what it quotes has passed the gate, and what it rejects is rejected for the
reason that the gate gives for the text as it was. So every program that
generating ends with has passed.
-/
import SceneGate.Generate.Loop

namespace SceneGate

/-! ## The gate -/

/-- A text that is a scene program without stray prose, told by its tree. -/
structure Accepted (v : Vocabulary) (t : Text) : Prop where
  isProgram : (parse t).ok = true
  imports : ∃ i ∈ (parse t).tree.imports, Import.brings v.importModule i = true
  entry : ∃ cls ∈ Scene.scenes v (parse t).tree.classes, Scene.hasEntry v cls = true
  noProse : ∀ l ∈ (parse t).tree.findAll .nameRef, l.tree.bareText.hasProse = false

theorem Fault.first?_eq_none {fs : List Fault} : Fault.first? fs = none ↔ fs = [] := by
  cases fs with
  | nil => simp [first?]
  | cons f fs =>
    simp only [first?, reduceCtorEq, iff_false]
    split
    · split <;> simp
    · simp

theorem StrayProse.keepFirst_eq_nil {entries : List (Text × Nat)} :
    keepFirst entries = [] ↔ entries = [] := by
  cases entries with
  | nil => simp [keepFirst]
  | cons e es => simp [keepFirst]

theorem StrayProse.issues_eq_nil {p : Parse} :
    issues p = [] ↔ ∀ l ∈ p.tree.findAll .nameRef, l.tree.bareText.hasProse = false := by
  simp [issues, occurrences, keepFirst_eq_nil, List.filter_eq_nil_iff]

theorem Scene.inspect_eq_nil {v : Vocabulary} {p : Parse} :
    inspect v p = [] ↔ p.faults = [] ∧ issuesOf v p.tree = [] := by
  unfold inspect Parse.firstFault?
  cases h : Fault.first? p.faults with
  | none => simp [Fault.first?_eq_none.1 h]
  | some f =>
    have hne : p.faults ≠ [] := fun he => by rw [Fault.first?_eq_none.2 he] at h; cases h
    simp [hne]

theorem Scene.issuesOf_eq_nil {v : Vocabulary} {root : Tree} :
    issuesOf v root = [] ↔
      (∃ i ∈ root.imports, Import.brings v.importModule i = true) ∧
        ∃ cls ∈ scenes v root.classes, hasEntry v cls = true := by
  by_cases himports : root.imports.any (Import.brings v.importModule) = true
  · cases hscenes : scenes v root.classes with
    | nil => simp [issuesOf, hscenes]
    | cons cls rest =>
      simp only [List.any_eq_true] at himports
      simp only [issuesOf, hscenes, List.any_eq_true.2 himports, himports]
      cases hentry : hasEntry v cls <;> simp [hentry]
  · have hnone : ¬ ∃ i ∈ root.imports, Import.brings v.importModule i = true := by
      simpa [List.any_eq_true] using himports
    simp [issuesOf, himports, hnone]

/-- The checks of the gate ask what `Accepted` says. -/
theorem accepted_iff {v : Vocabulary} {t : Text} :
    Accepted v t ↔ Scene.check v t = [] ∧ StrayProse.issues (parse t) = [] := by
  rw [Scene.check, Scene.inspect_eq_nil, Scene.issuesOf_eq_nil, StrayProse.issues_eq_nil]
  constructor
  · rintro ⟨hok, himports, hentry, hprose⟩
    exact ⟨⟨by simpa [Parse.ok] using hok, himports, hentry⟩, hprose⟩
  · rintro ⟨⟨hok, himports, hentry⟩, hprose⟩
    exact ⟨by simpa [Parse.ok] using hok, himports, hentry, hprose⟩

section Gate

variable {v : Vocabulary} {t : Text} {p : SceneProgram v} {r : Findings}

/-- What the gate holds against a text. Prose is looked for only in scene
programs. -/
def objections (v : Vocabulary) (t : Text) : Findings :=
  if Scene.inspect v (parse t) = [] then StrayProse.issues (parse t) else Scene.inspect v (parse t)

theorem objections_eq_nil : objections v t = [] ↔
    Scene.inspect v (parse t) = [] ∧ StrayProse.issues (parse t) = [] := by
  unfold objections
  split
  · rename_i h; simp [h]
  · rename_i h; simp [h]

/-- The gate lets the text of a scene program through. -/
theorem certify_text (p : SceneProgram v) : certify v p.text = .ok p := by
  have hscene : Scene.inspect v (parse p.text) = [] := p.isScene
  simp only [certify, hscene, p.noProse, dite_true]

theorem certify_of_objections (h : objections v t ≠ []) :
    certify v t = .error (objections v t) := by
  unfold objections at h ⊢
  unfold certify
  by_cases hscene : Scene.inspect v (parse t) = []
  · rw [if_pos hscene] at h ⊢
    simp only [hscene, h, dite_true, dite_false]
  · rw [if_neg hscene]
    simp only [hscene, dite_false]

theorem SceneProgram.objections_text (p : SceneProgram v) : objections v p.text = [] :=
  objections_eq_nil.2 ⟨p.isScene, p.noProse⟩

/-- What the gate lets through is the text itself. -/
theorem certify_eq_ok : certify v t = .ok p ↔ p.text = t := by
  constructor
  · intro h
    by_cases ho : objections v t = []
    · obtain ⟨hscene, hprose⟩ := objections_eq_nil.1 ho
      have hok := certify_text (v := v) ⟨t, hscene, hprose⟩
      rw [hok] at h
      cases h
      rfl
    · rw [certify_of_objections ho] at h
      cases h
  · rintro rfl
    exact certify_text p

/-- The gate rejects a text for what it holds against it. -/
theorem certify_eq_error : certify v t = .error r ↔ r = objections v t ∧ r ≠ [] := by
  constructor
  · intro h
    by_cases ho : objections v t = []
    · obtain ⟨hscene, hprose⟩ := objections_eq_nil.1 ho
      rw [certify_text (v := v) ⟨t, hscene, hprose⟩] at h
      cases h
    · rw [certify_of_objections ho] at h
      cases h
      exact ⟨rfl, ho⟩
  · rintro ⟨rfl, hr⟩
    exact certify_of_objections hr

theorem SceneProgram.accepted (p : SceneProgram v) : Accepted v p.text :=
  accepted_iff.2 ⟨p.isScene, p.noProse⟩

/-! ## Repair -/

/-- Everything that repair can do. -/
inductive Repairs (v : Vocabulary) (t : Text) : Repair v → Prop
  | valid (program : SceneProgram v) : certify v t = .ok program → Repairs v t (.valid program)
  | repaired (program : SceneProgram v) (findings : Findings) : certify v t = .error findings →
      certify v (QuoteWords.quote (StrayProse.names (parse t)) t) = .ok program →
      Repairs v t (.repaired program)
  | failed (findings : Findings) : certify v t = .error findings → Repairs v t (.failed findings)

theorem repairs_repair (v : Vocabulary) (t : Text) : Repairs v t (repair v t) := by
  by_cases hpasses : Scene.inspect v (parse t) = [] ∧ StrayProse.issues (parse t) = []
  · have hvalid : repair v t = .valid ⟨t, hpasses.1, hpasses.2⟩ := dif_pos hpasses
    rw [hvalid]
    exact .valid _ (certify_eq_ok.2 rfl)
  · have herror : certify v t = .error (objections v t) :=
      certify_of_objections fun ho => hpasses (objections_eq_nil.1 ho)
    have hfold : (if Scene.inspect v (parse t) = [] then StrayProse.issues (parse t)
        else Scene.inspect v (parse t)) = objections v t := rfl
    simp only [repair, dif_neg hpasses, hfold]
    split
    · exact .failed _ herror
    · split
      · rename_i hquoted
        exact .repaired _ _ herror hquoted
      · exact .failed _ herror

theorem repair_eq_valid : repair v t = .valid p ↔ certify v t = .ok p := by
  constructor
  · intro h
    have hr := repairs_repair v t
    rw [h] at hr
    cases hr with
    | valid _ hok => exact hok
  · intro hok
    have hr := repairs_repair v t
    generalize repair v t = outcome at hr
    cases hr with
    | valid _ hok' => rw [hok] at hok'; cases hok'; rfl
    | repaired _ _ herror | failed _ herror => rw [hok] at herror; cases herror

/-- What was repaired has passed the gate, as another text than the one given. -/
theorem repair_eq_repaired (h : repair v t = .repaired p) :
    p.text ≠ t ∧ certify v p.text = .ok p ∧
      p.text = QuoteWords.quote (StrayProse.names (parse t)) t := by
  have hr := repairs_repair v t
  rw [h] at hr
  cases hr with
  | repaired _ _ herror hok =>
    refine ⟨?_, certify_text p, certify_eq_ok.1 hok⟩
    rintro rfl
    rw [certify_text p] at herror
    cases herror

theorem repair_eq_failed (h : repair v t = .failed r) : r ≠ [] ∧ certify v t = .error r := by
  have hr := repairs_repair v t
  rw [h] at hr
  cases hr with
  | failed _ herror => exact ⟨(certify_eq_error.1 herror).2, herror⟩

/-- What came of a text, whatever was done to it, comes of itself. -/
theorem repair_text (p : SceneProgram v) : repair v p.text = .valid p :=
  repair_eq_valid.2 (certify_text p)

end Gate

/-! ## Generating -/

namespace Generation

variable {c : Config} {result : Generated c.vocabulary} {log : List Attempt} {n : Nat}

/-- What is accepted in a review is what repair made of the text after the
rules. -/
theorem review_ok {answer : Response} {attempt : Attempt}
    (h : review c n answer = (attempt, .ok result)) :
    attempt.number = n ∧ attempt.rejection = none ∧
      (repair c.vocabulary attempt.fixed).program? = some result.program := by
  unfold review at h
  dsimp only at h
  generalize (RuleSet.standard c).applyTraced (Response.program answer.text) = ruled at h
  obtain ⟨fixed, fired⟩ := ruled
  dsimp only at h
  cases hrepair : repair c.vocabulary fixed with
  | valid program | repaired program =>
    rw [hrepair] at h
    simp only [Prod.mk.injEq, Except.ok.injEq] at h
    obtain ⟨rfl, rfl⟩ := h
    exact ⟨rfl, rfl, by rw [hrepair]; rfl⟩
  | failed findings =>
    rw [hrepair] at h
    simp only [Prod.mk.injEq, reduceCtorEq, and_false] at h

/-- However often the generator is asked and whatever it answers: a run that ends
well ends with what repair made of the text of its last attempt. -/
theorem drive_eq_success {σ : Type} {generator : Generator σ} {base prompt : Text}
    {retries number : Nat} {log₀ : List Attempt} {state : σ}
    (h : (drive c generator base retries number prompt log₀ state).1 = .success n result log) :
    ∃ attempt, log.getLast? = some attempt ∧ attempt.number = n ∧ attempt.rejection = none ∧
      (repair c.vocabulary attempt.fixed).program? = some result.program := by
  induction retries generalizing number prompt log₀ state with
  | zero =>
    unfold drive at h
    split at h
    · cases h
    · dsimp only at h
      split at h
      · rename_i hreview
        cases h
        obtain ⟨hn, hr, hp⟩ := review_ok (Prod.ext rfl hreview)
        exact ⟨_, List.getLast?_concat .., hn, hr, hp⟩
      · cases h
      · rename_i hretries; cases hretries
  | succ retries ih =>
    unfold drive at h
    split at h
    · cases h
    · dsimp only at h
      split at h
      · rename_i hreview
        cases h
        obtain ⟨hn, hr, hp⟩ := review_ok (Prod.ext rfl hreview)
        exact ⟨_, List.getLast?_concat .., hn, hr, hp⟩
      · rename_i hretries; cases hretries
      · rename_i hretries
        cases hretries
        exact ih h

end Generation

/-- The gate is the one judge. Repair finds a text valid exactly if the gate lets it
through, unchanged; what it repaired is another text, which the gate lets
through; what it rejects, it rejects for the reasons the gate gives for the text as
it was, and there are some. A program that was let through comes of itself, and
so does the program of every run that ends well, whatever the generator does. -/
theorem repair_judges_by_gate (v : Vocabulary) (t : Text) :
    (∀ p, repair v t = .valid p ↔ certify v t = .ok p) ∧
      (∀ p, certify v t = .ok p → p.text = t ∧ Accepted v t) ∧
      (∀ p, repair v t = .repaired p →
        p.text ≠ t ∧ certify v p.text = .ok p ∧ Accepted v p.text) ∧
      (∀ r, repair v t = .failed r → r ≠ [] ∧ certify v t = .error r) ∧
      (∀ p, (repair v t).program? = some p → repair v p.text = .valid p) ∧
      ∀ {σ : Type} (generator : Generator σ) (c : Config) (a b : Text) (state : σ) n result log,
        (Generation.run c generator a b state).1 = .success n result log ∨
            (Generation.improve c generator a b state).1 = .success n result log →
          certify c.vocabulary result.program.text = .ok result.program ∧
            ∃ attempt, log.getLast? = some attempt ∧ attempt.number = n ∧
              (repair c.vocabulary attempt.fixed).program? = some result.program := by
  refine ⟨fun p => repair_eq_valid, ?_, ?_, fun r => repair_eq_failed, fun p _ => repair_text p, ?_⟩
  · intro p h
    obtain rfl := certify_eq_ok.1 h
    exact ⟨rfl, p.accepted⟩
  · intro p h
    obtain ⟨hne, hok, -⟩ := repair_eq_repaired h
    exact ⟨hne, hok, p.accepted⟩
  · intro σ generator c a b state n result log h
    refine ⟨certify_text _, ?_⟩
    rcases h with h | h
    · obtain ⟨attempt, hlast, hn, -, hp⟩ := Generation.drive_eq_success h
      exact ⟨attempt, hlast, hn, hp⟩
    · obtain ⟨attempt, hlast, hn, -, hp⟩ := Generation.drive_eq_success h
      exact ⟨attempt, hlast, hn, hp⟩

end SceneGate
