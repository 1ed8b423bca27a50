/-
Generating as a dialogue with the generator. The generator may do what it likes;
what is asked of it, and how often, follows a protocol (`Protocol`): the first
prompt is the base, each later one is the base with the reason why the program
before was rejected, a failure ends the dialogue, and so does an accepted program
or the last attempt that is allowed.

`Dialogue` says what can be exchanged from some attempt on, a rule for each way in
which an attempt can end. Everything else follows from it by induction.
-/
import SceneGate.Proofs.Acceptance

namespace SceneGate

/-- One call of a generator: the prompt and the answer. -/
structure Exchange where
  prompt : Text
  answer : Except GenerationError Response

/-- The generator, with a record of what was exchanged with it. -/
def Generator.recorded {σ : Type} (g : Generator σ) : Generator (List Exchange × σ) :=
  fun prompt (made, state) =>
    let (answer, state) := g prompt state
    (answer, made ++ [⟨prompt, answer⟩], state)

namespace Outcome

variable {v : Vocabulary}

/-- The attempts that are told of. -/
def log? : Outcome v → Option (List Attempt)
  | .success _ _ log | .exhausted _ _ log => some log
  | .generationFailed _ _ => none

/-- Whether the attempts were used up. -/
def isExhausted : Outcome v → Bool
  | .exhausted _ _ _ => true
  | .success _ _ _ | .generationFailed _ _ => false

/-- The outcome when other attempts were made before. -/
def behind (earlier : List Attempt) : Outcome v → Outcome v
  | .success n result log => .success n result (earlier ++ log)
  | .generationFailed n error => .generationFailed n error
  | .exhausted n findings log => .exhausted n findings (earlier ++ log)

@[simp] theorem behind_nil (o : Outcome v) : o.behind [] = o := by cases o <;> rfl

@[simp] theorem behind_behind (a b : List Attempt) (o : Outcome v) :
    (o.behind b).behind a = o.behind (a ++ b) := by
  cases o <;> simp [behind]

@[simp] theorem attempts_behind (a : List Attempt) (o : Outcome v) :
    (o.behind a).attempts = o.attempts := by
  cases o <;> rfl

@[simp] theorem log?_behind (a : List Attempt) (o : Outcome v) :
    (o.behind a).log? = o.log?.map (a ++ ·) := by
  cases o <;> rfl

@[simp] theorem isSuccess_behind (a : List Attempt) (o : Outcome v) :
    (o.behind a).isSuccess = o.isSuccess := by
  cases o <;> rfl

@[simp] theorem isExhausted_behind (a : List Attempt) (o : Outcome v) :
    (o.behind a).isExhausted = o.isExhausted := by
  cases o <;> rfl

section Behind

variable {a log : List Attempt} {o : Outcome v} {n : Nat} {e : GenerationError}
  {result : Generated v} {r : Findings}

theorem behind_eq_failed : o.behind a = .generationFailed n e ↔ o = .generationFailed n e := by
  cases o <;> simp [behind]

theorem behind_eq_success :
    o.behind a = .success n result log ↔
      ∃ later, o = .success n result later ∧ log = a ++ later := by
  cases o <;> simp [behind, eq_comm, and_assoc]

theorem behind_eq_exhausted :
    o.behind a = .exhausted n r log ↔ ∃ later, o = .exhausted n r later ∧ log = a ++ later := by
  cases o <;> simp [behind, eq_comm, and_assoc]

end Behind

end Outcome

namespace Generation

/-- What may be exchanged with a generator from the attempt of a number on, when
`retries` more may follow it, and how it may end. The outcome tells of these
attempts only. -/
inductive Dialogue (c : Config) (base : Text) : (retries number : Nat) → (prompt : Text) →
    List Exchange → Outcome c.vocabulary → Prop
  | failed {retries number : Nat} {prompt : Text} (error : GenerationError) :
      Dialogue c base retries number prompt [⟨prompt, .error error⟩]
        (.generationFailed number error)
  | accepted {retries number : Nat} {prompt : Text} {answer : Response} {attempt : Attempt}
      {result : Generated c.vocabulary} : review c number answer = (attempt, .ok result) →
      Dialogue c base retries number prompt [⟨prompt, .ok answer⟩]
        (.success number result [attempt])
  | exhausted {number : Nat} {prompt : Text} {answer : Response} {attempt : Attempt}
      {r : Findings} : review c number answer = (attempt, .error r) →
      Dialogue c base 0 number prompt [⟨prompt, .ok answer⟩] (.exhausted number r [attempt])
  | again {retries number : Nat} {prompt : Text} {answer : Response} {attempt : Attempt}
      {r : Findings} {exchanges : List Exchange} {outcome : Outcome c.vocabulary} :
      review c number answer = (attempt, .error r) →
      Dialogue c base retries (number + 1) (Prompt.retry r.diagnostic base) exchanges outcome →
      Dialogue c base (retries + 1) number prompt (⟨prompt, .ok answer⟩ :: exchanges)
        (outcome.behind [attempt])

variable {c : Config} {base prompt : Text} {retries number n : Nat} {answer : Response}
  {attempt : Attempt} {result : Generated c.vocabulary} {r : Findings}
  {exchanges : List Exchange} {outcome : Outcome c.vocabulary}

/-- The attempt for the log has the number that is told. -/
theorem number_review (c : Config) (n : Nat) (answer : Response) :
    (review c n answer).1.number = n := by
  unfold review
  dsimp only
  split <;> rfl

/-- An accepted program is the text after the rules, unless that was repaired. -/
theorem review_accepted (h : review c n answer = (attempt, .ok result)) :
    attempt.number = n ∧ attempt.rejection = none ∧
      (result.program.text = attempt.fixed ↔ result.repaired = false) := by
  unfold review at h
  dsimp only at h
  generalize (RuleSet.standard c).applyTraced (Response.program answer.text) = ruled at h
  obtain ⟨fixed, fired⟩ := ruled
  dsimp only at h
  cases hrepair : repair c.vocabulary fixed with
  | valid program =>
    rw [hrepair] at h
    simp only [Prod.mk.injEq, Except.ok.injEq] at h
    obtain ⟨rfl, rfl⟩ := h
    exact ⟨rfl, rfl, by simp [certify_eq_ok.1 (repair_eq_valid.1 hrepair)]⟩
  | repaired program =>
    rw [hrepair] at h
    simp only [Prod.mk.injEq, Except.ok.injEq] at h
    obtain ⟨rfl, rfl⟩ := h
    exact ⟨rfl, rfl, by simp [(repair_eq_repaired hrepair).1]⟩
  | failed findings =>
    rw [hrepair] at h
    simp only [Prod.mk.injEq, reduceCtorEq, and_false] at h

/-- A rejected program is rejected for something. -/
theorem review_rejected (h : review c n answer = (attempt, .error r)) :
    attempt.number = n ∧ attempt.rejection = some r ∧ r ≠ [] := by
  unfold review at h
  dsimp only at h
  generalize (RuleSet.standard c).applyTraced (Response.program answer.text) = ruled at h
  obtain ⟨fixed, fired⟩ := ruled
  dsimp only at h
  cases hrepair : repair c.vocabulary fixed with
  | valid program | repaired program =>
    rw [hrepair] at h
    simp only [Prod.mk.injEq, reduceCtorEq, and_false] at h
  | failed findings =>
    rw [hrepair] at h
    simp only [Prod.mk.injEq, Except.error.injEq] at h
    obtain ⟨rfl, rfl⟩ := h
    exact ⟨rfl, rfl, (repair_eq_failed hrepair).1⟩

section Step

variable {σ : Type} {g : Generator σ} {log : List Attempt} {state state' : σ}
  {error : GenerationError}

theorem recorded_eq {made : List Exchange} {a : Except GenerationError Response}
    (h : g prompt state = (a, state')) :
    g.recorded prompt (made, state) = (a, made ++ [⟨prompt, a⟩], state') := by
  simp [Generator.recorded, h]

theorem drive_failed (h : g prompt state = (.error error, state')) :
    drive c g base retries number prompt log state = (.generationFailed number error, state') := by
  unfold drive
  simp [h]

theorem drive_accepted (h : g prompt state = (.ok answer, state'))
    (hr : review c number answer = (attempt, .ok result)) :
    drive c g base retries number prompt log state =
      (.success number result (log ++ [attempt]), state') := by
  unfold drive
  simp [h, hr]

theorem drive_exhausted (h : g prompt state = (.ok answer, state'))
    (hr : review c number answer = (attempt, .error r)) :
    drive c g base 0 number prompt log state =
      (.exhausted number r (log ++ [attempt]), state') := by
  unfold drive
  simp [h, hr]

theorem drive_again (h : g prompt state = (.ok answer, state'))
    (hr : review c number answer = (attempt, .error r)) :
    drive c g base (retries + 1) number prompt log state =
      drive c g base retries (number + 1) (Prompt.retry r.diagnostic base) (log ++ [attempt])
        state' := by
  conv => lhs; unfold drive
  simp [h, hr]

end Step

/-- What is exchanged with a generator is a dialogue, and recording it changes
nothing. -/
theorem drive_dialogue {σ : Type} (c : Config) (g : Generator σ) (base : Text)
    (retries number : Nat) (prompt : Text) (log : List Attempt) (made : List Exchange)
    (state : σ) :
    ∃ exchanges outcome state', Dialogue c base retries number prompt exchanges outcome ∧
      drive c g base retries number prompt log state = (outcome.behind log, state') ∧
      drive c g.recorded base retries number prompt log (made, state) =
        (outcome.behind log, made ++ exchanges, state') := by
  induction retries generalizing number prompt log made state with
  | zero =>
    rcases hg : g prompt state with ⟨error | answer, state'⟩
    · exact ⟨_, _, state', .failed error, drive_failed hg, drive_failed (recorded_eq hg)⟩
    · rcases hr : review c number answer with ⟨attempt, r | result⟩
      · exact ⟨_, _, state', .exhausted hr, drive_exhausted hg hr,
          drive_exhausted (recorded_eq hg) hr⟩
      · exact ⟨_, _, state', .accepted hr, drive_accepted hg hr,
          drive_accepted (recorded_eq hg) hr⟩
  | succ retries ih =>
    rcases hg : g prompt state with ⟨error | answer, state'⟩
    · exact ⟨_, _, state', .failed error, drive_failed hg, drive_failed (recorded_eq hg)⟩
    · rcases hr : review c number answer with ⟨attempt, r | result⟩
      · obtain ⟨exchanges, outcome, state'', hd, hplain, hrecorded⟩ :=
          ih (number + 1) (Prompt.retry r.diagnostic base) (log ++ [attempt])
            (made ++ [⟨prompt, .ok answer⟩]) state'
        refine ⟨_, _, state'', .again hr hd, ?_, ?_⟩
        · rw [drive_again hg hr, hplain, Outcome.behind_behind]
        · rw [drive_again (recorded_eq hg) hr, hrecorded, Outcome.behind_behind]
          simp
      · exact ⟨_, _, state', .accepted hr, drive_accepted hg hr,
          drive_accepted (recorded_eq hg) hr⟩

namespace Dialogue

/-- Of the attempts that are allowed, at least one is made. -/
theorem length (h : Dialogue c base retries number prompt exchanges outcome) :
    1 ≤ exchanges.length ∧ exchanges.length ≤ retries + 1 ∧
      outcome.attempts + 1 = number + exchanges.length := by
  induction h with
  | failed | accepted | exhausted => simp [Outcome.attempts]
  | again _ _ ih =>
    obtain ⟨hlow, hhigh, hattempts⟩ := ih
    simp only [List.length_cons, Outcome.attempts_behind]
    omega

theorem head (h : Dialogue c base retries number prompt exchanges outcome) :
    exchanges.head?.map Exchange.prompt = some prompt := by
  cases h <;> rfl

/-- An exchange that another one follows was answered, with a program that was
rejected, and the next prompt says why. -/
theorem next (h : Dialogue c base retries number prompt exchanges outcome) {k : Nat}
    {x y : Exchange} (hx : exchanges[k]? = some x) (hy : exchanges[k + 1]? = some y) :
    ∃ answer r, x.answer = .ok answer ∧
      (review c (number + k) answer).1.rejection = some r ∧ r ≠ [] ∧
      y.prompt = Prompt.retry r.diagnostic base := by
  induction h generalizing k with
  | failed | accepted | exhausted => simp at hy
  | @again retries number prompt answer attempt r exchanges outcome hr hd ih =>
    cases k with
    | zero =>
      obtain rfl : (⟨prompt, .ok answer⟩ : Exchange) = x := by simpa using hx
      have hprompt := hd.head
      have hhead : exchanges.head? = some y := by simpa [List.head?_eq_getElem?] using hy
      rw [hhead] at hprompt
      obtain ⟨-, hrejection, hne⟩ := review_rejected hr
      refine ⟨answer, r, rfl, ?_, hne, by simpa using hprompt⟩
      rwa [Nat.add_zero, hr]
    | succ k =>
      simp only [List.getElem?_cons_succ] at hx hy
      rw [show number + (k + 1) = number + 1 + k by omega]
      exact ih hx hy

/-- Where the generator fails, the dialogue ends. -/
theorem failure (h : Dialogue c base retries number prompt exchanges outcome) {k : Nat}
    {x : Exchange} {e : GenerationError} (hx : exchanges[k]? = some x) (he : x.answer = .error e) :
    k + 1 = exchanges.length ∧ outcome = .generationFailed (number + k) e := by
  induction h generalizing k with
  | failed error =>
    cases k with
    | zero =>
      obtain rfl := Option.some.inj hx
      cases he
      exact ⟨rfl, rfl⟩
    | succ k => simp at hx
  | accepted | exhausted =>
    cases k with
    | zero => obtain rfl := Option.some.inj hx; cases he
    | succ k => simp at hx
  | again hr hd ih =>
    cases k with
    | zero => obtain rfl := Option.some.inj hx; cases he
    | succ k =>
      obtain ⟨hlength, houtcome⟩ := ih (by simpa using hx)
      rw [houtcome]
      simp only [List.length_cons, Outcome.behind, Outcome.generationFailed.injEq, and_true]
      omega

theorem failed_last (h : Dialogue c base retries number prompt exchanges outcome)
    {e : GenerationError} (ho : outcome = .generationFailed n e) :
    ∃ x, exchanges.getLast? = some x ∧ x.answer = .error e := by
  induction h with
  | failed error => cases ho; exact ⟨_, rfl, rfl⟩
  | accepted | exhausted => cases ho
  | again hr hd ih =>
    obtain ⟨x, hlast, he⟩ := ih (Outcome.behind_eq_failed.1 ho)
    exact ⟨x, by simp [List.getLast?_cons, hlast], he⟩

/-- The attempts that are told of are what became of the answers. -/
theorem logged (h : Dialogue c base retries number prompt exchanges outcome) {log : List Attempt}
    (hlog : outcome.log? = some log) :
    log.length = exchanges.length ∧ ∀ k a, log[k]? = some a →
      ∃ x answer, exchanges[k]? = some x ∧ x.answer = .ok answer ∧
        (review c (number + k) answer).1 = a := by
  induction h generalizing log with
  | failed => cases hlog
  | accepted hr | exhausted hr =>
    obtain rfl := Option.some.inj hlog
    refine ⟨rfl, fun k a ha => ?_⟩
    cases k with
    | zero => exact ⟨_, _, rfl, rfl, by rw [Nat.add_zero, hr]; simpa using ha⟩
    | succ k => simp at ha
  | again hr hd ih =>
    rw [Outcome.log?_behind, Option.map_eq_some_iff] at hlog
    obtain ⟨later, hlater, rfl⟩ := hlog
    obtain ⟨hlength, hentries⟩ := ih hlater
    refine ⟨by simp [hlength], fun k a ha => ?_⟩
    cases k with
    | zero => exact ⟨_, _, rfl, rfl, by rw [Nat.add_zero, hr]; simpa using ha⟩
    | succ k =>
      obtain ⟨x, answer, hx, hanswer, hreview⟩ := hentries k a (by simpa using ha)
      exact ⟨x, answer, by simpa using hx, hanswer, by rw [← hreview]; congr 2; omega⟩

/-- A dialogue that ends well ends with an accepted program. -/
theorem success_last (h : Dialogue c base retries number prompt exchanges outcome)
    {log : List Attempt} (ho : outcome = .success n result log) :
    ∃ last, log.getLast? = some last ∧ last.rejection = none ∧
      (result.program.text = last.fixed ↔ result.repaired = false) := by
  induction h generalizing log with
  | accepted hr =>
    cases ho
    exact ⟨_, rfl, (review_accepted hr).2⟩
  | failed | exhausted => cases ho
  | again hr hd ih =>
    obtain ⟨later, hlater, rfl⟩ := Outcome.behind_eq_success.1 ho
    obtain ⟨last, hlast, hrest⟩ := ih hlater
    exact ⟨last, by simp [List.getLast?_cons, hlast], hrest⟩

/-- A dialogue that ends without a program has used up its attempts, and the last
one says why. -/
theorem exhausted_last (h : Dialogue c base retries number prompt exchanges outcome)
    {log : List Attempt} (ho : outcome = .exhausted n r log) :
    exchanges.length = retries + 1 ∧ r ≠ [] ∧
      ∃ last, log.getLast? = some last ∧ last.rejection = some r := by
  induction h generalizing log with
  | exhausted hr =>
    cases ho
    obtain ⟨-, hrejection, hne⟩ := review_rejected hr
    exact ⟨rfl, hne, _, rfl, hrejection⟩
  | failed | accepted => cases ho
  | again hr hd ih =>
    obtain ⟨later, hlater, rfl⟩ := Outcome.behind_eq_exhausted.1 ho
    obtain ⟨hlength, hne, last, hlast, hrejection⟩ := ih hlater
    exact ⟨by simp [hlength], hne, last, by simp [List.getLast?_cons, hlast], hrejection⟩

/-- Every attempt before the last was rejected. -/
theorem rejected (h : Dialogue c base retries number prompt exchanges outcome)
    {log : List Attempt} (hlog : outcome.log? = some log) {k : Nat} {a : Attempt}
    (ha : log[k]? = some a) (hk : k + 1 < log.length) : ∃ r, a.rejection = some r ∧ r ≠ [] := by
  obtain ⟨hlength, hentries⟩ := h.logged hlog
  obtain ⟨x, answer, hx, hanswer, hreview⟩ := hentries k a ha
  obtain ⟨y, hy⟩ : ∃ y, exchanges[k + 1]? = some y := ⟨_, List.getElem?_eq_getElem (hlength ▸ hk)⟩
  obtain ⟨answer', r, hanswer', hrejection, hne, -⟩ := h.next hx hy
  rw [hanswer] at hanswer'
  cases hanswer'
  rw [hreview] at hrejection
  exact ⟨r, hrejection, hne⟩

theorem isSuccess_iff (h : Dialogue c base retries number prompt exchanges outcome)
    {log : List Attempt} (hlog : outcome.log? = some log) :
    outcome.isSuccess = true ↔ ∃ last, log.getLast? = some last ∧ last.rejection = none := by
  cases outcome with
  | success n result log' =>
    obtain rfl := Option.some.inj hlog
    obtain ⟨last, hlast, hnone, -⟩ := h.success_last rfl
    exact ⟨fun _ => ⟨last, hlast, hnone⟩, fun _ => rfl⟩
  | generationFailed => cases hlog
  | exhausted n r log' =>
    obtain rfl := Option.some.inj hlog
    obtain ⟨-, -, last, hlast, hsome⟩ := h.exhausted_last rfl
    refine ⟨fun hs => (by cases hs), fun ⟨last', hlast', hnone⟩ => ?_⟩
    rw [hlast] at hlast'
    cases hlast'
    rw [hsome] at hnone
    cases hnone

theorem isExhausted_iff (h : Dialogue c base retries number prompt exchanges outcome)
    {log : List Attempt} (hlog : outcome.log? = some log) :
    outcome.isExhausted = true ↔
      exchanges.length = retries + 1 ∧ ∀ a ∈ log, a.rejection ≠ none := by
  cases outcome with
  | success n result log' =>
    obtain rfl := Option.some.inj hlog
    obtain ⟨last, hlast, hnone, -⟩ := h.success_last rfl
    refine ⟨fun he => (by cases he), fun ⟨_, hall⟩ => ?_⟩
    exact absurd hnone (hall _ (List.mem_of_getLast? hlast))
  | generationFailed => cases hlog
  | exhausted n r log' =>
    obtain rfl := Option.some.inj hlog
    obtain ⟨hlength, -, last, hlast, hsome⟩ := h.exhausted_last rfl
    refine ⟨fun _ => ⟨hlength, fun a ha => ?_⟩, fun _ => rfl⟩
    obtain ⟨k, hk, hget⟩ := List.getElem_of_mem ha
    have hget? : log'[k]? = some a := by rw [List.getElem?_eq_getElem hk, hget]
    by_cases hend : k + 1 < log'.length
    · obtain ⟨r', hr', -⟩ := h.rejected hlog hget? hend
      simp [hr']
    · rw [List.getLast?_eq_getElem?, show log'.length - 1 = k by omega, hget?] at hlast
      cases hlast
      simp [hsome]

end Dialogue

/-- What is kept to in a dialogue, whatever the generator does, when at most `limit`
attempts are allowed. -/
structure Protocol (c : Config) (base : Text) (limit : Nat) (exchanges : List Exchange)
    (outcome : Outcome c.vocabulary) : Prop where
  /-- The generator is asked once at least and no more often than allowed. -/
  bounded : 1 ≤ exchanges.length ∧ exchanges.length ≤ limit
  attempts : outcome.attempts = exchanges.length
  first : exchanges.head?.map Exchange.prompt = some base
  /-- A later prompt is the base with the reason why the program before was rejected. -/
  later : ∀ k x y, exchanges[k]? = some x → exchanges[k + 1]? = some y →
    ∃ answer r, x.answer = .ok answer ∧ (review c (k + 1) answer).1.rejection = some r ∧
      y.prompt = Prompt.retry r.diagnostic base
  /-- A failure of the generator ends the dialogue, and nothing else is told as one. -/
  failure : ∀ k x e, exchanges[k]? = some x → x.answer = .error e →
    k + 1 = exchanges.length ∧ outcome = .generationFailed (k + 1) e
  failed : ∀ n e, outcome = .generationFailed n e →
    ∃ x, exchanges.getLast? = some x ∧ x.answer = .error e
  /-- The log has an entry for each answer, and only the last entry may have no
  rejection. -/
  logged : ∀ log, outcome.log? = some log → log.length = exchanges.length ∧
    ∀ k a, log[k]? = some a → a.number = k + 1 ∧
      (∃ x answer, exchanges[k]? = some x ∧ x.answer = .ok answer ∧
        (review c (k + 1) answer).1 = a) ∧
      (k + 1 < log.length → ∃ r, a.rejection = some r ∧ r ≠ [])
  success : ∀ n result log, outcome = .success n result log →
    ∃ last, log.getLast? = some last ∧ last.rejection = none ∧
      (result.program.text = last.fixed ↔ result.repaired = false)
  exhausted : ∀ n r log, outcome = .exhausted n r log → r ≠ [] ∧
    ∃ last, log.getLast? = some last ∧ last.rejection = some r
  isSuccess_iff : ∀ log, outcome.log? = some log →
    (outcome.isSuccess = true ↔ ∃ last, log.getLast? = some last ∧ last.rejection = none)
  isExhausted_iff : ∀ log, outcome.log? = some log →
    (outcome.isExhausted = true ↔
      exchanges.length = limit ∧ ∀ a ∈ log, a.rejection ≠ none)

/-- A dialogue from the first attempt on keeps to the protocol. -/
theorem Dialogue.protocol (h : Dialogue c base retries 1 base exchanges outcome) :
    Protocol c base (retries + 1) exchanges outcome where
  bounded := ⟨h.length.1, h.length.2.1⟩
  attempts := by
    have := h.length.2.2
    omega
  first := h.head
  later k x y hx hy := by
    obtain ⟨answer, r, hanswer, hrejection, -, hprompt⟩ := h.next hx hy
    exact ⟨answer, r, hanswer, by rw [Nat.add_comm k 1]; exact hrejection, hprompt⟩
  failure k x e hx he := by
    obtain ⟨hlength, houtcome⟩ := h.failure hx he
    exact ⟨hlength, by rw [houtcome, Nat.add_comm]⟩
  failed n e := h.failed_last
  logged log hlog := by
    obtain ⟨hlength, hentries⟩ := h.logged hlog
    refine ⟨hlength, fun k a ha => ?_⟩
    obtain ⟨x, answer, hx, hanswer, hreview⟩ := hentries k a ha
    rw [Nat.add_comm 1 k] at hreview
    exact ⟨hreview ▸ number_review .., ⟨x, answer, hx, hanswer, hreview⟩, h.rejected hlog ha⟩
  success n result log := h.success_last
  exhausted n r log ho := (h.exhausted_last ho).2
  isSuccess_iff log := h.isSuccess_iff
  isExhausted_iff log := h.isExhausted_iff

/-- A run keeps to the protocol, whatever the generator does: the base is the prompt
about the problem, and as many attempts are allowed as the configuration says, but
one at least. An improvement does with the prompt for it, in one attempt. -/
theorem run_protocol {σ : Type} (c : Config) (g : Generator σ) (a b : Text) (state : σ) :
    (∃ exchanges outcome state',
      run c g.recorded a b ([], state) = (outcome, exchanges, state') ∧
      run c g a b state = (outcome, state') ∧
      Protocol c (Prompt.base c.vocabulary c.sceneName a b) (max 1 c.maxAttempts) exchanges
        outcome) ∧
    ∃ exchanges outcome state',
      improve c g.recorded a b ([], state) = (outcome, exchanges, state') ∧
      improve c g a b state = (outcome, state') ∧
      Protocol c (Prompt.improvement a b) 1 exchanges outcome := by
  have hlimit : c.maxAttempts - 1 + 1 = max 1 c.maxAttempts := by omega
  obtain ⟨exchanges, outcome, state', hd, hplain, hrecorded⟩ :=
    drive_dialogue c g (Prompt.base c.vocabulary c.sceneName a b) (c.maxAttempts - 1) 1
      (Prompt.base c.vocabulary c.sceneName a b) [] [] state
  obtain ⟨exchanges', outcome', state'', hd', hplain', hrecorded'⟩ :=
    drive_dialogue c g (Prompt.improvement a b) 0 1 (Prompt.improvement a b) [] [] state
  rw [Outcome.behind_nil] at hplain hrecorded hplain' hrecorded'
  exact ⟨⟨exchanges, outcome, state', hrecorded, hplain, hlimit ▸ hd.protocol⟩,
    exchanges', outcome', state'', hrecorded', hplain', hd'.protocol⟩

end Generation

end SceneGate
