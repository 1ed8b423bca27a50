/-
Reading is determined. More fuel never changes an answer (`Form.read_mono`), and
what the relation `Form.Reads` allows, the reader does with enough fuel
(`Form.Reads.exists_read`); so a form reads in one way only, and a reading can
be put together from the rules of the relation.
-/
import SceneGate.Proofs.Reading

namespace SceneGate

variable {env : Surroundings} {f : Form} {p : Phrase} {s s' u : Progress} {a b : Bool}
  {n m : Nat}

/-- More fuel never changes an answer. -/
theorem Form.read_mono {r : Bool × Progress} (hle : n ≤ m) (h : f.read env n s = some r) :
    f.read env m s = some r := by
  induction n generalizing m f s r with
  | zero => simp [read] at h
  | succ n ih =>
    obtain ⟨m, rfl⟩ : ∃ m', m = m' + 1 := ⟨m - 1, by omega⟩
    have ih {f : Form} {s r} : f.read env n s = some r → f.read env m s = some r := ih (by omega)
    cases f with
    | answer | next | nextTwo | take | complain | complainOfToken => exact h
    | seq first second =>
      simp only [read] at h ⊢
      split at h
      · rename_i h₁; rw [ih h₁]; exact ih h
      · cases h
    | cond test yes no =>
      simp only [read] at h ⊢
      split at h
      · rename_i h₁; rw [ih h₁]; exact ih h
      · rename_i h₁; rw [ih h₁]; exact ih h
      · cases h
    | loop test body =>
      simp only [read] at h ⊢
      split at h
      · rename_i h₁
        split at h
        · rename_i h₂; simp only [ih h₁, ih h₂]; exact ih h
        · cases h
      · rename_i h₁; rw [ih h₁]; exact h
      · cases h
    | call p => exact ih h
    | node kind body | mark body | wrap kind body | enclosed bracket body =>
      simp only [read] at h ⊢
      split at h
      · rename_i h₁; rw [ih h₁]; exact h
      · cases h

/-- What the relation allows, the reader does with enough fuel. -/
theorem Form.Reads.exists_read (h : Form.Reads env (Phrase.Reads env) f s b s') :
    ∃ n, f.read env n s = some (b, s') := by
  induction h with
  | answer | next | nextTwo | take | complain | complainOfToken => exact ⟨1, rfl⟩
  | seq _ _ ih₁ ih₂ | condYes _ _ ih₁ ih₂ | condNo _ _ ih₁ ih₂ =>
    obtain ⟨n₁, h₁⟩ := ih₁
    obtain ⟨n₂, h₂⟩ := ih₂
    refine ⟨max n₁ n₂ + 1, ?_⟩
    simp only [read, read_mono (Nat.le_max_left n₁ n₂) h₁]
    exact read_mono (Nat.le_max_right n₁ n₂) h₂
  | loopEnd _ ih =>
    obtain ⟨n, h⟩ := ih
    exact ⟨n + 1, by simp only [read, h]⟩
  | loopAgain _ _ _ ih₁ ih₂ ih₃ =>
    obtain ⟨n₁, h₁⟩ := ih₁
    obtain ⟨n₂, h₂⟩ := ih₂
    obtain ⟨n₃, h₃⟩ := ih₃
    refine ⟨max n₁ (max n₂ n₃) + 1, ?_⟩
    simp only [read, read_mono (m := max n₁ (max n₂ n₃)) (by omega) h₁,
      read_mono (m := max n₁ (max n₂ n₃)) (by omega) h₂]
    exact read_mono (by omega) h₃
  | call h =>
    obtain ⟨n, h⟩ := h
    exact ⟨n + 1, h⟩
  | node _ ih | mark _ ih =>
    obtain ⟨n, h⟩ := ih
    rw [Progress.inside] at h
    exact ⟨n + 1, by simp only [read, h]; rfl⟩
  | wrap _ ih | enclosed _ ih =>
    obtain ⟨n, h⟩ := ih
    exact ⟨n + 1, by simp only [read, h]⟩

/-- A phrase reads as its form does. -/
theorem Phrase.reads_iff : Phrase.Reads env p s b s' ↔
    Form.Reads env (Phrase.Reads env) p.form s b s' :=
  ⟨fun ⟨_, h⟩ => .of_read h, fun h => h.exists_read⟩

/-- A form reads in one way only. -/
theorem Form.Reads.unique (h : Form.Reads env (Phrase.Reads env) f s b s')
    (h' : Form.Reads env (Phrase.Reads env) f s a u) : b = a ∧ s' = u := by
  obtain ⟨n, h⟩ := h.exists_read
  obtain ⟨m, h'⟩ := h'.exists_read
  have hmax := Form.read_mono (Nat.le_max_left n m) h
  rw [Form.read_mono (Nat.le_max_right n m) h', Option.some.injEq, Prod.mk.injEq] at hmax
  exact ⟨hmax.1.symm, hmax.2.symm⟩

theorem Phrase.Reads.unique (h : Phrase.Reads env p s b s') (h' : Phrase.Reads env p s a u) :
    b = a ∧ s' = u :=
  (Phrase.reads_iff.1 h).unique (Phrase.reads_iff.1 h')

end SceneGate
