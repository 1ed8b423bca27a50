/-
What stands behind a word of a line, as a text of its own. Where no bracket is open, the words
behind a word of a line are laid out as a line again, from the first of them on that is not
trivia (`OneLine.exists_rest`).
-/
import SceneGate.Proofs.Rewording
import SceneGate.Proofs.SimpleLines

namespace SceneGate

namespace Word

/-- How many brackets are open behind words. -/
def depthBehind (d : Nat) (ws : List Word) : Nat :=
  ws.foldl (fun d w => Layout.depthAfter d w.kind) d

variable {w : Word} {ws vs : List Word} {d : Nat}

@[simp] theorem depthBehind_nil : depthBehind d [] = d := rfl

@[simp] theorem depthBehind_cons :
    depthBehind d (w :: ws) = depthBehind (Layout.depthAfter d w.kind) ws := rfl

@[simp] theorem depthBehind_append :
    depthBehind d (ws ++ vs) = depthBehind (depthBehind d ws) vs := List.foldl_append

/-- Words that are no brackets leave the depth. -/
theorem depthBehind_of_not_isBracket (h : ∀ w ∈ ws, w.kind.isBracket = false) (d : Nat) :
    depthBehind d ws = d := by
  induction ws with
  | nil => rfl
  | cons w ws ih =>
    obtain ⟨hw, hws⟩ := List.forall_mem_cons.1 h
    rw [depthBehind_cons, Layout.depthAfter_of_not_isBracket hw, ih hws]

/-- Trivia opens no brackets. -/
theorem depthBehind_unspaced (ws : List Word) (d : Nat) :
    depthBehind d (unspaced ws) = depthBehind d ws := by
  induction ws generalizing d with
  | nil => rfl
  | cons w ws ih =>
    cases hw : w.kind.isTrivia with
    | true =>
      have hskip : unspaced (w :: ws) = unspaced ws := by simp [unspaced, hw]
      rw [hskip, depthBehind_cons, ih,
        Layout.depthAfter_of_not_isBracket (Kind.isBracket_of_isTrivia hw)]
    | false => rw [unspaced_cons hw, depthBehind_cons, depthBehind_cons, ih]

theorem unspaced_of_trivia (h : ∀ w ∈ ws, w.kind.isTrivia = true) : unspaced ws = [] :=
  List.filter_eq_nil_iff.2 fun w hw => by simp [h w hw]

/-- Where a word stands among words with trivia. -/
theorem exists_of_unspaced {us : List Word} (h : unspaced ws = us ++ w :: vs) :
    ∃ xs ys, ws = xs ++ w :: ys ∧ unspaced xs = us ∧ unspaced ys = vs := by
  obtain ⟨xs, zs, rfl, hxs, hzs⟩ := List.filter_eq_append_iff.1 h
  obtain ⟨ps, ys, rfl, hps, -, hys⟩ := List.filter_eq_cons_iff.1 hzs
  have hnone : unspaced ps = [] := unspaced_of_trivia fun u hu => by simpa using hps u hu
  refine ⟨xs ++ ps, ys, (List.append_assoc ..).symm, ?_, hys⟩
  rw [unspaced_append, hnone, List.append_nil]
  exact hxs

end Word

open Word

section Settled

variable {w : Word} {ws xs : List Word} {levels : List Nat} {d : Nat}

/-- A line goes on behind words that are no line breaks. -/
theorem Settled.of_append (h : Settled levels d false (xs ++ ws))
    (hxs : ∀ w ∈ xs, w.kind ≠ .newline) : Settled levels (depthBehind d xs) false ws := by
  induction xs generalizing d with
  | nil => exact h
  | cons x xs ih =>
    obtain ⟨hx, hxs⟩ := List.forall_mem_cons.1 hxs
    rcases h.of_cons with ⟨hnl, -⟩ | ⟨hjoins, -, h⟩ | ⟨-, h⟩
    · exact absurd hnl hx
    · simp only [joins, Bool.and_eq_true, beq_iff_eq] at hjoins
      have hsame : Layout.depthAfter d x.kind = d :=
        Layout.depthAfter_of_not_isBracket (by rw [hjoins.1]; rfl) d
      rw [depthBehind_cons, hsame]
      exact ih h hxs
    · exact ih h hxs

/-- The first line of a text that is not indented begins behind trivia with its first word. -/
theorem Settled.of_start {all : List Word} (h : Settled [] 0 true all) (hall : unspaced all = w :: ws)
    (hw : w.kind ∉ Kind.addedByLayout) :
    ∃ held rest, all = held ++ w :: rest ∧ (∀ v ∈ held, v.kind.isTrivia = true) ∧
      Settled [] (Layout.depthAfter 0 w.kind) false rest := by
  have between {held : List Word} (hheld : ∀ v ∈ held, v.Between) :
      ∀ v ∈ held, v.kind.isTrivia = true := fun v hv => (hheld v hv).trivia
  generalize hlevels : ([] : List Nat) = levels at h
  cases h with
  | stopFresh hheld =>
    subst hlevels
    simp [unspaced_of_trivia (between hheld)] at hall
  | indent hheld =>
    rw [unspaced_append, unspaced_of_trivia (between hheld), unspaced_cons rfl, List.nil_append] at hall
    rw [← (List.cons.inj hall).1] at hw
    exact absurd (by decide) hw
  | begin inner outer hheld honline hx hinner houter hrest =>
    rename_i held rest x
    obtain ⟨rfl, rfl⟩ := List.append_eq_nil_iff.1 hlevels.symm
    have hsplit : unspaced (List.replicate 0 Word.dedent ++ held ++ x :: rest) = x :: unspaced rest := by
      simp [unspaced_of_trivia (between hheld), unspaced_cons hx]
    rw [List.length_nil, hsplit] at hall
    obtain ⟨rfl, -⟩ := List.cons.inj hall
    exact ⟨held, rest, by simp, between hheld, hrest⟩

/-- Where no bracket is open, a word of a line begins a line as well. -/
theorem Settled.fresh (h : Settled [] 0 false (w :: ws)) (htrivia : w.kind.isTrivia = false)
    (hw : w.kind ≠ .newline) : Settled [] 0 true (w :: ws) := by
  rcases h.of_cons with ⟨hnl, -⟩ | ⟨-, hd, -⟩ | ⟨honline, h⟩
  · exact absurd hnl hw
  · exact absurd rfl hd
  · have hheld : ∀ u ∈ ([] : List Word), u.Between := by simp
    exact .begin [] [] hheld honline htrivia (by simp) rfl h

end Settled

/-- What stands behind a semicolon of a line, with the end of the line, is a line too. -/
theorem OneLine.exists_rest {t : Text} {front vs : List Word} {c v : Word}
    (h : OneLine t (front ++ c :: vs) v) (hfront : front ≠ []) (hdepth : depthBehind 0 front = 0)
    (hc : c.kind = .semicolon) (hvs : vs ≠ []) : ∃ u, OneLine u vs v := by
  obtain ⟨hsettled, hcut⟩ := settled_layout h.faults_layout
  have hline {u : Word} (hu : u ∈ front ++ c :: vs) :
      u.kind ≠ .newline ∧ u.kind ∉ Kind.addedByLayout := by
    simpa [not_or] using h.line u hu
  have hwords : unspaced ((layout t).tokens.map Token.word) = front ++ c :: vs ++ [v] := by
    rw [← Layout.words_significant, h.words]
  generalize (layout t).tokens.map Token.word = all at hsettled hcut hwords
  have hkept : ∀ u ∈ front ++ c :: vs ++ [v], u.kind.isTrivia = false := fun u hu => by
    rw [← hwords] at hu
    simpa using (List.mem_filter.1 hu).2
  obtain ⟨w, front, rfl⟩ := List.exists_cons_of_ne_nil hfront
  obtain ⟨y, vs, rfl⟩ := List.exists_cons_of_ne_nil hvs
  obtain ⟨held, rest, rfl, hheld, hrest⟩ := hsettled.of_start hwords (hline (by simp)).2
  have hbehind : unspaced rest = (front ++ [c]) ++ y :: (vs ++ [v]) := by
    rw [unspaced_append, unspaced_of_trivia hheld, unspaced_cons (hkept w (by simp))] at hwords
    simpa using hwords
  -- the words between the first one and the first one behind the semicolon
  obtain ⟨xs, rs, rfl, hxs, hrs⟩ := exists_of_unspaced hbehind
  have hnone : ∀ u ∈ xs, u.kind ≠ .newline := by
    intro u hu hnl
    have hmem : u ∈ unspaced xs := List.mem_filter.2 ⟨hu, by simp [hnl, Kind.isTrivia]⟩
    rw [hxs] at hmem
    exact (hline (by simp at hmem ⊢; tauto)).1 hnl
  have hdepth : depthBehind (Layout.depthAfter 0 w.kind) xs = 0 := by
    rw [← depthBehind_unspaced, hxs, ← depthBehind_cons, ← List.cons_append, depthBehind_append,
      hdepth, depthBehind_cons, hc]
    rfl
  have hlast : Settled [] 0 true (y :: rs) :=
    (hdepth ▸ hrest.of_append hnone).fresh (hkept y (by simp)) (hline (by simp)).1
  rw [← List.cons_append, ← List.append_assoc, rawOf_append, allCut_append] at hcut
  obtain ⟨-, hlaid⟩ := words_layout_of_settled hlast hcut.2
  refine ⟨spell (y :: rs), ?_, h.ends, fun u hu => h.line u (by simp at hu ⊢; tauto)⟩
  rw [Layout.words_significant, hlaid, unspaced_cons (hkept y (by simp)), hrs, List.cons_append]

end SceneGate
