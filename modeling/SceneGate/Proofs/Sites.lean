/-
Where trees stand in a tree: between the tokens in front of them and those behind
(`Tree.Sits`). So a token that is given by what is in front of it is a leaf, and the nodes
that it lies in are found from it (`Tree.exists_sits`).
-/
import SceneGate.Proofs.ProgramTrees

namespace SceneGate

namespace Tree

/-- In the tree `root` a tree stands between the tokens `before` and `after`. -/
inductive Sits (root : Tree) : (before : List Token) → Tree → (after : List Token) → Prop
  | root : Sits root [] root []
  | part {before after : List Token} {kind : Kind} {t : Tree} (front back : List Tree) :
      Sits root before (.node kind (front ++ t :: back)) after →
        Sits root (before ++ tokensOf front) t (tokensOf back ++ after)

variable {root t : Tree} {before after : List Token} {P : Kind → List Tree → Prop}

theorem Sits.tokens (h : Sits root before t after) : root.tokens = before ++ (t.tokens ++ after) := by
  induction h with
  | root => simp
  | part front back _ ih => simpa using ih

theorem Sits.each (h : Sits root before t after) (heach : root.Each P) : t.Each P := by
  induction h with
  | root => exact heach
  | part front back _ ih => exact (each_node.1 ih).2 _ (by simp)

/-- What is not the root is a part of a node. -/
theorem Sits.exists_parent (h : Sits root before t after) (ht : t ≠ root) :
    ∃ kind front back before' after', Sits root before' (.node kind (front ++ t :: back)) after' ∧
      before = before' ++ tokensOf front ∧ after = tokensOf back ++ after' := by
  cases h with
  | root => exact absurd rfl ht
  | part front back h => exact ⟨_, front, back, _, _, h, rfl, rfl⟩

/-- Each tree in the tree of a program is like one, but for the root. -/
theorem Sits.inProgram {t : Text} {u : Tree} (h : (parse t).ok = true)
    (hu : Sits (parse t).tree before u after) : u = (parse t).tree ∨ u.InProgram := by
  induction hu with
  | root => exact .inl rfl
  | @part _ _ kind u front back _ ih =>
    have hmem : u ∈ front ++ u :: back := by simp
    rcases ih with heq | hprogram
    · exact .inr (inProgram_parse h u (by rw [← heq]; exact hmem))
    · exact .inr (hprogram.part hmem)

/-! ## Where they are located -/

mutual

/-- What is located in a part of a tree is located in the tree. -/
theorem mem_locate_trans {l m : Located} {o d : Nat} : ∀ {t : Tree}, l ∈ t.locate o d →
    m ∈ locateAll l.start (l.depth + 1) l.tree.parts → m ∈ t.locate o d
  | .leaf k, hl, hm => by
    simp only [locate, List.mem_singleton] at hl
    subst hl
    simp [parts, locateAll] at hm
  | .node kind ts, hl, hm => by
    simp only [locate, List.mem_cons] at hl ⊢
    rcases hl with rfl | hl
    · exact .inr hm
    · exact .inr (mem_locateAll_trans hl hm)

theorem mem_locateAll_trans {l m : Located} {o d : Nat} : ∀ {ts : List Tree}, l ∈ locateAll o d ts →
    m ∈ locateAll l.start (l.depth + 1) l.tree.parts → m ∈ locateAll o d ts
  | [], hl, _ => by simp [locateAll] at hl
  | t :: ts, hl, hm => by
    simp only [locateAll, List.mem_append] at hl ⊢
    exact hl.imp (mem_locate_trans · hm) (mem_locateAll_trans · hm)

end

theorem self_mem_locate (t : Tree) (o d : Nat) : ⟨o, d, t⟩ ∈ t.locate o d := by
  cases t <;> simp [locate]

theorem mem_locateAll_part (front back : List Tree) (t : Tree) (o d : Nat) :
    ⟨o + (spelling (tokensOf front)).bytes, d, t⟩ ∈ locateAll o d (front ++ t :: back) := by
  induction front generalizing o with
  | nil => simp [locateAll, self_mem_locate]
  | cons u front ih =>
    have := ih (o + u.bytes)
    rw [List.cons_append, locateAll, List.mem_append]
    refine .inr ?_
    rwa [tokensOf_cons, spelling_append, Text.bytes_append, ← Nat.add_assoc]

/-- A tree is located where the text in front of it ends. -/
theorem Sits.exists_mem_locate (h : Sits root before t after) :
    ∃ d, ⟨(spelling before).bytes, d, t⟩ ∈ root.locate 0 0 := by
  induction h with
  | root => exact ⟨0, self_mem_locate ..⟩
  | @part before after kind t front back _ ih =>
    obtain ⟨d, hd⟩ := ih
    refine ⟨d + 1, mem_locate_trans hd ?_⟩
    rw [spelling_append, Text.bytes_append]
    exact mem_locateAll_part ..

/-! ## Leaves -/

mutual

theorem exists_sits_of_sits {k : Token} : ∀ {t : Tree} {before after front back : List Token},
    Sits root before t after → t.tokens = front ++ k :: back →
      Sits root (before ++ front) (.leaf k) (back ++ after)
  | .leaf j, before, after, front, back, h, htokens => by
    obtain ⟨rfl, rfl, rfl⟩ : front = [] ∧ k = j ∧ back = [] := by
      simpa [List.singleton_eq_append_iff] using htokens
    simpa using h
  | .node kind ts, before, after, front, back, h, htokens => by
    have := exists_sits_of_part [] ts (by simpa using h) (by simpa using htokens)
    simpa using this

theorem exists_sits_of_part {k : Token} {kind : Kind} {before after : List Token} :
    ∀ (us ts : List Tree) {front back : List Token}, Sits root before (.node kind (us ++ ts)) after →
      tokensOf ts = front ++ k :: back →
        Sits root (before ++ tokensOf us ++ front) (.leaf k) (back ++ after)
  | us, [], front, back, _, htokens => by simp at htokens
  | us, t :: ts, front, back, h, htokens => by
    rw [tokensOf_cons] at htokens
    rcases List.append_eq_append_iff.1 htokens with ⟨mid, rfl, hts⟩ | ⟨mid, ht, hmid⟩
    · have := exists_sits_of_part (us ++ [t]) ts (by simpa using h) hts
      simpa using this
    · cases mid with
      | nil =>
        have hsits : Sits root before (.node kind (us ++ [t] ++ ts)) after := by simpa using h
        have := exists_sits_of_part (us ++ [t]) ts hsits
          (show tokensOf ts = [] ++ k :: back from hmid.symm)
        simpa [show t.tokens = front by simpa using ht] using this
      | cons j mid =>
        obtain ⟨rfl, rfl⟩ := List.cons.inj hmid
        have := exists_sits_of_sits (.part us ts h) ht
        simpa using this

end

/-- Each token of a tree is a leaf. -/
theorem exists_sits {k : Token} (h : root.tokens = before ++ k :: after) :
    Sits root before (.leaf k) after := by
  simpa using exists_sits_of_sits .root h

end Tree

end SceneGate
