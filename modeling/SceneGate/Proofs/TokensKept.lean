/-
Reading keeps every token. What has been built, the trivia that waits and what
is still to read spell out the same tokens at every point of a reading; so the
tree of a text has the tokens of its layout for leaves, in their order, whether
or not the text is a program.
-/
import SceneGate.Proofs.Reading

namespace SceneGate

namespace Tree

@[simp] theorem tokensOf_nil : tokensOf [] = [] := by simp [tokensOf]

@[simp] theorem tokensOf_cons (t : Tree) (ts : List Tree) :
    tokensOf (t :: ts) = t.tokens ++ tokensOf ts := by simp [tokensOf]

@[simp] theorem tokens_leaf (k : Token) : (leaf k).tokens = [k] := by simp [tokens]

@[simp] theorem tokens_node (k : Kind) (ts : List Tree) : (node k ts).tokens = tokensOf ts := by
  simp [tokens]

@[simp] theorem tokensOf_append (ts us : List Tree) :
    tokensOf (ts ++ us) = tokensOf ts ++ tokensOf us := by
  induction ts with
  | nil => simp
  | cons t ts ih => simp [ih]

@[simp] theorem tokensOf_leaves (ks : List Token) : tokensOf (ks.map leaf) = ks := by
  induction ks with
  | nil => simp
  | cons k ks ih => simp [ih]

end Tree

namespace Lexeme

@[simp] theorem tokens_nil : tokens [] = [] := rfl

@[simp] theorem tokens_cons (l : Lexeme) (ls : List Lexeme) :
    tokens (l :: ls) = l.token :: l.trail ++ tokens ls := rfl

/-- Lexemes are words, each with the trivia behind it. -/
theorem isTrivia_split (ts : List Token) :
    (∀ k ∈ (split ts).1, k.isTrivia = true) ∧
      ∀ l ∈ (split ts).2, l.token.isTrivia = false ∧ ∀ k ∈ l.trail, k.isTrivia = true := by
  induction ts with
  | nil => simp [split]
  | cons t ts ih =>
    obtain ⟨htrail, hwords⟩ := ih
    simp only [split]
    split
    · rename_i ht
      refine ⟨fun k hk => ?_, hwords⟩
      rcases List.mem_cons.1 hk with rfl | hk
      · exact ht
      · exact htrail k hk
    · rename_i ht
      refine ⟨by simp, fun l hl => ?_⟩
      rcases List.mem_cons.1 hl with rfl | hl
      · exact ⟨by simpa using ht, htrail⟩
      · exact hwords l hl

end Lexeme

namespace Progress

variable {env : Surroundings}

/-- All tokens in sight: built into the open run, waiting, and still to read. -/
def tokens (s : Progress) : List Token :=
  Tree.tokensOf s.built.reverse ++ s.pending ++ Lexeme.tokens s.rest

@[simp] theorem tokens_flush (s : Progress) : s.flush.tokens = s.tokens := by
  simp [tokens, flush]

@[simp] theorem tokens_take (s : Progress) : s.take.tokens = s.tokens := by
  cases h : s.rest <;> simp [take, h, flush, tokens]

@[simp] theorem tokens_record (s : Progress) (f : Fault) : (s.record f).tokens = s.tokens := by
  unfold record; split <;> rfl

@[simp] theorem tokens_complain (s : Progress) (c : Fault.Cause) :
    (s.complain env c).tokens = s.tokens := by
  unfold complain; split <;> simp

@[simp] theorem tokens_close (s : Progress) (k : Kind) (o : Nat) :
    (s.close env k o).tokens = s.tokens := by
  unfold close
  split
  · simp
  · split <;> simp

theorem tokens_inside (s : Progress) : s.inside.tokens = Lexeme.tokens s.rest := by
  simp [tokens, inside, flush]

/-- What is read inside a node or a run comes out with the tokens it had. -/
theorem tokens_rejoin {s s' : Progress} {parts : List Tree} (h : s'.tokens = s.inside.tokens)
    (hp : Tree.tokensOf parts.reverse = Tree.tokensOf s'.built.reverse) :
    (s.rejoin s' parts).tokens = s.tokens := by
  rw [← tokens_flush s]
  simp only [tokens, inside, rejoin, List.reverse_append, Tree.tokensOf_append, List.reverse_nil,
    Tree.tokensOf_nil, List.nil_append, hp, List.append_assoc] at h ⊢
  rw [h]

/-- What waits is trivia, and what is to be read are words with trivia behind
them. -/
structure Sorted (s : Progress) : Prop where
  pending : ∀ k ∈ s.pending, k.isTrivia = true
  rest : ∀ l ∈ s.rest, l.token.isTrivia = false ∧ ∀ k ∈ l.trail, k.isTrivia = true

theorem sorted_start (tokens : List Token) (faults : List Fault) :
    (start tokens faults).Sorted :=
  ⟨(Lexeme.isTrivia_split tokens).1, (Lexeme.isTrivia_split tokens).2⟩

theorem Sorted.inside {s : Progress} (h : s.Sorted) : s.inside.Sorted :=
  ⟨by simp [Progress.inside, Progress.flush], h.rest⟩

theorem Sorted.take {s : Progress} (h : s.Sorted) : s.take.Sorted := by
  cases hr : s.rest with
  | nil =>
    rw [take_of_nil hr]
    exact ⟨by simp [Progress.flush], h.rest⟩
  | cons l ls =>
    rw [take_of_cons hr]
    have hrest := h.rest
    rw [hr, List.forall_mem_cons] at hrest
    exact ⟨hrest.1.2, hrest.2⟩

theorem Sorted.record {s : Progress} (h : s.Sorted) (f : Fault) : (s.record f).Sorted :=
  ⟨by unfold Progress.record; split <;> exact h.pending, by rw [rest_record]; exact h.rest⟩

theorem Sorted.complain {s : Progress} (h : s.Sorted) (cause : Fault.Cause) :
    (s.complain env cause).Sorted := by
  obtain ⟨f, hf⟩ := exists_complain_eq env cause s
  rw [hf]
  exact h.record f

theorem Sorted.close {s : Progress} (h : s.Sorted) (bracket : Kind) (o : Nat) :
    (s.close env bracket o).Sorted := by
  by_cases hb : s.current = bracket
  · rw [Progress.close, if_pos hb]
    exact h.take
  · obtain ⟨f, hf⟩ := exists_close_eq env o hb
    rw [hf]
    exact h.record f

end Progress

/-- A form keeps all tokens, if the phrases in it do. -/
theorem Form.Reads.tokens_eq {env f s b s'}
    (h : Form.Reads env (fun _ s _ s' => s'.tokens = s.tokens) f s b s') :
    s'.tokens = s.tokens := by
  induction h with
  | answer | next | nextTwo => rfl
  | take => simp
  | complain | complainOfToken => simp
  | seq _ _ ih₁ ih₂ | condYes _ _ ih₁ ih₂ | condNo _ _ ih₁ ih₂ => rw [ih₂, ih₁]
  | loopEnd _ ih => exact ih
  | loopAgain _ _ _ ih₁ ih₂ ih₃ => rw [ih₃, ih₂, ih₁]
  | call h => exact h
  | node _ ih => exact Progress.tokens_rejoin ih (by simp)
  | mark _ ih => exact Progress.tokens_rejoin ih rfl
  | wrap _ ih => rw [← ih]; simp [Progress.tokens]
  | enclosed _ ih => rw [Progress.tokens_close, ih, Progress.tokens_take]

/-- A phrase keeps all tokens. -/
theorem Phrase.Reads.tokens_eq {env p s b s'} (h : Phrase.Reads env p s b s') :
    s'.tokens = s.tokens :=
  h.induct (fun _ s _ s' => s'.tokens = s.tokens)
    fun _ _ _ _ h => (h.imp fun _ _ _ _ hq => hq.2).tokens_eq

/-- What waits stays trivia, and what is to be read stays words with trivia behind them,
if the phrases in a form keep it so. -/
theorem Form.Reads.sorted {env f s b s'}
    (h : Form.Reads env (fun _ s _ s' => s.Sorted → s'.Sorted) f s b s') (hs : s.Sorted) :
    s'.Sorted := by
  induction h with
  | answer | next | nextTwo => exact hs
  | take => exact hs.take
  | complain | complainOfToken => exact hs.complain _
  | seq _ _ ih₁ ih₂ | condYes _ _ ih₁ ih₂ | condNo _ _ ih₁ ih₂ => exact ih₂ (ih₁ hs)
  | loopEnd _ ih => exact ih hs
  | loopAgain _ _ _ ih₁ ih₂ ih₃ => exact ih₃ (ih₂ (ih₁ hs))
  | call h => exact h hs
  | node _ ih | mark _ ih => exact ⟨(ih hs.inside).pending, (ih hs.inside).rest⟩
  | wrap _ ih => exact ⟨(ih hs).pending, (ih hs).rest⟩
  | enclosed _ ih => exact (ih hs.take).close _ _

theorem Phrase.Reads.sorted {env p s b s'} (h : Phrase.Reads env p s b s') (hs : s.Sorted) :
    s'.Sorted :=
  h.induct (fun _ s _ s' => s.Sorted → s'.Sorted)
    (fun _ _ _ _ h => (h.imp fun _ _ _ _ hq => hq.2).sorted) hs

end SceneGate
