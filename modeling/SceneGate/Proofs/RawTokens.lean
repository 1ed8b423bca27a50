/-
What the lexer cuts off. Every token has characters, none is a layout token, and
line feeds are told apart: a blank or a comment holds none, and what ends a line
of the text, a line break or a line continuation, ends in one.
-/
import SceneGate.Source.Lexer

namespace SceneGate

/-- The kinds that the lexer gives to no token. -/
def Kind.addedByLayout : List Kind := [.indent, .dedent, .endOfFile]

/-- What is true of every token that the lexer cuts off. -/
structure Token.Raw (k : Token) : Prop where
  text_ne : k.text ≠ []
  kind : k.kind ∉ Kind.addedByLayout
  ends : k.kind = .newline ∨ k.kind = .lineContinuation → k.text.getLast? = some '\n'
  onLine : k.kind = .whitespace ∨ k.kind = .comment → '\n' ∉ k.text

theorem mem_take_runLength {p : Char → Bool} {t : Text} {c : Char}
    (h : c ∈ t.take (runLength p t)) : p c = true := by
  have htake : t.takeWhile p = t.take (runLength p t) :=
    List.prefix_iff_eq_take.1 (List.takeWhile_prefix p)
  rw [← htake] at h
  exact List.all_eq_true.1 List.all_takeWhile c h

/-- A kind that ends no line, is no blank and no comment, and is no layout. -/
def Kind.plain (k : Kind) : Bool :=
  !(k == .newline || k == .lineContinuation || k == .whitespace || k == .comment ||
    addedByLayout.contains k)

theorem Token.raw_of_plain {k : Kind} {c : Char} {cs : Text} {o : Nat} (h : k.plain = true) :
    Token.Raw ⟨k, c :: cs, o⟩ := by
  simp only [Kind.plain, Bool.not_eq_true', Bool.or_eq_false_iff, beq_eq_false_iff_ne] at h
  obtain ⟨⟨⟨⟨hn, hl⟩, hw⟩, hc⟩, hk⟩ := h
  exact ⟨by simp, by simpa using hk, by simp [hn, hl], by simp [hw, hc]⟩

theorem Kind.mem_keywords {t : Text} {k : Kind} (h : Kind.ofKeyword? t = some k) :
    (t, k) ∈ Kind.keywords := by
  obtain ⟨l₁, l₂, hl⟩ := List.lookup_eq_some_iff.1 h
  simp [hl.1]

/-- What is true of identifiers and of all reserved words is true of every word. -/
theorem Kind.of_ofKeyword {P : Kind → Prop} (hident : P .ident) (hall : ∀ e ∈ Kind.keywords, P e.2)
    (t : Text) : P ((Kind.ofKeyword? t).getD .ident) := by
  cases h : Kind.ofKeyword? t with
  | none => exact hident
  | some k => exact hall _ (Kind.mem_keywords h)

theorem Kind.plain_ofKeyword (t : Text) : ((Kind.ofKeyword? t).getD .ident).plain = true :=
  Kind.of_ofKeyword (P := fun k => k.plain = true) rfl (by decide) t

theorem plain_operator (t : Text) : ((operator? t).getD (.error, 0)).1.plain = true := by
  unfold operator?
  cases h : operators.find? fun entry => entry.1.isPrefixOf t with
  | none => rfl
  | some e =>
    have hall : ∀ e ∈ operators, e.2.plain = true := by decide
    exact hall e (List.mem_of_find?_eq_some h)

/-- The token that `munch` finds at the front of a text. -/
theorem raw_munch (c : Char) (cs : Text) (o : Nat) :
    Token.Raw ⟨(munch c cs).1, c :: cs.take (munch c cs).2, o⟩ := by
  unfold munch
  split
  · rename_i hc
    refine ⟨by simp, by simp [Kind.addedByLayout], by simp, fun _ => ?_⟩
    have hnot : ¬ isSpace '\n' = true := by decide
    intro hmem
    rcases List.mem_cons.1 hmem with rfl | hmem
    · exact hnot hc
    · exact hnot (mem_take_runLength hmem)
  split
  · rename_i hc
    obtain rfl : c = '\n' := by simpa using hc
    exact ⟨by simp, by simp [Kind.addedByLayout], by simp, by simp⟩
  split
  · split
    · exact ⟨by simp, by simp [Kind.addedByLayout], by simp, by simp⟩
    · exact Token.raw_of_plain rfl
  split
  · split
    · exact ⟨by simp, by simp [Kind.addedByLayout], by simp, by simp⟩
    · exact ⟨by simp, by simp [Kind.addedByLayout], by simp, by simp⟩
    · exact Token.raw_of_plain rfl
  split
  · rename_i hc
    obtain rfl : c = '#' := by simpa using hc
    refine ⟨by simp, by simp [Kind.addedByLayout], by simp, fun _ hmem => ?_⟩
    rcases List.mem_cons.1 hmem with h | hmem
    · exact absurd h (by decide)
    · exact absurd (mem_take_runLength hmem) (by decide)
  split
  · exact Token.raw_of_plain rfl
  · exact Token.raw_of_plain rfl
  · exact Token.raw_of_plain rfl
  · split
    · exact Token.raw_of_plain (Kind.plain_ofKeyword _)
    split
    · exact Token.raw_of_plain rfl
    split
    · exact Token.raw_of_plain rfl
    · exact Token.raw_of_plain (plain_operator _)

theorem raw_tokenizeFrom (o : Nat) (t : Text) : ∀ k ∈ tokenizeFrom o t, k.Raw := by
  fun_induction tokenizeFrom o t with
  | case1 => simp
  | case2 o c cs kind n h text ih =>
    intro k hk
    rcases List.mem_cons.1 hk with rfl | hk
    · have hraw := raw_munch c cs o
      rw [h] at hraw
      exact hraw
    · exact ih k hk

/-- Every token that the lexer cuts off is as `Token.Raw` says. -/
theorem raw_tokenize {t : Text} {k : Token} (h : k ∈ tokenize t) : k.Raw :=
  raw_tokenizeFrom 0 t k h

end SceneGate
