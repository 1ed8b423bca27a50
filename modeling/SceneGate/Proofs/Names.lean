/-
The names that prose is looked for among. A name that is used is one identifier
(`nameAlone_parse`): its node opens right before an identifier and takes just
that, among faults too. So what the check for stray prose calls a name is an
identifier of the text, and a word of prose (`proseWord_of_mem_names`).
-/
import SceneGate.Check.StrayProse
import SceneGate.Proofs.Lossless
import SceneGate.Proofs.Munching

namespace SceneGate

/-! ## Nodes of names -/

/-- A node for a name that is used holds one identifier. -/
def NameAlone (kind : Kind) (ts : List Tree) : Prop :=
  kind = .nameRef → ∃ k : Token, ts = [.leaf k] ∧ k.kind = .ident

/-- A node for a name opens right before an identifier, and takes it. -/
def opensName (kind : Kind) (body : Form) (S : Sight) : Bool :=
  kind != .nameRef || (body == .take && S.within ⟨.only [.ident], .only [.ident]⟩)

theorem Phrase.nameAlone_fits (p : Phrase) :
    (Watch.nodes opensName (· != .nameRef)).fits true p.form ⟨p.startsOn, p.startsOn⟩ = true := by
  revert p
  decide +kernel

theorem nameAlone_of_opensName {env kind body S flag s b s'} (hopen : opensName kind body S = true)
    (hs : S.has flag (Progress.current s) = true)
    (hread : Form.Reads env (Phrase.Reads env) body s.inside b s') :
    NameAlone kind s'.built.reverse := by
  rintro rfl
  simp only [opensName, bne_self_eq_false, Bool.false_or, Bool.and_eq_true, beq_iff_eq] at hopen
  obtain ⟨rfl, hwithin⟩ := hopen
  have hident : s.current = .ident := by
    have hk := Sight.has_of_within hwithin hs
    cases flag <;> simpa [Sight.has] using hk
  cases hread
  cases hr : s.rest with
  | nil => simp [Progress.current, hr] at hident
  | cons l ls =>
    rw [Progress.take_of_cons (s := s.inside) hr]
    exact ⟨l.token, rfl, by simpa [Progress.current, hr] using hident⟩

theorem nameAlone_parse (t : Text) : (parse t).tree.Each NameAlone := by
  obtain ⟨b, s, hreads, -, -, htree, -⟩ := exists_reading t
  have hs : s.Each NameAlone :=
    hreads.each nameAlone_of_opensName (fun hwrap hk => by simp [hk] at hwrap)
      Phrase.nameAlone_fits rfl (Progress.each_start _ _)
  rw [htree]
  exact Tree.each_node.2 ⟨fun hk => absurd hk (by decide), Tree.eachOf_iff.1 hs.root⟩

theorem NameAlone.exists_ident {t : Tree} (h : NameAlone t.kind t.parts) (hnode : t.isNode = true)
    (hk : t.kind = .nameRef) :
    ∃ k : Token, k.kind = .ident ∧ t = .node .nameRef [.leaf k] ∧ t.bareText = k.text := by
  obtain ⟨k, hparts, hident⟩ := h hk
  cases t with
  | leaf j => cases hnode
  | node kind ts =>
    obtain rfl : kind = .nameRef := hk
    obtain rfl : ts = [.leaf k] := hparts
    exact ⟨k, hident, rfl, by simp [Tree.bareText, Token.isTrivia, hident, Kind.isTrivia]⟩

/-! ## Identifiers -/

theorem isProseChar_of_isQuote {c : Char} (h : StringLiteral.isQuote c = true) :
    isProseChar c = false := by
  have hn : c.toNat < 128 := by
    simp only [StringLiteral.isQuote, Bool.or_eq_true, beq_iff_eq] at h
    rcases h with rfl | rfl <;> decide
  cases hprose : isProseChar c with
  | false => rfl
  | true =>
    have := toNat_of_isProseChar hprose
    omega

theorem isProseChar_of_isMark {c : Char} (h : StringLiteral.isMark c = true) :
    isProseChar c = false := by
  cases hprose : isProseChar c with
  | false => rfl
  | true => rw [isMark_of_isProseChar hprose] at h; cases h

/-- The marks of a string literal and its quote are no prose. -/
theorem StringLiteral.hasProse_marks {t : Text} {marks : Nat} {q : Char} {rest : Text}
    (h : opening? t = some (marks, q, rest)) : Text.hasProse (t.take (marks + 1)) = false := by
  unfold opening? at h
  split at h
  · rename_i a rest
    split at h
    · rename_i ha
      cases h
      simp [Text.hasProse, isProseChar_of_isQuote ha]
    split at h
    · rename_i b rest
      split at h
      · rename_i hab
        rw [Bool.and_eq_true] at hab
        cases h
        simp [Text.hasProse, isProseChar_of_isMark hab.1, isProseChar_of_isQuote hab.2]
      split at h
      · rename_i q rest
        split at h
        · rename_i htwo
          rw [Bool.and_eq_true] at htwo
          obtain ⟨ha, hb⟩ := isMark_of_areMarks htwo.1
          cases h
          simp [Text.hasProse, isProseChar_of_isMark ha, isProseChar_of_isMark hb,
            isProseChar_of_isQuote htwo.2]
        · cases h
      · cases h
    · cases h
  · cases h

/-- Marks and a quote that read as a word: just those. -/
theorem StringLiteral.of_find?_word {t : Text} {n : Nat} (h : find? t = some (.word, n)) :
    ∃ marks q rest, opening? t = some (marks, q, rest) ∧ n = marks + 1 := by
  obtain ⟨⟨marks, q, rest⟩, hopen, hm⟩ := Option.map_eq_some_iff.1 h
  refine ⟨marks, q, rest, hopen, ?_⟩
  change measure marks q rest = (.word, n) at hm
  unfold measure at hm
  split at hm
  · split at hm <;> cases hm
  split at hm
  · cases hm
  split at hm
  · cases hm
    rfl
  · cases hm

/-- An identifier that holds a letter of prose is a word of prose. -/
theorem proseWord_of_munch {c : Char} {cs : Text} {n : Nat} (h : munch c cs = (.ident, n))
    (hprose : Text.hasProse (c :: cs.take n) = true) : ProseWord (c :: cs.take n) := by
  unfold munch at h
  split at h
  · cases h
  split at h
  · cases h
  split at h
  · split at h <;> cases h
  split at h
  · split at h <;> cases h
  split at h
  · cases h
  split at h
  · cases h
  · cases h
  · rename_i m hfind
    cases h
    obtain ⟨marks, q, rest, hopen, rfl⟩ := StringLiteral.of_find?_word hfind
    have hnone := StringLiteral.hasProse_marks hopen
    rw [List.take_succ_cons] at hnone
    rw [Nat.add_sub_cancel, hnone] at hprose
    cases hprose
  · split at h
    · rename_i hstart
      refine ⟨⟨c, cs.take n, rfl, hstart, fun x hx => ?_⟩, hprose⟩
      obtain ⟨-, rfl⟩ := Prod.mk.inj h
      exact mem_take_runLength hx
    split at h
    · cases h
    split at h
    · cases h
    · have hall : ∀ e ∈ operators, e.2 ≠ .ident := by decide
      unfold operator? at h
      cases hop : operators.find? fun entry => entry.1.isPrefixOf (c :: cs) with
      | none => rw [hop] at h; cases h
      | some e =>
        rw [hop] at h
        exact absurd (congrArg Prod.fst h) (hall e (List.mem_of_find?_eq_some hop))

theorem proseWord_of_mem_tokenizeFrom {o : Nat} {t : Text} {k : Token} (h : k ∈ tokenizeFrom o t)
    (hident : k.kind = .ident) (hprose : k.text.hasProse = true) : ProseWord k.text := by
  fun_induction tokenizeFrom o t with
  | case1 => cases h
  | case2 o c cs kind n hmunch text ih =>
    rcases List.mem_cons.1 h with rfl | h
    · obtain rfl : kind = .ident := hident
      exact proseWord_of_munch hmunch hprose
    · exact ih h

theorem proseWord_of_mem_layout {t : Text} {k : Token} (h : k ∈ (layout t).tokens)
    (hident : k.kind = .ident) (hprose : k.text.hasProse = true) : ProseWord k.text := by
  rcases Layout.mem_run h with hmade | hheld | hk
  · rw [hident] at hmade
    exact absurd hmade (by decide)
  · simp [Layout.start, Layout.held] at hheld
  · exact proseWord_of_mem_tokenizeFrom hk hident hprose

/-! ## The names of prose -/

mutual

theorem Tree.tokens_of_mem_locate {o d : Nat} {l : Located} {k : Token} : ∀ {t : Tree},
    l ∈ t.locate o d → k ∈ l.tree.tokens → k ∈ t.tokens
  | .leaf j, hl, hk => by
    rw [locate, List.mem_singleton] at hl
    rwa [hl] at hk
  | .node kind ts, hl, hk => by
    rw [locate] at hl
    rcases List.mem_cons.1 hl with rfl | hl
    · exact hk
    · rw [tokens_node]
      exact Tree.tokens_of_mem_locateAll hl hk

theorem Tree.tokens_of_mem_locateAll {o d : Nat} {l : Located} {k : Token} : ∀ {ts : List Tree},
    l ∈ locateAll o d ts → k ∈ l.tree.tokens → k ∈ tokensOf ts
  | [], hl, _ => by simp [locateAll] at hl
  | t :: ts, hl, hk => by
    rw [tokensOf_cons, List.mem_append]
    rw [locateAll] at hl
    rcases List.mem_append.1 hl with hl | hl
    · exact .inl (Tree.tokens_of_mem_locate hl hk)
    · exact .inr (Tree.tokens_of_mem_locateAll hl hk)

end

theorem StrayProse.mem_keepFirst {e : Text × Nat} {es : List (Text × Nat)}
    (h : e ∈ keepFirst es) : e ∈ es := by
  induction es with
  | nil => exact h
  | cons f es ih =>
    rcases List.mem_cons.1 h with rfl | h
    · exact List.mem_cons_self
    · exact List.mem_cons_of_mem _ (ih (List.mem_filter.1 h).1)

theorem StrayProse.of_mem_names {p : Parse} {w : Text} (h : w ∈ names p) :
    w.hasProse = true ∧ ∃ l ∈ p.tree.findAll .nameRef, l.tree.bareText = w := by
  obtain ⟨e, he, rfl⟩ := List.mem_map.1 h
  obtain ⟨he, hprose⟩ := List.mem_filter.1 (mem_keepFirst he)
  obtain ⟨l, hl, rfl⟩ := List.mem_map.1 he
  exact ⟨hprose, l, hl, rfl⟩

/-- What the check for stray prose finds are words of prose. -/
theorem proseWord_of_mem_names {t : Text} {w : Text} (h : w ∈ StrayProse.names (parse t)) :
    ProseWord w := by
  obtain ⟨hprose, l, hl, rfl⟩ := StrayProse.of_mem_names h
  obtain ⟨hl, hkind⟩ := List.mem_filter.1 hl
  simp only [Bool.and_eq_true, beq_iff_eq] at hkind
  have halone := (Tree.each_iff_locate 0 0 _).1 (nameAlone_parse t) l hl hkind.1
  obtain ⟨k, hident, htree, htext⟩ := halone.exists_ident hkind.1 hkind.2
  have hk : k ∈ (parse t).tree.tokens := Tree.tokens_of_mem_locate hl (by simp [htree])
  rw [tokens_parse] at hk
  rw [htext] at hprose ⊢
  exact proseWord_of_mem_layout hk hident hprose

end SceneGate
