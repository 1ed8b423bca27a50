/-
The tree of a text is lossless. Every text is read to its end, whether or not it
is a program; its tree has one root, the tokens of its layout for leaves, each
of them once and in order, and each leaf lies where its token begins. So the
tree spells the text.
-/
import SceneGate.Proofs.Fuel
import SceneGate.Proofs.LayoutText
import SceneGate.Proofs.Nodes
import SceneGate.Proofs.RawTokens
import SceneGate.Proofs.TokensKept

namespace SceneGate

/-! ## Leaves lie where their tokens begin -/

mutual

theorem Tree.start_of_mem_locate {o d : Nat} : ∀ {t : Tree}, Chained o t.tokens →
    ∀ l ∈ t.locate o d, ∀ k, l.tree = .leaf k → l.start = k.offset
  | .leaf j, h, l, hl, k, hk => by
    simp only [tokens_leaf, chained_cons] at h
    simp only [locate, List.mem_singleton] at hl
    subst hl
    cases hk
    exact h.1.symm
  | .node kind ts, h, l, hl, k, hk => by
    simp only [tokens_node] at h
    simp only [locate, List.mem_cons] at hl
    rcases hl with rfl | hl
    · cases hk
    · exact Tree.start_of_mem_locateAll h l hl k hk

theorem Tree.start_of_mem_locateAll {o d : Nat} : ∀ {ts : List Tree}, Chained o (tokensOf ts) →
    ∀ l ∈ locateAll o d ts, ∀ k, l.tree = .leaf k → l.start = k.offset
  | [], _, l, hl, _, _ => by simp [locateAll] at hl
  | t :: ts, h, l, hl, k, hk => by
    simp only [tokensOf_cons, chained_append] at h
    simp only [locateAll, List.mem_append] at hl
    rcases hl with hl | hl
    · exact Tree.start_of_mem_locate h.1 l hl k hk
    · exact Tree.start_of_mem_locateAll h.2 l hl k hk

end

/-! ## Only the root is a file -/

/-- A node that is no file. -/
def NoFile (kind : Kind) (_ : List Tree) : Prop := kind ≠ .sourceFile

/-- No phrase opens a file. -/
theorem Phrase.noFile_fits (p : Phrase) :
    (Watch.nodes (fun kind _ _ => kind != .sourceFile) (· != .sourceFile)).fits true p.form
      ⟨p.startsOn, p.startsOn⟩ = true := by
  revert p
  decide +kernel

/-- A phrase builds no file. -/
theorem Phrase.Reads.noFile {env p s b s'} (h : Phrase.Reads env p s b s')
    (hp : p.startsOn.has s.current = true) (hs : s.Each NoFile) : s'.Each NoFile :=
  h.each (fun hopen _ _ => by simpa [NoFile] using hopen) (fun hwrap => by simpa [NoFile] using hwrap)
    Phrase.noFile_fits hp hs

/-! ## The tree of a text -/

/-- No token of a layout is of the kind that is seen past the last one. -/
theorem kind_ne_endOfFile_of_mem_layout {t : Text} {k : Token} (h : k ∈ (layout t).tokens) :
    k.kind ≠ .endOfFile := by
  rcases Layout.mem_run h with hk | hk | hk
  · intro he
    rw [he] at hk
    exact absurd hk (by decide)
  · simp [Layout.start, Layout.held] at hk
  · intro he
    exact (raw_tokenize hk).kind (by simp [he, Kind.addedByLayout])

/-- A text is read as a program, to its end: what is built and the trivia that is
left are the tokens of its layout. -/
theorem exists_reading (t : Text) :
    ∃ b s, Phrase.Reads (.ofTokens (layout t).tokens) .program
        (Progress.start (layout t).tokens (layout t).faults) b s ∧
      s.rest = [] ∧ s.tokens = (layout t).tokens ∧
      (parse t).tree = s.root ∧ (parse t).faults = s.faults.reverse := by
  obtain ⟨b, h⟩ := readProgram_reads (layout t).tokens (layout t).faults
  have hkinds : ∀ k ∈ (layout t).tokens, k.kind ≠ .endOfFile :=
    fun k hk => kind_ne_endOfFile_of_mem_layout hk
  have hrest := rest_readProgram hkinds (layout t).faults
  refine ⟨b, _, h, hrest, ?_, rfl, rfl⟩
  rw [h.tokens_eq]
  exact Lexeme.split_tokens _

theorem Progress.tokens_root (s : Progress) : s.root.tokens = s.tokens := by
  simp [root, tokens]

/-- The root is a file. -/
theorem parse_root (t : Text) : ∃ parts, (parse t).tree = .node .sourceFile parts := by
  obtain ⟨b, s, -, -, -, htree, -⟩ := exists_reading t
  exact ⟨_, htree⟩

/-- The leaves of the tree are the tokens of the layout. -/
theorem tokens_parse (t : Text) : (parse t).tree.tokens = (layout t).tokens := by
  obtain ⟨b, s, -, -, htokens, htree, -⟩ := exists_reading t
  rw [htree, s.tokens_root, htokens]

/-- Every text has a lossless tree: its root is the one file in it; its leaves are
the tokens of the layout, all of them and in order; they spell the text, and each
lies where its token begins. The tree is what the grammar builds of a program, read
up to where no token is left. -/
theorem parse_lossless (t : Text) :
    (∃ parts, (parse t).tree = .node .sourceFile parts) ∧
      (∀ l ∈ (parse t).tree.locate 0 0, l.tree.isNode = true → l.tree.kind = .sourceFile →
        l.depth = 0) ∧
      (parse t).tree.tokens = (layout t).tokens ∧
      (parse t).tree.text = t ∧
      (∀ l ∈ (parse t).tree.locate 0 0, ∀ k, l.tree = .leaf k → l.start = k.offset) ∧
      ∃ b s, Phrase.Reads (.ofTokens (layout t).tokens) .program
          (Progress.start (layout t).tokens (layout t).faults) b s ∧
        s.rest = [] ∧ (parse t).tree = s.root := by
  obtain ⟨b, s, hreads, hrest, -, htree, -⟩ := exists_reading t
  refine ⟨parse_root t, ?_, tokens_parse t, ?_, ?_, b, s, hreads, hrest, htree⟩
  · intro l hl hn hk
    have hbuilt := hreads.noFile rfl (Progress.each_start _ _)
    rw [htree] at hl
    rcases List.mem_cons.1 hl with rfl | hl
    · rfl
    · exact absurd hk ((Tree.eachOf_iff_locate _ _ _).1 hbuilt.root l hl hn)
  · rw [Tree.text, tokens_parse, spelling_layout]
  · refine Tree.start_of_mem_locate ?_
    rw [tokens_parse]
    exact chained_layout t

end SceneGate
