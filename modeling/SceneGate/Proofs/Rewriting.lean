/-
Reading a program again with other words in it. Where lists of arguments are exchanged for
others, and the words are laid out and cut off as they stand, the text that they spell is a
program again, and its tree is the one in which the lists are exchanged (`parse_rewritten`).
-/
import SceneGate.Proofs.RegroupedWords

namespace SceneGate

open Progress

namespace Tree

variable {E : Outline Word → Outline Word → Prop} {ts : List Tree} {t : Tree}

theorem isTrivia_of_isNode (h : t.isNode = true) : t.isTrivia = false := by
  cases t with
  | leaf => cases h
  | node => rfl

/-- Parts that are trivia in the same places. -/
theorem Trim.of_map_eq {us : List Tree} (h : Trim ts) (heq : us.map isTrivia = ts.map isTrivia) :
    Trim us where
  ne hnil := h.ne (by simpa [hnil] using heq.symm)
  first u hu := by
    have hhead := congrArg List.head? heq
    rw [List.head?_map, List.head?_map, hu, Option.map_some] at hhead
    obtain ⟨t, ht, hsame⟩ := Option.map_eq_some_iff.1 hhead.symm
    exact hsame ▸ h.first t ht
  last u hu := by
    have hend := congrArg List.getLast? heq
    rw [List.getLast?_map, List.getLast?_map, hu, Option.map_some] at hend
    obtain ⟨t, ht, hsame⟩ := Option.map_eq_some_iff.1 hend.symm
    exact hsame ▸ h.last t ht

/-- The outlines of trees side by side are exchanged if those of each tree are. -/
theorem forall₂_swap_outlines {f : Tree → Tree}
    (h : ∀ t ∈ ts,
      List.Forall₂ (Outline.Swap E) (t.outline Token.word) ((f t).outline Token.word)) :
    List.Forall₂ (Outline.Swap E) (outlines Token.word ts) (outlines Token.word (ts.map f)) := by
  induction ts with
  | nil => exact .nil
  | cons t ts ih =>
    obtain ⟨ht, hts⟩ := List.forall_mem_cons.1 h
    rw [List.map_cons, outlines_cons, outlines_cons]
    exact List.rel_append ht (ih hts)

end Tree

variable {E : Outline Word → Outline Word → Prop} {t : Text}

/-- A program in which lists of arguments are exchanged for others is read as it is to be. -/
theorem exists_reading_swapped (hE : ArgumentSwaps E) (h : (parse t).ok = true)
    {os : List (Outline Word)}
    (hos : List.Forall₂ (Outline.Swap E) (Tree.outlines Token.word (parse t).tree.parts) os) :
    Phrase.program.form.Makes [] (Outline.wordsOf os) os.reverse [] := by
  obtain ⟨a, s, hreads, hrest, -, htree, hfaults⟩ := exists_reading t
  have hs : s.faults = [] := by simpa [Parse.ok, hfaults] using h
  have hsorted := hreads.sorted (sorted_start ..)
  have hbuilt : s.outlines = (Tree.outlines Token.word (parse t).tree.parts).reverse := by
    rw [htree, Progress.root, Tree.parts, Tree.outlines_append, hrest, Lexeme.tokens_nil,
      List.append_nil, Tree.outlines_trivia Token.word hsorted.pending, List.append_nil, outlines]
  have hswap : List.Forall₂ (Outline.Swap E) s.outlines os.reverse := by
    rw [hbuilt]
    exact List.rel_reverse hos
  have hwords : Meets true s.words [] := by
    rw [words_eq_nil.2 hrest]
    exact .inl (.refl [])
  obtain ⟨b, ws, hb, -, -, hread⟩ :=
    hreads.replays hE (sorted_start ..) hs true os.reverse [] (.inl rfl) hswap hwords
  have hstart : (start (layout t).tokens (layout t).faults).outlines = [] := rfl
  rw [hstart, List.forall₂_nil_left_iff] at hb
  subst hb
  have hall : ws = Outline.wordsOf os := by simpa using hread.words_eq.symm
  exact ⟨a, hall ▸ hread⟩

/-- No word of a program is an error. -/
theorem sound_words {parts : List Tree} (hparts : ∀ u ∈ parts, u.InProgram) :
    ∀ w ∈ Tree.wordsOf parts, w.kind ≠ .error := by
  intro w hw
  rw [Tree.wordsOf_eq_flatMap] at hw
  obtain ⟨u, hu, hw⟩ := List.mem_flatMap.1 hw
  obtain ⟨k, hk, rfl⟩ := List.mem_map.1 hw
  exact (hparts u hu).sound k hk

/-- Where lists of arguments of a program are exchanged, and the words are laid out and cut off as
before, the words spell a program, and its tree is the one with the lists exchanged. -/
theorem parse_rewritten (hE : ArgumentSwaps E) (h : (parse t).ok = true) {parts us : List Tree}
    (hroot : (parse t).tree = .node .sourceFile parts)
    (hswap : List.Forall₂ (Outline.Swap E) (Tree.outlines Token.word parts)
      (Tree.outlines Token.word us))
    (hrecast : Word.Recast (Tree.wordsOf parts) (Tree.wordsOf us))
    (hcut : Word.AllCut (Word.rawOf (Tree.wordsOf parts)) [] →
      Word.AllCut (Word.rawOf (Tree.wordsOf us)) [])
    (htrimmed : ∀ u ∈ us, u.Each Tree.Trimmed) :
    (parse (Tree.node .sourceFile us).text).ok = true ∧
      (parse (Tree.node .sourceFile us).text).tree.unplaced = (Tree.node .sourceFile us).unplaced := by
  have htokens := tokens_parse t
  rw [hroot, Tree.tokens_node] at htokens
  obtain ⟨hsettled, hcut₀⟩ := settled_layout (faults_layout_of_ok h)
  rw [← htokens] at hsettled hcut₀
  obtain ⟨hfaults, hwords⟩ := words_layout_of_settled (hrecast.settled hsettled) (hcut hcut₀)
  have htext : (Tree.node .sourceFile us).text = Word.spell (Tree.wordsOf us) := by
    rw [← Tree.spell_written, Tree.written_node]
  rw [htext]
  -- the words are read as the outlines with the lists exchanged
  have hmakes := exists_reading_swapped hE h (by rw [hroot, Tree.parts]; exact hswap)
  have hsignificant : (significant (layout (Word.spell (Tree.wordsOf us))).tokens).map Token.word =
      Outline.wordsOf (Tree.outlines Token.word us) := by
    rw [Tree.words_outlines, Layout.words_significant, hwords, Layout.words_significant]
    rfl
  obtain ⟨hok, houtline⟩ := parse_of_words hsignificant hfaults hmakes
  refine ⟨hok, ?_⟩
  obtain ⟨parts', hroot'⟩ := parse_root (Word.spell (Tree.wordsOf us))
  have htrimmed' := trimmed_parse hok
  have htokens' := tokens_parse (Word.spell (Tree.wordsOf us))
  rw [hroot', Tree.parts] at htrimmed'
  rw [hroot', Tree.tokens_node] at htokens'
  rw [hroot', Tree.outline_node, List.singleton_inj, Outline.node.injEq] at houtline
  rw [hroot', Tree.unplaced_node, Tree.unplaced_node]
  refine congrArg _ (Tree.unplaced_eq htrimmed' htrimmed houtline.2 ?_)
  rw [Tree.wordsOf, htokens', hwords]

end SceneGate
