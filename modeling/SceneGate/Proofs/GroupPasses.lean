/-
Grouping in passes. A pass groups the outermost calls of a program and makes a program
again, in which the others are to be grouped as before (`parse_pass`). So with every pass
the calls of one more level are grouped (`group_program`), and what the rule makes of a
program is the program in which the calls are grouped that lie in fewer others than there
are passes (`rule_regroups`).
-/
import SceneGate.Proofs.GroupedSpans
import SceneGate.Proofs.GroupedTokens
import SceneGate.Proofs.Unplaced

namespace SceneGate

namespace GroupTargets

open SceneGate.Tree

variable {v : Vocabulary} {G : Identifier} {n m : Nat} {t : Text}

/-! ## Programs -/

/-- The tree of a text spells it. -/
theorem text_parse (t : Text) : (parse t).tree.text = t := by
  rw [text, tokens_parse, spelling_layout]

theorem bareWords_unplaced (t : Tree) : t.unplaced.bareWords = t.bareWords := by
  rw [bareWords, tokens_unplaced, significant, List.filter_map, List.map_map]
  rfl

/-- Grouping calls in a program is grouping them in its parts. -/
theorem regroup_parse (t : Text) : ∃ parts, (parse t).tree = .node .sourceFile parts ∧
    ∀ n, regroup v n (parse t).tree = .node .sourceFile (parts.map (regroup v n)) := by
  obtain ⟨parts, hroot⟩ := parse_root t
  refine ⟨parts, hroot, fun n => ?_⟩
  rw [hroot, regroup_node (isEligible_of_kind (by decide) _)]

/-- The words of a program in which calls are grouped. -/
theorem inserted_regroup_parse (hG : v.groupConstructor = G.word.text) (h : (parse t).ok = true)
    (n : Nat) : Word.Inserted G (groupedCalls v n (parse t).tree) (parse t).tree.bareWords
      (regroup v n (parse t).tree).bareWords := by
  obtain ⟨parts, hroot, hgrouped⟩ := regroup_parse (v := v) t
  have hprogram := inProgram_parse h
  rw [hgrouped, hroot, groupedCalls_node (isEligible_of_kind (by decide) _), bareWords_node,
    bareWords_node, List.flatMap_map]
  rw [hroot] at hprogram
  exact .flatMap fun u hu => inserted_regroup hG n u (hprogram u hu)

section Passes

variable (hG : v.groupConstructor = G.word.text)
  (heffect : v.isSingleTargetEffect G.word.text = false)

include hG heffect

/-- What a pass leaves to be grouped. -/
theorem parse_pass (h : (parse t).ok = true) :
    (parse (regroup v 1 (parse t).tree).text).ok = true ∧
      (∀ n, (regroup v n (parse (regroup v 1 (parse t).tree).text).tree).unplaced =
        (regroup v (n + 1) (parse t).tree).unplaced) ∧
      nesting v (parse (regroup v 1 (parse t).tree).text).tree ≤ nesting v (parse t).tree - 1 := by
  obtain ⟨hok, hunplaced⟩ := parse_regroup hG h
  obtain ⟨parts, hroot, hgrouped⟩ := regroup_parse (v := v) t
  have hprogram := inProgram_parse h
  rw [hroot] at hprogram
  have hparts : ∀ u ∈ parts, u.InProgram := hprogram
  refine ⟨hok, fun n => ?_, ?_⟩
  · have hagain : regroup v n (regroup v 1 (parse t).tree) = regroup v (n + 1) (parse t).tree := by
      rw [hgrouped, hgrouped, regroup_node (isEligible_of_kind (by decide) _), List.map_map]
      exact congrArg _
        (List.map_congr_left fun u hu => regroup_regroup hG heffect n u (hparts u hu))
    rw [← regroup_unplaced, hunplaced, regroup_unplaced, hagain]
  · rw [← nesting_unplaced, hunplaced, nesting_unplaced, hgrouped, hroot, nesting_node,
      nesting_node, isEligible_of_kind (by decide), isEligible_of_kind (by decide)]
    simp only [Bool.false_eq_true, if_false, Nat.zero_add]
    refine nestingAll_le fun u hu => ?_
    obtain ⟨w, hw, rfl⟩ := List.mem_map.1 hu
    have hle := nesting_regroup_le hG heffect w (hparts w hw)
    have := nesting_le_of_mem (v := v) hw
    omega

/-- After some passes over a program those calls are grouped that lie in fewer others, and
what is left lies in one another that much less deep. -/
theorem group_program (n : Nat) (h : (parse t).ok = true) :
    group v n t = (regroup v n (parse t).tree).text ∧ (parse (group v n t)).ok = true ∧
      (parse (group v n t)).tree.unplaced = (regroup v n (parse t).tree).unplaced ∧
      nesting v (parse (group v n t)).tree ≤ nesting v (parse t).tree - n := by
  induction n generalizing t with
  | zero =>
    rw [group, regroup_zero, text_parse]
    exact ⟨rfl, h, rfl, Nat.le_refl _⟩
  | succ n ih =>
    obtain ⟨hspans, happly⟩ := apply_ofSpans_spans (v := v) h
    obtain ⟨hlength, hnone, hone⟩ := nesting_of_length v 1 0 0 (parse t).tree
    rw [← spans_eq] at hlength hnone hone
    rw [group]
    cases hempty : (spans v (parse t).tree).isEmpty with
    | true =>
      -- no call is to be grouped
      have hzero : nesting v (parse t).tree = 0 := hnone (by simpa using hempty)
      have hsame : regroup v (n + 1) (parse t).tree = (parse t).tree := by
        rw [regroup_of_nesting_le _ (Nat.le_of_eq hzero) (Nat.zero_le _), regroup_zero]
      simp only [h, Bool.not_true, Bool.and_false, Bool.false_eq_true, if_false, hsame, text_parse,
        hzero]
      exact ⟨trivial, trivial, trivial, Nat.zero_le _⟩
    | false =>
      obtain ⟨hok, hagain, hnesting⟩ := parse_pass hG heffect h
      have htext := congrArg Tree.text (hagain n)
      rw [text_unplaced, text_unplaced] at htext
      simp only [h, Bool.not_false, Bool.and_true, if_true, happly, hspans]
      split
      · -- calls are left for the next pass
        obtain ⟨hgroup, hok', hunplaced, hnesting'⟩ := ih hok
        exact ⟨hgroup.trans htext, hok', hunplaced.trans (hagain n), by omega⟩
      · rename_i hall
        have hle : nesting v (parse t).tree ≤ 1 := hone (Nat.le_of_not_lt hall)
        have hsame : regroup v (n + 1) (parse t).tree = regroup v 1 (parse t).tree :=
          regroup_of_nesting_le _ hle (Nat.le_add_left 1 n)
        have hunplaced := hagain 0
        rw [regroup_zero] at hunplaced
        rw [hsame]
        exact ⟨rfl, hok, hunplaced, by omega⟩

/-- What the rule makes of a program, if the name of a group is an identifier that calls no
effect: the text of the program's tree in which exactly those calls are grouped that lie in
fewer others to be grouped than there are passes. It is a program, and that tree is its
tree. Of its words, the name of the group and a pair of brackets are new in each of these
calls, a comma behind the last argument is gone, and all others are those of the program.
Outside of these calls the text is as it was. If calls to be grouped lie in one another no
deeper than there are passes, none is left, and the rule changes nothing any more. -/
theorem rule_regroups (hm : 1 ≤ m) (h : (parse t).ok = true) :
    (rule v m).apply t = (regroup v m (parse t).tree).text ∧
      (parse ((rule v m).apply t)).ok = true ∧
      (parse ((rule v m).apply t)).tree.unplaced = (regroup v m (parse t).tree).unplaced ∧
      Word.Inserted G (groupedCalls v m (parse t).tree) (parse t).tree.bareWords
        (parse ((rule v m).apply t)).tree.bareWords ∧
      Substituted 0 (outerSpans v m 0 (parse t).tree) t ((rule v m).apply t) ∧
      (nesting v (parse t).tree ≤ m → nesting v (parse ((rule v m).apply t)).tree = 0 ∧
        (rule v m).apply ((rule v m).apply t) = (rule v m).apply t) := by
  have hrule (t : Text) : (rule v m).apply t = group v m t := by
    show group v (max m 1) t = group v m t
    rw [Nat.max_eq_left hm]
  simp only [hrule]
  obtain ⟨hgroup, hok, hunplaced, hnesting⟩ := group_program hG heffect m h
  refine ⟨hgroup, hok, hunplaced, ?_, ?_, fun hle => ?_⟩
  · have hwords := inserted_regroup_parse hG h m
    rwa [← bareWords_unplaced (regroup v m (parse t).tree), ← hunplaced,
      bareWords_unplaced] at hwords
  · have hsubstituted := substituted_regroup v m 0 (parse t).tree
    rwa [text_parse, ← hgroup] at hsubstituted
  · have hzero : nesting v (parse (group v m t)).tree = 0 := by omega
    refine ⟨hzero, ?_⟩
    obtain ⟨hagain, -⟩ := group_program hG heffect m hok
    rw [hagain, regroup_of_nesting_le _ (Nat.le_of_eq hzero) (Nat.zero_le _), regroup_zero,
      text_parse]

end Passes

/-- The name `VGroup`. -/
def vgroup : Identifier := ⟨'V', "Group".toList, by decide, by decide, by decide⟩

/-- Effects that lie in one another, over two lines. -/
def nestedEffects : Text := "FadeIn(a,  # one\n  FadeIn(b, c,), run_time=2)(d)\n".toList

theorem rule_regroups_nested :
    ({} : Vocabulary).groupConstructor = vgroup.word.text ∧
      ({} : Vocabulary).isSingleTargetEffect vgroup.word.text = false ∧ 1 ≤ 2 ∧
      (parse nestedEffects).ok = true ∧ nesting {} (parse nestedEffects).tree ≤ 2 ∧
      (rule {} 2).apply nestedEffects =
        "FadeIn(VGroup(a, FadeIn(VGroup(b, c))), run_time=2)(d)\n".toList ∧
      (parse ((rule {} 2).apply nestedEffects)).ok = true ∧
      nesting {} (parse ((rule {} 2).apply nestedEffects)).tree = 0 ∧
      (rule {} 2).apply ((rule {} 2).apply nestedEffects) = (rule {} 2).apply nestedEffects := by
  have hG : ({} : Vocabulary).groupConstructor = vgroup.word.text := by decide
  have heffect : ({} : Vocabulary).isSingleTargetEffect vgroup.word.text = false := by decide
  have hok : (parse nestedEffects).ok = true := by decide +kernel
  have hnesting : nesting {} (parse nestedEffects).tree ≤ 2 := by decide +kernel
  obtain ⟨hgroup, hok', -, -, -, hlast⟩ := rule_regroups (m := 2) hG heffect (by decide) hok
  obtain ⟨hnone, hagain⟩ := hlast hnesting
  refine ⟨hG, heffect, by decide, hok, hnesting, ?_, hok', hnone, hagain⟩
  rw [hgroup]
  decide +kernel

end GroupTargets

end SceneGate
