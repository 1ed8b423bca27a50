/-
The standard rules one after another. Grouping targets and renaming names never break a program
(`ok_prepared`), and leave nothing to be grouped or renamed. The rules behind them know a text only
as a text. Where the one for formulas and the one for labels have nothing to do, and the one for the
old constructor of text takes calls for what they are, the text that comes out is a program
(`standard_keeps_program`); where none of the three has anything to do, the rules leave it as it is
(`standard_settles`).
-/
import SceneGate.Proofs.LegacyCalls
import SceneGate.Proofs.RenamedTrees
import SceneGate.Rules.Standard

namespace SceneGate

/-- Edits that come from left to right are carried out from the last to the first. -/
theorem Edits.applyOrKeep_of_pairwise {edits : Edits} {t : Text}
    (hsorted : edits.spans.Pairwise fun a b => a.start ≤ b.start)
    (hfits : edits.spans.findSome? (·.misfit? t) = none) :
    edits.applyOrKeep t = edits.spans.foldr Span.replaceIn t := by
  have horder : (edits.spans.mergeSort fun a b => a.start ≤ b.start) = edits.spans :=
    List.mergeSort_of_pairwise (hsorted.imp fun h => decide_eq_true h)
  simp only [applyOrKeep, apply, hfits, horder]

namespace RuleSet

variable {rule : Rule} {t : Text}

/-! ## Rules that are reported -/

theorem applyTraced_append_snd (front back : RuleSet) (t : Text) :
    (applyTraced (front ++ back) t).2 =
      (applyTraced front t).2 ++ (applyTraced back (apply front t)).2 := by
  induction front generalizing t with
  | nil => rfl
  | cons rule front ih =>
    have happly : apply (rule :: front) t = apply front (rule.apply t) := rfl
    rw [List.cons_append, applyTraced, applyTraced, happly]
    simp only [ih]
    split <;> rfl

/-- A rule that is not reported leaves what comes to it as it is. -/
theorem apply_eq_of_notMem (front back : RuleSet) (h : rule.name ∉ (applyTraced (front ++ rule :: back) t).2) :
    rule.apply (apply front t) = apply front t := by
  rw [applyTraced_append_snd, List.mem_append, not_or, applyTraced] at h
  by_contra hne
  simp [hne] at h

/-- Rules of which each leaves a text as it is. -/
theorem applyTraced_eq_self {rules : RuleSet} (h : ∀ rule ∈ rules, rule.apply t = t) :
    applyTraced rules t = (t, []) := by
  induction rules with
  | nil => rfl
  | cons rule rules ih =>
    obtain ⟨hrule, hrules⟩ := List.forall_mem_cons.1 h
    simp only [applyTraced, hrule, ih hrules, if_true]

/-! ## Programs -/

/-- What comes to the rules that know a text only as a text. -/
def prepared (t : Text) : Text := apply ((standard {}).take 2) t

theorem prepared_eq (t : Text) :
    prepared t = DeprecatedNames.rename DeprecatedNames.defaults (GroupTargets.group {} 4 t) := rfl

theorem standard_apply (t : Text) : (standard {}).apply t = (LegacyText.rule {}).apply
    ((AxisLabels.rule {}).apply ((InlineText.rule {}).apply (prepared t))) := rfl

/-- Where the rule for formulas is not reported, it leaves what comes to it. -/
theorem formulas_kept (h : "inline-text" ∉ ((standard {}).applyTraced t).2) :
    (InlineText.rule {}).apply (prepared t) = prepared t :=
  apply_eq_of_notMem ((standard {}).take 2) ((standard {}).drop 3) h

/-- So does then the rule for labels. -/
theorem labels_kept (hformulas : "inline-text" ∉ ((standard {}).applyTraced t).2)
    (h : "axis-labels" ∉ ((standard {}).applyTraced t).2) :
    (AxisLabels.rule {}).apply (prepared t) = prepared t := by
  have hkept : (AxisLabels.rule {}).apply ((InlineText.rule {}).apply (prepared t)) =
      (InlineText.rule {}).apply (prepared t) :=
    apply_eq_of_notMem ((standard {}).take 3) ((standard {}).drop 4) h
  rwa [formulas_kept hformulas] at hkept

/-- So does then the rule for the old constructor of text. -/
theorem texts_kept (hformulas : "inline-text" ∉ ((standard {}).applyTraced t).2)
    (hlabels : "axis-labels" ∉ ((standard {}).applyTraced t).2)
    (h : "legacy-text" ∉ ((standard {}).applyTraced t).2) :
    (LegacyText.rule {}).apply (prepared t) = prepared t := by
  have hkept : (LegacyText.rule {}).apply ((AxisLabels.rule {}).apply
      ((InlineText.rule {}).apply (prepared t))) =
        (AxisLabels.rule {}).apply ((InlineText.rule {}).apply (prepared t)) :=
    apply_eq_of_notMem ((standard {}).take 4) ((standard {}).drop 5) h
  rwa [formulas_kept hformulas, labels_kept hformulas hlabels] at hkept

/-- What grouping leaves of a program. -/
theorem group_standard (h : (parse t).ok = true) :
    GroupTargets.group {} 4 t = (GroupTargets.regroup {} 4 (parse t).tree).text ∧
      (parse (GroupTargets.group {} 4 t)).ok = true ∧
      GroupTargets.nesting {} (parse (GroupTargets.group {} 4 t)).tree ≤
        GroupTargets.nesting {} (parse t).tree - 4 := by
  have hG : ({} : Vocabulary).groupConstructor = GroupTargets.vgroup.word.text := by decide
  obtain ⟨htext, hok, -, hleft⟩ := GroupTargets.group_program hG (by decide) 4 h
  exact ⟨htext, hok, hleft⟩

/-- Grouping targets and renaming names do not break a program. -/
theorem ok_prepared (h : (parse t).ok = true) : (parse (prepared t)).ok = true := by
  obtain ⟨-, hok, -⟩ := group_standard h
  rw [prepared_eq, DeprecatedNames.ok_rename]
  exact hok

/-- The name `TexText`. -/
def texText : Identifier := ⟨'T', "exText".toList, by decide, by decide, by decide⟩

/-- The name `Text`. -/
def plainText : Identifier := ⟨'T', "ext".toList, by decide, by decide, by decide⟩

/-- The standard rules do not break a program in which neither the rule for formulas nor the one for
labels has anything to do, and the one for the old constructor of text takes the calls and their
arguments for what they are. -/
theorem standard_keeps_program (h : (parse t).ok = true)
    (hquiet : ∀ name ∈ ["inline-text", "axis-labels"], name ∉ ((standard {}).applyTraced t).2)
    (hcalls : LegacyText.FindsCalls {} (prepared t))
    (hplain : LegacyText.FindsArguments {} (prepared t)) :
    (parse ((standard {}).apply t)).ok = true := by
  rw [standard_apply, formulas_kept (hquiet _ (by decide)),
    labels_kept (hquiet _ (by decide)) (hquiet _ (by decide))]
  have hfont : StringArgument.IsContent '"' ({} : Vocabulary).defaultFont :=
    StringArgument.isContent_of_forall (by decide)
  exact (LegacyText.parse_rule (M := texText) (N := plainText) rfl rfl (by decide) (by decide) hfont
    (ok_prepared h) hcalls hplain).1

theorem standard_keeps_program_effects :
    let t := "FadeIn(a, TexText(\"A\", color=GRAY))\n".toList
    (standard {}).apply t = "FadeIn(VGroup(a, Text(\"A\", font=\"Arial\", color=GREY)))\n".toList ∧
      (parse ((standard {}).apply t)).ok = true := by
  intro t
  exact ⟨by decide +kernel, standard_keeps_program (by decide +kernel) (by decide +kernel)
    (by decide +kernel) (by decide +kernel)⟩

/-- The rule for the old constructor of text writes the font in front of all other arguments, also
of those that are given by position. -/
theorem standard_breaks_program :
    let t := "t = TexText(\"a\", RED)\n".toList
    (parse t).ok = true ∧ (standard {}).apply t = "t = Text(\"a\", font=\"Arial\", RED)\n".toList ∧
      (parse ((standard {}).apply t)).ok = false := by
  decide +kernel

/-! ## Applying the rules again -/

/-- Of effects that lie in one another no deeper than there are passes none is left to be grouped. -/
theorem nesting_prepared (h : (parse t).ok = true) (hnesting : GroupTargets.nesting {} (parse t).tree ≤ 4) :
    GroupTargets.nesting {} (parse (prepared t)).tree = 0 := by
  obtain ⟨-, hok, hleft⟩ := group_standard h
  rw [prepared_eq, DeprecatedNames.nesting_rename hok]
  omega

/-- A program without effects to be grouped stays as it is. -/
theorem group_eq_self (h : (parse t).ok = true) (hnone : GroupTargets.nesting {} (parse t).tree = 0) :
    GroupTargets.group {} 4 t = t := by
  obtain ⟨hgroup, -⟩ := group_standard h
  rw [hgroup, GroupTargets.regroup_of_nesting_le _ (Nat.le_of_eq hnone) (Nat.zero_le _),
    GroupTargets.regroup_zero, GroupTargets.text_parse]

/-- Renaming the default names leaves none of the old ones. -/
theorem rename_prepared (t : Text) :
    DeprecatedNames.rename DeprecatedNames.defaults (prepared t) = prepared t := by
  have hnames : DeprecatedNames.defaults = [("GRAY".toList, "GREY".toList)] := by decide +kernel
  have hclear : Text.Clear "GREY".toList "GRAY".toList := by decide
  refine DeprecatedNames.rename_of_not_infix fun entry hentry => ?_
  rw [hnames, List.mem_singleton] at hentry
  rw [hentry, prepared_eq, hnames]
  exact DeprecatedNames.not_infix_rename (by decide) (List.nil_append _).symm
    (List.forall_mem_singleton.2 hclear) _

/-- Where effects lie in one another no deeper than there are passes and no rule fires that knows a
text only as a text, the standard rules leave what they make of a program as it is. -/
theorem standard_settles (h : (parse t).ok = true)
    (hnesting : GroupTargets.nesting {} (parse t).tree ≤ 4)
    (hquiet : ∀ name ∈ ["inline-text", "axis-labels", "legacy-text"],
      name ∉ ((standard {}).applyTraced t).2) :
    (standard {}).apply ((standard {}).apply t) = (standard {}).apply t ∧
      ((standard {}).applyTraced ((standard {}).apply t)).2 = [] := by
  have hformulas := formulas_kept (hquiet "inline-text" (by decide))
  have hlabels := labels_kept (hquiet "inline-text" (by decide)) (hquiet "axis-labels" (by decide))
  have htexts := texts_kept (hquiet "inline-text" (by decide)) (hquiet "axis-labels" (by decide))
    (hquiet "legacy-text" (by decide))
  have hall : (standard {}).apply t = prepared t := by
    rw [standard_apply, hformulas, hlabels, htexts]
  have hgroup := group_eq_self (ok_prepared h) (nesting_prepared h hnesting)
  have hkept : ∀ rule ∈ standard {}, rule.apply (prepared t) = prepared t := by
    simp only [standard, List.forall_mem_cons]
    exact ⟨hgroup, rename_prepared t, hformulas, hlabels, htexts, by simp⟩
  have hagain := applyTraced_eq_self hkept
  rw [hall, ← applyTraced_fst, hagain]
  exact ⟨rfl, rfl⟩

theorem standard_settles_effect :
    let t := "FadeIn(a, b, color=GRAY)\n".toList
    (standard {}).apply t = "FadeIn(VGroup(a, b), color=GREY)\n".toList ∧
      (standard {}).apply ((standard {}).apply t) = (standard {}).apply t ∧
      ((standard {}).applyTraced ((standard {}).apply t)).2 = [] := by
  intro t
  exact ⟨by decide +kernel, standard_settles (by decide +kernel) (by decide +kernel) (by decide +kernel)⟩

/-- A formula with a block of text that no brace closes. -/
def openBlock : Text := "f = Tex(r\"\\text\x7bDiện tích\")\n".toList

/-- It with its note above it. -/
def notedBlock : Text := InlineText.note {} ++ '\n' :: openBlock

/-- The rule for formulas finds nothing to remove in it, but leaves its note each time. -/
theorem standard_notes_again :
    (parse openBlock).ok = true ∧ (standard {}).apply openBlock = notedBlock ∧
      (standard {}).apply notedBlock = InlineText.note {} ++ '\n' :: notedBlock ∧
      (standard {}).apply ((standard {}).apply openBlock) ≠ (standard {}).apply openBlock := by
  have hstandard (spans : List Span) {t out : Text} (hprepared : prepared t = t)
      (hspans : (Edits.ofSpans (InlineText.spans {} t)).spans = spans)
      (hsorted : spans.Pairwise fun a b => a.start ≤ b.start)
      (hfits : spans.findSome? (·.misfit? t) = none) (hout : spans.foldr Span.replaceIn t = out)
      (hrest : (LegacyText.rule {}).apply ((AxisLabels.rule {}).apply out) = out) :
      (standard {}).apply t = out := by
    subst hspans
    have hnoted : (InlineText.rule {}).apply t = out :=
      (Edits.applyOrKeep_of_pairwise hsorted hfits).trans hout
    rw [standard_apply, hprepared, hnoted, hrest]
  -- the note comes above the line, and the call is written again as it was
  have hfirst : (standard {}).apply openBlock = notedBlock :=
    hstandard [⟨0, 0, InlineText.note {} ++ ['\n']⟩, ⟨4, 26, (openBlock.drop 4).take 23⟩]
      (by decide +kernel) (by decide +kernel) (by decide) (by decide +kernel) (by decide +kernel)
      (by decide +kernel)
  have hsecond : (standard {}).apply notedBlock = InlineText.note {} ++ '\n' :: notedBlock :=
    hstandard [⟨109, 0, InlineText.note {} ++ ['\n']⟩, ⟨113, 26, (openBlock.drop 4).take 23⟩]
      (by decide +kernel) (by decide +kernel) (by decide) (by decide +kernel) (by decide +kernel)
      (by decide +kernel)
  refine ⟨by decide +kernel, hfirst, hsecond, ?_⟩
  rw [hfirst, hsecond]
  decide +kernel

end RuleSet

end SceneGate
