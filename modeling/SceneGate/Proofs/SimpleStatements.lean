/-
How simple statements are read: one on a line, up to the line's end, after which
nothing is left of it (`makes_simple`). A line that holds an expression alone is a
statement of this expression, so printing an expression and parsing what is printed
gives its operator structure back (`parse_expression`).
-/
import SceneGate.Proofs.Precedence

namespace SceneGate

open Form

variable {b b' : List (Outline Word)} {w : Word} {ws ws' : List Word} {o : Outline Word} {k : Kind}
  {ks : List Kind}

/-! ## Statements on a line -/

/-- What no expression begins with, tests of words miss where one begins. -/
theorem Level.Begins.misses {l : Level} {branches : List (Form × Form)}
    (hb : l.Begins (nextKind ws))
    (h : ∀ k ∈ Level.openers, ∀ branch ∈ branches, branch.1.misses k = true) :
    ∀ branch ∈ branches, branch.1.misses (nextKind ws) = true :=
  h _ hb.mem

/-- The kinds of words that simple statements begin with. -/
def simpleStart : List Kind := .passKw :: .returnKw :: Level.openers

/-- A simple statement that fills its line. -/
theorem makes_simple (h : Phrase.smallStatement.Takes ws o (.newline :: ws'))
    (hstart : nextKind ws ∈ simpleStart) :
    Phrase.statement.form.Makes b ws (.word .newline :: o :: b) ws' := by
  have hline : Phrase.simpleStatements.form.Makes b ws (.word .newline :: o :: b) ws' :=
    .callThen h (.seq (.loopEnd (.cond (.cond (answers_next_no (by simp)) answers_answer)
      answers_answer)) (.seq (.cond (answers_nextNot_no (by simp)) makes_skip) (makes_eat rfl)))
  have hmisses {branches : List (Form × Form)}
      (h : ∀ k ∈ simpleStart, ∀ branch ∈ branches, branch.1.misses k = true) :
      ∀ branch ∈ branches, branch.1.misses (nextKind ws) = true := h _ hstart
  exact makes_otherwise (hmisses (by decide)) (.call hline)

/-- A program ends where no word is left. -/
theorem makes_program_end : Phrase.program.form.Makes b [] b [] :=
  .loopEnd (answers_nextNot_no (by simp [nextKind]))

/-- A program goes on as long as there are words. -/
theorem makes_program_again {b₁ : List (Outline Word)} (hne : nextKind ws ∉ [.endOfFile])
    (hstatement : Phrase.statement.form.Makes b ws b₁ ws')
    (h : Phrase.program.form.Makes b₁ ws' b' []) : Phrase.program.form.Makes b ws b' [] :=
  .loopAgain (answers_nextNot_yes hne) (.call hstatement) h

/-! ## Statements of expressions -/

theorem takes_starExpressions {l : Level} (h : Level.conditional.phrase.Takes ws o ws')
    (hb : l.Begins (nextKind ws)) (he : nextKind ws' ∉ [.comma]) :
    Phrase.starExpressions.Takes ws o ws' := by
  have hstar : Phrase.starExpression.Takes ws o ws' :=
    fun b => .cond (answers_next_no (hb.not_mem (by decide))) (.call (h b))
  exact fun _ => .mark (.callThen hstar (makes_opt_no he))

theorem takes_assignedValue {l : Level} (h : Level.conditional.phrase.Takes ws o ws')
    (hb : l.Begins (nextKind ws)) (he : nextKind ws' ∉ [.comma]) :
    Phrase.assignedValue.Takes ws o ws' :=
  fun b => .cond (answers_next_no (hb.not_mem (by decide))) (.call (takes_starExpressions h hb he b))

/-- An expression that fills its line is a statement. -/
theorem takes_exprStmt {l : Level} (h : Level.conditional.phrase.Takes ws o (.newline :: ws'))
    (hb : l.Begins (nextKind ws)) :
    Phrase.smallStatement.Takes ws (.node .exprStmt [o]) (.newline :: ws') := by
  have hstatement : Phrase.expressionStatement.Takes ws (.node .exprStmt [o]) (.newline :: ws') :=
    fun _ => .mark (.callThen (takes_assignedValue h hb (by simp))
      (makes_otherwise (by simp [Form.misses]) (.wrap [o] makes_skip)))
  exact fun b => makes_otherwise (hb.misses (by decide)) (.call (hstatement b))

/-! ## Printing and parsing -/

/-- The text of an expression. -/
def Expr.text (σ : Spacing) (e : Expr) : Text := Word.spell (e.written σ)

/-- A line with an expression on it is a statement of this expression, with the
brackets it is written with. -/
theorem outline_parse_expression (σ : Spacing) (e : Expr) :
    (parse (e.text σ ++ ['\n'])).ok = true ∧
      (parse (e.text σ ++ ['\n'])).tree.outline Token.word =
        [.node .sourceFile [.node .exprStmt [e.tree], .word .newline]] := by
  have htext : e.text σ ++ ['\n'] = Word.spell (WordLine.writtenAll [⟨0, e.written σ⟩]) := by
    simp [Expr.text, WordLine.writtenAll, WordLine.written, WordLine.margin, Word.newline]
  have hloose : e.level.rank ≤ Level.conditional.rank := by cases e.level <;> decide
  obtain ⟨hat, htree⟩ := Expr.at_of_le (σ := σ) hloose
  have hends : Level.conditional.Ends .newline := by decide
  have htakes : Level.conditional.phrase.Takes (e.wordsAt σ .conditional ++ [.newline])
      (e.treeAt .conditional) [.newline] := e.read.takes hends
  have hb := e.begins_wordsAt σ .conditional [.newline]
  rw [hat] at htakes hb
  rw [htree] at htakes
  have hlay : WordLine.lay [] [⟨0, e.written σ⟩] =
      some (Word.unspaced (e.written σ) ++ [.newline]) := by simp [WordLine.lay]
  rw [htext]
  refine parse_lines (by simpa using e.legible) hlay ?_
  exact makes_program_again (hb.not_mem (by decide))
    (makes_simple (takes_exprStmt htakes hb) (by simp [simpleStart, hb.mem])) makes_program_end

/-- Expressions that are written alike are the same. -/
theorem Expr.text_injective {σ : Spacing} {e e' : Expr} (h : e.text σ = e'.text σ) : e = e' := by
  have houtline := (outline_parse_expression σ e).2
  rw [h, (outline_parse_expression σ e').2] at houtline
  have htree : e'.tree = e.tree := by simpa using houtline
  have hshape := e'.unbracketed_tree
  rw [htree, e.unbracketed_tree] at hshape
  exact Expr.shape_injective (by simpa using hshape)

/-- Printing expressions and parsing them are inverse: what is written of an
expression, with single blanks and no brackets but those it needs, is a program of
one statement, and without these brackets its tree has the operator structure of the
expression. -/
theorem parse_expression (σ : Spacing) (e : Expr) :
    (parse (e.text σ ++ ['\n'])).ok = true ∧
      Outline.unbracketedAll ((parse (e.text σ ++ ['\n'])).tree.outline Token.word) =
        [.node .sourceFile [.node .exprStmt [e.shape], .word .newline]] := by
  obtain ⟨hok, houtline⟩ := outline_parse_expression σ e
  refine ⟨hok, ?_⟩
  rw [houtline]
  simp [Outline.unbracketed_node, e.unbracketed_tree]

example :
    let x : Identifier := ⟨'x', [], by decide, rfl, by decide⟩
    let product : Expr := .binary .times (.name x) (.name x)
    (Expr.power (.signed .minus (.name x)) (.signed .minus product)).text ⟨false, false⟩ =
      "(-x) ** -(x * x)".toList := by decide

end SceneGate
