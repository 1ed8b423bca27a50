/-
How programs are read. A compound statement is read head, block and clauses, and a
block is read up to its end; so a program that is written with its blocks indented is
read as the statements, clauses and blocks that it is made of (`parse_program`).
-/
import SceneGate.Proofs.StatementLines

namespace SceneGate

open Form Word

section Reading

variable {b b' b₁ : List (Outline Word)} {w : Word} {ws ws' ws₁ ws₂ : List Word}
  {o block : Outline Word} {k : Kind} {l : Level} {x y : Identifier}

/-! ## Heads -/

/-- The form of what may follow the first block of a statement, by the clauses that have
come. -/
def Stage.form : Stage → Form
  | afterIf =>
    .seq (.loop (.next [.elifKw])
      (.node .elifClause (seqs [.take, .call .namedExpression, colonBlock]))) (.call .elseClause)
  | afterLoop => .call .elseClause
  | afterTry =>
    .cond (.next [.exceptKw])
      (seqs [
        .loop (.next [.exceptKw]) (.call .exceptClause),
        .call .elseClause,
        opt (.next [.finallyKw]) (.call .finallyClause)])
      (seqs [
        .call .elseClause,
        .cond (.next [.finallyKw]) (.call .finallyClause) (.complain .missingHandler)])
  | afterExcept =>
    seqs [
      .loop (.next [.exceptKw]) (.call .exceptClause),
      .call .elseClause,
      opt (.next [.finallyKw]) (.call .finallyClause)]
  | afterElse => opt (.next [.finallyKw]) (.call .finallyClause)
  | beforeFinally =>
    .cond (.next [.finallyKw]) (.call .finallyClause) (.complain .missingHandler)
  | closed => skip

/-- A compound statement is read as its head, its block and what may follow. -/
theorem makes_compound (head : Head) (os : List (Outline Word))
    (hrest : (Form.seq colonBlock head.stage.form).Makes head.parts.reverse (.colon :: ws)
      os.reverse ws') :
    Phrase.statement.form.Makes b (unspaced head.written ++ .colon :: ws)
      (.node head.node os :: b) ws' := by
  match head with
  | .ifTrue x =>
    have hif : Phrase.ifStatement.form.Makes b (.ifWord :: x.word :: .colon :: ws)
        (.node .ifStmt os :: b) ws' :=
      .node os (.seq makes_take (.callThen (takes_condition x (by simp)) hrest))
    exact makes_chosen (.call hif) rfl
  | .whileTrue x =>
    have hwhile : Phrase.whileStatement.form.Makes b (.whileWord :: x.word :: .colon :: ws)
        (.node .whileStmt os :: b) ws' :=
      .node os (.seq makes_take (.callThen (takes_condition x (by simp)) hrest))
    exact makes_chosen (.call hwhile) rfl
  | .forEach x y =>
    have hin : Level.bitOr.Ends .inKw := by decide
    have hcolon : Level.conditional.Ends .colon := by decide
    have htarget : Phrase.starTargets.Takes (x.word :: .inWord :: y.word :: .colon :: ws) x.ref
        (.inWord :: y.word :: .colon :: ws) :=
      fun _ => .mark (.callThen (takes_target x hin) (makes_opt_no (by simp)))
    have hsource : Phrase.starExpressions.Takes (y.word :: .colon :: ws) y.ref (.colon :: ws) :=
      takes_starExpressions (takes_ref y hcolon) (begins_ref y) (by simp)
    have hfor : Phrase.forStatement.form.Makes b
        (.forWord :: x.word :: .inWord :: y.word :: .colon :: ws) (.node .forStmt os :: b) ws' :=
      .node os (.seq (answers_eat_no (by simp)).makes (.seq (makes_eat rfl) (.callThen htarget
        (.seq (.cond (.cond (answers_next_yes (by simp)) answers_take) (.call (hsource _))) hrest))))
    exact makes_chosen (.call hfor) rfl
  | .withItems i is =>
    have hagain (i : Alias) {b : List (Outline Word)} {us : List Word} :
        skip.Answers b (unspaced i.written ++ us) true b (unspaced i.written ++ us) := answers_answer
    have hitems : (commaList skip (.call .withItem)).Makes [.word .withWord]
        (unspaced i.written ++ (is.flatMap (fun j => .comma :: unspaced j.written) ++ .colon :: ws))
        (Head.withItems i is).parts.reverse (.colon :: ws) := by
      rw [Head.parts, List.reverse_cons]
      exact makes_commaList (by simp) (fun i _ => takes_item i) hagain i is
    have hwith : Phrase.withStatement.form.Makes b
        (.withWord :: (unspaced i.written ++ (is.flatMap (fun j => .comma :: unspaced j.written) ++
          .colon :: ws))) (.node .withStmt os :: b) ws' :=
      .node os (.seq (answers_eat_no (by simp)).makes (.seq (makes_eat rfl) (.seq hitems
        (makes_seq_skip.1 hrest))))
    rw [Head.written, unspaced_cons rfl, unspaced_blank, unspaced_commaWords, List.cons_append,
      List.append_assoc]
    exact makes_chosen (.call hwith) rfl
  | .tryBody =>
    have htry : Phrase.tryStatement.form.Makes b (.tryWord :: .colon :: ws)
        (.node .tryStmt os :: b) ws' := .node os (.seq makes_take hrest)
    exact makes_chosen (.call htry) rfl
  | .function f ps x =>
    have hcolon : Level.conditional.Ends .colon := by decide
    let signature := unspaced (bracketWords (ps.map Parameter.written)) ++
      (unspaced (marked [.blank, .arrow, .blank] x) ++ .colon :: ws)
    have hresult : (opt (eat .arrow) (.call .expression)).Makes
        [.node .paramList (bracketParts (ps.map Parameter.shape)), f.defined, .word .defWord]
        (unspaced (marked [.blank, .arrow, .blank] x) ++ .colon :: ws)
        (Head.function f ps x).parts.reverse (.colon :: ws) := by
      have htype (x : Identifier) : Phrase.expression.Takes (x.word :: .colon :: ws) x.ref
          (.colon :: ws) := takes_ref (l := .conditional) x hcolon
      simpa [Head.parts] using makes_marked (w := .arrow) rfl htype (by simp) x
    have hfunction : Phrase.function.form.Makes [] (.defWord :: f.word :: signature) os.reverse ws' :=
      .seq (answers_eat_no (by simp)).makes (.seq (.cond (answers_next_yes (by simp)) makes_take)
        (.callThen (takes_defined f) (.seq (.cond (answers_next_yes (by simp [signature]))
          (.call (takes_parameters ps _))) (.seq hresult (makes_seq_skip.1 hrest)))))
    have hwords : unspaced (Head.function f ps x).written ++ .colon :: ws =
        .defWord :: f.word :: signature := by
      rw [Head.written, unspaced_cons rfl, unspaced_blank, unspaced_cons rfl, unspaced_append]
      simp [signature]
    rw [hwords]
    exact makes_chosen (.node os (.call hfunction)) rfl
  | .classOf c none =>
    have hclass : Phrase.classParts.form.Makes [] (.classWord :: c.word :: .colon :: ws)
        os.reverse ws' :=
      .seq makes_take (.callThen (takes_defined c) (.seq (makes_opt_no (by simp))
        (makes_seq_skip.1 hrest)))
    exact makes_chosen (.node os (.call hclass)) rfl
  | .classOf c (some xs) =>
    let bases := unspaced (bracketWords (xs.map fun x => [x.word])) ++ .colon :: ws
    have hclass : Phrase.classParts.form.Makes [] (.classWord :: c.word :: bases) os.reverse ws' :=
      .seq makes_take (.callThen (takes_defined c) (.seq (.cond (answers_next_yes (by simp [bases]))
        (.call (takes_arguments xs _))) (makes_seq_skip.1 hrest)))
    exact makes_chosen (.node os (.call hclass)) rfl

/-! ## Blocks -/

theorem takes_block {body : List (Outline Word)}
    (h : (Form.loop (nextNot [.endOfFile, .dedent]) (.call .statement)).Makes
      [.word .indent, .word .newline] ws (body.reverse ++ [.word .indent, .word .newline])
      (.dedent :: ws')) :
    Phrase.block.Takes (.newline :: .indent :: ws) (blockOf body) ws' := by
  have hindented : Form.indented.Makes [.word .indent, .word .newline] ws
      (Outline.word .newline :: .word .indent :: (body ++ [.word .dedent])).reverse ws' := by
    simpa [indented] using Makes.seq h (makes_eat rfl)
  exact fun _ => .node _ (.cond (answers_eat rfl) (.cond (answers_eat rfl) hindented))

theorem makes_colonBlock (h : Phrase.block.Takes ws block ws') :
    colonBlock.Makes b (.colon :: ws) (block :: .word .colon :: b) ws' :=
  .seq (.cond (answers_next_yes (by simp)) makes_take) (.call (h _))

/-! ## Clauses -/

/-- The kinds of words that clauses begin with. -/
def clauseStart : List Kind := [.elifKw, .elseKw, .exceptKw, .finallyKw]

/-- The kind of the word that a clause begins with. -/
def Clause.opener : Clause → Kind
  | elifTrue _ => .elifKw
  | elseCase => .elseKw
  | exceptCase _ => .exceptKw
  | finallyCase => .finallyKw

theorem Clause.nextKind_written (clause : Clause) :
    nextKind (unspaced clause.written ++ ws) = clause.opener := by
  match clause with
  | elifTrue _ | elseCase | exceptCase none | exceptCase (some _) | finallyCase => rfl

/-- The form of a clause. -/
def Clause.form : Clause → Form
  | elifTrue _ => .node .elifClause (seqs [.take, .call .namedExpression, colonBlock])
  | elseCase => .node .elseClause (.seq .take colonBlock)
  | exceptCase _ => .call .exceptClause
  | finallyCase => .call .finallyClause

/-- A clause is read as its head and its block. -/
theorem makes_clause (clause : Clause) (h : Phrase.block.Takes ws block ws') :
    clause.form.Makes b (unspaced clause.written ++ .colon :: ws)
      (.node clause.node (clause.parts ++ [.word .colon, block]) :: b) ws' := by
  match clause with
  | .elifTrue x =>
    exact .node [.word .elifWord, x.ref, .word .colon, block] (.seq makes_take
      (.callThen (takes_condition x (by simp)) (makes_colonBlock h)))
  | .elseCase =>
    exact .node [.word .elseWord, .word .colon, block] (.seq makes_take (makes_colonBlock h))
  | .exceptCase none =>
    exact .call (.node [.word .exceptWord, .word .colon, block] (.seq makes_take
      (.seq (answers_eat_no (by simp)).makes
        (.seq (.cond (answers_nextNot_no (by simp)) makes_skip) (makes_colonBlock h)))))
  | .exceptCase (some i) =>
    have hkinds : ∀ k ∈ [Kind.asKw, .colon], Level.conditional.Ends k := by decide
    let rest := unspaced (marked [.blank, .asWord, .blank] i.name) ++ .colon :: ws
    have hnext : nextKind rest ∈ [.asKw, .colon] :=
      nextKind_marked (w := .asWord) rfl (by simp) i.name
    have hvalue : Phrase.expression.Takes (i.value.word :: rest) i.value.ref rest :=
      takes_ref i.value (hkinds _ hnext)
    have hname : asName.Makes [i.value.ref, .word .exceptWord] rest
        (Clause.exceptCase (some i)).parts.reverse (.colon :: ws) := by
      simpa [Clause.parts, asName] using
        makes_marked (w := .asWord) rfl takes_defined (by simp) i.name
    have hcaught : (opt (nextNot [.colon]) (.seq (.call .expression) asName)).Makes
        [.word .exceptWord] (i.value.word :: rest) (Clause.exceptCase (some i)).parts.reverse
        (.colon :: ws) := .cond (answers_nextNot_yes (by simp)) (.callThen hvalue hname)
    have hexcept : Phrase.exceptClause.form.Makes b (.exceptWord :: i.value.word :: rest)
        (.node .exceptClause ((Clause.exceptCase (some i)).parts ++ [.word .colon, block]) :: b)
        ws' := by
      refine .node _ (.seq makes_take (.seq (answers_eat_no (by simp)).makes (.seq hcaught ?_)))
      simpa [seqs] using makes_colonBlock h
    exact .call hexcept
  | .finallyCase =>
    exact .call (.node [.word .finallyWord, .word .colon, block]
      (.seq makes_take (makes_colonBlock h)))

/-- A clause that may follow is read, and then those that may follow it: a loop over
clauses goes on, or it ends and the clause behind it is read. -/
theorem makes_further_clause {stage stage' : Stage} {clause : Clause} {b₂ : List (Outline Word)}
    (follows : stage.next? clause = some stage') (hnext : nextKind ws = clause.opener)
    (hclause : clause.form.Makes b ws b₁ ws₁) (hrest : stage'.form.Makes b₁ ws₁ b₂ ws₂) :
    stage.form.Makes b ws b₂ ws₂ := by
  have hnot {ks : List Kind} (h : clause.opener ∉ ks) : nextKind ws ∉ ks := hnext ▸ h
  have hfirst : nextKind ws ∈ [clause.opener] := List.mem_singleton.2 hnext
  have hyes {ks : List Kind} (h : clause.opener ∈ ks) {f : Form} (hf : f.Makes b ws b₁ ws₁) :
      (opt (.next ks) f).Makes b ws b₁ ws₁ := .cond (answers_next_yes (hnext ▸ h)) hf
  have hclosed {f : Form} (hf : f.Makes b ws b₁ ws₁) (h : Stage.closed.form.Makes b₁ ws₁ b₂ ws₂) :
      f.Makes b ws b₂ ws₂ := makes_seq_skip.1 (.seq hf h)
  match stage, clause, stage', follows with
  | .afterIf, .elifTrue x, _, rfl =>
    exact .loopAgainSeq (answers_next_yes hfirst) hclause hrest
  | .afterIf, .elseCase, _, rfl =>
    exact .seq (.loopEnd (answers_next_no (hnot (by decide))))
      (hclosed (.call (hyes (by decide) hclause)) hrest)
  | .afterLoop, .elseCase, _, rfl => exact hclosed (.call (hyes (by decide) hclause)) hrest
  | .afterTry, .exceptCase i, _, rfl =>
    exact .cond (answers_next_yes hfirst)
      (.loopAgainSeq (answers_next_yes hfirst) hclause hrest)
  | .afterTry, .elseCase, _, rfl =>
    exact .cond (answers_next_no (hnot (by decide)))
      (.seq (.call (hyes (by decide) hclause)) hrest)
  | .afterTry, .finallyCase, _, rfl =>
    exact .cond (answers_next_no (hnot (by decide)))
      (.seq (.call (makes_opt_no (hnot (by decide))))
        (hclosed (.cond (answers_next_yes hfirst) hclause) hrest))
  | .afterExcept, .exceptCase i, _, rfl =>
    exact .loopAgainSeq (answers_next_yes hfirst) hclause hrest
  | .afterExcept, .elseCase, _, rfl =>
    exact .seq (.loopEnd (answers_next_no (hnot (by decide))))
      (.seq (.call (hyes (by decide) hclause)) hrest)
  | .afterExcept, .finallyCase, _, rfl =>
    exact .seq (.loopEnd (answers_next_no (hnot (by decide))))
      (.seq (.call (makes_opt_no (hnot (by decide)))) (hclosed (hyes (by decide) hclause) hrest))
  | .afterElse, .finallyCase, _, rfl => exact hclosed (hyes (by decide) hclause) hrest
  | .beforeFinally, .finallyCase, _, rfl =>
    exact hclosed (.cond (answers_next_yes hfirst) hclause) hrest

theorem makes_no_clause {stage : Stage} (ends : stage.mayEnd = true)
    (h : nextKind ws ∉ clauseStart) : stage.form.Makes b ws b ws := by
  simp only [clauseStart, List.mem_cons, List.not_mem_nil, or_false, not_or] at h
  obtain ⟨helif, helse, hexcept, hfinally⟩ := h
  have helseClause : Phrase.elseClause.form.Makes b ws b ws := makes_opt_no (by simpa using helse)
  have hend : (opt (.next [.finallyKw]) (.call .finallyClause)).Makes b ws b ws :=
    makes_opt_no (by simpa using hfinally)
  cases stage with
  | afterIf => exact .seq (.loopEnd (answers_next_no (by simpa using helif))) (.call helseClause)
  | afterLoop => exact .call helseClause
  | afterExcept =>
    exact .seq (.loopEnd (answers_next_no (by simpa using hexcept))) (.seq (.call helseClause) hend)
  | afterElse => exact hend
  | closed => exact makes_skip
  | afterTry | beforeFinally => cases ends

/-! ## Programs -/

/-- The kinds of words that statements begin with. -/
def statementStart : List Kind := [
  .ident, .passKw, .returnKw, .ifKw, .whileKw, .forKw, .withKw, .tryKw, .defKw, .classKw]

theorem Simple.begins (s : Simple) (ws : List Word) :
    nextKind (unspaced s.written ++ ws) ∈ [.ident, .passKw, .returnKw] := by
  rw [← List.contains_iff_mem]
  cases s <;> rfl

theorem Head.begins (head : Head) (ws : List Word) :
    nextKind (unspaced head.written ++ ws) ∈ statementStart := by
  rw [← List.contains_iff_mem]
  match head with
  | ifTrue _ | whileTrue _ | forEach _ _ | withItems _ _ | tryBody | function _ _ _ | classOf _ none
  | classOf _ (some _) => rfl

theorem Stmt.begins (s : Stmt) (ws : List Word) : nextKind (s.words ++ ws) ∈ statementStart := by
  have hsimple : ∀ k ∈ [Kind.ident, .passKw, .returnKw], k ∈ statementStart := by decide
  cases s with
  | simple s =>
    rw [Stmt.words, List.append_assoc]
    exact hsimple _ (s.begins _)
  | compound head step body clauses =>
    rw [Stmt.words, List.append_assoc]
    exact head.begins _

theorem Stmt.not_mem (s : Stmt) (ws : List Word) {ks : List Kind}
    (hks : ∀ k ∈ statementStart, k ∉ ks) : nextKind (s.words ++ ws) ∉ ks :=
  hks _ (s.begins ws)

theorem Suite.not_mem (s : Suite) (ws : List Word) {ks : List Kind}
    (hks : ∀ k ∈ statementStart, k ∉ ks) : nextKind (s.words ++ ws) ∉ ks := by
  cases s with
  | last s =>
    rw [Suite.words]
    exact s.not_mem ws hks
  | more s others =>
    rw [Suite.words, List.append_assoc]
    exact s.not_mem _ hks

mutual

theorem Stmt.read : ∀ (s : Stmt) {b : List (Outline Word)} {ws : List Word},
    nextKind ws ∉ clauseStart →
      Phrase.statement.form.Makes b (s.words ++ ws) (s.shapes.reverse ++ b) ws
  | .simple s, b, ws, _ => by
    have hlow : ∀ k ∈ [Kind.ident, .passKw, .returnKw], k ∈ simpleStart := by decide
    rw [Stmt.words, Stmt.shapes, List.append_assoc]
    exact makes_simple (takes_simple s) (hlow _ (s.begins _))
  | .compound head step body clauses, b, ws, h => by
    have hblock : Phrase.block.Takes (.newline :: .indent :: (body.words ++ .dedent ::
        (clauses.words ++ ws))) (blockOf body.shapes) (clauses.words ++ ws) := takes_block body.read
    have hwhole := makes_compound (b := b) head
      (head.parts ++ .word .colon :: blockOf body.shapes :: clauses.shapes)
      (by simpa using Makes.seq (makes_colonBlock hblock) (clauses.read h))
    simpa [Stmt.words, Stmt.shapes] using hwhole

theorem Suite.read : ∀ (s : Suite) {b : List (Outline Word)} {ws : List Word},
    (Form.loop (nextNot [.endOfFile, .dedent]) (.call .statement)).Makes b (s.words ++ .dedent :: ws)
      (s.shapes.reverse ++ b) (.dedent :: ws)
  | .last s, b, ws => by
    have hend : nextKind (.dedent :: ws) ∉ clauseStart := by simp [clauseStart]
    rw [Suite.words, Suite.shapes]
    exact .loopAgain (answers_nextNot_yes (s.not_mem _ (by decide))) (.call (s.read hend))
      (.loopEnd (answers_nextNot_no (by simp)))
  | .more s others, b, ws => by
    rw [Suite.words, Suite.shapes, List.append_assoc, List.reverse_append, List.append_assoc]
    exact .loopAgain (answers_nextNot_yes (s.not_mem _ (by decide)))
      (.call (s.read (others.not_mem _ (by decide)))) others.read

theorem Clauses.read : ∀ {stage : Stage} (c : Clauses stage) {b : List (Outline Word)}
    {ws : List Word}, nextKind ws ∉ clauseStart →
      stage.form.Makes b (c.words ++ ws) (c.shapes.reverse ++ b) ws
  | _, .none ends, b, ws, h => by
    rw [Clauses.words, Clauses.shapes]
    exact makes_no_clause ends h
  | _, .more clause follows step body others, b, ws, h => by
    have hblock : Phrase.block.Takes (.newline :: .indent :: (body.words ++ .dedent ::
        (others.words ++ ws))) (blockOf body.shapes) (others.words ++ ws) := takes_block body.read
    have hclauses := makes_further_clause (b := b) follows clause.nextKind_written
      (makes_clause clause hblock) (others.read h)
    simpa [Clauses.words, Clauses.shapes] using hclauses

end

theorem makes_program (p : List Stmt) :
    Phrase.program.form.Makes b (p.flatMap Stmt.words) ((p.flatMap Stmt.shapes).reverse ++ b) [] := by
  induction p generalizing b with
  | nil => exact makes_program_end
  | cons s p ih =>
    have hnext : nextKind (p.flatMap Stmt.words) ∉ clauseStart := by
      cases p with
      | nil => simp [nextKind, clauseStart]
      | cons s' p => exact s'.not_mem _ (by decide)
    rw [List.flatMap_cons, List.flatMap_cons, List.reverse_append, List.append_assoc]
    exact makes_program_again (s.not_mem _ (by decide)) (s.read hnext) ih

end Reading

/-- The text of a program. -/
def programText (p : List Stmt) : Text := Word.spell (WordLine.writtenAll (programLines p))

/-- A program that is written with its blocks indented is parsed without a fault, and
its tree is made of the statements, clauses and blocks that the program is made of. -/
theorem parse_program (p : List Stmt) : (parse (programText p)).ok = true ∧
    (parse (programText p)).tree.outline Token.word = [.node .sourceFile (p.flatMap Stmt.shapes)] :=
  parse_lines (legible_program p) (lay_program p) (by simpa using makes_program (b := []) p)

example :
    let x : Identifier := ⟨'x', [], by decide, rfl, by decide⟩
    programText [.compound (.ifTrue x) 1 (.last (.simple .pass))
      (.more .elseCase rfl 3 (.last (.simple (.returns (some x)))) (.none rfl))] =
        "if x:\n  pass\nelse:\n    return x\n".toList := by decide

end SceneGate
