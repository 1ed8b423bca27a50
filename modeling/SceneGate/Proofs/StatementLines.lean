/-
How the lines of programs are read, over names. A name behind a mark, such as a
default behind `=`, is read or passed over with one lemma (`makes_marked`), and so are
items between commas (`makes_commaList`); simple statements, `with` items, parameters
and the bases of a class are made of these.
-/
import SceneGate.Proofs.Programs
import SceneGate.Proofs.SimpleStatements

namespace SceneGate

open Form Word

/-! ## Outlines of programs -/

/-- The outline of a name that is used. -/
def Identifier.ref (x : Identifier) : Outline Word := .node .nameRef [.word x.word]

/-- The outline of a name that is defined. -/
def Identifier.defined (x : Identifier) : Outline Word := .node .name [.word x.word]

/-- Outlines with commas between them. -/
def commaParts (first : Outline Word) (others : List (Outline Word)) : List (Outline Word) :=
  first :: others.flatMap fun o => [.word .comma, o]

/-- Outlines with commas between them, in brackets. -/
def bracketParts : List (Outline Word) → List (Outline Word)
  | [] => [.word .leftParen, .word .rightParen]
  | o :: os => .word .leftParen :: (commaParts o os ++ [.word .rightParen])

/-- The outline of a name behind that of its mark, if there is one. -/
def markedParts (mark : Word) (part : Identifier → Outline Word) :
    Option Identifier → List (Outline Word)
  | none => []
  | some x => [.word mark, part x]

def Simple.shape : Simple → Outline Word
  | pass => .node .passStmt [.word .passWord]
  | returns x => .node .returnStmt (.word .returnWord :: (x.map Identifier.ref).toList)
  | expression x => .node .exprStmt [x.ref]
  | assign x y others =>
    .node .assignStmt (x.ref :: (y :: others).flatMap fun z => [.word .equals, z.ref])
  | augment x sign y => .node .augAssignStmt [x.ref, .word sign.word, y.ref]
  | annotate x t y =>
    .node .annAssignStmt (x.ref :: .word .colon :: t.ref :: markedParts .equals Identifier.ref y)

/-- The outline of `x as y` in a `with` statement. -/
def Alias.item (i : Alias) : Outline Word :=
  .node .withItem (i.value.ref :: markedParts .asWord Identifier.ref i.name)

def Parameter.shape (p : Parameter) : Outline Word :=
  .node .param (p.name.defined :: (markedParts .colon Identifier.ref p.annotation ++
    markedParts .equals Identifier.ref p.default))

/-- The outline of a base of a class. -/
def Identifier.base (x : Identifier) : Outline Word := .node .arg [x.ref]

/-- The node of a compound statement. -/
def Head.node : Head → Kind
  | ifTrue _ => .ifStmt
  | whileTrue _ => .whileStmt
  | forEach _ _ => .forStmt
  | withItems _ _ => .withStmt
  | tryBody => .tryStmt
  | function _ _ _ => .functionDef
  | classOf _ _ => .classDef

/-- The parts of a compound statement before the colon. -/
def Head.parts : Head → List (Outline Word)
  | ifTrue x => [.word .ifWord, x.ref]
  | whileTrue x => [.word .whileWord, x.ref]
  | forEach x y => [.word .forWord, x.ref, .word .inWord, y.ref]
  | withItems i is => .word .withWord :: commaParts i.item (is.map Alias.item)
  | tryBody => [.word .tryWord]
  | function f ps x =>
    .word .defWord :: f.defined :: .node .paramList (bracketParts (ps.map Parameter.shape)) ::
      markedParts .arrow Identifier.ref x
  | classOf c none => [.word .classWord, c.defined]
  | classOf c (some xs) =>
    [.word .classWord, c.defined, .node .argList (bracketParts (xs.map Identifier.base))]

/-- The node of a clause. -/
def Clause.node : Clause → Kind
  | elifTrue _ => .elifClause
  | elseCase => .elseClause
  | exceptCase _ => .exceptClause
  | finallyCase => .finallyClause

/-- The parts of a clause before the colon. -/
def Clause.parts : Clause → List (Outline Word)
  | elifTrue x => [.word .elifWord, x.ref]
  | elseCase => [.word .elseWord]
  | exceptCase none => [.word .exceptWord]
  | exceptCase (some i) =>
    .word .exceptWord :: i.value.ref :: markedParts .asWord Identifier.defined i.name
  | finallyCase => [.word .finallyWord]

/-- The outline of a block. -/
def blockOf (statements : List (Outline Word)) : Outline Word :=
  .node .block (.word .newline :: .word .indent :: (statements ++ [.word .dedent]))

mutual

/-- What a statement becomes: its node, and behind a simple one the end of its line. -/
def Stmt.shapes : Stmt → List (Outline Word)
  | .simple s => [s.shape, .word .newline]
  | .compound head _ body clauses =>
    [.node head.node (head.parts ++ .word .colon :: blockOf body.shapes :: clauses.shapes)]

/-- What the statements of a block become. -/
def Suite.shapes : Suite → List (Outline Word)
  | .last s => s.shapes
  | .more s others => s.shapes ++ others.shapes

/-- What clauses become: a node each. -/
def Clauses.shapes {stage : Stage} : Clauses stage → List (Outline Word)
  | .none _ => []
  | .more clause _ _ body others =>
    .node clause.node (clause.parts ++ [.word .colon, blockOf body.shapes]) :: others.shapes

end

/-! ## Names -/

section Reading

variable {b b' b₁ : List (Outline Word)} {w : Word} {ws ws' ws₁ ws₂ : List Word}
  {o block : Outline Word} {k : Kind} {l : Level} {x y : Identifier}

theorem begins_ref (x : Identifier) : Level.primary.Begins (nextKind (x.word :: ws)) :=
  ⟨x.word, .name x, rfl⟩

theorem takes_ref (x : Identifier) (he : l.Ends (nextKind ws)) :
    l.phrase.Takes (x.word :: ws) x.ref ws :=
  takes_of_le (l := .primary) (Nat.zero_le _) (takes_name x (he .primary (Nat.zero_le _)))
    (begins_ref x).notMem_prefixes he

theorem takes_condition (x : Identifier) (h : nextKind ws ∈ [.colon, .comma, .rParen]) :
    Phrase.namedExpression.Takes (x.word :: ws) x.ref ws := by
  have hkinds : ∀ k ∈ [Kind.colon, .comma, .rParen], Level.conditional.Ends k ∧ k ≠ .colonEq := by
    decide
  exact takes_named (takes_ref x (hkinds _ h).1) (hkinds _ h).2

theorem takes_target (x : Identifier) (h : Level.bitOr.Ends (nextKind ws)) :
    Phrase.starTarget.Takes (x.word :: ws) x.ref ws :=
  fun b => .cond (answers_next_no (by simp)) (.call (takes_ref (l := .bitOr) x h b))

theorem takes_defined (x : Identifier) : Phrase.name.Takes (x.word :: ws) x.defined ws :=
  fun _ => .cond (answers_next_yes (by simp)) makes_single

/-- A name behind its mark is read, if there is one. -/
theorem makes_marked {p : Phrase} {part : Identifier → Outline Word} {mark : List Word}
    (hmark : unspaced mark = [w]) (hp : ∀ x : Identifier, p.Takes (x.word :: ws) (part x) ws)
    (hne : nextKind ws ≠ w.kind) (x : Option Identifier) :
    (opt (eat w.kind) (.call p)).Makes b (unspaced (marked mark x) ++ ws)
      ((markedParts w part x).reverse ++ b) ws := by
  cases x with
  | none => exact .cond (answers_eat_no hne) makes_skip
  | some x =>
    have hwords : unspaced (marked mark (some x)) ++ ws = w :: x.word :: ws := by
      rw [marked, unspaced_append, hmark]
      rfl
    rw [hwords]
    exact .cond (answers_eat rfl) (.call (hp x _))

/-- A name behind its mark begins with the mark. -/
theorem nextKind_marked {mark : List Word} {ks : List Kind} (hmark : unspaced mark = [w])
    (h : nextKind ws ∈ ks) (x : Option Identifier) :
    nextKind (unspaced (marked mark x) ++ ws) ∈ w.kind :: ks := by
  cases x with
  | none => exact List.mem_cons_of_mem _ h
  | some x => simp [marked, hmark]

/-! ## Simple statements -/

theorem takes_side (x : Identifier) (h : nextKind ws ∈ [.eq, .augAssign, .colon, .newline]) :
    Phrase.assignedValue.Takes (x.word :: ws) x.ref ws := by
  have hends : ∀ k ∈ [Kind.eq, .augAssign, .colon, .newline],
    Level.conditional.Ends k ∧ k ∉ [.comma] := by decide
  obtain ⟨hend, hcomma⟩ := hends _ h
  exact takes_assignedValue (takes_ref x hend) (begins_ref x) hcomma

/-- The sides of an assignment behind the first. -/
theorem makes_sides (zs : List Identifier) {b : List (Outline Word)} :
    (Form.loop (eat .eq) (.call .assignedValue)).Makes b
      (zs.flatMap (fun z => [.equals, z.word]) ++ .newline :: ws)
      ((zs.flatMap fun z => [.word .equals, z.ref]).reverse ++ b) (.newline :: ws) := by
  induction zs generalizing b with
  | nil => exact .loopEnd (answers_eat_no (by simp))
  | cons z zs ih =>
    have hnext : nextKind (zs.flatMap (fun z => [.equals, z.word]) ++ .newline :: ws) ∈
        [.eq, .augAssign, .colon, .newline] := by
      cases zs <;> simp
    simp only [List.flatMap_cons, List.cons_append, List.nil_append, List.reverse_cons,
      List.append_assoc]
    exact .loopAgain (answers_eat rfl) (.call (takes_side z hnext _)) ih

/-- A statement that begins with a name, told by what follows the name. -/
theorem takes_expressionStatement {x : Identifier} (h : nextKind ws ∈ [.eq, .augAssign, .colon])
    (hrest : (select (.wrap .exprStmt skip) [
      (.next [.eq], .wrap .assignStmt (.loop (eat .eq) (.call .assignedValue))),
      (.next [.augAssign], .wrap .augAssignStmt (.seq .take (.call .assignedValue))),
      (.next [.colon],
        .wrap .annAssignStmt (seqs [
          .take, .call .expression, opt (eat .eq) (.call .assignedValue)]))]).Makes
        [x.ref] ws [o] ws') :
    Phrase.smallStatement.Takes (x.word :: ws) o ws' := by
  have hside : ∀ k ∈ [Kind.eq, .augAssign, .colon], k ∈ [.eq, .augAssign, .colon, .newline] := by
    decide
  have hstatement : Phrase.expressionStatement.Takes (x.word :: ws) o ws' :=
    fun _ => .mark (.callThen (takes_side x (hside _ h)) hrest)
  exact fun b => makes_otherwise ((begins_ref x).misses (by decide)) (.call (hstatement b))

theorem takes_simple (s : Simple) :
    Phrase.smallStatement.Takes (unspaced s.written ++ .newline :: ws) s.shape (.newline :: ws) := by
  have hends : Level.conditional.Ends .newline := by decide
  match s with
  | .pass => exact fun _ => makes_chosen makes_single rfl
  | .returns none =>
    show Phrase.smallStatement.Takes (.returnWord :: .newline :: ws) _ _
    exact fun _ => makes_chosen (.node [.word .returnWord] (.seq makes_take
      (.cond (answers_nextNot_no (by simp)) makes_skip))) rfl
  | .returns (some x) =>
    have hvalue : Phrase.starExpressions.Takes (x.word :: .newline :: ws) x.ref (.newline :: ws) :=
      takes_starExpressions (takes_ref x hends) (begins_ref x) (by simp)
    show Phrase.smallStatement.Takes (.returnWord :: x.word :: .newline :: ws) _ _
    exact fun _ => makes_chosen (.node [.word .returnWord, x.ref] (.seq makes_take
      (.cond (answers_nextNot_yes (by simp)) (.call (hvalue _))))) rfl
  | .expression x => exact takes_exprStmt (takes_ref x hends) (begins_ref x)
  | .assign x y others =>
    have hwords : unspaced (Simple.assign x y others).written ++ .newline :: ws =
        x.word :: ((y :: others).flatMap (fun z => [.equals, z.word]) ++ .newline :: ws) := by
      have hside (z : Identifier) : unspaced [.blank, .equals, .blank, z.word] = [.equals, z.word] :=
        rfl
      rw [Simple.written, unspaced_cons rfl, unspaced_flatMap]
      simp only [hside, List.cons_append]
    rw [hwords]
    refine takes_expressionStatement (by simp) (makes_chosen (.wrap _ ?_) rfl)
    simpa using makes_sides (b := [x.ref]) (y :: others)
  | .augment x sign y =>
    show Phrase.smallStatement.Takes (x.word :: sign.word :: y.word :: .newline :: ws) _ _
    exact takes_expressionStatement (by simp) (makes_chosen (.wrap [x.ref, .word sign.word, y.ref]
      (.seq makes_take (.call (takes_side y (by simp) _)))) rfl)
  | .annotate x t y =>
    let rest := unspaced (marked [.blank, .equals, .blank] y) ++ .newline :: ws
    have hkinds : ∀ k ∈ [Kind.eq, .newline], Level.conditional.Ends k := by decide
    have hnext : nextKind rest ∈ [.eq, .newline] := nextKind_marked (w := .equals) rfl (by simp) y
    have htype : Phrase.expression.Takes (t.word :: rest) t.ref rest := takes_ref t (hkinds _ hnext)
    have hvalue : (opt (eat .eq) (.call .assignedValue)).Makes [t.ref, .word .colon, x.ref] rest
        ((markedParts .equals Identifier.ref y).reverse ++ [t.ref, .word .colon, x.ref])
        (.newline :: ws) :=
      makes_marked (w := .equals) rfl (fun z => takes_side z (by simp)) (by simp) y
    show Phrase.smallStatement.Takes (x.word :: .colon :: t.word :: rest) _ _
    refine takes_expressionStatement (by simp)
      (makes_chosen (.wrap _ (.seq makes_take (.callThen htype ?_))) rfl)
    simpa [seqs] using hvalue

/-! ## Lists -/

theorem unspaced_commaWords {ι : Type} (f : ι → List Word) (i : ι) (is : List ι) :
    unspaced (commaWords (f i) (is.map f)) =
      unspaced (f i) ++ is.flatMap fun j => .comma :: unspaced (f j) := by
  rw [commaWords, unspaced_append, List.flatMap_map, unspaced_flatMap]
  rfl

theorem unspaced_bracketWords {ι : Type} (f : ι → List Word) (i : ι) (is : List ι) :
    unspaced (bracketWords ((i :: is).map f)) ++ ws = .leftParen :: (unspaced (f i) ++
      (is.flatMap (fun j => .comma :: unspaced (f j)) ++ .rightParen :: ws)) := by
  have hclose : unspaced [.rightParen] = [.rightParen] := rfl
  rw [List.map_cons, bracketWords, unspaced_cons rfl, unspaced_append, unspaced_commaWords, hclose]
  simp

@[simp] theorem nextKind_bracketWords (wss : List (List Word)) :
    nextKind (unspaced (bracketWords wss) ++ ws) = .lParen := by
  cases wss <;> rfl

theorem bracketParts_reverse (o : Outline Word) (os : List (Outline Word)) :
    (bracketParts (o :: os)).reverse =
      .word .rightParen :: ((commaParts o os).reverse ++ [.word .leftParen]) := by
  simp [bracketParts]

/-- Items between commas, up to a word that is no comma. -/
theorem makes_commaList {ι : Type} {item : ι → List Word} {part : ι → Outline Word} {p : Phrase}
    {again : Form} (hw : w.kind ≠ .comma)
    (hitem : ∀ i {us : List Word}, nextKind us ∈ [.comma, w.kind] →
      p.Takes (item i ++ us) (part i) us)
    (hagain : ∀ i {b : List (Outline Word)} {us : List Word},
      again.Answers b (item i ++ us) true b (item i ++ us)) (i : ι) (is : List ι) :
    (commaList again (.call p)).Makes b
      (item i ++ (is.flatMap (fun j => .comma :: item j) ++ w :: ws))
      ((commaParts (part i) (is.map part)).reverse ++ b) (w :: ws) := by
  have hnext (is : List ι) :
      nextKind (is.flatMap (fun j => .comma :: item j) ++ w :: ws) ∈ [.comma, w.kind] := by
    cases is <;> simp
  have hloop {b : List (Outline Word)} :
      (Form.loop (both (eat .comma) again) (.call p)).Makes b
        (is.flatMap (fun j => .comma :: item j) ++ w :: ws)
        ((is.flatMap fun j => [.word .comma, part j]).reverse ++ b) (w :: ws) := by
    induction is generalizing b with
    | nil => exact .loopEnd (.cond (answers_eat_no hw) answers_answer)
    | cons j is ih =>
      simp only [List.flatMap_cons, List.cons_append, List.nil_append, List.append_assoc,
        List.reverse_cons]
      exact .loopAgain (.cond (answers_eat rfl) (hagain j)) (.call (hitem j (hnext is) _)) ih
  have hall := Makes.callThen (b := b) (hitem i (hnext is)) hloop
  simpa [commaList, commaParts, List.flatMap_map] using hall

/-! ## Parts of heads -/

theorem takes_item (i : Alias) (h : nextKind ws ∈ [.comma, .colon]) :
    Phrase.withItem.Takes (unspaced i.written ++ ws) i.item ws := by
  have hkinds : ∀ k ∈ [Kind.asKw, .comma, .colon], Level.conditional.Ends k := by decide
  have hlast : ∀ k ∈ [Kind.comma, .colon], Level.bitOr.Ends k ∧ k ≠ .asKw := by decide
  obtain ⟨hend, has⟩ := hlast _ h
  let rest := unspaced (marked [.blank, .asWord, .blank] i.name) ++ ws
  have hnext : nextKind rest ∈ [.asKw, .comma, .colon] :=
    nextKind_marked (w := .asWord) rfl h i.name
  have hvalue : Phrase.expression.Takes (i.value.word :: rest) i.value.ref rest :=
    takes_ref i.value (hkinds _ hnext)
  have hname : (opt (eat .asKw) (.call .starTarget)).Makes [i.value.ref] rest
      ((markedParts .asWord Identifier.ref i.name).reverse ++ [i.value.ref]) ws :=
    makes_marked (w := .asWord) rfl (fun x => takes_target x hend) has i.name
  show Phrase.withItem.Takes (i.value.word :: rest) _ _
  refine fun _ => .node _ (.callThen hvalue ?_)
  simpa using hname

theorem takes_parameter (p : Parameter) (h : nextKind ws ∈ [.comma, .rParen]) :
    (Phrase.parameter true).Takes (unspaced p.written ++ ws) p.shape ws := by
  have hkinds : ∀ k ∈ [Kind.eq, .comma, .rParen], Level.conditional.Ends k ∧ k ≠ .colon := by decide
  have hlast : ∀ k ∈ [Kind.comma, .rParen], k ≠ .eq ∧ k ∈ [Kind.eq, .comma, .rParen] := by decide
  obtain ⟨heq, hmem⟩ := hlast _ h
  let rest := unspaced (marked [.blank, .equals, .blank] p.default) ++ ws
  have hnext : nextKind rest ∈ [.eq, .comma, .rParen] :=
    nextKind_marked (w := .equals) rfl h p.default
  have hdefault {b : List (Outline Word)} : (opt (eat .eq) (.call .expression)).Makes b rest
      ((markedParts .equals Identifier.ref p.default).reverse ++ b) ws :=
    makes_marked (w := .equals) rfl
      (fun x => takes_ref (l := .conditional) x (hkinds _ hmem).1) heq p.default
  have hannotation {b : List (Outline Word)} : (opt (eat .colon) (.call .expression)).Makes b
      (unspaced (marked [.colon, .blank] p.annotation) ++ rest)
      ((markedParts .colon Identifier.ref p.annotation).reverse ++ b) rest :=
    makes_marked (w := .colon) rfl
      (fun x => takes_ref (l := .conditional) x (hkinds _ hnext).1) (hkinds _ hnext).2 p.annotation
  have hnamed : (namedParameter true).Makes []
      (p.name.word :: (unspaced (marked [.colon, .blank] p.annotation) ++ rest))
      ((markedParts .equals Identifier.ref p.default).reverse ++
        ((markedParts .colon Identifier.ref p.annotation).reverse ++ [p.name.defined])) ws :=
    .seq (answers_eat_no (by simp)).makes (.seq (answers_eat_no (by simp)).makes
      (.callThen (takes_defined _) (.seq hannotation hdefault)))
  have hwords : unspaced p.written ++ ws =
      p.name.word :: (unspaced (marked [.colon, .blank] p.annotation) ++ rest) := by
    rw [Parameter.written, unspaced_cons rfl, unspaced_append, List.cons_append, List.append_assoc]
  rw [hwords]
  refine fun b => .node _ (makes_chosen ?_ rfl)
  simpa using hnamed

theorem takes_parameters (ps : List Parameter) :
    Phrase.parameters.Takes (unspaced (bracketWords (ps.map Parameter.written)) ++ ws)
      (.node .paramList (bracketParts (ps.map Parameter.shape))) ws := by
  intro b
  cases ps with
  | nil =>
    show Form.Makes _ b (.leftParen :: .rightParen :: ws) _ _
    exact .node [.word .leftParen, .word .rightParen]
      (.enclosed rfl (.cond (answers_nextNot_no (by simp)) makes_skip))
  | cons p ps =>
    have hbegins (p : Parameter) (us : List Word) : nextKind (unspaced p.written ++ us) = .ident :=
      rfl
    have hagain (p : Parameter) {b : List (Outline Word)} {us : List Word} :
        (nextNot [.rParen, .newline, .endOfFile]).Answers b (unspaced p.written ++ us) true b
          (unspaced p.written ++ us) := answers_nextNot_yes (by simp [hbegins])
    rw [unspaced_bracketWords]
    refine .node _ ?_
    rw [List.map_cons, bracketParts_reverse]
    exact .enclosed rfl (.cond (hagain p) (makes_commaList (by simp)
      (fun p _ => takes_parameter p) hagain p ps))

/-- A base of a class, and after a comma the others. -/
theorem makes_base (x : Identifier) (h : nextKind ws ∈ [.comma, .rParen])
    (hmore : (opt (eat .comma) (.call (.argumentsFrom false))).Makes (x.base :: b) ws b' ws') :
    (Phrase.argumentsFrom false).form.Makes b (x.word :: ws) b' ws' := by
  have hkinds : ∀ k ∈ [Kind.comma, .rParen], k ∈ [.colon, .comma, .rParen] ∧ k ≠ .eq ∧
      k ∉ forStart := by decide
  obtain ⟨hmem, hne, hfor⟩ := hkinds _ h
  have hvalue := takes_condition x hmem
  exact .cond (answers_nextNot_yes (by simp)) (.cond (answers_next_no (by simp))
    (.cond (answers_next_no (by simp)) (.cond (answers_nextTwo_no (.inr hne))
      (.seq makes_skip (.seq (.node [x.ref] (.mark (.callThen hvalue (makes_opt_no hfor))))
        hmore)))))

theorem makes_bases (xs : List Identifier) (x : Identifier) :
    (Phrase.argumentsFrom false).form.Makes b
      (x.word :: (xs.flatMap (fun y => [.comma, y.word]) ++ .rightParen :: ws))
      ((commaParts x.base (xs.map Identifier.base)).reverse ++ b) (.rightParen :: ws) := by
  induction xs generalizing x b with
  | nil => exact makes_base x (by simp) (.cond (answers_eat_no (by simp)) makes_skip)
  | cons y ys ih =>
    rw [List.flatMap_cons, List.append_assoc]
    refine makes_base x (by simp) (.cond (answers_eat rfl) (.call ?_))
    simpa [commaParts] using ih (b := .word .comma :: x.base :: b) y

theorem takes_arguments (xs : List Identifier) :
    Phrase.arguments.Takes (unspaced (bracketWords (xs.map fun x => [x.word])) ++ ws)
      (.node .argList (bracketParts (xs.map Identifier.base))) ws := by
  intro b
  cases xs with
  | nil =>
    show Form.Makes _ b (.leftParen :: .rightParen :: ws) _ _
    exact .node [.word .leftParen, .word .rightParen]
      (.enclosed rfl (.call (.cond (answers_nextNot_no (by simp)) makes_skip)))
  | cons x xs =>
    rw [unspaced_bracketWords]
    refine .node _ ?_
    rw [List.map_cons, bracketParts_reverse]
    exact .enclosed rfl (.call (makes_bases xs x))

end Reading

end SceneGate
