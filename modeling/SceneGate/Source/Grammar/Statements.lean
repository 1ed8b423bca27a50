/-
The forms of statements. A simple statement ends at a line break, which stays
outside its node. A compound statement owns its block, and a block ends with
the statements indented in it.
-/
import SceneGate.Source.Grammar.Expressions

namespace SceneGate.Form

/-- A name in the place where it is defined. -/
def name : Form := .cond (.next [.ident]) (single .name) (.complain (.expected .ident))

/-- `a.b.c`. -/
def dottedName : Form :=
  .node .dottedName
    (opt (expect .ident) (.loop (.nextTwo .dot .ident) (.seq .take (eat .ident))))

/-- Statements up to the end of the text. -/
def program : Form := .loop (nextNot [.endOfFile]) (.call .statement)

/-- Any statement, with the line break that ends it. -/
def statement : Form :=
  select (.call .simpleStatements) [
    (.next [.indent], .call .unexpectedIndent),
    (.next [.dedent], rejectToken .unexpectedDedent),
    (.next [.newline], .take),
    (.next [.ifKw], .call .ifStatement),
    (.next [.whileKw], .call .whileStatement),
    (.next [.forKw], .call .forStatement),
    (.next [.withKw], .call .withStatement),
    (.next [.tryKw], .call .tryStatement),
    (.next [.defKw], .node .functionDef (.call .function)),
    (.next [.classKw], .node .classDef (.call .classParts)),
    (.next [.atSign], .call .decorated),
    (.nextTwo .asyncKw .defKw, .node .functionDef (.call .function)),
    (.nextTwo .asyncKw .forKw, .call .forStatement),
    (.nextTwo .asyncKw .withKw, .call .withStatement)]

/-- The statements of an indented block, up to its end. -/
def indented : Form :=
  .seq (.loop (nextNot [.endOfFile, .dedent]) (.call .statement)) (eat .dedent)

/-- Statements indented where no block opens. -/
def unexpectedIndent : Form :=
  .seq (.complain .unexpectedIndent) (.node .error (.seq .take indented))

/-- What follows the colon of a compound statement: an indented block, or simple
statements on the same line. -/
def block : Form :=
  .node .block
    (.cond (eat .newline)
      (.cond (eat .indent) indented (.complain .missingBlock))
      (.call .simpleStatements))

/-- A colon and a block. -/
def colonBlock : Form := .seq (expect .colon) (.call .block)

/-- Statements between semicolons, up to the line break. -/
def simpleStatements : Form :=
  seqs [
    .call .smallStatement,
    .loop (both (eat .semicolon) (nextNot [.newline])) (.call .smallStatement),
    opt (nextNot [.newline, .endOfFile])
      (.seq (.complain .invalidSyntax) (skipTo [.newline])),
    eat .newline]

/-- The form, unless the statement ends here. -/
def unlessEnded (body : Form) : Form := opt (nextNot [.newline, .semicolon, .endOfFile]) body

/-- `global` and `nonlocal`. -/
def namesStatement (k : Kind) : Form :=
  .node k (.seq .take (commaList skip (.call .name)))

/-- One simple statement. -/
def smallStatement : Form :=
  select (.call .expressionStatement) [
    (.next [.passKw], single .passStmt),
    (.next [.breakKw], single .breakStmt),
    (.next [.continueKw], single .continueStmt),
    (.next [.returnKw],
      .node .returnStmt (.seq .take (unlessEnded (.call .starExpressions)))),
    (.next [.raiseKw],
      .node .raiseStmt (.seq .take
        (unlessEnded (.seq (.call .expression) (opt (eat .fromKw) (.call .expression)))))),
    (.next [.globalKw], namesStatement .globalStmt),
    (.next [.nonlocalKw], namesStatement .nonlocalStmt),
    (.next [.delKw], .node .delStmt (.seq .take (.call .starExpressions))),
    (.next [.assertKw],
      .node .assertStmt (seqs [
        .take, .call .expression, opt (eat .comma) (.call .expression)])),
    (.next [.importKw],
      .node .importStmt (.seq .take (commaList skip (.call .importAlias)))),
    (.next [.fromKw], .call .importFrom)]

/-- An expression alone, or an assignment; the token after the expression
decides which. -/
def expressionStatement : Form :=
  .mark (.seq (.call .assignedValue)
    (select (.wrap .exprStmt skip) [
      (.next [.eq], .wrap .assignStmt (.loop (eat .eq) (.call .assignedValue))),
      (.next [.augAssign], .wrap .augAssignStmt (.seq .take (.call .assignedValue))),
      (.next [.colon],
        .wrap .annAssignStmt (seqs [
          .take, .call .expression, opt (eat .eq) (.call .assignedValue)]))]))

/-- A side of an assignment. -/
def assignedValue : Form :=
  .cond (.next [.yieldKw]) (.call .yieldExpression) (.call .starExpressions)

/-- `as name`, if it follows. -/
def asName : Form := opt (eat .asKw) (.call .name)

/-- `a.b as c`. -/
def importAlias : Form := .node .importAlias (.seq (.call .dottedName) asName)

/-- `a as b`. -/
def importedName : Form := .node .importAlias (.seq (.call .name) asName)

/-- `from .a.b import x as y, z`, with the names perhaps in brackets, or
`from a import *`. -/
def importFrom : Form :=
  .node .importFromStmt (seqs [
    .take,
    .loop (.next [.dot, .ellipsis]) .take,
    opt (.next [.ident]) (.call .dottedName),
    opt (expect .importKw)
      (select (commaList skip (.call .importedName)) [
        (eat .star, skip),
        (.next [.lParen],
          .enclosed .rParen (commaList (nextNot [.rParen]) (.call .importedName)))])])

/-- `if` with its `elif` and `else` clauses. -/
def ifStatement : Form :=
  .node .ifStmt (seqs [
    .take, .call .namedExpression, colonBlock,
    .loop (.next [.elifKw])
      (.node .elifClause (seqs [.take, .call .namedExpression, colonBlock])),
    .call .elseClause])

/-- An `else` clause, if one follows. -/
def elseClause : Form := opt (.next [.elseKw]) (.node .elseClause (.seq .take colonBlock))

/-- `while` with its `else` clause. -/
def whileStatement : Form :=
  .node .whileStmt (seqs [.take, .call .namedExpression, colonBlock, .call .elseClause])

/-- `for` with its `else` clause, perhaps after `async`. -/
def forStatement : Form :=
  .node .forStmt (seqs [
    eat .asyncKw, eat .forKw, .call .starTargets,
    opt (expect .inKw) (.call .starExpressions),
    colonBlock, .call .elseClause])

/-- `with`, perhaps after `async`. -/
def withStatement : Form :=
  .node .withStmt (seqs [
    eat .asyncKw, eat .withKw, commaList skip (.call .withItem), colonBlock])

/-- `x as target`. -/
def withItem : Form :=
  .node .withItem (.seq (.call .expression) (opt (eat .asKw) (.call .starTarget)))

/-- `try` with its clauses; one `except` or `finally` at least. -/
def tryStatement : Form :=
  .node .tryStmt (seqs [
    .take, colonBlock,
    .cond (.next [.exceptKw])
      (seqs [
        .loop (.next [.exceptKw]) (.call .exceptClause),
        .call .elseClause,
        opt (.next [.finallyKw]) (.call .finallyClause)])
      (seqs [
        .call .elseClause,
        .cond (.next [.finallyKw]) (.call .finallyClause) (.complain .missingHandler)])])

/-- `except`, `except x` or `except x as name`. -/
def exceptClause : Form :=
  .node .exceptClause (seqs [
    .take, eat .star,
    opt (nextNot [.colon]) (.seq (.call .expression) asName),
    colonBlock])

/-- `finally`. -/
def finallyClause : Form := .node .finallyClause (.seq .take colonBlock)

/-- Decorators and what they decorate, in one node. -/
def decorated : Form :=
  .mark (.seq
    (.loop (.next [.atSign])
      (.seq (.node .decorator (.seq .take (.call .namedExpression))) (expect .newline)))
    (select (.wrap .error (.complain .nothingDecorated)) [
      (.next [.defKw, .asyncKw], .wrap .functionDef (.call .function)),
      (.next [.classKw], .wrap .classDef (.call .classParts))]))

/-- The parts of a function: `[async] def name(parameters) -> x: block`. -/
def function : Form :=
  seqs [
    eat .asyncKw, expect .defKw, .call .name,
    .cond (.next [.lParen]) (.call .parameters) (.complain (.expected .lParen)),
    opt (eat .arrow) (.call .expression),
    colonBlock]

/-- Parameters in brackets. -/
def parameters : Form :=
  .node .paramList
    (.enclosed .rParen (parametersUpTo [.rParen, .newline, .endOfFile] true))

/-- A parameter with its stars, annotation and default. -/
def namedParameter (annotated : Bool) : Form :=
  seqs [
    eat .star, eat .starStar, .call .name,
    if annotated then opt (eat .colon) (.call .expression) else skip,
    opt (eat .eq) (.call .expression)]

/-- A parameter, or one of the signs `/` and `*` that stand between them. The
parameters of a `lambda` have no annotations, for a colon ends them. -/
def parameter (annotated : Bool) : Form :=
  .node .param
    (select (.seq (.complain .invalidSyntax) (skipTo [.comma, .rParen, .colon, .newline])) [
      (.next [.slash], .take),
      (.nextTwo .star .ident, namedParameter annotated),
      (.next [.star], .take),
      (.next [.starStar, .ident], namedParameter annotated)])

/-- The parts of a class: `class name(bases): block`. -/
def classParts : Form :=
  seqs [.take, .call .name, opt (.next [.lParen]) (.call .arguments), colonBlock]

end SceneGate.Form

namespace SceneGate

/-- The grammar: the form of each phrase. -/
def Phrase.form : Phrase → Form
  | .name => .name
  | .nameRef => .single .nameRef
  | .dottedName => .dottedName
  | .program => .program
  | .statement => .statement
  | .unexpectedIndent => .unexpectedIndent
  | .block => .block
  | .simpleStatements => .simpleStatements
  | .smallStatement => .smallStatement
  | .expressionStatement => .expressionStatement
  | .assignedValue => .assignedValue
  | .importAlias => .importAlias
  | .importedName => .importedName
  | .importFrom => .importFrom
  | .ifStatement => .ifStatement
  | .elseClause => .elseClause
  | .whileStatement => .whileStatement
  | .forStatement => .forStatement
  | .withStatement => .withStatement
  | .withItem => .withItem
  | .tryStatement => .tryStatement
  | .exceptClause => .exceptClause
  | .finallyClause => .finallyClause
  | .decorated => .decorated
  | .function => .function
  | .parameters => .parameters
  | .parameter annotated => .parameter annotated
  | .classParts => .classParts
  | .expression => .expression
  | .namedExpression => .namedExpression
  | .starExpressions => .sequence .starExpression
  | .starExpression => .orStarred .expression
  | .starTargets => .sequence .starTarget
  | .starTarget => .orStarred .bitOr
  | .starNamed => .orStarred .namedExpression
  | .starred => .starred
  | .yieldExpression => .yieldExpression
  | .lambda => .lambda
  | .disjunction => .leftChain .boolExpr [.orKw] .conjunction
  | .conjunction => .leftChain .boolExpr [.andKw] .inversion
  | .inversion => .inversion
  | .comparison => .comparison
  | .bitOr => .leftChain .binExpr [.pipe] .bitXor
  | .bitXor => .leftChain .binExpr [.caret] .bitAnd
  | .bitAnd => .leftChain .binExpr [.amp] .shift
  | .shift => .leftChain .binExpr [.ltLt, .gtGt] .sum
  | .sum => .leftChain .binExpr [.plus, .minus] .product
  | .product => .leftChain .binExpr [.star, .slash, .slashSlash, .percent, .atSign] .factor
  | .factor => .factor
  | .power => .power
  | .primary => .primary
  | .atom => .atom
  | .parenthesized => .parenthesized
  | .list => .list
  | .braced => .braced
  | .bracedItems => .bracedItems
  | .dictItem => .dictItem
  | .setItem => .setItem
  | .forClause => .forClause
  | .arguments => .arguments
  | .argumentsFrom afterKeyword => .argumentsFrom afterKeyword
  | .slices => .slices
  | .sliceItem => .sliceItem

end SceneGate
