/-
The forms of expressions. From the loosest to the tightest: `lambda` and
conditionals, `or`, `and`, `not`, comparisons, `|`, `^`, `&`, shifts, sums,
products, signs, `**`, `await`, and then attributes, calls and subscripts.
-/
import SceneGate.Source.Grammar.Form

namespace SceneGate.Form

/-- Kinds of tokens that an expression can begin with. -/
def expressionStart : List Kind := [
  .ident, .number, .string, .trueKw, .falseKw, .noneKw, .ellipsis, .lParen, .lBracket, .lBrace,
  .plus, .minus, .tilde, .notKw, .lambdaKw, .awaitKw, .star]

/-- Kinds of tokens that compare, or begin to. -/
def comparisonStart : List Kind := [
  .eqEq, .bangEq, .lt, .gt, .ltEq, .gtEq, .inKw, .isKw]

/-- Kinds of tokens that a clause of a comprehension begins with. -/
def forStart : List Kind := [.forKw, .asyncKw]

/-- `lambda` or `x [if c else y]`. -/
def expression : Form :=
  .cond (.next [.lambdaKw]) (.call .lambda)
    (.mark (.seq (.call .disjunction)
      (opt (.next [.ifKw])
        (.wrap .condExpr (seqs [
          .take, .call .disjunction, opt (expect .elseKw) (.call .expression)])))))

/-- `name := x` or an expression. -/
def namedExpression : Form :=
  .cond (.nextTwo .ident .colonEq)
    (.node .namedExpr (seqs [.call .nameRef, eat .colonEq, .call .expression]))
    (.call .expression)

/-- Elements between commas; a comma makes them a tuple. -/
def sequence (element : Phrase) : Form :=
  .mark (.seq (.call element)
    (opt (.next [.comma])
      (.wrap .tupleExpr
        (.loop (both (eat .comma) (.next expressionStart)) (.call element)))))

/-- A starred element, or else the given phrase. -/
def orStarred (element : Phrase) : Form :=
  .cond (.next [.star]) (.call .starred) (.call element)

/-- `*x`. -/
def starred : Form := .node .starredExpr (.seq .take (.call .bitOr))

/-- `yield`, `yield x` or `yield from x`. -/
def yieldExpression : Form :=
  .node .yieldExpr (.seq .take
    (.cond (eat .fromKw) (.call .expression)
      (opt (.next expressionStart) (.call .starExpressions))))

/-- Parameters up to a token of one of the kinds in `stops`. -/
def parametersUpTo (stops : List Kind) (annotated : Bool) : Form :=
  opt (nextNot stops) (commaList (nextNot stops) (.call (.parameter annotated)))

/-- `lambda parameters: x`. -/
def lambda : Form :=
  .node .lambdaExpr (seqs [
    .take,
    opt (nextNot [.colon])
      (.node .paramList (parametersUpTo [.colon, .newline, .endOfFile] false)),
    opt (expect .colon) (.call .expression)])

/-- `not x` or a comparison. -/
def inversion : Form :=
  .cond (.next [.notKw]) (.node .unaryExpr (.seq .take (.call .inversion))) (.call .comparison)

/-- Does a comparison follow? -/
def comparisonNext : Form :=
  .cond (.next comparisonStart) (.answer true) (.nextTwo .notKw .inKw)

/-- A comparison operator; `not in` and `is not` are two tokens. -/
def comparisonOperator : Form :=
  select .take [
    (.next [.notKw], .seq .take (eat .inKw)),
    (.next [.isKw], .seq .take (eat .notKw))]

/-- Comparisons in a row are one node. -/
def comparison : Form :=
  .mark (.seq (.call .bitOr)
    (opt comparisonNext
      (.wrap .compareExpr
        (.loop comparisonNext (.seq comparisonOperator (.call .bitOr))))))

/-- Signs before an operand. -/
def factor : Form :=
  .cond (.next [.plus, .minus, .tilde])
    (.node .unaryExpr (.seq .take (.call .factor)))
    (.call .power)

/-- `x ** y`: binds tighter than a sign on its left and looser than one on its
right. -/
def power : Form :=
  .mark (.seq
    (.cond (.next [.awaitKw]) (.node .awaitExpr (.seq .take (.call .primary))) (.call .primary))
    (opt (.next [.starStar]) (.wrap .binExpr (.seq .take (.call .factor)))))

/-- An atom with the attributes, calls and subscripts behind it. -/
def primary : Form :=
  .mark (opt (.call .atom)
    (.loop (.next [.dot, .lParen, .lBracket])
      (select (.wrap .subscriptExpr (.enclosed .rBracket (.call .slices))) [
        (.next [.dot], .wrap .attributeExpr (.seq .take (.call .name))),
        (.next [.lParen], .wrap .callExpr (.call .arguments))])))

/-- The smallest expressions; answers no, after a complaint, if there is none. -/
def atom : Form :=
  select (.complain .invalidSyntax) [
    (.next [.ident], .seq (.call .nameRef) skip),
    (.next [.number, .trueKw, .falseKw, .noneKw, .ellipsis], .seq (single .literal) skip),
    (.next [.string], .seq (.node .stringLiteral (.loop (.next [.string]) .take)) skip),
    (.next [.lParen], .seq (.call .parenthesized) skip),
    (.next [.lBracket], .seq (.call .list) skip),
    (.next [.lBrace], .seq (.call .braced) skip),
    (.next [.error], seqs [.complainOfToken, .node .error takeStray, .answer false])]

/-- `for x in y if c`, as often as it is written, around the element before it. -/
def comprehension : Form := .wrap .comprehension (.loop (.next forStart) (.call .forClause))

/-- One `for x in y` with its conditions. -/
def forClause : Form :=
  .node .compFor (seqs [
    eat .asyncKw, expect .forKw, .call .starTargets,
    opt (expect .inKw) (.call .disjunction),
    .loop (.next [.ifKw]) (.node .compIf (.seq .take (.call .disjunction)))])

/-- The further elements of a tuple or a list. -/
def moreElements : Form :=
  .loop (both (eat .comma) (.next expressionStart)) (.call .starNamed)

/-- `()`, `(x)`, `(x, y)`, `(x for y in z)` and `(yield x)`. Answers yes inside
the brackets if they hold a tuple. -/
def parenthesized : Form :=
  .mark (.cond
    (.enclosed .rParen
      (.cond (.next [.rParen]) (.answer true)
        (.cond (.next [.yieldKw]) (.seq (.call .yieldExpression) (.answer false))
          (.mark (.seq (.call .starNamed)
            (.cond (.next forStart) (.seq comprehension (.answer false))
              (.cond (.next [.comma]) (.seq moreElements (.answer true)) (.answer false))))))))
    (.wrap .tupleExpr skip) (.wrap .parenExpr skip))

/-- `[x, y]` and `[x for y in z]`. -/
def list : Form :=
  .node .listExpr (.enclosed .rBracket
    (opt (nextNot [.rBracket])
      (.mark (.seq (.call .starNamed) (.cond (.next forStart) comprehension moreElements)))))

/-- `**x`, or `key: value`, or an element alone; answers whether it is an entry
of a dictionary. -/
def dictItem : Form :=
  .cond (.next [.starStar])
    (.seq (.node .dictEntry (.seq .take (.call .bitOr))) (.answer true))
    (.mark (.seq (.call .starNamed)
      (.cond (.next [.colon])
        (.seq (.wrap .dictEntry (.seq .take (.call .expression))) (.answer true))
        (.answer false))))

/-- `**x` or an element. -/
def setItem : Form :=
  .cond (.next [.starStar])
    (.node .dictEntry (.seq .take (.call .bitOr)))
    (.call .starNamed)

/-- What follows the first item of a display in braces: the clauses of a
comprehension, or more items. -/
def moreItems (item : Phrase) : Form :=
  .cond (.next forStart) comprehension
    (.loop (both (eat .comma) (nextNot [.rBrace])) (.call item))

/-- The items of a display in braces; the first says whether it is a
dictionary. -/
def bracedItems : Form :=
  .mark (.cond (.call .dictItem)
    (.seq (moreItems .dictItem) (.answer true))
    (.seq (moreItems .setItem) (.answer false)))

/-- Dictionaries and sets; `{}` is a dictionary. -/
def braced : Form :=
  .mark (.cond
    (.enclosed .rBrace (.cond (.next [.rBrace]) (.answer true) (.call .bracedItems)))
    (.wrap .dictExpr skip) (.wrap .setExpr skip))

/-- `(x, name=y, *z, **w)`. -/
def arguments : Form := .node .argList (.enclosed .rParen (.call (.argumentsFrom false)))

/-- The next argument, and after a comma those that follow. -/
def argumentsFrom (afterKeyword : Bool) : Form :=
  let more (after : Bool) : Form := opt (eat .comma) (.call (.argumentsFrom after))
  opt (nextNot [.rParen, .newline, .endOfFile])
    (select
      (seqs [
        if afterKeyword then .complain .latePositional else skip,
        .node .arg (.mark (.seq (.call .namedExpression) (opt (.next forStart) comprehension))),
        more afterKeyword])
      [(.next [.star],
          .seq (.node .starredArg (.seq .take (.call .expression))) (more afterKeyword)),
        (.next [.starStar],
          .seq (.node .doubleStarredArg (.seq .take (.call .expression))) (more true)),
        (.nextTwo .ident .eq,
          .seq (.node .keywordArg (seqs [.call .name, eat .eq, .call .expression])) (more true))])

/-- What stands between the brackets of a subscript. -/
def slices : Form := commaList (nextNot [.rBracket]) (.call .sliceItem)

/-- `x` or `[lower]:[upper][:[step]]`. -/
def sliceItem : Form :=
  let bound : Form := opt (nextNot [.colon, .comma, .rBracket]) (.call .expression)
  .mark (.seq (opt (nextNot [.colon]) (.call .starNamed))
    (opt (.next [.colon])
      (.wrap .slice (seqs [.take, bound, opt (eat .colon) bound]))))

end SceneGate.Form
