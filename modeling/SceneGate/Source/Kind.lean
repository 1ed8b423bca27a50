/-
The kinds of tokens and nodes of a syntax tree. The order of the constructors
numbers the kinds (`Kind.ofNumber?`), so it is part of what a caller sees.
-/
import SceneGate.Text.Basic

namespace SceneGate

/-- What a token or a node of a syntax tree is. -/
inductive Kind where
  -- Between the words of a line: whitespace includes the line breaks that end no logical line.
  | whitespace | comment | lineContinuation
  -- Layout: a line break that ends a logical line, and the ends of a block, which have no text.
  | newline | indent | dedent
  -- Words.
  | ident | number | string
  -- Punctuation.
  | lParen | rParen | lBracket | rBracket | lBrace | rBrace | comma | colon | semicolon | dot
  | ellipsis | atSign | arrow | eq | colonEq | augAssign | eqEq | bangEq | lt | gt | ltEq
  | gtEq | plus | minus | star | starStar | slash | slashSlash | percent | ltLt | gtGt | amp
  | pipe | caret | tilde
  -- Keywords.
  | falseKw | noneKw | trueKw | andKw | asKw | assertKw | asyncKw | awaitKw | breakKw | classKw
  | continueKw | defKw | delKw | elifKw | elseKw | exceptKw | finallyKw | forKw | fromKw
  | globalKw | ifKw | importKw | inKw | isKw | lambdaKw | nonlocalKw | notKw | orKw | passKw
  | raiseKw | returnKw | tryKw | whileKw | withKw | yieldKw
  -- Nodes: the structure of a file.
  | sourceFile | block | name | dottedName
  -- Nodes: statements and their parts.
  | importStmt | importFromStmt | importAlias | classDef | functionDef | decorator | paramList
  | param | ifStmt | elifClause | elseClause | forStmt | whileStmt | withStmt | withItem
  | tryStmt | exceptClause | finallyClause | returnStmt | passStmt | breakStmt | continueStmt
  | raiseStmt | globalStmt | nonlocalStmt | delStmt | assertStmt | exprStmt | assignStmt
  | augAssignStmt | annAssignStmt
  -- Nodes: expressions and their parts.
  | nameRef | literal | stringLiteral | callExpr | argList | arg | keywordArg | starredArg
  | doubleStarredArg | attributeExpr | subscriptExpr | slice | parenExpr | tupleExpr | listExpr
  | setExpr | dictExpr | dictEntry | comprehension | compFor | compIf | binExpr | boolExpr
  | compareExpr | unaryExpr | awaitExpr | lambdaExpr | condExpr | namedExpr | starredExpr
  | yieldExpr
  -- A piece that fits nowhere, and what is seen past the last token.
  | error | endOfFile
deriving DecidableEq, Repr

namespace Kind

/-- All kinds, each at the place of its number. -/
def all : List Kind := [
  .whitespace, .comment, .lineContinuation, .newline, .indent, .dedent, .ident, .number,
  .string, .lParen, .rParen, .lBracket, .rBracket, .lBrace, .rBrace, .comma, .colon, .semicolon,
  .dot, .ellipsis, .atSign, .arrow, .eq, .colonEq, .augAssign, .eqEq, .bangEq, .lt, .gt, .ltEq,
  .gtEq, .plus, .minus, .star, .starStar, .slash, .slashSlash, .percent, .ltLt, .gtGt, .amp,
  .pipe, .caret, .tilde, .falseKw, .noneKw, .trueKw, .andKw, .asKw, .assertKw, .asyncKw,
  .awaitKw, .breakKw, .classKw, .continueKw, .defKw, .delKw, .elifKw, .elseKw, .exceptKw,
  .finallyKw, .forKw, .fromKw, .globalKw, .ifKw, .importKw, .inKw, .isKw, .lambdaKw,
  .nonlocalKw, .notKw, .orKw, .passKw, .raiseKw, .returnKw, .tryKw, .whileKw, .withKw, .yieldKw,
  .sourceFile, .block, .name, .dottedName, .importStmt, .importFromStmt, .importAlias,
  .classDef, .functionDef, .decorator, .paramList, .param, .ifStmt, .elifClause, .elseClause,
  .forStmt, .whileStmt, .withStmt, .withItem, .tryStmt, .exceptClause, .finallyClause,
  .returnStmt, .passStmt, .breakStmt, .continueStmt, .raiseStmt, .globalStmt, .nonlocalStmt,
  .delStmt, .assertStmt, .exprStmt, .assignStmt, .augAssignStmt, .annAssignStmt, .nameRef,
  .literal, .stringLiteral, .callExpr, .argList, .arg, .keywordArg, .starredArg,
  .doubleStarredArg, .attributeExpr, .subscriptExpr, .slice, .parenExpr, .tupleExpr, .listExpr,
  .setExpr, .dictExpr, .dictEntry, .comprehension, .compFor, .compIf, .binExpr, .boolExpr,
  .compareExpr, .unaryExpr, .awaitExpr, .lambdaExpr, .condExpr, .namedExpr, .starredExpr,
  .yieldExpr, .error, .endOfFile]

/-- The kind with a given number. -/
def ofNumber? (n : Nat) : Option Kind := all[n]?

/-- The tag a kind is known by outside the library. -/
def tag : Kind → String
  | .whitespace => "WHITESPACE"
  | .comment => "COMMENT"
  | .lineContinuation => "LINE_CONTINUATION"
  | .newline => "NEWLINE"
  | .indent => "INDENT"
  | .dedent => "DEDENT"
  | .ident => "IDENT"
  | .number => "NUMBER"
  | .string => "STRING"
  | .lParen => "L_PAREN"
  | .rParen => "R_PAREN"
  | .lBracket => "L_BRACKET"
  | .rBracket => "R_BRACKET"
  | .lBrace => "L_BRACE"
  | .rBrace => "R_BRACE"
  | .comma => "COMMA"
  | .colon => "COLON"
  | .semicolon => "SEMICOLON"
  | .dot => "DOT"
  | .ellipsis => "ELLIPSIS"
  | .atSign => "AT"
  | .arrow => "ARROW"
  | .eq => "EQ"
  | .colonEq => "COLON_EQ"
  | .augAssign => "AUG_ASSIGN"
  | .eqEq => "EQ_EQ"
  | .bangEq => "BANG_EQ"
  | .lt => "LT"
  | .gt => "GT"
  | .ltEq => "LT_EQ"
  | .gtEq => "GT_EQ"
  | .plus => "PLUS"
  | .minus => "MINUS"
  | .star => "STAR"
  | .starStar => "STAR_STAR"
  | .slash => "SLASH"
  | .slashSlash => "SLASH_SLASH"
  | .percent => "PERCENT"
  | .ltLt => "LT_LT"
  | .gtGt => "GT_GT"
  | .amp => "AMP"
  | .pipe => "PIPE"
  | .caret => "CARET"
  | .tilde => "TILDE"
  | .falseKw => "FALSE_KW"
  | .noneKw => "NONE_KW"
  | .trueKw => "TRUE_KW"
  | .andKw => "AND_KW"
  | .asKw => "AS_KW"
  | .assertKw => "ASSERT_KW"
  | .asyncKw => "ASYNC_KW"
  | .awaitKw => "AWAIT_KW"
  | .breakKw => "BREAK_KW"
  | .classKw => "CLASS_KW"
  | .continueKw => "CONTINUE_KW"
  | .defKw => "DEF_KW"
  | .delKw => "DEL_KW"
  | .elifKw => "ELIF_KW"
  | .elseKw => "ELSE_KW"
  | .exceptKw => "EXCEPT_KW"
  | .finallyKw => "FINALLY_KW"
  | .forKw => "FOR_KW"
  | .fromKw => "FROM_KW"
  | .globalKw => "GLOBAL_KW"
  | .ifKw => "IF_KW"
  | .importKw => "IMPORT_KW"
  | .inKw => "IN_KW"
  | .isKw => "IS_KW"
  | .lambdaKw => "LAMBDA_KW"
  | .nonlocalKw => "NONLOCAL_KW"
  | .notKw => "NOT_KW"
  | .orKw => "OR_KW"
  | .passKw => "PASS_KW"
  | .raiseKw => "RAISE_KW"
  | .returnKw => "RETURN_KW"
  | .tryKw => "TRY_KW"
  | .whileKw => "WHILE_KW"
  | .withKw => "WITH_KW"
  | .yieldKw => "YIELD_KW"
  | .sourceFile => "SOURCE_FILE"
  | .block => "BLOCK"
  | .name => "NAME"
  | .dottedName => "DOTTED_NAME"
  | .importStmt => "IMPORT_STMT"
  | .importFromStmt => "IMPORT_FROM_STMT"
  | .importAlias => "IMPORT_ALIAS"
  | .classDef => "CLASS_DEF"
  | .functionDef => "FUNCTION_DEF"
  | .decorator => "DECORATOR"
  | .paramList => "PARAM_LIST"
  | .param => "PARAM"
  | .ifStmt => "IF_STMT"
  | .elifClause => "ELIF_CLAUSE"
  | .elseClause => "ELSE_CLAUSE"
  | .forStmt => "FOR_STMT"
  | .whileStmt => "WHILE_STMT"
  | .withStmt => "WITH_STMT"
  | .withItem => "WITH_ITEM"
  | .tryStmt => "TRY_STMT"
  | .exceptClause => "EXCEPT_CLAUSE"
  | .finallyClause => "FINALLY_CLAUSE"
  | .returnStmt => "RETURN_STMT"
  | .passStmt => "PASS_STMT"
  | .breakStmt => "BREAK_STMT"
  | .continueStmt => "CONTINUE_STMT"
  | .raiseStmt => "RAISE_STMT"
  | .globalStmt => "GLOBAL_STMT"
  | .nonlocalStmt => "NONLOCAL_STMT"
  | .delStmt => "DEL_STMT"
  | .assertStmt => "ASSERT_STMT"
  | .exprStmt => "EXPR_STMT"
  | .assignStmt => "ASSIGN_STMT"
  | .augAssignStmt => "AUG_ASSIGN_STMT"
  | .annAssignStmt => "ANN_ASSIGN_STMT"
  | .nameRef => "NAME_REF"
  | .literal => "LITERAL"
  | .stringLiteral => "STRING_LITERAL"
  | .callExpr => "CALL_EXPR"
  | .argList => "ARG_LIST"
  | .arg => "ARG"
  | .keywordArg => "KEYWORD_ARG"
  | .starredArg => "STARRED_ARG"
  | .doubleStarredArg => "DOUBLE_STARRED_ARG"
  | .attributeExpr => "ATTRIBUTE_EXPR"
  | .subscriptExpr => "SUBSCRIPT_EXPR"
  | .slice => "SLICE"
  | .parenExpr => "PAREN_EXPR"
  | .tupleExpr => "TUPLE_EXPR"
  | .listExpr => "LIST_EXPR"
  | .setExpr => "SET_EXPR"
  | .dictExpr => "DICT_EXPR"
  | .dictEntry => "DICT_ENTRY"
  | .comprehension => "COMPREHENSION"
  | .compFor => "COMP_FOR"
  | .compIf => "COMP_IF"
  | .binExpr => "BIN_EXPR"
  | .boolExpr => "BOOL_EXPR"
  | .compareExpr => "COMPARE_EXPR"
  | .unaryExpr => "UNARY_EXPR"
  | .awaitExpr => "AWAIT_EXPR"
  | .lambdaExpr => "LAMBDA_EXPR"
  | .condExpr => "COND_EXPR"
  | .namedExpr => "NAMED_EXPR"
  | .starredExpr => "STARRED_EXPR"
  | .yieldExpr => "YIELD_EXPR"
  | .error => "ERROR"
  | .endOfFile => "EOF"

/-- Blanks, comments and line continuations: they separate words and mean
nothing more. -/
def isTrivia : Kind → Bool
  | .whitespace | .comment | .lineContinuation => true
  | _ => false

/-- The reserved words. -/
def keywords : List (Text × Kind) := [
  ("False".toList, .falseKw), ("None".toList, .noneKw), ("True".toList, .trueKw),
  ("and".toList, .andKw), ("as".toList, .asKw), ("assert".toList, .assertKw),
  ("async".toList, .asyncKw), ("await".toList, .awaitKw), ("break".toList, .breakKw),
  ("class".toList, .classKw), ("continue".toList, .continueKw), ("def".toList, .defKw),
  ("del".toList, .delKw), ("elif".toList, .elifKw), ("else".toList, .elseKw),
  ("except".toList, .exceptKw), ("finally".toList, .finallyKw), ("for".toList, .forKw),
  ("from".toList, .fromKw), ("global".toList, .globalKw), ("if".toList, .ifKw),
  ("import".toList, .importKw), ("in".toList, .inKw), ("is".toList, .isKw),
  ("lambda".toList, .lambdaKw), ("nonlocal".toList, .nonlocalKw), ("not".toList, .notKw),
  ("or".toList, .orKw), ("pass".toList, .passKw), ("raise".toList, .raiseKw),
  ("return".toList, .returnKw), ("try".toList, .tryKw), ("while".toList, .whileKw),
  ("with".toList, .withKw), ("yield".toList, .yieldKw)]

/-- The kind of a reserved word. -/
def ofKeyword? (word : Text) : Option Kind := keywords.lookup word

/-- Whether the kind is that of a reserved word. -/
def isKeyword (k : Kind) : Bool := keywords.any fun entry => entry.2 == k

/-- The kinds of punctuation. -/
def punctuation : List Kind := [
  .lParen, .rParen, .lBracket, .rBracket, .lBrace, .rBrace, .comma, .colon, .semicolon, .dot,
  .ellipsis, .atSign, .arrow, .eq, .colonEq, .augAssign, .eqEq, .bangEq, .lt, .gt, .ltEq, .gtEq,
  .plus, .minus, .star, .starStar, .slash, .slashSlash, .percent, .ltLt, .gtGt, .amp, .pipe,
  .caret, .tilde]

/-- Whether the kind is one of punctuation. -/
def isPunctuation (k : Kind) : Bool := punctuation.contains k

/-- Whether a token of the kind is a value by itself. -/
def isLiteral : Kind → Bool
  | .number | .string | .trueKw | .falseKw | .noneKw => true
  | _ => false

/-- How the kind is named in messages to a reader. -/
def displayName : Kind → String
  | .newline => "newline"
  | .indent => "indent"
  | .dedent => "dedent"
  | .ident => "identifier"
  | .number => "number"
  | .string => "string"
  | .lParen => "'('"
  | .rParen => "')'"
  | .lBracket => "'['"
  | .rBracket => "']'"
  | .lBrace => "'\x7b'"
  | .rBrace => "'\x7d'"
  | .comma => "','"
  | .colon => "':'"
  | .dot => "'.'"
  | .eq => "'='"
  | .importKw => "'import'"
  | .inKw => "'in'"
  | .error => "invalid token"
  | .endOfFile => "end of file"
  | k => if k.isKeyword then "keyword" else "token"

end Kind

end SceneGate
