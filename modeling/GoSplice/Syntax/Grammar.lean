import GoSplice.Syntax.Pattern

/-!
# The grammar of Go files

Types, expressions, statements and top-level items as patterns.  Three rules
govern blanks and line ends:

* a line end is a terminator wherever a statement, a declaration or a member of
  a body could end, and a blank everywhere else, so it is refused only before
  tokens that would carry such a thing on;
* in the header of an `if`, `for` or `switch`, a brace behind a plain name opens
  the body, never a composite literal;
* operators are read as long as the place allows: `a<-b` sends at the start of
  a statement and compares with `-b` elsewhere, `a++b` likewise.

Trees mark what the rest of the library looks at: the items, their names, the
specs of imports, receivers, and the values that end a statement.
-/

namespace GoSplice.Syntax

/-- What a tree node stands for. -/
inductive Label where
  | packageClause | importDecl | importSpec | importName | importPath | closeParen
  | function | method | receiver | parameter | plainType | pointerType | otherType
  | constDecl | varDecl | typeDecl | spec | name | comma | value
  | simple | define | assign | increment | decrement | send
  | labeled | returning | going | deferring | breaking | continuing | goingTo | fallingThrough
  | conditional | loop | switching | typeSwitching | selecting | block | empty
  deriving Repr, DecidableEq

/-- Where an expression stands.  With `lines`, a line end behind it is a
terminator; with `literals`, a brace behind a plain name opens a literal; with
`head`, it may turn out to be the left side of a statement. -/
structure Setting where
  lines : Bool
  literals : Bool
  head : Bool
  deriving Repr, DecidableEq

namespace Setting

/-- The start of a statement. -/
def statement : Setting := ⟨true, true, true⟩
/-- A value in a statement. -/
def value : Setting := ⟨true, true, false⟩
/-- The start of a header. -/
def header : Setting := ⟨false, false, true⟩
/-- Between brackets, or before a colon. -/
def enclosed : Setting := ⟨false, true, false⟩
/-- The start of a communication clause. -/
def communication : Setting := ⟨false, true, true⟩

/-- The same place behind the start. -/
def inner (s : Setting) : Setting := { s with head := false }

end Setting

/-- The rules that refer to each other.  `lines` says whether a line end behind
a type is a terminator. -/
inductive Rule where
  | type (lines : Bool)
  | typeArguments
  | parameters
  | expression (s : Setting)
  | primary (s : Setting)
  | literalValue
  | statements
  | statement
  | conditional
  | block
  deriving Repr, DecidableEq

namespace Grammar

open Pattern

abbrev P := Pattern Rule Label

/-! ## Small parts -/

/-- A name in a place where only a name can stand. -/
def name : P := .token [.name, .constant, .allocator]

/-- A name at the start of an operand. -/
def plainName : P := .token [.name]

def comma : P := operator .comma
def leftParen : P := operator .leftParen
def rightParen : P := operator .rightParen
def leftBracket : P := operator .leftBracket
def rightBracket : P := operator .rightBracket
def leftBrace : P := operator .leftBrace
def rightBrace : P := operator .rightBrace
def semicolon : P := operator .semicolon

def terminator : P := any [.lineEnd, semicolon]

/-- `p`, on the same line if line ends count. -/
def next (lines : Bool) (p : P) : P := if lines then .seq .sameLine p else p

/-- One `p` or more, with commas between them. -/
def listOf (p : P) : P := .seq p (.star (.seq comma p))

/-- As `listOf`, a comma carrying the list on only from the same line. -/
def listOn (lines : Bool) (p : P) : P := .seq p (.star (.seq (next lines comma) p))

/-- Members separated by terminators, the last terminator optional. -/
def body (member : P) : P :=
  optional (all [member, .star (.seq terminator member), optional terminator])

def type (lines : Bool) : P := .rule (.type lines)
def expression (s : Setting) : P := .rule (.expression s)
def enclosedExpression : P := expression .enclosed
def expressions (s : Setting) : P := listOn s.lines (expression s)

/-! ## Types -/

/-- A type name with its package and its arguments. -/
def namedType (lines : Bool) (first : P) : P :=
  all [first, optional (next lines (.seq (operator .dot) name)),
    optional (next lines (.rule .typeArguments))]

/-- A union of types. -/
def typeUnion : P := .seq (type false) (.star (.seq (operator .or) (type false)))

def typeArguments : P :=
  all [leftBracket, listOf typeUnion, optional comma, rightBracket]

def typeParameters : P :=
  all [leftBracket, listOf (.seq (listOf name) typeUnion), optional comma, rightBracket]

/-- Names and their type, a variadic parameter, or a type alone. -/
def parameter (t : P) : P :=
  any [.seq (listOf name) t, all [name, operator .ellipsis, t], .seq (operator .ellipsis) t, t]

def parameterList (p : P) : P :=
  all [leftParen, optional (listOf p), optional comma, rightParen]

def parameters : P := parameterList (parameter (type false))

def result (lines : Bool) : P := any [.rule .parameters, type lines]

/-- Where a struct member that is a type alone ends. -/
def memberEnd : P :=
  .ahead (any [.lineEnd, semicolon, rightBrace, .token [.text]])

def structMember : P :=
  .seq
    (any [
      all [optional (operator .mul), namedType true name, memberEnd],
      all [name, .sameLine, comma, listOf name, type true],
      all [name, .sameLine, type true]])
    (optional (.seq .sameLine (.token [.text])))

def interfaceMember : P :=
  any [
    all [name, .sameLine, .rule .parameters, optional (.seq .sameLine (result true))],
    .seq (type true) (.star (all [.sameLine, operator .or, type true]))]

def sliceType (lines : Bool) : P := all [leftBracket, rightBracket, type lines]
def arrayType (lines : Bool) : P := all [leftBracket, enclosedExpression, rightBracket, type lines]
def mapType (lines : Bool) : P :=
  all [keyword .mapK, leftBracket, type false, rightBracket, type lines]
def structType : P := all [keyword .structK, leftBrace, body structMember, rightBrace]
def interfaceType : P := all [keyword .interfaceK, leftBrace, body interfaceMember, rightBrace]
def channelType (lines : Bool) : P :=
  any [all [keyword .chanK, optional (operator .arrow), type lines],
    all [operator .arrow, keyword .chanK, type lines]]
def functionType (lines : Bool) : P :=
  all [keyword .funcK, .rule .parameters, optional (next lines (result lines))]

def anyType (lines : Bool) : P :=
  any [
    namedType lines name,
    .seq (operator .mul) (type lines),
    all [leftParen, type false, rightParen],
    sliceType lines, arrayType lines, mapType lines, structType, interfaceType,
    channelType lines, functionType lines,
    .seq (operator .tilde) (type lines)]

/-! ## Expressions -/

def binaryOperators : List Operator := [
  .mul, .div, .rem, .shiftLeft, .shiftRight, .and, .andNot, .add, .sub, .or, .xor,
  .equal, .notEqual, .less, .lessEqual, .greater, .greaterEqual, .logicalAnd, .logicalOr]

/-- Behind the start of a statement, `<-`, `++` and `--` are a binary operator and a sign. -/
def binaryOperator (s : Setting) : P :=
  .token ((if s.head then binaryOperators
    else .arrow :: .increment :: .decrement :: binaryOperators).map Kind.operator)

/-- `++`, `--`, `&&` and `&^` are two operators each in front of an operand. -/
def unaryOperator : P :=
  .token ([.add, .sub, .not, .xor, .mul, .and, .arrow, .increment, .decrement, .logicalAnd,
    .andNot].map Kind.operator)

def unary (s : Setting) : P := .seq (.star unaryOperator) (.rule (.primary s))

def anyExpression (s : Setting) : P :=
  .seq (unary s) (.star (.seq (next s.lines (binaryOperator s)) (unary s)))

/-- The elements of a composite literal, keys included. -/
def literalValue : P :=
  let part := any [.rule .literalValue, enclosedExpression]
  all [leftBrace, optional (listOf (.seq part (optional (.seq (operator .colon) part)))),
    optional comma, rightBrace]

def arguments : P :=
  all [leftParen,
    optional (.seq (listOf (.seq enclosedExpression (optional (operator .ellipsis))))
      (optional comma)),
    rightParen]

/-- The arguments of `new` and `make`: a type comes first. -/
def allocatorArguments : P :=
  all [leftParen,
    optional (all [type false, .star (.seq comma enclosedExpression), optional comma]),
    rightParen]

/-- An index or a slice. -/
def subscript : P :=
  let bounds := .seq (operator .colon) (any [
    .seq enclosedExpression
      (any [rightBracket, all [operator .colon, enclosedExpression, rightBracket]]),
    rightBracket])
  .seq leftBracket (any [.seq enclosedExpression (any [rightBracket, bounds]), bounds])

def suffix (s : Setting) : P :=
  next s.lines (any [
    .seq (operator .dot) (any [name, all [leftParen, type false, rightParen]]),
    arguments,
    subscript,
    .seq (.rule .typeArguments) (.ahead leftParen)])

/-- The operand of a conversion. -/
def converted : P := all [leftParen, enclosedExpression, optional comma, rightParen]

/-- A composite literal in a header: of a qualified or generic type only, and
only if what follows on the line cannot begin the body. -/
def headerLiteral : P :=
  all [
    plainName,
    any [.seq (.seq (operator .dot) name) (optional (.rule .typeArguments)), .rule .typeArguments],
    .rule .literalValue,
    .ahead (.seq .sameLine (.token
      ((.leftBrace :: .dot :: .leftParen :: .leftBracket :: binaryOperators).map Kind.operator)))]

/-- Operands that begin with a name. -/
def namedOperand (s : Setting) : P :=
  any [
    if s.literals then .seq (namedType s.lines plainName) (next s.lines (.rule .literalValue))
    else headerLiteral,
    all [plainName, optional (next s.lines (.seq (operator .dot) name)),
      next s.lines leftBracket, listOf (type false), optional comma, rightBracket],
    plainName]

def operand (s : Setting) : P :=
  any [
    namedOperand s,
    .token [.number, .rune, .text, .constant],
    .seq (.token [.allocator])
      (any [next s.lines allocatorArguments, .absent (next s.lines leftParen)]),
    all [leftParen, enclosedExpression, rightParen],
    all [leftParen, type false, rightParen, converted],
    all [keyword .funcK, .rule .parameters, optional (result false), .rule .block],
    .seq (any [sliceType false, arrayType false, mapType false, structType])
      (any [.rule .literalValue, converted]),
    all [leftBracket, operator .ellipsis, rightBracket, type false, .rule .literalValue],
    .seq (any [interfaceType, channelType false, functionType false,
      .seq (operator .tilde) (type false)]) converted]

def primary (s : Setting) : P := .seq (operand s) (.star (suffix s))

/-! ## Declarations -/

def constSpec : P :=
  .node .spec (all [
    .node .name name,
    .star (all [.sameLine, .node .comma comma, .node .name name]),
    optional (.seq .sameLine (all [
      any [operator .assign, .seq (type false) (operator .assign)],
      .node .value (expressions .value)]))])

def varSpec : P :=
  .node .spec (all [
    listOf (.node .name name),
    any [
      .seq (operator .assign) (.node .value (expressions .value)),
      .seq (type true)
        (optional (all [.sameLine, operator .assign, .node .value (expressions .value)]))]])

def typeSpec : P :=
  .node .spec (all [
    .node .name name,
    any [
      all [optional typeParameters, operator .assign, type true],
      .seq typeParameters (type true),
      type true]])

def constDeclaration : P :=
  .seq (keyword .constK)
    (any [all [leftParen, .star (.seq constSpec terminator), rightParen], constSpec])

def varDeclaration : P :=
  .seq (keyword .varK)
    (any [all [leftParen, .star (.seq varSpec terminator), rightParen], varSpec])

def typeDeclaration : P :=
  .seq (keyword .typeK)
    (any [all [leftParen, .star (.seq typeSpec terminator), optional typeSpec, rightParen],
      typeSpec])

/-! ## Statements -/

def assignmentOperators : List Operator := [
  .assign, .addAssign, .subAssign, .mulAssign, .divAssign, .remAssign, .andAssign, .orAssign,
  .xorAssign, .shiftLeftAssign, .shiftRightAssign, .andNotAssign]

/-- An expression, and what makes a statement of it. -/
def simple (s : Setting) : P :=
  .node .simple (.seq (expression s) (any [
    all [
      .star (.seq (next s.lines comma) (expression s.inner)),
      next s.lines (any [.node .define (operator .define),
        .node .assign (.token (assignmentOperators.map Kind.operator))]),
      .node .value (expressions s.inner)],
    next s.lines (.node .increment (operator .increment)),
    next s.lines (.node .decrement (operator .decrement)),
    .seq (next s.lines (.node .send (operator .arrow))) (expression s.inner),
    .empty]))

/-- A label that ends its list of statements. -/
def lastLabel : P :=
  all [plainName, .sameLine, operator .colon,
    .ahead (.token [.operator .rightBrace, .keyword .caseK, .keyword .defaultK])]

def statements : P := body (any [lastLabel, .rule .statement])

def block : P := all [leftBrace, .hidden statements, rightBrace]

/-- A header part that a semicolon ends. -/
def initializer : P := .seq (.hidden (simple .header)) semicolon

def conditional : P :=
  all [
    keyword .ifK,
    any [.seq initializer (expression Setting.header.inner), expression .header],
    .rule .block,
    optional (all [.sameLine, keyword .elseK, any [.rule .conditional, .rule .block]])]

def rangeClause : P :=
  all [
    optional (.seq (expressions .header) (.token [.operator .assign, .operator .define])),
    keyword .rangeK, expression Setting.header.inner]

def forClause : P :=
  all [optional (.hidden (simple .header)), semicolon,
    optional (expression Setting.header.inner), semicolon, optional (.hidden (simple .header))]

def loop : P :=
  all [keyword .forK, any [rangeClause, forClause, optional (expression .header)], .rule .block]

/-- The clauses of a `switch` or `select`, each `case` with the given guard. -/
def clauses (guard : P) : P :=
  all [leftBrace,
    .star (all [any [.seq (keyword .caseK) guard, keyword .defaultK], operator .colon,
      .hidden (.rule .statements)]),
    rightBrace]

def typeSwitch : P :=
  all [
    keyword .switchK, optional initializer,
    optional (.seq (expressions .header) (operator .define)),
    expression Setting.header.inner, operator .dot, leftParen, keyword .typeK, rightParen,
    clauses (listOf (type false))]

def expressionSwitch : P :=
  all [
    keyword .switchK,
    any [.seq initializer (optional (expression Setting.header.inner)),
      optional (expression .header)],
    clauses (expressions .enclosed)]

def communication : P :=
  any [
    all [expression .communication, operator .arrow, enclosedExpression],
    all [expressions .communication, .token [.operator .assign, .operator .define],
      enclosedExpression],
    enclosedExpression]

def selection : P := .seq (keyword .selectK) (clauses communication)

def statement : P :=
  any [
    .node .constDecl constDeclaration,
    .node .varDecl varDeclaration,
    .node .typeDecl typeDeclaration,
    .node .labeled (all [plainName, .sameLine, operator .colon, .rule .statement]),
    .node .returning (.seq (keyword .returnK)
      (optional (.seq .sameLine (.node .value (expressions .value))))),
    .node .going (.seq (keyword .goK) (expression .value)),
    .node .deferring (.seq (keyword .deferK) (expression .value)),
    .node .breaking (.seq (keyword .breakK) (optional (.seq .sameLine name))),
    .node .continuing (.seq (keyword .continueK) (optional (.seq .sameLine name))),
    .node .goingTo (.seq (keyword .gotoK) name),
    .node .fallingThrough (keyword .fallthroughK),
    .node .conditional (.rule .conditional),
    .node .loop loop,
    .node .typeSwitching typeSwitch,
    .node .switching expressionSwitch,
    .node .selecting selection,
    .node .block (.rule .block),
    .node .empty semicolon,
    simple .statement]

/-! ## Items of a file -/

def importSpec : P :=
  .node .importSpec (any [
    .seq (.node .importName (any [operator .dot, name])) (.node .importPath (.token [.text])),
    .node .importPath (.token [.text])])

def importDeclaration : P :=
  .seq (keyword .importK)
    (any [all [leftParen, body importSpec, .node .closeParen rightParen], importSpec])

/-- The end of a parameter. -/
def parameterEnd : P := .ahead (any [comma, rightParen])

/-- The type of a receiver: a name, a pointer to a name, or something else. -/
def receiverType : P :=
  any [
    .seq (.node .plainType name) parameterEnd,
    .seq (.node .pointerType (.seq (operator .mul) (.node .plainType name))) parameterEnd,
    .node .otherType (type false)]

def receiver : P :=
  .node .receiver (parameterList (.node .parameter (parameter receiverType)))

/-- The rest of a function from its parameters on. -/
def signature : P :=
  all [.rule .parameters, optional (.seq .sameLine (result true)),
    optional (.seq .sameLine (.rule .block))]

def item : P :=
  any [
    .node .packageClause (.seq (keyword .packageK) (.node .name name)),
    .node .importDecl importDeclaration,
    .node .function (all [keyword .funcK, .node .name name, optional typeParameters, signature]),
    .node .method (all [keyword .funcK, receiver, .node .name name, signature]),
    .rule .statement]

/-- The pattern of each rule. -/
def rules : Rule → P
  | .type lines => anyType lines
  | .typeArguments => typeArguments
  | .parameters => parameters
  | .expression s => anyExpression s
  | .primary s => primary s
  | .literalValue => literalValue
  | .statements => statements
  | .statement => statement
  | .conditional => conditional
  | .block => block

end Grammar

end GoSplice.Syntax
