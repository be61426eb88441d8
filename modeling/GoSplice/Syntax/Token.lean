/-!
# Tokens

The words of a Go source file.  A token keeps its byte range and, in
`lineBreak`, whether a line ended between the token before and itself: a line
end is a terminator where the grammar takes one, and a blank elsewhere, so the
token sequence keeps both readings open.
-/

namespace GoSplice.Syntax

/-- The reserved words. -/
inductive Keyword where
  | breakK | caseK | chanK | constK | continueK | defaultK | deferK | elseK | fallthroughK
  | forK | funcK | goK | gotoK | ifK | importK | interfaceK | mapK | packageK | rangeK
  | returnK | selectK | structK | switchK | typeK | varK
  deriving Repr, DecidableEq

/-- Operators and punctuation. -/
inductive Operator where
  | add | sub | mul | div | rem | and | or | xor | shiftLeft | shiftRight | andNot
  | addAssign | subAssign | mulAssign | divAssign | remAssign | andAssign | orAssign
  | xorAssign | shiftLeftAssign | shiftRightAssign | andNotAssign
  | logicalAnd | logicalOr | arrow | increment | decrement | equal | less | greater | assign
  | not | tilde | notEqual | lessEqual | greaterEqual | define | ellipsis
  | leftParen | rightParen | leftBracket | rightBracket | leftBrace | rightBrace
  | comma | semicolon | dot | colon
  deriving Repr, DecidableEq

/-- What a token is.  `constant` are the names `nil`, `true`, `false`, `iota`,
and `allocator` the names `new`, `make`: names everywhere but at the start of
an operand, where they have a role of their own.  `unclosed` is a string
literal that lacks its closing quote, and `junk` a stretch that begins no token. -/
inductive Kind where
  | name | constant | allocator | number | rune | text
  | keyword (k : Keyword)
  | operator (o : Operator)
  | unclosed (quote : Char)
  | junk
  deriving Repr, DecidableEq

/-- A token at the bytes from `start` to `stop`.  `lineBreak` is the offset after
the first line end between it and the token before. -/
structure Token where
  kind : Kind
  start : Nat
  stop : Nat
  lineBreak : Option Nat
  deriving Repr, DecidableEq

/-- The spelling of each keyword. -/
def keywords : List (String × Keyword) := [
  ("break", .breakK), ("case", .caseK), ("chan", .chanK), ("const", .constK),
  ("continue", .continueK), ("default", .defaultK), ("defer", .deferK), ("else", .elseK),
  ("fallthrough", .fallthroughK), ("for", .forK), ("func", .funcK), ("go", .goK),
  ("goto", .gotoK), ("if", .ifK), ("import", .importK), ("interface", .interfaceK),
  ("map", .mapK), ("package", .packageK), ("range", .rangeK), ("return", .returnK),
  ("select", .selectK), ("struct", .structK), ("switch", .switchK), ("type", .typeK),
  ("var", .varK)]

/-- The spelling of each operator, longer ones before their beginnings. -/
def operators : List (String × Operator) := [
  ("<<=", .shiftLeftAssign), (">>=", .shiftRightAssign), ("&^=", .andNotAssign),
  ("...", .ellipsis),
  ("<<", .shiftLeft), (">>", .shiftRight), ("&^", .andNot), ("+=", .addAssign),
  ("-=", .subAssign), ("*=", .mulAssign), ("/=", .divAssign), ("%=", .remAssign),
  ("&=", .andAssign), ("|=", .orAssign), ("^=", .xorAssign), ("&&", .logicalAnd),
  ("||", .logicalOr), ("<-", .arrow), ("++", .increment), ("--", .decrement),
  ("==", .equal), ("!=", .notEqual), ("<=", .lessEqual), (">=", .greaterEqual),
  (":=", .define),
  ("+", .add), ("-", .sub), ("*", .mul), ("/", .div), ("%", .rem), ("&", .and), ("|", .or),
  ("^", .xor), ("<", .less), (">", .greater), ("=", .assign), ("!", .not), ("~", .tilde),
  ("(", .leftParen), (")", .rightParen), ("[", .leftBracket), ("]", .rightBracket),
  ("\x7b", .leftBrace), ("\x7d", .rightBrace), (",", .comma), (";", .semicolon), (".", .dot),
  (":", .colon)]

/-- The kind of a word made of letters and digits. -/
def Kind.ofWord (s : List Char) : Kind :=
  let w := String.ofList s
  match keywords.lookup w with
  | some k => .keyword k
  | none =>
    if ["nil", "true", "false", "iota"].contains w then .constant
    else if ["new", "make"].contains w then .allocator
    else .name

end GoSplice.Syntax
