import GoSplice.Syntax.Token

/-!
# Literals

How far a string, rune or number literal reaches, and which numbers are well
formed.  Lengths count characters.
-/

namespace GoSplice.Syntax

def isHexDigit (c : Char) : Bool :=
  c.isDigit || ('a' ≤ c && c ≤ 'f') || ('A' ≤ c && c ≤ 'F')

def isOctalDigit (c : Char) : Bool := '0' ≤ c && c ≤ '7'

def isBinaryDigit (c : Char) : Bool := c = '0' || c = '1'

/-- Whether `s` begins with `n` hexadecimal digits. -/
def beginsHex (n : Nat) (s : List Char) : Bool :=
  (s.take n).length == n && (s.take n).all isHexDigit

/-! ## Strings -/

/-- How the rest of a literal ends: closed after so many characters, open up to
the end of its line or file, or broken by an escape that means nothing. -/
inductive Ending where
  | closed (length : Nat)
  | unclosed (length : Nat)
  | broken
  deriving Repr, DecidableEq

def Ending.after (n : Nat) : Ending → Ending
  | .closed m => .closed (m + n)
  | .unclosed m => .unclosed (m + n)
  | .broken => .broken

/-- The rest of an interpreted string.  A backslash takes one character along,
whatever it is, except that `x`, `u` and `U` need two, four and eight
hexadecimal digits. -/
def interpretedEnd : List Char → Ending
  | [] => .unclosed 0
  | '"' :: _ => .closed 1
  | '\n' :: _ => .unclosed 0
  | '\\' :: 'x' :: r => if beginsHex 2 r then (interpretedEnd r).after 2 else .broken
  | '\\' :: 'u' :: r => if beginsHex 4 r then (interpretedEnd r).after 2 else .broken
  | '\\' :: 'U' :: r => if beginsHex 8 r then (interpretedEnd r).after 2 else .broken
  | '\\' :: _ :: r => (interpretedEnd r).after 2
  | ['\\'] => .broken
  | _ :: r => (interpretedEnd r).after 1

/-- The rest of a raw string, to its closing backquote. -/
def rawEnd : List Char → Ending
  | [] => .unclosed 0
  | c :: r => if c = '\x60' then .closed 1 else (rawEnd r).after 1

/-! ## Runes -/

/-- The length of an escape after its backslash. -/
def escapeLength? : List Char → Option Nat
  | 'x' :: r => if beginsHex 2 r then some 3 else none
  | 'u' :: r => if beginsHex 4 r then some 5 else none
  | 'U' :: r => if beginsHex 8 r then some 9 else none
  | c :: r =>
    if "abfnrtv\\'".toList.contains c then some 1
    else if isOctalDigit c && (r.take 2).length == 2 && (r.take 2).all isOctalDigit then some 3
    else none
  | [] => none

/-- The length of a rune literal after its opening quote: one character or
escape, and the closing quote. -/
def runeLength? (s : List Char) : Option Nat :=
  let body? := match s with
    | '\\' :: r => (escapeLength? r).map (· + 1)
    | '\'' :: _ => none
    | _ :: _ => some 1
    | [] => none
  body?.bind fun n => if s[n]? = some '\'' then some (n + 1) else none

/-! ## Numbers -/

/-- Digits of the class `p`, where one underscore may stand between two. -/
def isDigits (p : Char → Bool) : List Char → Bool
  | [] => false
  | [c] => p c
  | c :: '_' :: r => p c && isDigits p r
  | c :: r => p c && isDigits p r

/-- As `isDigits`, with one underscore more allowed in front. -/
def isDigitsAfterMark (p : Char → Bool) : List Char → Bool
  | '_' :: r => isDigits p r
  | s => isDigits p s

def isInteger : List Char → Bool
  | ['0'] => true
  | '0' :: c :: r =>
    if c = 'x' || c = 'X' then isDigitsAfterMark isHexDigit r
    else if c = 'b' || c = 'B' then isDigitsAfterMark isBinaryDigit r
    else if c = 'o' || c = 'O' then isDigitsAfterMark isOctalDigit r
    else isDigitsAfterMark isOctalDigit (c :: r)
  | s => isDigits Char.isDigit s

/-- The digits of an exponent, with or without a sign. -/
def isExponent : List Char → Bool
  | '+' :: r => isDigits Char.isDigit r
  | '-' :: r => isDigits Char.isDigit r
  | s => isDigits Char.isDigit s

def isDecimalFraction (s : List Char) : Bool :=
  let (mantissa, mark) := s.span fun c => c ≠ 'e' && c ≠ 'E'
  let exponentOk := match mark with
    | [] => true
    | _ :: x => isExponent x
  exponentOk && match mantissa.span (· ≠ '.') with
    | (whole, []) => !mark.isEmpty && isDigits Char.isDigit whole
    | (whole, _ :: part) =>
      (whole.isEmpty || isDigits Char.isDigit whole) &&
      (part.isEmpty || isDigits Char.isDigit part) && !(whole.isEmpty && part.isEmpty)

def isHexFraction : List Char → Bool
  | '0' :: c :: r =>
    (c = 'x' || c = 'X') &&
    match r.span fun c => c ≠ 'p' && c ≠ 'P' with
    | (_, []) => false
    | (mantissa, _ :: x) => isExponent x && match mantissa.span (· ≠ '.') with
      | (whole, []) => isDigitsAfterMark isHexDigit whole
      | (whole, _ :: part) =>
        if whole.isEmpty then isDigits isHexDigit part
        else isDigitsAfterMark isHexDigit whole && (part.isEmpty || isDigits isHexDigit part)
  | _ => false

def isReal (s : List Char) : Bool := isInteger s || isDecimalFraction s || isHexFraction s

/-- Whether a text is a number literal. -/
def isNumber (s : List Char) : Bool :=
  isReal s || match s.reverse with
    | 'i' :: r => isReal r.reverse || isDigits Char.isDigit r.reverse
    | _ => false

/-- How many characters belong to a number that has begun with `previous`: letters,
digits, underscores and points, and a sign after the mark of an exponent. -/
def numberLength (hex : Bool) (previous : Char) : List Char → Nat
  | [] => 0
  | c :: r =>
    let marked := if hex then previous = 'p' || previous = 'P' else previous = 'e' || previous = 'E'
    if c.isAlphanum || c = '_' || c = '.' || ((c = '+' || c = '-') && marked) then
      numberLength hex c r + 1
    else 0

end GoSplice.Syntax
