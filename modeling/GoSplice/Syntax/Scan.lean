import GoSplice.Syntax.Literal
import GoSplice.Text.Letter

/-!
# From text to tokens

`lexemes` cuts a text into stretches: blanks, line ends, comments and tokens.
Nothing is lost; the texts of the stretches concatenate to the text.  `scan`
gives the tokens and the comments their byte ranges.
-/

namespace GoSplice.Syntax

/-! ## Stretches -/

inductive LexemeClass where
  | blank | newline | comment
  | token (kind : Kind)
  deriving Repr, DecidableEq

structure Lexeme where
  cls : LexemeClass
  text : List Char
  deriving Repr

/-- Blanks inside a line. -/
def isInlineBlank (c : Char) : Bool :=
  c = ' ' || c = '\t' || c = '\r' || c = '\x0b' || c = '\x0c'

/-- The number of characters before the end of a block comment, its mark included. -/
def blockCommentLength? : List Char → Option Nat
  | [] => none
  | '*' :: '/' :: _ => some 2
  | _ :: r => (blockCommentLength? r).map (· + 1)

def operator? (s : List Char) : Option (String × Operator) :=
  operators.find? fun (w, _) => w.toList.isPrefixOf s

/-- Whether a character begins no token, comment or blank. -/
def isJunk (c : Char) : Bool :=
  !(isInlineBlank c || c = '\n' || Text.isWordChar c || "\"'\x60".toList.contains c ||
    (operator? [c]).isSome)

def ofEnding (quote : Char) (rest : Nat) : Ending → LexemeClass × Nat
  | .closed n => (.token .text, n)
  | .unclosed n => (.token (.unclosed quote), n)
  | .broken => (.token .junk, rest)

/-- An operator, or junk. -/
def operatorLexeme (c : Char) (r : List Char) : LexemeClass × Nat :=
  match operator? (c :: r) with
  | some (w, o) => (.token (.operator o), w.length - 1)
  | none => (.token .junk, (r.takeWhile isJunk).length)

/-- A number that begins with `c`. -/
def numberLexeme (c : Char) (r : List Char) : LexemeClass × Nat :=
  let hex := c = '0' && (r.head? = some 'x' || r.head? = some 'X')
  let n := numberLength hex c r
  (.token (if isNumber (c :: r.take n) then .number else .junk), n)

/-- The class of the stretch that begins with `c`, and how many characters of
`r` belong to it.  An open block comment is no comment: its slash is an operator. -/
def measure (c : Char) (r : List Char) : LexemeClass × Nat :=
  if c = '\n' then (.newline, 0)
  else if isInlineBlank c then (.blank, (r.takeWhile isInlineBlank).length)
  else if Text.isLetter c then
    let n := (r.takeWhile Text.isWordChar).length
    (.token (.ofWord (c :: r.take n)), n)
  else if c.isDigit then numberLexeme c r
  else match c, r with
    | '/', '/' :: _ => (.comment, (r.takeWhile (· ≠ '\n')).length)
    | '/', '*' :: r' => match blockCommentLength? r' with
      | some n => (.comment, n + 1)
      | none => operatorLexeme c r
    | '.', d :: _ => if d.isDigit then numberLexeme c r else operatorLexeme c r
    | '"', _ => ofEnding c 0 (interpretedEnd r)
    | '\x60', _ => ofEnding c 0 (rawEnd r)
    | '\'', _ => match runeLength? r with
      | some n => (.token .rune, n)
      | none => (.token .junk, 0)
    | _, _ => operatorLexeme c r

def lexemesWithin : Nat → List Char → List Lexeme
  | 0, _ | _, [] => []
  | fuel + 1, c :: r =>
    let (cls, n) := measure c r
    ⟨cls, c :: r.take n⟩ :: lexemesWithin fuel (r.drop n)

/-- The stretches of a text.  Each takes a character at least, so the length of
the text bounds their number. -/
def lexemes (s : List Char) : List Lexeme := lexemesWithin s.length s

/-! ## Positions -/

/-- The byte range of a comment. -/
structure Comment where
  start : Nat
  stop : Nat
  deriving Repr, DecidableEq

/-- The tokens and comments of a file.  `lastBreak` is the offset after the first
line end behind the last token. -/
structure Scanned where
  tokens : List Token
  comments : List Comment
  lastBreak : Option Nat
  deriving Repr

def byteWidth (s : List Char) : Nat := s.foldr (fun c n => c.utf8Size + n) 0

/-- Positions for stretches that begin at offset `pos`, where `brk` is the first
line end since the last token. -/
def place (pos : Nat) (brk : Option Nat) : List Lexeme → Scanned
  | [] => ⟨[], [], brk⟩
  | l :: r =>
    let stop := pos + byteWidth l.text
    match l.cls with
    | .blank => place stop brk r
    | .newline => place stop (brk.or (some stop)) r
    | .comment =>
      let rest := place stop brk r
      { rest with comments := ⟨pos, stop⟩ :: rest.comments }
    | .token k =>
      let rest := place stop none r
      { rest with tokens := ⟨k, pos, stop, brk⟩ :: rest.tokens }

/-- The byte order mark. -/
def byteOrderMark : Char := '\uFEFF'

/-- The tokens and comments of a text.  A byte order mark at its start is skipped. -/
def scan : List Char → Scanned
  | [] => ⟨[], [], none⟩
  | c :: r =>
    if c = byteOrderMark then place c.utf8Size none (lexemes r) else place 0 none (lexemes (c :: r))

end GoSplice.Syntax
