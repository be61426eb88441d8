/-!
# Import path literals

The path that a string literal stands for.  A raw literal, and one without a
backslash, stands for the text between its quotes.  In all others the usual
one-letter escapes, octal escapes of one to three digits and the hexadecimal
escapes `\x`, `\u`, `\U` stand for characters, a backslash before a line end
vanishes with it, and any other backslash stands for itself.
-/

namespace GoSplice.ImportPath

def hexValue (c : Char) : Nat :=
  if c.isDigit then c.toNat - 48
  else if 'a' ≤ c && c ≤ 'f' then c.toNat - 87
  else c.toNat - 55

def numberOf (base : Nat) (ds : List Char) : Nat := ds.foldl (fun n d => n * base + hexValue d) 0

/-- The character of a hexadecimal escape, if there is one of that number. -/
def hexChar? (ds : List Char) : Option Char :=
  let n := numberOf 16 ds
  if n < 0x110000 then some (if n.isValidChar then Char.ofNat n else '\uFFFD') else none

def isOctal (c : Char) : Bool := '0' ≤ c && c ≤ '7'

/-- The octal digits at the start of an escape, three at most. -/
def octalDigits (s : List Char) : List Char := (s.take 3).takeWhile isOctal

/-- The character that a letter behind a backslash stands for. -/
def named? : Char → Option Char
  | '\\' => some '\\'
  | '\'' => some '\''
  | '"' => some '"'
  | 'a' => some '\x07'
  | 'b' => some '\x08'
  | 'f' => some '\x0c'
  | 'n' => some '\n'
  | 'r' => some '\r'
  | 't' => some '\t'
  | 'v' => some '\x0b'
  | _ => none

/-- The text of an escape and how many characters it takes behind its backslash;
none if it has no meaning. -/
def escape? : List Char → Option (List Char × Nat)
  | [] => none
  | c :: r =>
    if c = '\n' || c = '\r' then some ([], 1)
    else if let some d := named? c then some ([d], 1)
    else if isOctal c then
      let ds := octalDigits (c :: r)
      some ([Char.ofNat (numberOf 8 ds)], ds.length)
    else if c = 'x' then (hexChar? (r.take 2)).map fun d => ([d], 3)
    else if c = 'u' then (hexChar? (r.take 4)).map fun d => ([d], 5)
    else if c = 'U' then (hexChar? (r.take 8)).map fun d => ([d], 9)
    else if c = 'N' then none
    else some (['\\', c], 1)

/-- The text of a literal between its quotes; `skip` characters belong to an
escape already read. -/
def unescape? : Nat → List Char → Option (List Char)
  | _, [] => some []
  | skip + 1, _ :: r => unescape? skip r
  | 0, c :: r =>
    if c = '\\' then
      match escape? r with
      | none => none
      | some (text, n) => (unescape? n r).map (text ++ ·)
    else if c = '\r' then none
    else (unescape? 0 r).map (c :: ·)

/-- The path of a literal, quotes included. -/
def ofLiteral? (literal : List Char) : Option (List Char) :=
  let inner := (literal.drop 1).dropLast
  if literal.head? = some '\x60' || !inner.contains '\\' then some inner else unescape? 0 inner

end GoSplice.ImportPath
