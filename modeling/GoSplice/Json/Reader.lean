import GoSplice.Json.Value
import GoSplice.Text.Utf8
import GoSplice.Number.Numeral

/-!
# Reading JSON

`read? bs` is the value that a UTF-8 text spells, or none.  Besides the
grammar of the format the words `NaN`, `Infinity` and `-Infinity` are numbers.
Text behind the value, a byte order mark, control characters inside strings
and escapes of lone surrogates are refused, and so are containers nested
deeper than `depthLimit`.

A reader takes the text and gives a value with the rest of the text.
-/

namespace GoSplice.Json

abbrev Read (α : Type) := List Char → Option (α × List Char)

/-! ## Space and words -/

def isSpace (c : Char) : Bool := c = ' ' || c = '\t' || c = '\n' || c = '\r'

def skipSpace (s : List Char) : List Char := s.dropWhile isSpace

/-- The text behind a word that it begins with. -/
def after? : List Char → List Char → Option (List Char)
  | [], s => some s
  | c :: w, d :: s => if c = d then after? w s else none
  | _ :: _, [] => none

/-! ## Strings -/

def hexDigit? (c : Char) : Option Nat :=
  if c.isDigit then some (c.toNat - 48)
  else if 'a' ≤ c && c ≤ 'f' then some (c.toNat - 87)
  else if 'A' ≤ c && c ≤ 'F' then some (c.toNat - 55)
  else none

/-- The number of four hexadecimal digits. -/
def hex4? : Read Nat
  | a :: b :: c :: d :: r => do
    let a ← hexDigit? a
    let b ← hexDigit? b
    let c ← hexDigit? c
    let d ← hexDigit? d
    return (((a * 16 + b) * 16 + c) * 16 + d, r)
  | _ => none

/-- The character of an escape behind `\u`; two surrogates make one character. -/
def unicodeEscape? : Read Char := fun s => do
  let (n, r) ← hex4? s
  if 0xD800 ≤ n ∧ n < 0xDC00 then
    let r ← after? ['\\', 'u'] r
    let (m, r) ← hex4? r
    if 0xDC00 ≤ m ∧ m < 0xE000 then
      return (Char.ofNat (0x10000 + (n - 0xD800) * 0x400 + (m - 0xDC00)), r)
    else none
  else if 0xDC00 ≤ n ∧ n < 0xE000 then none
  else return (Char.ofNat n, r)

/-- The character of an escape behind its backslash. -/
def escape? : Read Char
  | [] => none
  | c :: r =>
    match c with
    | '"' | '\\' | '/' => some (c, r)
    | 'b' => some ('\x08', r)
    | 'f' => some ('\x0c', r)
    | 'n' => some ('\n', r)
    | 'r' => some ('\r', r)
    | 't' => some ('\t', r)
    | 'u' => unicodeEscape? r
    | _ => none

/-- The characters up to the closing quote.  `fuel` bounds their number. -/
def stringRest? : Nat → Read (List Char)
  | 0, _ => none
  | _, [] => none
  | fuel + 1, c :: r =>
    if c = '"' then some ([], r)
    else if c.toNat < 0x20 then none
    else do
      let (d, r) ← if c = '\\' then escape? r else some (c, r)
      let (ds, r) ← stringRest? fuel r
      return (d :: ds, r)

/-- The string behind its opening quote. -/
def string? : Read String := fun s => do
  let (cs, r) ← stringRest? (s.length + 1) s
  return (String.ofList cs, r)

/-! ## Numbers -/

/-- The longest integer that is read. -/
def digitLimit : Nat := 4300

/-- The digits behind a point, none if there is no point. -/
def fraction? : Read (List Char)
  | '.' :: r =>
    let (ds, r) := Numeral.digits r
    if ds.isEmpty then none else some (ds, r)
  | s => some ([], s)

/-- An exponent, if there is one. -/
def exponent? : Read (Option Int)
  | c :: r =>
    if c = 'e' ∨ c = 'E' then
      let (negative, r) := Numeral.sign r
      let (ds, r) := Numeral.digits r
      if ds.isEmpty then none
      else some (some (if negative then -(Numeral.valueOf ds : Int) else Numeral.valueOf ds), r)
    else some (none, c :: r)
  | [] => some (none, [])

/-- A number without its sign. -/
def unsigned? (negative : Bool) : Read Number := fun s => do
  let (whole, r) := Numeral.digits s
  if whole.isEmpty ∨ (whole.head? = some '0' ∧ whole ≠ ['0']) ∨ digitLimit < whole.length then none
  else
    let (part, r) ← fraction? r
    let (e, r) ← exponent? r
    if part.isEmpty ∧ e.isNone then
      let n : Int := Numeral.valueOf whole
      return (.integer (if negative then -n else n), r)
    else
      return (.decimal negative (Numeral.valueOf (whole ++ part)) (e.getD 0 - part.length), r)

/-- A number at a character that is no other value's first. -/
def number? : Read Number
  | '-' :: r =>
    match after? "Infinity".toList r with
    | some r => some (.infinite true, r)
    | none => unsigned? true r
  | s => unsigned? false s

/-! ## Values -/

/-- How deep containers may nest. -/
def depthLimit : Nat := 200

/-- A value that holds no other, at its first character. -/
def scalar? : Read Value := fun s =>
  match s with
  | '"' :: r => (string? r).map fun (t, r) => (.string t, r)
  | 'n' :: _ => (after? "null".toList s).map (.null, ·)
  | 't' :: _ => (after? "true".toList s).map (.bool true, ·)
  | 'f' :: _ => (after? "false".toList s).map (.bool false, ·)
  | 'N' :: _ => (after? "NaN".toList s).map (.number .nan, ·)
  | 'I' :: _ => (after? "Infinity".toList s).map (.number (.infinite false), ·)
  | _ => (number? s).map fun (n, r) => (.number n, r)

/-- The name of a member and its colon. -/
def memberName? : Read String := fun s =>
  match skipSpace s with
  | '"' :: r => do
    let (name, r) ← string? r
    let r ← after? [':'] (skipSpace r)
    return (name, r)
  | _ => none

mutual

/-- The value behind any space, containers nesting at most `depth` deep. -/
def value? : Nat → Nat → Read Value
  | 0, _, _ => none
  | fuel + 1, depth, s =>
    match skipSpace s with
    | '[' :: r =>
      match skipSpace r, depth with
      | ']' :: r, _ => some (.array [], r)
      | r, depth + 1 => (items? fuel depth r).map fun (vs, r) => (.array vs, r)
      | _, 0 => none
    | '\x7b' :: r =>
      match skipSpace r, depth with
      | '\x7d' :: r, _ => some (.object [], r)
      | r, depth + 1 => (members? fuel depth r).map fun (ms, r) => (.object ms, r)
      | _, 0 => none
    | r => scalar? r

/-- The items up to the closing bracket, at least one. -/
def items? : Nat → Nat → Read (List Value)
  | 0, _, _ => none
  | fuel + 1, depth, s =>
    match value? fuel depth s with
    | none => none
    | some (v, r) =>
      match skipSpace r with
      | ',' :: r => (items? fuel depth r).map fun (vs, r) => (v :: vs, r)
      | ']' :: r => some ([v], r)
      | _ => none

/-- The members up to the closing brace, at least one. -/
def members? : Nat → Nat → Read (List (String × Value))
  | 0, _, _ => none
  | fuel + 1, depth, s =>
    match memberName? s with
    | none => none
    | some (name, r) =>
      match value? fuel depth r with
      | none => none
      | some (v, r) =>
        match skipSpace r with
        | ',' :: r => (members? fuel depth r).map fun (ms, r) => ((name, v) :: ms, r)
        | '\x7d' :: r => some ([(name, v)], r)
        | _ => none

end

/-- The value that a text spells, space around it allowed. -/
def readChars? (s : List Char) : Option Value :=
  match value? (2 * s.length + 2) depthLimit s with
  | some (v, r) => if (skipSpace r).isEmpty then some v else none
  | none => none

/-- The value that some bytes spell. -/
def read? (bs : Bytes) : Option Value := (Utf8.decode? bs).bind readChars?

end GoSplice.Json
