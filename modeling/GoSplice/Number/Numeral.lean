import GoSplice.Number.Binary64
import GoSplice.Text.Blank

/-!
# Numerals

The decimal numerals of running text: a sign, digits with a point somewhere
among them, and an exponent; or the words `inf`, `infinity` and `nan` in any
case.  Blank space around a numeral does not count.  Where no numeral stands,
one that is grouped by single underscores may.
-/

namespace GoSplice.Numeral

inductive Reading where
  | nan
  | number (x : Binary64)
  deriving Repr, DecidableEq

/-! ## Digits -/

/-- The digits at the start of a text, and the rest of it. -/
def digits (s : List Char) : List Char × List Char :=
  (s.takeWhile Char.isDigit, s.dropWhile Char.isDigit)

/-- The number that digits stand for. -/
def valueOf (ds : List Char) : Nat := ds.foldl (fun n d => n * 10 + (d.toNat - 48)) 0

/-- A sign and the rest. -/
def sign (s : List Char) : Bool × List Char :=
  match s with
  | '-' :: r => (true, r)
  | '+' :: r => (false, r)
  | _ => (false, s)

/-! ## Plain numerals -/

/-- An exponent that ends the text, 0 where there is none. -/
def exponent? (s : List Char) : Option Int :=
  match s with
  | [] => some 0
  | c :: r =>
    if c = 'e' ∨ c = 'E' then
      let (negative, ds) := sign r
      if ds.isEmpty ∨ !ds.all Char.isDigit then none
      else some (if negative then -(valueOf ds : Int) else valueOf ds)
    else none

/-- Digits behind a point, and the rest. -/
def fraction (s : List Char) : List Char × List Char :=
  match s with
  | '.' :: r => digits r
  | _ => ([], s)

/-- The magnitude of a numeral without sign. -/
def magnitude? (s : List Char) : Option Magnitude :=
  let (whole, r) := digits s
  let (part, r) := fraction r
  if whole.isEmpty && part.isEmpty then none
  else (exponent? r).map fun e => .ofDecimal (valueOf (whole ++ part)) (e - part.length)

/-- The reading of a text that is one numeral. -/
def plain? (s : List Char) : Option Reading :=
  let (negative, r) := sign s
  let word := String.ofList (r.map Char.toLower)
  if word = "nan" then some .nan
  else if word = "inf" ∨ word = "infinity" then some (.number ⟨negative, .infinite⟩)
  else (magnitude? r).map fun m => .number ⟨negative, m⟩

/-! ## Spacing and grouping -/

/-- Blank characters other than the information separators. -/
def isSpacing (c : Char) : Bool := Text.isBlank c && !(0x1C ≤ c.toNat && c.toNat ≤ 0x1F)

def trimSpacing (s : List Char) : List Char :=
  ((s.dropWhile isSpacing).reverse.dropWhile isSpacing).reverse

/-- Whether two underscores stand side by side. -/
def hasDouble : List Char → Bool
  | '_' :: '_' :: _ => true
  | _ :: r => hasDouble r
  | [] => false

/-- The text without underscores, if each of them stands between two other characters. -/
def ungrouped? (s : List Char) : Option (List Char) :=
  if s.head? = some '_' ∨ s.getLast? = some '_' ∨ hasDouble s ∨ !s.contains '_' then none
  else some (s.filter (· ≠ '_'))

/-- The reading of a text. -/
def read? (s : List Char) : Option Reading :=
  (plain? (trimSpacing s)).or ((ungrouped? s).bind plain?)

end GoSplice.Numeral
