import GoSplice.Number.Binary64

/-!
# Shortest decimal text

A number is written with the fewest significant digits that read back to it.
Of several such digit strings of one length the nearest to the number is taken.
Numbers below `10^-4`, and from `10^16` on, are written with an exponent of at
least two digits; all others have a point and a digit behind it.
-/

namespace GoSplice

namespace Magnitude

/-- The most digits that any magnitude needs. -/
def greatestDigits : Nat := 17

/-- The number of digits before the point in `a / b`, counted below zero for
zeros behind the point. -/
def pointOf (a b : Nat) : Int :=
  (a * Nat.pow 10 decimalBound.toNat / b).repr.length - decimalBound

/-- The two neighbours of `a / b` among the multiples of `10^grid`, nearer first. -/
def neighbours (a b : Nat) (grid : Int) : List Nat :=
  let (n, d) := if grid < 0 then (a * Nat.pow 10 (-grid).toNat, b) else (a, b * Nat.pow 10 grid.toNat)
  let q := n / d
  if 2 * (n % d) ≤ d then [q, q + 1] else [q + 1, q]

/-- A number of `digits` significant digits that reads back, with the power of ten it counts. -/
def readsBack? (x : Magnitude) (a b digits : Nat) : Option (Nat × Int) :=
  let grid := pointOf a b - digits
  ((neighbours a b grid).find? fun c => ofDecimal c grid = x).map (·, grid)

/-- The shortest digits of a finite magnitude, with the power of ten they count. -/
def shortest (mantissa : Nat) (exponent : Int) : Nat × Int :=
  let (a, b) := ratio mantissa exponent
  ((List.range greatestDigits).findSome? fun n =>
    readsBack? (.finite mantissa exponent) a b (n + 1)).getD (0, 0)

end Magnitude

namespace Binary64

/-- Below this number of digits before the point an exponent is written. -/
def leastPoint : Int := -3

/-- Above this number of digits before the point an exponent is written. -/
def greatestPoint : Int := 16

/-- An exponent: its sign and at least two digits. -/
def exponentText (e : Int) : String :=
  let digits := e.natAbs.repr
  (if e < 0 then "-" else "+") ++ (if digits.length < 2 then "0" else "") ++ digits

def zeros (n : Nat) : String := String.ofList (List.replicate n '0')

/-- Significant digits with the point behind the first `point` of them. -/
def layOut (digits : List Char) (point : Int) : String :=
  if point < leastPoint ∨ greatestPoint < point then
    let head := digits.take 1
    let tail := digits.drop 1
    String.ofList (if tail.isEmpty then head else head ++ '.' :: tail) ++ "e" ++
      exponentText (point - 1)
  else if point ≤ 0 then "0." ++ zeros (-point).toNat ++ String.ofList digits
  else if (digits.length : Int) ≤ point then
    String.ofList digits ++ zeros (point - digits.length).toNat ++ ".0"
  else String.ofList (digits.take point.toNat ++ '.' :: digits.drop point.toNat)

def magnitudeText : Magnitude → String
  | .infinite => "inf"
  | .finite m e =>
    if m = 0 then "0.0"
    else
      let (c, grid) := Magnitude.shortest m e
      let all := c.repr.toList
      let digits := (all.reverse.dropWhile (· = '0')).reverse
      layOut digits (all.length + grid)

/-- The text of a number. -/
def text (x : Binary64) : String := (if x.negative then "-" else "") ++ magnitudeText x.magnitude

end Binary64

end GoSplice
