/-!
# Binary floating point numbers

The numbers of the format binary64 other than NaN, held exactly.  A finite
magnitude is `mantissa · 2^exponent` in the one form in which the mantissa has
53 bits or the exponent is the least possible:

    ofRatio a b     the nearest number to a / b, of two the one with even mantissa
    ofDecimal d e   the nearest number to d · 10^e
-/

namespace GoSplice

/-! ## Magnitudes -/

inductive Magnitude where
  | finite (mantissa : Nat) (exponent : Int)
  | infinite
  deriving Repr, DecidableEq

namespace Magnitude

/-- The number of bits of a mantissa. -/
def mantissaBits : Nat := 53

def leastExponent : Int := -1074

def greatestExponent : Int := 971

def zero : Magnitude := .finite 0 leastExponent

/-- The quotient rounded to the nearest integer, a half to the even one. -/
def roundHalfEven (a b : Nat) : Nat :=
  let q := a / b
  let r := a % b
  if 2 * r < b then q
  else if b < 2 * r then q + 1
  else q + q % 2

/-- The ratio `a / b` divided by a power of two, as a ratio. -/
def scaled (a b : Nat) (e : Int) : Nat × Nat :=
  if e < 0 then (a <<< (-e).toNat, b) else (a, b <<< e.toNat)

/-- The exponent at which the ratio `a / b` is rounded. -/
def exponentOf (a b : Nat) : Int :=
  let e := max ((a.log2 : Int) - b.log2 - mantissaBits) leastExponent
  let (n, d) := scaled a b e
  if n / d < 1 <<< mantissaBits then e else e + 1

/-- A mantissa, which rounding may have made one bit too long, with its exponent. -/
def pack (mantissa : Nat) (e : Int) : Magnitude :=
  if mantissa < 1 <<< mantissaBits then
    if greatestExponent < e then .infinite else .finite mantissa e
  else if greatestExponent < e + 1 then .infinite
  else .finite (1 <<< (mantissaBits - 1)) (e + 1)

/-- The nearest magnitude to `a / b`, where `b` is not zero. -/
def ofRatio (a b : Nat) : Magnitude :=
  if a = 0 then zero
  else
    let e := exponentOf a b
    let (n, d) := scaled a b e
    pack (roundHalfEven n d) e

/-- Powers of ten beyond this are infinite, and their inverses zero. -/
def decimalBound : Int := 400

/-- The nearest magnitude to `digits · 10^exponent`. -/
def ofDecimal (digits : Nat) (exponent : Int) : Magnitude :=
  if digits = 0 then zero
  else
    let size : Int := digits.repr.length + exponent
    if decimalBound < size then .infinite
    else if size < -decimalBound then zero
    else if exponent < 0 then ofRatio digits (Nat.pow 10 (-exponent).toNat)
    else ofRatio (digits * Nat.pow 10 exponent.toNat) 1

/-- A finite magnitude as a ratio. -/
def ratio (mantissa : Nat) (exponent : Int) : Nat × Nat :=
  if exponent < 0 then (mantissa, 1 <<< (-exponent).toNat) else (mantissa <<< exponent.toNat, 1)

/-- The magnitude as a natural number, if it is one. -/
def toNat? : Magnitude → Option Nat
  | .finite m e =>
    let (a, b) := ratio m e
    if a % b = 0 then some (a / b) else none
  | .infinite => none

end Magnitude

/-! ## Numbers -/

structure Binary64 where
  negative : Bool
  magnitude : Magnitude
  deriving Repr, DecidableEq

namespace Binary64

def ofInt (n : Int) : Binary64 := ⟨n < 0, .ofDecimal n.natAbs 0⟩

def isPositive (x : Binary64) : Bool := !x.negative && x.magnitude != .zero

end Binary64

end GoSplice
