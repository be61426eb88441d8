import GoSplice.Error
import GoSplice.Json.Value

/-!
# Validation

A checked value is a value or all the issues that were found on the way to it.
Checks of several fields are all made, and their issues add up in field order:

    faulty a <*> faulty b = faulty (a ++ b)
-/

namespace GoSplice

open Json (Value)

inductive Checked (α : Type) where
  | valid (a : α)
  | faulty (issues : List Issue)
  deriving Repr, DecidableEq

namespace Checked

def fail (kind : IssueKind) (path : List Step) : Checked α := .faulty [⟨kind, path⟩]

/-- Two checks, both made. -/
def both : Checked (α → β) → Checked α → Checked β
  | .valid f, .valid a => .valid (f a)
  | .valid _, .faulty issues => .faulty issues
  | .faulty issues, .valid _ => .faulty issues
  | .faulty issues, .faulty issues' => .faulty (issues ++ issues')

instance : Applicative Checked where
  pure := valid
  seq f a := both f (a ())

/-- The value, or an error that lists the issues. -/
def orThrow : Checked α → Except PatchError α
  | .valid a => .ok a
  | .faulty issues => .error (.validation issues)

/-- Checks of items, all made; `i` is the position of the first. -/
def each (check : Nat → α → Checked β) : Nat → List α → Checked (List β)
  | _, [] => .valid []
  | i, a :: as => List.cons <$> check i a <*> each check (i + 1) as

/-! ## Values -/

def string (path : List Step) : Value → Checked String
  | .string s => .valid s
  | _ => fail .stringType path

def strings (path : List Step) : Value → Checked (List String)
  | .array items => each (fun i v => string (path ++ [.index i]) v) 0 items
  | _ => fail .listType path

def optionalStrings (path : List Step) : Value → Checked (Option (List String))
  | .null => .valid none
  | v => some <$> strings path v

/-! ## Truth values -/

def trueWords : List String := ["1", "true", "t", "yes", "y", "on"]

def falseWords : List String := ["0", "false", "f", "no", "n", "off"]

/-- Integers of at least this size are no truth values at all. -/
def wordBound : Int := 0x8000000000000000

/-- The truth value of a number: only 0 and 1 have one. -/
def boolOfInt (path : List Step) (n : Int) : Checked Bool :=
  if n = 0 then .valid false else if n = 1 then .valid true else fail .boolParsing path

def boolOfNumber (path : List Step) : Json.Number → Checked Bool
  | .integer n => if -wordBound ≤ n ∧ n < wordBound then boolOfInt path n else fail .boolType path
  | .decimal negative digits exponent =>
    match (Magnitude.ofDecimal digits exponent).toNat? with
    | some n =>
      if (n : Int) < wordBound then boolOfInt path (if negative then -n else n)
      else fail .boolType path
    | none => fail .boolType path
  | .infinite _ | .nan => fail .boolType path

def bool (path : List Step) : Value → Checked Bool
  | .bool b => .valid b
  | .number n => boolOfNumber path n
  | .string s =>
    let word := String.ofList (s.toList.map Char.toLower)
    if trueWords.contains word then .valid true
    else if falseWords.contains word then .valid false
    else fail .boolParsing path
  | _ => fail .boolType path

/-! ## Fields -/

/-- A field of an object that lies at `path`. -/
def field (members : List (String × Value)) (path : List Step) (name : String)
    (check : List Step → Value → Checked α) (absent : List Step → Checked α) : Checked α :=
  match Json.member? members name with
  | some v => check (path ++ [.field name]) v
  | none => absent (path ++ [.field name])

/-- A field that has to be there. -/
def required (members : List (String × Value)) (path : List Step) (name : String)
    (check : List Step → Value → Checked α) : Checked α :=
  field members path name check (fail .missing)

/-- A field that has a value of its own where it is absent. -/
def optional (members : List (String × Value)) (path : List Step) (name : String) (default : α)
    (check : List Step → Value → Checked α) : Checked α :=
  field members path name check fun _ => .valid default

end Checked

end GoSplice
