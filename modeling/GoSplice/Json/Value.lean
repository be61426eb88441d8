import GoSplice.Number.Binary64

/-!
# JSON values

Numbers keep what their text says: integers of any size, decimals as digits and
a power of ten, and the three words that stand for no decimal.  Objects keep
their members in order; of members with one name the last counts.
-/

namespace GoSplice.Json

inductive Number where
  | integer (n : Int)
  /-- `± digits · 10^exponent` -/
  | decimal (negative : Bool) (digits : Nat) (exponent : Int)
  | infinite (negative : Bool)
  | nan
  deriving Repr, DecidableEq

inductive Value where
  | null
  | bool (b : Bool)
  | number (n : Number)
  | string (s : String)
  | array (items : List Value)
  | object (members : List (String × Value))
  deriving Repr, Inhabited

/-- The value of the last member of a name. -/
def member? (members : List (String × Value)) (name : String) : Option Value :=
  (members.reverse.find? (·.1 = name)).map (·.2)

end GoSplice.Json
