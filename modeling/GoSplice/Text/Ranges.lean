/-!
# Sets of characters given by ranges

A character property is a table of ranges of code points, ascending and apart
from each other.
-/

namespace GoSplice

/-- Whether a code point lies in one of the ranges. -/
def inRanges (table : Array (Nat × Nat)) (n : Nat) : Bool :=
  table.any fun (lo, hi) => lo ≤ n && n ≤ hi

/-- Whether a code point lies in one of the ranges, counted from their first in
the given steps. -/
def inStrides (table : Array (Nat × Nat × Nat)) (n : Nat) : Bool :=
  table.any fun (lo, hi, step) => lo ≤ n && n ≤ hi && (n - lo) % step == 0

end GoSplice
