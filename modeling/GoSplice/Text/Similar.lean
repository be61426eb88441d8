import GoSplice.Diff.Matching

/-!
# Similar words

The similarity of two words is the share of their characters that match: twice
the matching characters over the length of both.  Suggestions for a word are
the candidates of at least three fifths, the most similar first.
-/

namespace GoSplice.Similar

/-- The similarity of a word to the one sought, as a fraction; two empty words are alike. -/
def similarity (word candidate : String) : Nat × Nat :=
  let a := candidate.toList
  let b := word.toList
  let total := a.length + b.length
  if total = 0 then (1, 1) else (2 * Matching.matched a b, total)

/-- Whether one fraction is at least another. -/
def atLeast (x y : Nat × Nat) : Bool := y.1 * x.2 ≤ x.1 * y.2

/-- The least similarity of a suggestion. -/
def threshold : Nat × Nat := (3, 5)

/-- Whether one scored candidate comes before another: the more similar one, of
two alike the one that sorts last. -/
def before (x y : (Nat × Nat) × String) : Bool :=
  if atLeast y.1 x.1 then atLeast x.1 y.1 && decide (y.2 ≤ x.2) else true

/-- The most suggestions that are made. -/
def greatestCount : Nat := 3

/-- The candidates that are most similar to a word, best first. -/
def suggestions (word : String) (candidates : List String) : List String :=
  let scored := candidates.map fun c => (similarity word c, c)
  (((scored.filter fun s => atLeast s.1 threshold).mergeSort before).take greatestCount).map (·.2)

end GoSplice.Similar
