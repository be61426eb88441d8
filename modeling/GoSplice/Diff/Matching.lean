/-!
# Matching blocks

A block is a stretch that two sequences have in common.  `matchingBlocks a b`
are blocks that follow each other in both sequences: the longest block of all,
of several the first, and on both sides of it the same again.

In long sequences elements that occur too often are no reason to begin a
block, though a block may grow over them.
-/

namespace GoSplice

/-- `length` elements, from `left` on in one sequence and from `right` on in the other. -/
structure Block where
  left : Nat
  right : Nat
  length : Nat
  deriving Repr, DecidableEq

namespace Matching

variable {α : Type} [DecidableEq α]

/-! ## Where elements occur -/

/-- Sequences of at least this length have elements that are too frequent. -/
def longLength : Nat := 200

/-- The positions of an element, counted from `j`. -/
def positionsFrom (j : Nat) (x : α) : List α → List Nat
  | [] => []
  | y :: ys => if x = y then j :: positionsFrom (j + 1) x ys else positionsFrom (j + 1) x ys

/-- The positions of an element at which blocks may begin. -/
def positions (b : List α) (x : α) : List Nat :=
  let js := positionsFrom 0 x b
  if longLength ≤ b.length ∧ b.length / 100 + 1 < js.length then [] else js

/-! ## The longest block -/

/-- The region in which a block is sought. -/
structure Region where
  leftStart : Nat
  leftStop : Nat
  rightStart : Nat
  rightStop : Nat
  deriving Repr, DecidableEq

/-- The lengths of the common stretches that end at one element of the left
sequence, by the position in the right one at which they end. -/
def row (above : List (Nat × Nat)) (js : List Nat) : List (Nat × Nat) :=
  js.map fun j => (j, (if j = 0 then 0 else (above.lookup (j - 1)).getD 0) + 1)

/-- The better of a block and the stretches that end at element `i`. -/
def better (i : Nat) (best : Block) (r : List (Nat × Nat)) : Block :=
  r.foldl (fun best (j, k) => if best.length < k then ⟨i + 1 - k, j + 1 - k, k⟩ else best) best

/-- The best block over rows of positions, the first of which belongs to element `i`. -/
def bestFrom (g : Region) : Nat → List (Nat × Nat) → Block → List (List Nat) → Block
  | _, _, best, [] => best
  | i, above, best, js :: rest =>
    let r := row above (js.filter fun j => g.rightStart ≤ j && j < g.rightStop)
    bestFrom g (i + 1) r (better i best r) rest

/-- A block grown to the left while elements agree, `room` elements at most. -/
def growLeft (a b : Array α) : Nat → Block → Block
  | 0, k => k
  | room + 1, k =>
    match a[k.left - 1]?, b[k.right - 1]? with
    | some x, some y =>
      if x = y then growLeft a b room ⟨k.left - 1, k.right - 1, k.length + 1⟩ else k
    | _, _ => k

/-- A block grown to the right. -/
def growRight (a b : Array α) : Nat → Block → Block
  | 0, k => k
  | room + 1, k =>
    match a[k.left + k.length]?, b[k.right + k.length]? with
    | some x, some y =>
      if x = y then growRight a b room { k with length := k.length + 1 } else k
    | _, _ => k

/-- The longest block in a region. -/
def longest (a b : Array α) (occurrences : List (List Nat)) (g : Region) : Block :=
  let rows := (occurrences.drop g.leftStart).take (g.leftStop - g.leftStart)
  let k := bestFrom g g.leftStart [] ⟨g.leftStart, g.rightStart, 0⟩ rows
  let k := growLeft a b (min (k.left - g.leftStart) (k.right - g.rightStart)) k
  growRight a b (min (g.leftStop - (k.left + k.length)) (g.rightStop - (k.right + k.length))) k

/-! ## All blocks -/

/-- The blocks of a region, `fuel` bounding how often it is divided. -/
def blocksIn (a b : Array α) (occurrences : List (List Nat)) : Nat → Region → List Block
  | 0, _ => []
  | fuel + 1, g =>
    let k := longest a b occurrences g
    if k.length = 0 then []
    else
      let before := if g.leftStart < k.left ∧ g.rightStart < k.right then
        blocksIn a b occurrences fuel ⟨g.leftStart, k.left, g.rightStart, k.right⟩ else []
      let after := if k.left + k.length < g.leftStop ∧ k.right + k.length < g.rightStop then
        blocksIn a b occurrences fuel
          ⟨k.left + k.length, g.leftStop, k.right + k.length, g.rightStop⟩
        else []
      before ++ k :: after

/-- Blocks that touch each other in both sequences, joined. -/
def joined : List Block → List Block
  | [] => []
  | k :: ks =>
    match joined ks with
    | [] => [k]
    | l :: ls =>
      if k.left + k.length = l.left ∧ k.right + k.length = l.right then
        ⟨k.left, k.right, k.length + l.length⟩ :: ls
      else k :: l :: ls

/-- The matching blocks of two sequences, in order. -/
def matchingBlocks (a b : List α) : List Block :=
  joined (blocksIn a.toArray b.toArray (a.map (positions b)) (a.length + 1)
    ⟨0, a.length, 0, b.length⟩)

/-- How many elements match. -/
def matched (a b : List α) : Nat := (matchingBlocks a b).foldl (fun n block => n + block.length) 0

end Matching

end GoSplice
