import GoSplice.Diff.Unified

/-!
# Matching blocks are common blocks

The blocks that two sequences are found to share hold the same elements in both, lie within them
and follow each other.  So the edits between the blocks make one sequence of the other:

    before (script a b) = a        after (script a b) = b                       (script_before, script_after)

Which block is the longest plays no part: whatever the rows of positions say, a block grows over
equal elements only.
-/

namespace GoSplice

namespace Matching

variable {α : Type}

/-! ## Blocks in a region -/

/-- A block of equal elements that lies within a region. -/
structure Within (a b : List α) (g : Region) (k : Block) : Prop where
  leftStart : g.leftStart ≤ k.left
  leftStop : k.left + k.length ≤ g.leftStop
  rightStart : g.rightStart ≤ k.right
  rightStop : k.right + k.length ≤ g.rightStop
  agree : ∀ n < k.length, a[k.left + n]? = b[k.right + n]?

/-- Whether a region lies within two sequences. -/
structure Region.Inside (g : Region) (a b : List α) : Prop where
  left : g.leftStart ≤ g.leftStop
  leftStop : g.leftStop ≤ a.length
  right : g.rightStart ≤ g.rightStop
  rightStop : g.rightStop ≤ b.length

theorem within_empty {a b : List α} {g : Region} (hg : g.Inside a b) : Within a b g ⟨g.leftStart, g.rightStart, 0⟩ :=
  ⟨Nat.le_refl _, hg.left, Nat.le_refl _, hg.right, fun n hn => absurd hn (Nat.not_lt_zero n)⟩

theorem Within.slices_eq {a b : List α} {g : Region} {k : Block} (h : Within a b g k) :
    (a.drop k.left).take k.length = (b.drop k.right).take k.length := by
  refine List.ext_getElem? fun n => ?_
  rw [List.getElem?_take, List.getElem?_take]
  split
  · next hn => rw [List.getElem?_drop, List.getElem?_drop, h.agree n hn]
  · rfl

/-- A block with the elements before it. -/
theorem Within.consLeft {a b : List α} {g : Region} {k : Block} (h : Within a b g k) (hleft : g.leftStart < k.left)
    (hright : g.rightStart < k.right) (heq : a[k.left - 1]? = b[k.right - 1]?) :
    Within a b g ⟨k.left - 1, k.right - 1, k.length + 1⟩ := by
  obtain ⟨h1, h2, h3, h4, hagree⟩ := h
  refine ⟨by dsimp only; omega, by dsimp only; omega, by dsimp only; omega, by dsimp only; omega, fun n hn => ?_⟩
  cases n with
  | zero => exact heq
  | succ n =>
    dsimp only at hn ⊢
    rw [show k.left - 1 + (n + 1) = k.left + n by omega, show k.right - 1 + (n + 1) = k.right + n by omega]
    exact hagree n (by omega)

/-- A block with the elements behind it. -/
theorem Within.snocRight {a b : List α} {g : Region} {k : Block} (h : Within a b g k)
    (hleft : k.left + k.length < g.leftStop) (hright : k.right + k.length < g.rightStop)
    (heq : a[k.left + k.length]? = b[k.right + k.length]?) : Within a b g { k with length := k.length + 1 } := by
  obtain ⟨h1, h2, h3, h4, hagree⟩ := h
  refine ⟨h1, by dsimp only; omega, h3, by dsimp only; omega, fun n hn => ?_⟩
  rcases Nat.lt_or_eq_of_le (Nat.le_of_lt_succ hn) with hn | rfl
  · exact hagree n hn
  · exact heq

/-! ## Stretches -/

/-- Stretches of equal elements that end before element `i` of the left sequence, and at given
elements of the right one. -/
def Stretches (a b : List α) (g : Region) (i : Nat) (r : List (Nat × Nat)) : Prop :=
  ∀ x ∈ r, x.2 ≤ i ∧ x.2 ≤ x.1 + 1 ∧ Within a b g ⟨i - x.2, x.1 + 1 - x.2, x.2⟩

/-- The next row of stretches. -/
theorem Stretches.row {a b : List α} {g : Region} {i : Nat} {above : List (Nat × Nat)} (h : Stretches a b g i above)
    (hi : g.leftStart ≤ i) (hi' : i < g.leftStop) {js : List Nat}
    (hjs : ∀ j ∈ js, g.rightStart ≤ j ∧ j < g.rightStop ∧ a[i]? = b[j]?) :
    Stretches a b g (i + 1) (Matching.row above js) := by
  intro x hx
  obtain ⟨j, hj, rfl⟩ := List.mem_map.mp hx
  obtain ⟨hj1, hj2, heq⟩ := hjs j hj
  dsimp only
  have hsingle : Within a b g ⟨i, j, 1⟩ := by
    refine ⟨hi, hi', hj1, hj2, fun n hn => ?_⟩
    obtain rfl := Nat.lt_one_iff.mp hn
    exact heq
  split
  · next hj0 => exact ⟨by omega, by omega, hsingle⟩
  · next hj0 =>
    cases hlookup : above.lookup (j - 1) with
    | none => exact ⟨by simp, by simp, hsingle⟩
    | some n =>
      obtain ⟨_, _, rfl, -⟩ := List.lookup_eq_some_iff.mp hlookup
      obtain ⟨hn1, hn2, hwithin⟩ := h (j - 1, n) (List.mem_append_right _ List.mem_cons_self)
      dsimp only [Option.getD_some] at hn1 hn2 hwithin ⊢
      have hgrown := hwithin.snocRight (by dsimp only; omega) (by dsimp only; omega) (by
        dsimp only
        rw [show i - n + n = i by omega, show j - 1 + 1 - n + n = j by omega]
        exact heq)
      refine ⟨by omega, by omega, ?_⟩
      rw [show i + 1 - (n + 1) = i - n by omega, show j + 1 - (n + 1) = j - 1 + 1 - n by omega]
      exact hgrown

theorem better_within {a b : List α} {g : Region} {i : Nat} {best : Block} {r : List (Nat × Nat)}
    (hbest : Within a b g best) (hr : Stretches a b g (i + 1) r) : Within a b g (better i best r) := by
  unfold better
  induction r generalizing best with
  | nil => exact hbest
  | cons x r ih =>
    obtain ⟨j, n⟩ := x
    rw [List.foldl_cons]
    refine ih ?_ fun y hy => hr y (List.mem_cons_of_mem _ hy)
    dsimp only
    split
    · exact (hr (j, n) List.mem_cons_self).2.2
    · exact hbest

/-- Whether rows hold positions of the elements from `i` on. -/
def IsRows (a b : List α) : Nat → List (List Nat) → Prop
  | _, [] => True
  | i, js :: rest => (∀ j ∈ js, a[i]? = b[j]?) ∧ IsRows a b (i + 1) rest

theorem bestFrom_within {a b : List α} {g : Region} {i : Nat} {above : List (Nat × Nat)} {best : Block}
    {rows : List (List Nat)} (hrows : IsRows a b i rows) (hi : g.leftStart ≤ i) (hi' : i + rows.length ≤ g.leftStop)
    (habove : Stretches a b g i above) (hbest : Within a b g best) : Within a b g (bestFrom g i above best rows) := by
  induction rows generalizing i above best with
  | nil => exact hbest
  | cons js rows ih =>
    obtain ⟨hjs, hrows⟩ := hrows
    rw [List.length_cons] at hi'
    have hrow : Stretches a b g (i + 1)
        (Matching.row above (js.filter fun j => g.rightStart ≤ j && j < g.rightStop)) := habove.row hi (by omega) fun j hj => by
      obtain ⟨hj, hrange⟩ := List.mem_filter.mp hj
      simp only [Bool.and_eq_true, decide_eq_true_eq] at hrange
      exact ⟨hrange.1, hrange.2, hjs j hj⟩
    rw [bestFrom]
    exact ih hrows (by omega) (by omega) hrow (better_within hbest hrow)

/-! ## Blocks that follow each other -/

theorem Within.mono {a b : List α} {g g' : Region} {k : Block} (h : Within a b g k) (h1 : g'.leftStart ≤ g.leftStart)
    (h2 : g.leftStop ≤ g'.leftStop) (h3 : g'.rightStart ≤ g.rightStart) (h4 : g.rightStop ≤ g'.rightStop) :
    Within a b g' k :=
  ⟨Nat.le_trans h1 h.leftStart, Nat.le_trans h.leftStop h2, Nat.le_trans h3 h.rightStart, Nat.le_trans h.rightStop h4,
    h.agree⟩

/-- Blocks of equal elements that follow each other, from one pair of positions to another. -/
def Between (a b : List α) : Nat → Nat → List Block → Nat → Nat → Prop
  | i, j, [], i', j' => i ≤ i' ∧ j ≤ j'
  | i, j, k :: ks, i', j' =>
    Within a b ⟨i, i', j, j'⟩ k ∧ Between a b (k.left + k.length) (k.right + k.length) ks i' j'

section Between

variable {a b : List α} {i j i' j' i'' j'' : Nat} {ks ls : List Block}

theorem Between.start (h : Between a b i' j' ks i'' j'') (hi : i ≤ i') (hj : j ≤ j') : Between a b i j ks i'' j'' := by
  cases ks with
  | nil => exact ⟨Nat.le_trans hi h.1, Nat.le_trans hj h.2⟩
  | cons k ks => exact ⟨h.1.mono hi (Nat.le_refl _) hj (Nat.le_refl _), h.2⟩

theorem Between.append (hks : Between a b i j ks i' j') (hls : Between a b i' j' ls i'' j'') (hi : i' ≤ i'')
    (hj : j' ≤ j'') : Between a b i j (ks ++ ls) i'' j'' := by
  induction ks generalizing i j with
  | nil => exact hls.start hks.1 hks.2
  | cons k ks ih => exact ⟨hks.1.mono (Nat.le_refl _) hi (Nat.le_refl _) hj, ih hks.2⟩

/-- Two blocks that touch each other are one. -/
theorem Within.join {g : Region} {k l : Block} (hk : Within a b g k) (hl : Within a b g l)
    (hleft : k.left + k.length = l.left) (hright : k.right + k.length = l.right) :
    Within a b g ⟨k.left, k.right, k.length + l.length⟩ := by
  have h1 := hl.leftStop
  have h2 := hl.rightStop
  refine ⟨hk.leftStart, by dsimp only; omega, hk.rightStart, by dsimp only; omega, fun n hn => ?_⟩
  rcases Nat.lt_or_ge n k.length with hlt | hge
  · exact hk.agree n hlt
  · have h := hl.agree (n - k.length) (by dsimp only at hn; omega)
    rwa [show l.left + (n - k.length) = k.left + n by omega, show l.right + (n - k.length) = k.right + n by omega] at h

theorem Between.joined (h : Between a b i j ks i' j') : Between a b i j (joined ks) i' j' := by
  induction ks generalizing i j with
  | nil => exact h
  | cons k ks ih =>
    obtain ⟨hk, hks⟩ := h
    have hrest := ih hks
    rw [Matching.joined]
    cases hjoined : Matching.joined ks with
    | nil =>
      rw [hjoined] at hrest
      exact ⟨hk, hrest⟩
    | cons l ls =>
      rw [hjoined] at hrest
      dsimp only
      split
      · next htouch =>
        refine ⟨hk.join (hrest.1.mono ?_ (Nat.le_refl _) ?_ (Nat.le_refl _)) htouch.1 htouch.2, ?_⟩
        · exact Nat.le_trans hk.leftStart (Nat.le_add_right _ _)
        · exact Nat.le_trans hk.rightStart (Nat.le_add_right _ _)
        · dsimp only
          rw [← Nat.add_assoc, ← Nat.add_assoc, htouch.1, htouch.2]
          exact hrest.2
      · exact ⟨hk, hrest⟩

end Between

variable [DecidableEq α]

/-! ## The longest block -/

theorem mem_positionsFrom {x : α} {b : List α} {i j : Nat} (h : j ∈ positionsFrom i x b) : i ≤ j ∧ b[j - i]? = some x := by
  induction b generalizing i with
  | nil => cases h
  | cons y b ih =>
    rw [positionsFrom] at h
    have htail : j ∈ positionsFrom (i + 1) x b → i ≤ j ∧ (y :: b)[j - i]? = some x := by
      intro hj
      obtain ⟨hle, heq⟩ := ih hj
      refine ⟨by omega, ?_⟩
      rw [show j - i = j - (i + 1) + 1 by omega, List.getElem?_cons_succ]
      exact heq
    split at h
    · next hxy =>
      rcases List.mem_cons.mp h with rfl | hj
      · exact ⟨Nat.le_refl _, by rw [Nat.sub_self, hxy]; rfl⟩
      · exact htail hj
    · exact htail h

theorem getElem?_of_mem_positions {x : α} {b : List α} {j : Nat} (h : j ∈ positions b x) : b[j]? = some x := by
  unfold positions at h
  dsimp only at h
  split at h
  · cases h
  · exact (mem_positionsFrom h).2

theorem growLeft_within {a b : List α} {g : Region} {room : Nat} {k : Block} (h : Within a b g k)
    (hleft : room ≤ k.left - g.leftStart) (hright : room ≤ k.right - g.rightStart) :
    Within a b g (growLeft a.toArray b.toArray room k) := by
  induction room generalizing k with
  | zero => exact h
  | succ room ih =>
    rw [growLeft]
    split
    · next x y hx hy =>
      split
      · next hxy =>
        rw [List.getElem?_toArray] at hx hy
        refine ih (h.consLeft (by omega) (by omega) (by rw [hx, hy, hxy])) (by dsimp only; omega) (by dsimp only; omega)
      · exact h
    · exact h

theorem growRight_within {a b : List α} {g : Region} {room : Nat} {k : Block} (h : Within a b g k)
    (hleft : room ≤ g.leftStop - (k.left + k.length)) (hright : room ≤ g.rightStop - (k.right + k.length)) :
    Within a b g (growRight a.toArray b.toArray room k) := by
  induction room generalizing k with
  | zero => exact h
  | succ room ih =>
    rw [growRight]
    split
    · next x y hx hy =>
      split
      · next hxy =>
        rw [List.getElem?_toArray] at hx hy
        refine ih (h.snocRight (by omega) (by omega) (by rw [hx, hy, hxy])) (by dsimp only; omega) (by dsimp only; omega)
      · exact h
    · exact h

theorem isRows_map {a b : List α} {i : Nat} {d : List α} (hd : ∀ n < d.length, d[n]? = a[i + n]?) :
    IsRows a b i (d.map (positions b)) := by
  induction d generalizing i with
  | nil => trivial
  | cons x d ih =>
    refine ⟨fun j hj => ?_, ih fun n hn => ?_⟩
    · rw [getElem?_of_mem_positions hj, ← Nat.add_zero i, ← hd 0 (Nat.succ_pos _)]
      rfl
    · rw [Nat.add_assoc, Nat.add_comm 1 n, ← hd (n + 1) (Nat.succ_lt_succ hn)]
      rfl

theorem longest_within {a b : List α} {g : Region} (hg : g.Inside a b) :
    Within a b g (longest a.toArray b.toArray (a.map (positions b)) g) := by
  unfold longest
  dsimp only
  have hbest : Within a b g (bestFrom g g.leftStart [] ⟨g.leftStart, g.rightStart, 0⟩
      (((a.map (positions b)).drop g.leftStart).take (g.leftStop - g.leftStart))) := by
    rw [← List.map_drop, ← List.map_take]
    refine bestFrom_within (isRows_map fun n hn => ?_) (Nat.le_refl _) ?_ (List.forall_mem_nil _) (within_empty hg)
    · rw [List.length_take] at hn
      rw [List.getElem?_take, if_pos (by omega), List.getElem?_drop]
    · rw [List.length_map, List.length_take, List.length_drop]
      have := hg.left
      omega
  generalize bestFrom g g.leftStart [] _ _ = k at hbest
  exact growRight_within (growLeft_within hbest (Nat.min_le_left _ _) (Nat.min_le_right _ _)) (Nat.min_le_left _ _)
    (Nat.min_le_right _ _)

/-! ## All blocks -/

/-- The blocks of a region lie in it, one behind the other. -/
theorem blocksIn_between {a b : List α} (fuel : Nat) {g : Region} (hg : g.Inside a b) :
    Between a b g.leftStart g.rightStart (blocksIn a.toArray b.toArray (a.map (positions b)) fuel g) g.leftStop
      g.rightStop := by
  induction fuel generalizing g with
  | zero => exact ⟨hg.left, hg.right⟩
  | succ fuel ih =>
    rw [blocksIn]
    dsimp only
    have hk := longest_within hg
    generalize longest a.toArray b.toArray (a.map (positions b)) g = k at hk
    have hleftStop : k.left + k.length ≤ g.leftStop := hk.leftStop
    have hrightStop : k.right + k.length ≤ g.rightStop := hk.rightStop
    have hleft : k.left ≤ g.leftStop := by omega
    have hright : k.right ≤ g.rightStop := by omega
    have hbefore : Region.Inside ⟨g.leftStart, k.left, g.rightStart, k.right⟩ a b :=
      ⟨hk.leftStart, Nat.le_trans hleft hg.leftStop, hk.rightStart, Nat.le_trans hright hg.rightStop⟩
    have hafter : Region.Inside ⟨k.left + k.length, g.leftStop, k.right + k.length, g.rightStop⟩ a b :=
      ⟨hleftStop, hg.leftStop, hrightStop, hg.rightStop⟩
    have hwithin : Within a b ⟨k.left, g.leftStop, k.right, g.rightStop⟩ k :=
      ⟨Nat.le_refl _, hleftStop, Nat.le_refl _, hrightStop, hk.agree⟩
    split
    · exact ⟨hg.left, hg.right⟩
    · refine Between.append ?_ ⟨hwithin, ?_⟩ hleft hright
      · split
        · exact ih hbefore
        · exact ⟨hk.leftStart, hk.rightStart⟩
      · split
        · exact ih hafter
        · exact ⟨hleftStop, hrightStop⟩

theorem matchingBlocks_between {a b : List α} {ks : List Block} (h : matchingBlocks a b = ks) :
    Between a b 0 0 ks a.length b.length := by
  have hg : Region.Inside ⟨0, a.length, 0, b.length⟩ a b :=
    ⟨Nat.zero_le _, Nat.le_refl _, Nat.zero_le _, Nat.le_refl _⟩
  unfold matchingBlocks at h
  generalize a.length + 1 = fuel at h
  rw [← h]
  exact (blocksIn_between fuel hg).joined

end Matching

/-! ## Edits -/

namespace LineEdit

open Matching

variable {α : Type}

/-- All lines before some edits. -/
def allBefore (es : List (LineEdit α)) : List α := es.flatMap before

/-- All lines after them. -/
def allAfter (es : List (LineEdit α)) : List α := es.flatMap after

theorem changeOf_before (removed added : List α) : allBefore (changeOf removed added) = removed := by
  unfold changeOf allBefore
  split
  · next h =>
    rw [Bool.and_eq_true, List.isEmpty_iff, List.isEmpty_iff] at h
    rw [h.1]
    rfl
  · exact List.append_nil _

theorem changeOf_after (removed added : List α) : allAfter (changeOf removed added) = added := by
  unfold changeOf allAfter
  split
  · next h =>
    rw [Bool.and_eq_true, List.isEmpty_iff, List.isEmpty_iff] at h
    rw [h.2]
    rfl
  · exact List.append_nil _

theorem allBefore_append (es fs : List (LineEdit α)) : allBefore (es ++ fs) = allBefore es ++ allBefore fs :=
  List.flatMap_append

theorem allAfter_append (es fs : List (LineEdit α)) : allAfter (es ++ fs) = allAfter es ++ allAfter fs :=
  List.flatMap_append

theorem take_take_drop (ls : List α) (n m : Nat) : ls.take n ++ ((ls.drop n).take m ++ ls.drop (n + m)) = ls := by
  rw [← List.drop_drop, List.take_append_drop, List.take_append_drop]

theorem ofBlocks_before_after {a b : List α} {i j : Nat} {ks : List Block}
    (h : Between a b i j ks a.length b.length) :
    allBefore (ofBlocks i j (a.drop i) (b.drop j) ks) = a.drop i ∧
      allAfter (ofBlocks i j (a.drop i) (b.drop j) ks) = b.drop j := by
  induction ks generalizing i j with
  | nil => exact ⟨changeOf_before _ _, changeOf_after _ _⟩
  | cons k ks ih =>
    obtain ⟨hk, hks⟩ := h
    obtain ⟨hbefore, hafter⟩ := ih hks
    have hi : i ≤ k.left := hk.leftStart
    have hj : j ≤ k.right := hk.rightStart
    have hleft : (a.drop i).drop (k.left - i + k.length) = a.drop (k.left + k.length) := by
      rw [List.drop_drop, ← Nat.add_assoc, Nat.add_sub_cancel' hi]
    have hright : (b.drop j).drop (k.right - j + k.length) = b.drop (k.right + k.length) := by
      rw [List.drop_drop, ← Nat.add_assoc, Nat.add_sub_cancel' hj]
    have hcommon : ((a.drop i).drop (k.left - i)).take k.length = ((b.drop j).drop (k.right - j)).take k.length := by
      rw [List.drop_drop, List.drop_drop, Nat.add_sub_cancel' hi, Nat.add_sub_cancel' hj]
      exact hk.slices_eq
    rw [ofBlocks, hleft, hright]
    constructor
    · rw [allBefore_append, changeOf_before]
      show _ ++ (_ ++ allBefore _) = _
      rw [hbefore, before, ← hleft, take_take_drop]
    · rw [allAfter_append, changeOf_after]
      show _ ++ (_ ++ allAfter _) = _
      rw [hafter, after, hcommon, ← hright, take_take_drop]

variable [DecidableEq α]

theorem script_before_after (a b : List α) : allBefore (script a b) = a ∧ allAfter (script a b) = b := by
  unfold script
  generalize hks : matchingBlocks a b = ks
  exact ofBlocks_before_after (matchingBlocks_between hks)

theorem script_before (a b : List α) : allBefore (script a b) = a := (script_before_after a b).1

theorem script_after (a b : List α) : allAfter (script a b) = b := (script_before_after a b).2

end LineEdit

end GoSplice
