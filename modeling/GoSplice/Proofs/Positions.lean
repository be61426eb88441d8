import GoSplice.Proofs.Rows
import Mathlib.Data.List.DropRight

/-!
# Positions in a byte sequence

A place is a byte of a row, or the end of the row.  An offset is behind some whole rows `x` and a
beginning `s` of the next one, so that offsets and places are mapped to each other, one to one and in
order:

    position? (x.length + s.length) = some ⟨x.count lineFeed, s.length⟩       (position?_cut)
    offset? (x.count lineFeed) s.length = some (x.length + s.length)          (offset?_cut)
    o < m → m ≤ source.length → (position o).Before (position m)              (position_before)

The row of an offset is the number of line starts that are not beyond it, less one.  As line starts
ascend, it can be found by halving them (row_eq_bisect).
-/

namespace GoSplice

/-- Whether a position is before another one: in a row above its row, or in its row and further left. -/
def Position.Before (p q : Position) : Prop := p.row < q.row ∨ p.row = q.row ∧ p.column < q.column

namespace LineIndex

/-- The rows of some bytes, without the line feeds that end them. -/
def rows (source : Bytes) : List Bytes := source.splitOn lineFeed

/-- Whether a position is at a byte of a row, or behind the last one. -/
def IsPlace (source : Bytes) (p : Position) : Prop :=
  ∃ bytes, (rows source)[p.row]? = some bytes ∧ p.column ≤ bytes.length

/-- The line feeds before an offset, and the bytes since the last of them. -/
def placeOf (source : Bytes) (o : Nat) : Position :=
  ⟨(source.take o).count lineFeed, ((source.take o).rtakeWhile (· ≠ lineFeed)).length⟩

variable {source x s b : Bytes} {o m : Nat}

/-! ## Rows -/

theorem rows_cons (c : UInt8) (r : Bytes) :
    rows (c :: r) = if c = lineFeed then [] :: rows r else (rows r).modifyHead (c :: ·) := by
  unfold rows
  rw [List.splitOn_cons_eq_if_modifyHead]
  simp only [beq_iff_eq]

theorem length_rows (source : Bytes) : (rows source).length = source.count lineFeed + 1 := by
  induction source with
  | nil => rfl
  | cons c r ih =>
    rw [rows_cons, List.count_cons]
    split
    · next h => rw [List.length_cons, ih, h, beq_self_eq_true, if_pos rfl]
    · next h => rw [List.length_modifyHead, ih, if_neg (by simpa using h)]

/-- The first row goes up to the first line feed. -/
theorem exists_rows (source : Bytes) : ∃ bytes rest, rows source = bytes :: rest ∧ bytes <+: source ∧ lineFeed ∉ bytes := by
  induction source with
  | nil => exact ⟨[], [], rfl, List.nil_prefix, List.not_mem_nil⟩
  | cons c r ih =>
    obtain ⟨bytes, rest, hrows, hprefix, hline⟩ := ih
    rw [rows_cons]
    split
    · exact ⟨[], rows r, rfl, List.nil_prefix, List.not_mem_nil⟩
    · next hc =>
      refine ⟨c :: bytes, rest, by rw [hrows]; rfl, (List.prefix_cons_inj c).mpr hprefix, ?_⟩
      rw [List.mem_cons, not_or]
      exact ⟨Ne.symm hc, hline⟩

/-- Bytes without a line feed begin the first row of what they stand before. -/
theorem exists_rows_append (hs : lineFeed ∉ s) (b : Bytes) : ∃ bytes rest, rows (s ++ b) = (s ++ bytes) :: rest := by
  induction s with
  | nil =>
    obtain ⟨bytes, rest, hrows, -⟩ := exists_rows b
    exact ⟨bytes, rest, hrows⟩
  | cons c s ih =>
    rw [List.mem_cons, not_or] at hs
    obtain ⟨bytes, rest, hrows⟩ := ih hs.2
    refine ⟨bytes, rest, ?_⟩
    rw [List.cons_append, rows_cons, if_neg (Ne.symm hs.1), hrows]
    rfl

/-! ## Searches for rows -/

/-- The first place from `lo` on at which a number beyond `o` stands, or `hi` if there is none before it: of the
places between the two one half is left at a time. -/
def bisect (ns : List Nat) (o lo hi : Nat) : Nat :=
  if lo < hi then
    if o < ns.getD ((lo + hi) / 2) 0 then bisect ns o lo ((lo + hi) / 2) else bisect ns o ((lo + hi) / 2 + 1) hi
  else lo
termination_by hi - lo

theorem lt_of_mem_startsAfter {pos n : Nat} (h : n ∈ startsAfter pos source) : pos < n := by
  induction source generalizing pos with
  | nil => cases h
  | cons c r ih =>
    unfold startsAfter at h
    split at h
    · rcases List.mem_cons.mp h with rfl | h
      · exact Nat.lt_succ_self pos
      · exact Nat.lt_of_succ_lt (ih h)
    · exact Nat.lt_of_succ_lt (ih h)

theorem pairwise_startsAfter (pos : Nat) (source : Bytes) : (startsAfter pos source).Pairwise (· < ·) := by
  induction source generalizing pos with
  | nil => exact .nil
  | cons c r ih =>
    unfold startsAfter
    split
    · exact List.pairwise_cons.mpr ⟨fun n hn => lt_of_mem_startsAfter hn, ih (pos + 1)⟩
    · exact ih (pos + 1)

/-- Lines start one behind the other. -/
theorem pairwise_starts (source : Bytes) : (ofBytes source).starts.Pairwise (· < ·) :=
  List.pairwise_cons.mpr ⟨fun _ hn => lt_of_mem_startsAfter hn, pairwise_startsAfter 0 source⟩

theorem countP_eq_of_parted {ns : List Nat} {k : Nat} (hk : k ≤ ns.length)
    (hbelow : ∀ i n, ns[i]? = some n → i < k → n ≤ o) (habove : ∀ i n, ns[i]? = some n → k ≤ i → o < n) :
    ns.countP (· ≤ o) = k := by
  have htake : (ns.take k).countP (· ≤ o) = k := by
    rw [List.countP_eq_length.mpr, List.length_take_of_le hk]
    intro n hn
    obtain ⟨i, hi⟩ := List.mem_iff_getElem?.mp hn
    have hlt : i < k := Nat.lt_of_lt_of_le (List.getElem?_eq_some_iff.mp hi).1 (List.length_take_le k ns)
    rw [List.getElem?_take_of_lt hlt] at hi
    exact decide_eq_true (hbelow i n hi hlt)
  have hdrop : (ns.drop k).countP (· ≤ o) = 0 := by
    rw [List.countP_eq_zero]
    intro n hn
    obtain ⟨i, hi⟩ := List.mem_iff_getElem?.mp hn
    rw [List.getElem?_drop] at hi
    have hlt := habove (k + i) n hi (Nat.le_add_right k i)
    simpa using hlt
  rw [← List.take_append_drop k ns, List.countP_append, htake, hdrop, Nat.add_zero]

theorem le_of_ascending {ns : List Nat} (hns : ns.Pairwise (· < ·)) {i j n k : Nat} (hij : i ≤ j)
    (hn : ns[i]? = some n) (hk : ns[j]? = some k) : n ≤ k := by
  obtain ⟨hi, rfl⟩ := List.getElem?_eq_some_iff.mp hn
  obtain ⟨hj, rfl⟩ := List.getElem?_eq_some_iff.mp hk
  rcases Nat.lt_or_eq_of_le hij with hlt | rfl
  · exact Nat.le_of_lt (List.pairwise_iff_getElem.mp hns i j hi hj hlt)
  · exact Nat.le_refl _

/-- Among ascending numbers, the search finds how many of them are not beyond `o`. -/
theorem bisect_eq_countP {ns : List Nat} (hns : ns.Pairwise (· < ·)) {lo hi : Nat} (hle : lo ≤ hi) (hlength : hi ≤ ns.length)
    (hbelow : ∀ i n, ns[i]? = some n → i < lo → n ≤ o) (habove : ∀ i n, ns[i]? = some n → hi ≤ i → o < n) :
    bisect ns o lo hi = ns.countP (· ≤ o) := by
  fun_induction bisect ns o lo hi with
  | case1 lo hi hlt hbeyond ih =>
    refine ih (by omega) (by omega) hbelow fun i n hn hmid => ?_
    have hmiddle := List.getElem?_eq_getElem (show (lo + hi) / 2 < ns.length by omega)
    rw [List.getD_eq_getElem?_getD, hmiddle, Option.getD_some] at hbeyond
    exact Nat.lt_of_lt_of_le hbeyond (le_of_ascending hns hmid hmiddle hn)
  | case2 lo hi hlt hbefore ih =>
    refine ih (by omega) hlength (fun i n hn hmid => ?_) habove
    have hmiddle := List.getElem?_eq_getElem (show (lo + hi) / 2 < ns.length by omega)
    rw [List.getD_eq_getElem?_getD, hmiddle, Option.getD_some] at hbefore
    exact Nat.le_trans (le_of_ascending hns (Nat.le_of_lt_succ hmid) hn hmiddle) (Nat.le_of_not_lt hbefore)
  | case3 lo hi hlt =>
    obtain rfl : lo = hi := by omega
    exact (countP_eq_of_parted hlength hbelow habove).symm

/-- The row of an offset is found by halving the starts of the lines. -/
theorem row_eq_bisect (source : Bytes) (o : Nat) :
    (ofBytes source).row o = bisect (ofBytes source).starts o 0 (ofBytes source).lineCount - 1 := by
  have hbehind : ∀ (i n : Nat), (ofBytes source).starts[i]? = some n → (ofBytes source).starts.length ≤ i → o < n := by
    intro i n hn hi
    rw [List.getElem?_eq_none hi] at hn
    cases hn
  unfold row lineCount
  rw [bisect_eq_countP (pairwise_starts source) (Nat.zero_le _) (Nat.le_refl _)
    (fun i n _ hi => absurd hi (Nat.not_lt_zero i)) hbehind]

/-! ## Whole rows -/

/-- Whether some bytes are whole rows, each with its line feed. -/
def EndsRows (x : Bytes) : Prop := x = [] ∨ ∃ y, x = y ++ [lineFeed]

/-- Whole rows behind a line feed and what is before it. -/
theorem EndsRows.behind (hx : EndsRows x) (a : Bytes) : EndsRows (a ++ [lineFeed] ++ x) := by
  rcases hx with rfl | ⟨y, rfl⟩
  · exact .inr ⟨a, List.append_nil _⟩
  · exact .inr ⟨a ++ [lineFeed] ++ y, (List.append_assoc _ _ _).symm⟩

/-- Behind whole rows a row begins: it is the next one. -/
theorem EndsRows.start (hx : EndsRows x) (b : Bytes) :
    (ofBytes (x ++ b)).starts[x.count lineFeed]? = some x.length := by
  rcases hx with rfl | ⟨y, rfl⟩
  · rfl
  · have hstarts : (ofBytes (y ++ [lineFeed] ++ b)).starts =
        0 :: (startsAfter 0 y ++ (y.length + 1) :: startsAfter (y.length + 1) b) := by
      show 0 :: startsAfter 0 (y ++ [lineFeed] ++ b) = _
      rw [List.append_assoc, startsAfter_append, Nat.zero_add]
      rfl
    rw [hstarts, List.count_append, List.count_singleton_self, List.getElem?_cons_succ, ← length_startsAfter 0 y,
      List.getElem?_append_right (Nat.le_refl _), Nat.sub_self, List.length_append]
    rfl

theorem EndsRows.rows (hx : EndsRows x) (b : Bytes) : (rows (x ++ b))[x.count lineFeed]? = (rows b)[0]? := by
  rcases hx with rfl | ⟨y, rfl⟩
  · rfl
  · have hsplit : LineIndex.rows (y ++ [lineFeed] ++ b) = LineIndex.rows y ++ LineIndex.rows b := by
      unfold LineIndex.rows
      rw [List.append_assoc, List.singleton_append, List.splitOn_append_cons_self]
    rw [hsplit, List.count_append, List.count_singleton_self, ← length_rows,
      List.getElem?_append_right (Nat.le_refl _), Nat.sub_self]

/-- What is left of some bytes without those since the last line feed is whole rows. -/
theorem endsRows_rdropWhile (source : Bytes) : EndsRows (source.rdropWhile (· ≠ lineFeed)) := by
  rcases List.eq_nil_or_concat (source.rdropWhile (· ≠ lineFeed)) with hnil | ⟨y, c, hlast⟩
  · exact .inl hnil
  · rw [List.concat_eq_append] at hlast
    have hne : source.rdropWhile (· ≠ lineFeed) ≠ [] := by
      rw [hlast]
      exact List.append_ne_nil_of_right_ne_nil y (List.cons_ne_nil c [])
    have hc := List.rdropWhile_last_not (· ≠ lineFeed) source hne
    simp only [hlast, List.getLast_append_singleton, decide_eq_true_eq, not_not] at hc
    exact .inr ⟨y, by rw [hlast, hc]⟩

/-- An offset is behind whole rows and a beginning of the next one. -/
theorem exists_cut (h : o ≤ source.length) : ∃ x s b, source = x ++ s ++ b ∧ EndsRows x ∧ lineFeed ∉ s ∧
    o = x.length + s.length ∧ placeOf source o = ⟨x.count lineFeed, s.length⟩ := by
  have hsplit : (source.take o).rdropWhile (· ≠ lineFeed) ++ (source.take o).rtakeWhile (· ≠ lineFeed) = source.take o :=
    List.rdropWhile_append_rtakeWhile
  have hline : lineFeed ∉ (source.take o).rtakeWhile (· ≠ lineFeed) := fun hmem => by
    simpa using List.mem_rtakeWhile_imp hmem
  refine ⟨_, _, source.drop o, ?_, endsRows_rdropWhile (source.take o), hline, ?_, ?_⟩
  · rw [hsplit, List.take_append_drop]
  · rw [← List.length_append, hsplit, List.length_take_of_le h]
  · have hcount := congrArg (List.count lineFeed) hsplit
    rw [List.count_append, List.count_eq_zero_of_not_mem hline, Nat.add_zero] at hcount
    rw [placeOf, hcount]

/-- As many whole rows as there are line feeds for stand at the front. -/
theorem exists_endsRows {r : Nat} (h : r ≤ source.count lineFeed) :
    ∃ x b, source = x ++ b ∧ EndsRows x ∧ x.count lineFeed = r := by
  induction r with
  | zero => exact ⟨[], source, rfl, .inl rfl, rfl⟩
  | succ r ih =>
    obtain ⟨x, b, rfl, -, hcount⟩ := ih (Nat.le_of_succ_le h)
    rw [List.count_append, hcount] at h
    have hmem : lineFeed ∈ b := List.count_pos_iff.mp (by omega)
    obtain ⟨y, c, rfl, hy⟩ := List.eq_append_cons_of_mem hmem
    refine ⟨x ++ y ++ [lineFeed], c, by simp, .inr ⟨x ++ y, rfl⟩, ?_⟩
    rw [List.count_append, List.count_append, hcount, List.count_eq_zero_of_not_mem hy, List.count_singleton_self]

/-- A place is behind whole rows and a beginning of the next one. -/
theorem IsPlace.exists_cut {p : Position} (h : IsPlace source p) :
    ∃ x s b, source = x ++ s ++ b ∧ EndsRows x ∧ lineFeed ∉ s ∧ p = ⟨x.count lineFeed, s.length⟩ := by
  obtain ⟨bytes, hrow, hcolumn⟩ := h
  have hlt : p.row < source.count lineFeed + 1 := by
    rw [← length_rows]
    exact (List.getElem?_eq_some_iff.mp hrow).1
  obtain ⟨x, b, rfl, hx, hcount⟩ := exists_endsRows (Nat.le_of_lt_succ hlt)
  obtain ⟨bytes', rest, hrows, ⟨c, rfl⟩, hline⟩ := exists_rows b
  rw [← hcount, hx.rows, hrows, List.getElem?_cons_zero, Option.some.injEq] at hrow
  subst hrow
  refine ⟨x, bytes'.take p.column, bytes'.drop p.column ++ c, ?_, hx, fun hmem => hline (List.mem_of_mem_take hmem), ?_⟩
  · rw [List.append_assoc, ← List.append_assoc (bytes'.take p.column), List.take_append_drop]
  · rw [hcount, List.length_take_of_le hcolumn]

theorem isPlace_cut (hx : EndsRows x) (hs : lineFeed ∉ s) (b : Bytes) :
    IsPlace (x ++ s ++ b) ⟨x.count lineFeed, s.length⟩ := by
  obtain ⟨bytes, rest, hrows⟩ := exists_rows_append hs b
  refine ⟨s ++ bytes, ?_, ?_⟩
  · rw [List.append_assoc, hx.rows, hrows, List.getElem?_cons_zero]
  · rw [List.length_append]
    exact Nat.le_add_right _ _

/-! ## Offsets and positions -/

theorem position_cut (hx : EndsRows x) (hs : lineFeed ∉ s) (b : Bytes) :
    (ofBytes (x ++ s ++ b)).position (x.length + s.length) = ⟨x.count lineFeed, s.length⟩ := by
  have hrow : (ofBytes (x ++ s ++ b)).row (x.length + s.length) = x.count lineFeed := by
    rw [row_ofBytes, ← List.length_append, List.take_left, List.count_append, List.count_eq_zero_of_not_mem hs,
      Nat.add_zero]
  have hstart := hx.start (s ++ b)
  rw [← List.append_assoc] at hstart
  unfold position
  simp only [hrow, List.getD_eq_getElem?_getD, hstart, Option.getD_some, Nat.add_sub_cancel_left]

theorem position?_cut (hx : EndsRows x) (hs : lineFeed ∉ s) (b : Bytes) :
    (ofBytes (x ++ s ++ b)).position? ((x.length + s.length : Nat) : Int) = some ⟨x.count lineFeed, s.length⟩ := by
  have hle : x.length + s.length ≤ (x ++ s ++ b).length := by
    rw [List.length_append, List.length_append]
    exact Nat.le_add_right _ _
  rw [position?_ofBytes hle, position_cut hx hs b]

theorem offset?_cut (hx : EndsRows x) (s b : Bytes) :
    (ofBytes (x ++ s ++ b)).offset? (x.count lineFeed : Nat) (s.length : Nat) = some ((x.length + s.length : Nat) : Int) := by
  have hstart := hx.start (s ++ b)
  rw [← List.append_assoc] at hstart
  have hsize : ((ofBytes (x ++ s ++ b)).size : Int) = x.length + s.length + b.length := by
    show ((x ++ s ++ b).length : Int) = _
    rw [List.length_append, List.length_append]
    omega
  unfold offset?
  rw [if_neg (by omega), Int.toNat_natCast, hstart, hsize]
  show some (min ((x.length : Int) + s.length) _) = _
  congr 1
  omega

theorem exists_of_position?_eq_some {o : Int} {p : Position} (h : (ofBytes source).position? o = some p) :
    ∃ n : Nat, o = n ∧ n ≤ source.length ∧ (ofBytes source).position n = p := by
  unfold position? at h
  split at h
  · cases h
  · next hrange =>
    have hrange : ¬ (o < 0 ∨ (source.length : Int) < o) := hrange
    exact ⟨o.toNat, by omega, by omega, Option.some.inj h⟩

/-- Offsets further on have positions further on. -/
theorem position_before (hom : o < m) (hm : m ≤ source.length) :
    ((ofBytes source).position o).Before ((ofBytes source).position m) := by
  have hrows := row_mono source (Nat.le_of_lt hom)
  rcases Nat.lt_or_eq_of_le hrows with hrow | hrow
  · exact .inl hrow
  · -- two offsets of one row are behind the same whole rows
    obtain ⟨x, s, b, hx, hends, hs, ho, -⟩ := exists_cut (Nat.le_trans (Nat.le_of_lt hom) hm)
    obtain ⟨x', s', b', hx', hends', hs', hm', -⟩ := exists_cut hm
    have hposition := position_cut hends hs b
    have hposition' := position_cut hends' hs' b'
    rw [← hx, ← ho] at hposition
    rw [← hx', ← hm'] at hposition'
    have hcount : x.count lineFeed = x'.count lineFeed :=
      (congrArg Position.row hposition).symm.trans (hrow.trans (congrArg Position.row hposition'))
    have hstart := hends.start (s ++ b)
    have hstart' := hends'.start (s' ++ b')
    rw [← List.append_assoc, ← hx, hcount] at hstart
    rw [← List.append_assoc, ← hx', hstart, Option.some.injEq] at hstart'
    refine .inr ⟨hrow, ?_⟩
    rw [hposition, hposition']
    show s.length < s'.length
    omega

/-- Offsets from 0 to the size and places in rows are mapped to each other, one to one and in order.  The place of an
offset is told by the line feeds before it and the bytes since the last of them, and its row is found by halving the
starts of the lines. -/
theorem position_bijective (source : Bytes) :
    (ofBytes source).lineCount = (rows source).length ∧
    (∀ o, (ofBytes source).row o = bisect (ofBytes source).starts o 0 (ofBytes source).lineCount - 1) ∧
    (∀ o : Nat, o ≤ source.length →
      (ofBytes source).position? o = some (placeOf source o) ∧ IsPlace source (placeOf source o) ∧
        (ofBytes source).offset? (placeOf source o).row (placeOf source o).column = some (o : Int)) ∧
    (∀ p, IsPlace source p → ∃ o : Int,
      (ofBytes source).offset? p.row p.column = some o ∧ (ofBytes source).position? o = some p) ∧
    (∀ (o m : Int) (p q : Position), o < m → (ofBytes source).position? o = some p →
      (ofBytes source).position? m = some q → p.Before q) := by
  refine ⟨?_, row_eq_bisect source, fun o ho => ?_, fun p hp => ?_, fun o m p q hom hp hq => ?_⟩
  · rw [length_rows]
    show (startsAfter 0 source).length + 1 = _
    rw [length_startsAfter]
  · obtain ⟨x, s, b, rfl, hx, hs, rfl, hplace⟩ := exists_cut ho
    rw [hplace]
    exact ⟨position?_cut hx hs b, isPlace_cut hx hs b, offset?_cut hx s b⟩
  · obtain ⟨x, s, b, rfl, hx, hs, rfl⟩ := hp.exists_cut
    exact ⟨_, offset?_cut hx s b, position?_cut hx hs b⟩
  · obtain ⟨n, rfl, -, rfl⟩ := exists_of_position?_eq_some hp
    obtain ⟨k, rfl, hk, rfl⟩ := exists_of_position?_eq_some hq
    exact position_before (Int.ofNat_lt.mp hom) hk

/-- Two lines, an empty one between them and one behind the last line feed. -/
theorem position_bijective_lines :
    (ofBytes [97, 98, 10, 10, 99, 100, 10]).position? 3 = some ⟨1, 0⟩ ∧
    (ofBytes [97, 98, 10, 10, 99, 100, 10]).offset? 1 0 = some 3 ∧
    (∃ o, (ofBytes [97, 98, 10, 10, 99, 100, 10]).offset? 3 0 = some o ∧
      (ofBytes [97, 98, 10, 10, 99, 100, 10]).position? o = some ⟨3, 0⟩) ∧
    Position.Before ⟨0, 2⟩ ⟨1, 0⟩ := by
  obtain ⟨-, -, hoffset, hplace, hbefore⟩ := position_bijective [97, 98, 10, 10, 99, 100, 10]
  obtain ⟨hposition, -, hback⟩ := hoffset 3 (by decide)
  exact ⟨hposition, hback, hplace ⟨3, 0⟩ ⟨[], rfl, Nat.le_refl 0⟩, hbefore 2 3 _ _ (by decide) rfl rfl⟩

end LineIndex

end GoSplice
