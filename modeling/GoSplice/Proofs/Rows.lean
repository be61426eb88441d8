import GoSplice.Proofs.Excerpts
import GoSplice.Proofs.Siblings

/-!
# Rows in excerpts

The row of an offset is the number of line feeds before it, so the rows of an
excerpt are those of the whole but for the rows above it:

    (ofBytes bs).row o = (bs.take o).count lineFeed                  (LineIndex.row_ofBytes)
    (ofBytes (a ++ b ++ c)).row (o + a.length) =
      (ofBytes b).row o + a.count lineFeed, where o ≤ b.length       (LineIndex.row_append)

Comments that lie above a row without a gap do so in every excerpt (Above.moved_iff).
-/

namespace GoSplice

open Syntax

namespace LineIndex

theorem lineFeed_not_mem_encode {s : List Char} (h : '\n' ∉ s) :
    ∀ b ∈ Utf8.encode s, b ≠ lineFeed := by
  rintro b hb rfl
  obtain ⟨c, hc, hb⟩ := List.mem_flatMap.mp hb
  rcases Utf8.mem_utf8EncodeChar hb with hb | hb
  · exact absurd hb (by decide)
  · refine h ?_
    rw [show '\n' = Char.ofNat c.toNat by rw [← hb]; rfl, Char.ofNat_toNat]
    exact hc

/-- A text whose bytes end with a line feed ends its last line. -/
theorem getLast?_of_encode {s : List Char} (h : (Utf8.encode s).getLast? = some lineFeed) :
    s.getLast? = some '\n' := by
  rcases List.eq_nil_or_concat s with rfl | ⟨t, c, rfl⟩
  · cases h
  · rw [List.concat_eq_append] at *
    obtain ⟨b, r, hc⟩ := Utf8.exists_utf8EncodeChar c
    have hone : Utf8.encode [c] = b :: r := by rw [Utf8.encode_cons, hc]; exact List.append_nil _
    have hlast : (b :: r).getLast? = some lineFeed := by
      rw [Utf8.encode_append, hone, List.getLast?_append, List.getLast?_cons, Option.some_or] at h
      rw [List.getLast?_cons, h]
    rw [List.getLast?_concat]
    rcases Utf8.mem_utf8EncodeChar (hc ▸ List.mem_of_getLast? hlast) with hb | hb
    · exact absurd hb (by decide)
    · rw [← Char.ofNat_toNat c, ← hb]
      rfl

/-- A text whose bytes begin with a line feed begins with a line end. -/
theorem head?_of_encode {s : List Char} (h : (Utf8.encode s).head? = some lineFeed) : s.head? = some '\n' := by
  cases s with
  | nil => cases h
  | cons c s =>
    obtain ⟨b, r, hc⟩ := Utf8.exists_utf8EncodeChar c
    rw [Utf8.encode_cons, hc, List.cons_append, List.head?_cons] at h
    obtain rfl := Option.some.inj h
    rcases Utf8.mem_utf8EncodeChar (hc ▸ List.mem_cons_self) with hb | hb
    · exact absurd hb (by decide)
    · rw [List.head?_cons, ← Char.ofNat_toNat c, ← hb]
      rfl

theorem startsAfter_append (pos : Nat) (a b : Bytes) :
    startsAfter pos (a ++ b) = startsAfter pos a ++ startsAfter (pos + a.length) b := by
  induction a generalizing pos with
  | nil => rfl
  | cons c a ih =>
    rw [List.cons_append, startsAfter, startsAfter, ih, List.length_cons, Nat.add_assoc, Nat.add_comm 1]
    split <;> rfl

theorem length_startsAfter (pos : Nat) (bs : Bytes) : (startsAfter pos bs).length = bs.count lineFeed := by
  induction bs generalizing pos with
  | nil => rfl
  | cons c bs ih =>
    rw [startsAfter, List.count_cons]
    split
    · next h => rw [List.length_cons, ih, h, beq_self_eq_true, if_pos rfl]
    · next h => rw [ih, if_neg (by simpa using h), Nat.add_zero]

theorem countP_startsAfter (bs : Bytes) (pos o : Nat) :
    (startsAfter pos bs).countP (· ≤ o) = (bs.take (o - pos)).count lineFeed := by
  induction bs generalizing pos with
  | nil => simp [startsAfter]
  | cons b r ih =>
    by_cases hle : pos + 1 ≤ o
    · obtain ⟨k, hk⟩ : ∃ k, o - pos = k + 1 := ⟨o - pos - 1, by omega⟩
      have hrest : o - (pos + 1) = k := by omega
      rw [hk, List.take_succ_cons, List.count_cons, ← hrest, ← ih]
      by_cases hb : b = lineFeed
      · simp [startsAfter, hb, hle]
      · simp [startsAfter, hb]
    · have hzero : o - pos = 0 := by omega
      have hrest := ih (pos + 1)
      rw [show o - (pos + 1) = 0 by omega, List.take_zero] at hrest
      rw [hzero, List.take_zero, startsAfter]
      split
      · rw [List.countP_cons_of_neg (by simpa using hle), hrest]
      · exact hrest

/-- The row of an offset counts the line feeds before it. -/
theorem row_ofBytes (bs : Bytes) (o : Nat) :
    (ofBytes bs).row o = (bs.take o).count lineFeed := by
  unfold row ofBytes
  dsimp only
  rw [List.countP_cons_of_pos (by simp), Nat.add_sub_cancel, countP_startsAfter, Nat.sub_zero]

/-- The rows of an excerpt. -/
theorem row_append (a b c : Bytes) {o : Nat} (h : o ≤ b.length) :
    (ofBytes (a ++ b ++ c)).row (o + a.length) = (ofBytes b).row o + a.count lineFeed := by
  rw [row_ofBytes, row_ofBytes, List.append_assoc, Nat.add_comm o, List.take_length_add_append,
    List.take_append_of_le_length h, List.count_append, Nat.add_comm]

theorem row_mono (bs : Bytes) {o m : Nat} (h : o ≤ m) : (ofBytes bs).row o ≤ (ofBytes bs).row m := by
  rw [row_ofBytes, row_ofBytes]
  exact (List.take_prefix_take_left h).sublist.count_le _

/-- The row of an offset between two texts. -/
theorem row_length (a c : Bytes) : (ofBytes (a ++ c)).row a.length = a.count lineFeed := by
  rw [row_ofBytes, List.take_left]

theorem position?_ofBytes {source : Bytes} {o : Nat} (h : o ≤ source.length) :
    (ofBytes source).position? o = some ((ofBytes source).position o) := by
  have hrange : ¬ ((o : Int) < 0 ∨ ((ofBytes source).size : Int) < o) := by
    show ¬ ((o : Int) < 0 ∨ (source.length : Int) < o)
    omega
  exact if_neg hrange

end LineIndex

namespace Declaration

/-- Comments without a gap have none further down a file. -/
theorem Above.moved_iff {rowOf rowIn : Nat → Nat} {n k : Nat} {cs : List Comment} {row : Nat}
    (h : ∀ c ∈ cs, rowIn (c.start + n) = rowOf c.start + k ∧ rowIn (c.stop + n) = rowOf c.stop + k) :
    Above rowIn (row + k) (cs.map (Comment.moved n)) ↔ Above rowOf row cs := by
  induction cs generalizing row with
  | nil => exact Iff.rfl
  | cons c cs ih =>
    obtain ⟨hstart, hstop⟩ := h c List.mem_cons_self
    have ih := @ih (rowOf c.start) fun d hd => h d (List.mem_cons_of_mem _ hd)
    show row + k ≤ rowIn (c.stop + n) + 1 ∧ Above rowIn (rowIn (c.start + n)) _ ↔
      row ≤ rowOf c.stop + 1 ∧ _
    rw [hstart, hstop, ih]
    exact and_congr_left fun _ => by omega

end Declaration

end GoSplice
