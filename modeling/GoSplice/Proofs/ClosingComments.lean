import GoSplice.Proofs.Ranges
import GoSplice.Proofs.Rows

/-!
# Comments that end a text

A group of comments on the last line of a text becomes the doc comment, or the
first part of it, of a declaration that is added behind:

    closingGroup s                where the last group begins, or the end of s
    n an item of s → n.stop ≤ closingGroup s                (stop_le_closingGroup)
    EndsBare s → closingGroup s = the end of s              (closingGroup_eq_byteWidth)
    comments behind m, docStart? row (comments ++ before) = some n →
      docStart? (row of m) before = none and m ≤ n, or some k and k ≤ n   (docStart?_behind)
-/

namespace GoSplice

open Syntax

/-! ## Groups above a row -/

namespace Declaration

variable {lines : LineIndex} {row m n : Nat} {before : List Sibling}

/-- A group of comments above a row is one above the rows before it. -/
theorem docStart?_of_le (h : docStart? lines row before = some n) {low : Nat} (hlow : low ≤ row) :
    docStart? lines low before = some n := by
  cases before with
  | nil => cases h
  | cons x before =>
    cases x with
    | item t => cases h
    | comment c =>
      unfold docStart? at h ⊢
      split at h
      · cases h
      · next hrow =>
        rw [if_neg (by omega)]
        exact h

/-- A group begins with a comment. -/
theorem exists_comment_of_docStart? (h : docStart? lines row before = some n) :
    ∃ c, .comment c ∈ before ∧ c.start = n := by
  obtain ⟨group, c, rest, rfl, rfl, -⟩ := docStart?_eq_some h
  exact ⟨c, by simp, rfl⟩

/-- Without comments near a row there is no group above it. -/
theorem docStart?_eq_none (h : ∀ c, .comment c ∈ before → lines.row c.stop + 1 < row) :
    docStart? lines row before = none := by
  cases before with
  | nil => rfl
  | cons x before =>
    cases x with
    | item t => rfl
    | comment c =>
      unfold docStart?
      rw [if_pos (h c List.mem_cons_self)]

/-- A group with comments behind a place begins behind it, or where the group does that ends there. -/
theorem docStart?_behind (hmono : ∀ {a b : Nat}, a ≤ b → lines.row a ≤ lines.row b)
    (hbefore : ∀ x ∈ before, x.start ≤ m) {cs : List Comment} (hcs : ∀ c ∈ cs, m ≤ c.start)
    (hrow : lines.row m ≤ row) (h : docStart? lines row (cs.map .comment ++ before) = some n) :
    (docStart? lines (lines.row m) before).getD m ≤ n := by
  induction cs generalizing row with
  | nil =>
    rw [docStart?_of_le (show docStart? lines row before = some n from h) hrow]
    exact Nat.le_refl n
  | cons c cs ih =>
    obtain ⟨hc, hcs⟩ := List.forall_mem_cons.mp hcs
    rw [List.map_cons, List.cons_append] at h
    obtain ⟨-, -, h⟩ := docStart?_cons h
    cases hrest : docStart? lines (lines.row c.start) (cs.map .comment ++ before) with
    | some k =>
      rw [hrest, Option.some_or] at h
      exact ih hcs (hmono hc) (hrest.trans h)
    | none =>
      -- the group begins with this comment
      rw [hrest, Option.none_or, Option.some.injEq] at h
      cases hlast : docStart? lines (lines.row m) before with
      | none => exact h ▸ hc
      | some k =>
        obtain ⟨d, hd, hk⟩ := exists_comment_of_docStart? hlast
        have hle : d.start ≤ m := hbefore _ hd
        show k ≤ n
        omega

end Declaration

/-! ## The last group of a text -/

variable {s : List Char}

/-- Where the last group of comments of a text begins, if it ends on the last line and does not
trail an item; otherwise the end of the text. -/
def closingGroup (s : List Char) : Nat :=
  (Declaration.docStart? (.ofBytes (Utf8.encode s)) ((LineIndex.ofBytes (Utf8.encode s)).row (byteWidth s))
    (siblingsOf s).reverse).getD (byteWidth s)

theorem stop_le_of_mem_comments {c : Comment} (hc : c ∈ (scan s).comments) :
    c.start < c.stop ∧ c.stop ≤ byteWidth s := by
  obtain ⟨l, hl, -, hstop⟩ := mem_comments hc
  have hpos := width_pos_of_mem_layout hl
  exact ⟨by omega, hstop ▸ (isBoundary_stop hl).le⟩

theorem closingGroup_le (s : List Char) : closingGroup s ≤ byteWidth s := by
  unfold closingGroup
  cases h : Declaration.docStart? (.ofBytes (Utf8.encode s))
      ((LineIndex.ofBytes (Utf8.encode s)).row (byteWidth s)) (siblingsOf s).reverse with
  | none => exact Nat.le_refl _
  | some n =>
    obtain ⟨c, hc, rfl⟩ := Declaration.exists_comment_of_docStart? h
    have := stop_le_of_mem_comments (Declaration.comment_mem_siblings (List.mem_reverse.mp hc))
    show c.start ≤ _
    omega

example : closingGroup "package a // a\n\n// One.\n/* Two. */\n".toList = 16 := by decide +kernel

/-- Whether no comment of a text ends on the line before its end. -/
def EndsBare (s : List Char) : Prop :=
  ∀ c ∈ (scan s).comments,
    (LineIndex.ofBytes (Utf8.encode s)).row c.stop + 1 < (LineIndex.ofBytes (Utf8.encode s)).row (byteWidth s)

theorem closingGroup_eq_byteWidth (h : EndsBare s) : closingGroup s = byteWidth s := by
  have hnone : Declaration.docStart? (.ofBytes (Utf8.encode s))
      ((LineIndex.ofBytes (Utf8.encode s)).row (byteWidth s)) (siblingsOf s).reverse = none :=
    Declaration.docStart?_eq_none fun c hc =>
      h c (Declaration.comment_mem_siblings (List.mem_reverse.mp hc))
  rw [closingGroup, hnone]
  rfl

/-- The items of a text end before its last group. -/
theorem stop_le_closingGroup (href : (textItems s).refusal = none) {n : Node} (hn : n ∈ (textItems s).nodes) :
    n.stop ≤ closingGroup s := by
  have hsibling : .item n ∈ (siblingsOf s).reverse :=
    List.mem_reverse.mpr (Declaration.item_mem_siblings.mpr hn)
  unfold closingGroup
  cases h : Declaration.docStart? (.ofBytes (Utf8.encode s))
      ((LineIndex.ofBytes (Utf8.encode s)).row (byteWidth s)) (siblingsOf s).reverse with
  | none =>
    obtain ⟨hi, hcut, hnest⟩ := (read_textItems href).nested (startOf_orderly s)
    exact Nat.le_trans (hnest.of_mem hn).range.2.2.1 hcut.le
  | some k =>
    obtain ⟨group, c, rest, hsiblings, rfl, -⟩ := Declaration.docStart?_eq_some h
    have horder := (siblingsOf_pairwise href).1
    rw [← List.reverse_reverse (siblingsOf s), hsiblings, List.reverse_append, List.pairwise_append] at horder
    rw [hsiblings, List.mem_append] at hsibling
    have hrest : .item n ∈ rest := by
      refine hsibling.resolve_left fun hgroup => ?_
      obtain ⟨d, -, hd⟩ := List.mem_map.mp hgroup
      cases hd
    exact horder.2.2 (.item n) (List.mem_reverse.mpr hrest) (.comment c) (by simp)

end GoSplice
