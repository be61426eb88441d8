import GoSplice.Proofs.Lexemes

/-!
# Literals in other surroundings

A literal that is closed reads no further than its end, so other text may follow it:

    interpretedEnd s = closed n → interpretedEnd (s.take n ++ y) = closed n   (interpretedEnd_take)
    runeLength? s = some n → runeLength? (s.take n ++ y) = some n             (runeLength?_take)

A stretch of blanks, a word or a number ends before a character that cannot
belong to it; a line end is one.  `KeepsLine x y` says that `y` goes on as `x`
does, up to a line end, or a separator that both go on with:

    the number of characters that are read is the same before x and y
      (takeWhile_keepsLine, numberLength_keepsLine, operator?_keepsLine)
-/

namespace GoSplice.Syntax

/-! ## Beginnings -/

/-- What is read of a text before an offset is there if the text is cut behind it. -/
theorem take_take_append {α : Type} {s : List α} {k m : Nat} (hkm : k ≤ m) (hk : k ≤ s.length)
    (y : List α) : (s.take m ++ y).take k = s.take k := by
  rw [List.take_append_of_le_length (by rw [List.length_take]; omega), List.take_take,
    Nat.min_eq_left hkm]

theorem beginsHex_succ {k : Nat} {s : List Char} :
    beginsHex (k + 1) s ↔ ∃ c r, s = c :: r ∧ isHexDigit c ∧ beginsHex k r := by
  cases s with
  | nil => simp [beginsHex]
  | cons c r =>
    simp only [beginsHex, List.take_succ_cons, List.length_cons, List.all_cons, Bool.and_eq_true,
      beq_iff_eq, Nat.add_right_cancel_iff, List.cons.injEq]
    constructor
    · rintro ⟨hlen, hc, hall⟩
      exact ⟨c, r, ⟨rfl, rfl⟩, hc, hlen, hall⟩
    · rintro ⟨_, _, ⟨rfl, rfl⟩, hc, hlen, hall⟩
      exact ⟨hlen, hc, hall⟩

theorem le_length_of_beginsHex {k : Nat} {s : List Char} (h : beginsHex k s) : k ≤ s.length := by
  simp only [beginsHex, Bool.and_eq_true, beq_iff_eq, List.length_take] at h
  omega

theorem beginsHex_take {k m : Nat} {s : List Char} (h : beginsHex k s) (hkm : k ≤ m) (y : List Char) :
    beginsHex k (s.take m ++ y) := by
  have hk := le_length_of_beginsHex h
  unfold beginsHex at h ⊢
  rw [take_take_append hkm hk]
  exact h

/-! ## Strings -/

theorem Ending.after_eq_closed {e : Ending} {k n : Nat} (h : e.after k = .closed n) :
    ∃ m, e = .closed m ∧ n = m + k := by
  cases e with
  | closed m => cases h; exact ⟨m, rfl, rfl⟩
  | unclosed m | broken => cases h

/-- The digits of an escape belong to the string. -/
theorem lt_of_beginsHex {k n : Nat} {s : List Char} (hs : beginsHex k s)
    (h : interpretedEnd s = .closed n) : k < n := by
  induction k generalizing s n with
  | zero =>
    fun_cases interpretedEnd s with
    | case2 => cases h; exact Nat.one_pos
    | case1 | case3 | case5 | case7 | case9 | case11 => simp_all [interpretedEnd]
    | _ =>
      simp_all only [interpretedEnd]
      obtain ⟨m, -, rfl⟩ := Ending.after_eq_closed h
      omega
  | succ k ih =>
    obtain ⟨c, r, rfl, hc, hr⟩ := beginsHex_succ.mp hs
    have hne : c ≠ '"' ∧ c ≠ '\n' ∧ c ≠ '\\' := by
      refine ⟨?_, ?_, ?_⟩ <;> rintro rfl <;> exact absurd hc (by decide)
    have hstep : interpretedEnd (c :: r) = (interpretedEnd r).after 1 := by
      rw [interpretedEnd.eq_def]
      split <;> simp_all
    rw [hstep] at h
    obtain ⟨m, hm, rfl⟩ := Ending.after_eq_closed h
    have := ih hr hm
    omega

theorem interpretedEnd_cons {c : Char} (hc : c ≠ '"' ∧ c ≠ '\n' ∧ c ≠ '\\') (r : List Char) :
    interpretedEnd (c :: r) = (interpretedEnd r).after 1 := by
  rw [interpretedEnd.eq_def]
  split <;> simp_all

/-- A closed string reads no further than its quote. -/
theorem interpretedEnd_take {s : List Char} {n : Nat} (h : interpretedEnd s = .closed n) :
    n ≤ s.length ∧ ∀ y, interpretedEnd (s.take n ++ y) = .closed n := by
  fun_induction interpretedEnd s generalizing n with
  | case1 | case3 | case5 | case7 | case9 | case11 => cases h
  | case2 r =>
    cases h
    exact ⟨Nat.le_add_left 1 _, fun y => rfl⟩
  | case4 r hb ih | case6 r hb ih | case8 r hb ih =>
    obtain ⟨m, hm, rfl⟩ := Ending.after_eq_closed h
    obtain ⟨hle, hy⟩ := ih hm
    refine ⟨Nat.add_le_add_right hle 2, fun y => ?_⟩
    have hb' := beginsHex_take hb (Nat.le_of_lt (lt_of_beginsHex hb hm)) y
    rw [List.take_succ_cons, List.take_succ_cons, List.cons_append, List.cons_append]
    simp only [interpretedEnd]
    rw [if_pos hb', hy y]
    rfl
  | case10 c r hx hu hU ih =>
    obtain ⟨m, hm, rfl⟩ := Ending.after_eq_closed h
    obtain ⟨hle, hy⟩ := ih hm
    refine ⟨Nat.add_le_add_right hle 2, fun y => ?_⟩
    rw [List.take_succ_cons, List.take_succ_cons, List.cons_append, List.cons_append,
      interpretedEnd.eq_7 c _ hx hu hU, hy y]
    rfl
  | case12 c r hquote hline _ _ _ hmark hlast ih =>
    obtain ⟨m, hm, rfl⟩ := Ending.after_eq_closed h
    obtain ⟨hle, hy⟩ := ih hm
    refine ⟨Nat.add_le_add_right hle 1, fun y => ?_⟩
    have hback : c ≠ '\\' := fun hc => by
      cases r with
      | nil => exact hlast hc rfl
      | cons d r => exact hmark d r hc rfl
    rw [List.take_succ_cons, List.cons_append, interpretedEnd_cons ⟨hquote, hline, hback⟩, hy y]
    rfl

theorem rawEnd_take {s : List Char} {n : Nat} (h : rawEnd s = .closed n) :
    n ≤ s.length ∧ ∀ y, rawEnd (s.take n ++ y) = .closed n := by
  fun_induction rawEnd s generalizing n with
  | case1 => cases h
  | case2 r =>
    cases h
    exact ⟨Nat.le_add_left 1 _, fun y => rfl⟩
  | case3 c r hc ih =>
    obtain ⟨m, hm, rfl⟩ := Ending.after_eq_closed h
    obtain ⟨hle, hy⟩ := ih hm
    refine ⟨Nat.add_le_add_right hle 1, fun y => ?_⟩
    rw [List.take_succ_cons, List.cons_append, rawEnd, if_neg hc, hy y]
    rfl

theorem getLast?_take_succ {α : Type} {c d : α} {r : List α} {n : Nat}
    (h : (r.take n).getLast? = some d) : ((c :: r).take (n + 1)).getLast? = some d := by
  rw [List.take_succ_cons, List.getLast?_cons, h]
  rfl

/-- A closed string ends with its quote. -/
theorem interpretedEnd_getLast {s : List Char} {n : Nat} (h : interpretedEnd s = .closed n) :
    (s.take n).getLast? = some '"' := by
  fun_induction interpretedEnd s generalizing n with
  | case1 | case3 | case5 | case7 | case9 | case11 => cases h
  | case2 r => cases h; rfl
  | case4 r _ ih | case6 r _ ih | case8 r _ ih =>
    obtain ⟨m, hm, rfl⟩ := Ending.after_eq_closed h
    exact getLast?_take_succ (getLast?_take_succ (ih hm))
  | case10 c r _ _ _ ih =>
    obtain ⟨m, hm, rfl⟩ := Ending.after_eq_closed h
    exact getLast?_take_succ (getLast?_take_succ (ih hm))
  | case12 c r _ _ _ _ _ _ _ ih =>
    obtain ⟨m, hm, rfl⟩ := Ending.after_eq_closed h
    exact getLast?_take_succ (ih hm)

theorem rawEnd_getLast {s : List Char} {n : Nat} (h : rawEnd s = .closed n) :
    (s.take n).getLast? = some '\x60' := by
  fun_induction rawEnd s generalizing n with
  | case1 => cases h
  | case2 r => cases h; rfl
  | case3 c r _ ih =>
    obtain ⟨m, hm, rfl⟩ := Ending.after_eq_closed h
    exact getLast?_take_succ (ih hm)

/-! ## Runes -/

theorem runeLength?_getLast {s : List Char} {n : Nat} (h : runeLength? s = some n) :
    (s.take n).getLast? = some '\'' := by
  unfold runeLength? at h
  obtain ⟨k, -, hk⟩ := Option.bind_eq_some_iff.mp h
  split at hk
  · next hq =>
    cases hk
    rw [List.take_add_one, hq]
    simp
  · cases hk

theorem escapeLength?_pos {s : List Char} {n : Nat} (h : escapeLength? s = some n) : 0 < n := by
  unfold escapeLength? at h
  split at h
  · split at h <;> cases h
    exact Nat.succ_pos _
  · split at h <;> cases h
    exact Nat.succ_pos _
  · split at h <;> cases h
    exact Nat.succ_pos _
  · split at h
    · cases h
      exact Nat.succ_pos _
    · split at h <;> cases h
      exact Nat.succ_pos _
  · cases h

theorem escapeLength?_take {s : List Char} {n : Nat} (h : escapeLength? s = some n) {m : Nat}
    (hm : n ≤ m) : n ≤ s.length ∧ ∀ y, escapeLength? (s.take m ++ y) = some n := by
  cases m with
  | zero => exact absurd hm (Nat.not_le_of_gt (escapeLength?_pos h))
  | succ m =>
    fun_cases escapeLength? s with
    | case1 r hb | case3 r hb | case5 r hb =>
      simp only [escapeLength?, if_pos hb, Option.some.injEq] at h
      subst h
      have hle := le_length_of_beginsHex hb
      refine ⟨by rw [List.length_cons]; omega, fun y => ?_⟩
      rw [List.take_succ_cons, List.cons_append]
      simp only [escapeLength?]
      rw [if_pos (beginsHex_take hb (by omega) y)]
    | case2 r hb | case4 r hb | case6 r hb =>
      simp only [escapeLength?, if_neg hb] at h
      cases h
    | case7 c r hx hu hU hc =>
      rw [escapeLength?.eq_4 c r hx hu hU, if_pos hc, Option.some.injEq] at h
      subst h
      refine ⟨Nat.le_add_left 1 _, fun y => ?_⟩
      rw [List.take_succ_cons, List.cons_append, escapeLength?.eq_4 c _ hx hu hU, if_pos hc]
    | case8 c r hx hu hU hc ho =>
      rw [escapeLength?.eq_4 c r hx hu hU, if_neg hc, if_pos ho, Option.some.injEq] at h
      subst h
      have hlen : 2 ≤ r.length := by
        simp only [Bool.and_eq_true, beq_iff_eq, List.length_take] at ho
        omega
      refine ⟨Nat.add_le_add_right hlen 1, fun y => ?_⟩
      rw [List.take_succ_cons, List.cons_append, escapeLength?.eq_4 c _ hx hu hU, if_neg hc,
        take_take_append (by omega) hlen, if_pos ho]
    | case9 c r hx hu hU hc ho =>
      rw [escapeLength?.eq_4 c r hx hu hU, if_neg hc, if_neg ho] at h
      cases h
    | case10 => cases h

theorem runeLength?_take {s : List Char} {n : Nat} (h : runeLength? s = some n) :
    n ≤ s.length ∧ ∀ y, runeLength? (s.take n ++ y) = some n := by
  have hclosed : ∀ {s : List Char} {k : Nat},
      (if s[k]? = some '\'' then some (k + 1) else none) = some n → n = k + 1 ∧ s[k]? = some '\'' := by
    intro s k hk
    split at hk
    · next hq => exact ⟨(Option.some.inj hk).symm, hq⟩
    · cases hk
  unfold runeLength? at h
  split at h
  · next r =>
    simp only [Option.bind_eq_some_iff, Option.map_eq_some_iff] at h
    obtain ⟨_, ⟨k, hk, rfl⟩, h⟩ := h
    obtain ⟨rfl, hq⟩ := hclosed h
    rw [List.getElem?_cons_succ] at hq
    obtain ⟨hlt, hget⟩ := List.getElem?_eq_some_iff.mp hq
    obtain ⟨-, hy⟩ := escapeLength?_take hk (Nat.le_succ k)
    refine ⟨Nat.add_le_add_right hlt 1, fun y => ?_⟩
    rw [List.take_succ_cons, List.cons_append]
    simp only [runeLength?, hy y, Option.map_some, Option.bind_some, List.getElem?_cons_succ]
    rw [if_pos]
    rw [List.getElem?_append_left (by rw [List.length_take]; omega), List.getElem?_take_of_lt (by omega), hq]
  · cases h
  · next c r hback hquote =>
    obtain ⟨rfl, hq⟩ := hclosed h
    cases r with
    | nil => cases hq
    | cons d r =>
      rw [List.getElem?_cons_succ, List.getElem?_cons_zero, Option.some.injEq] at hq
      subst hq
      refine ⟨Nat.le_add_left 2 _, fun y => ?_⟩
      show runeLength? (c :: '\'' :: y) = some 2
      unfold runeLength?
      split
      · next heq => exact absurd (List.cons.inj heq).1 hback
      · next heq => exact absurd (List.cons.inj heq).1 hquote
      · rfl
      · next heq => cases heq
  · cases h

/-! ## Comments -/

theorem blockCommentLength?_le {s : List Char} {n : Nat} (h : blockCommentLength? s = some n) :
    2 ≤ n ∧ n ≤ s.length := by
  fun_induction blockCommentLength? s generalizing n with
  | case1 => cases h
  | case2 r =>
    cases h
    exact ⟨Nat.le_refl 2, Nat.le_add_left 2 _⟩
  | case3 c r _ ih =>
    obtain ⟨m, hm, rfl⟩ := Option.map_eq_some_iff.mp h
    have := ih hm
    rw [List.length_cons]
    omega

theorem blockCommentLength?_take {s : List Char} {n : Nat} (h : blockCommentLength? s = some n)
    (y : List Char) : blockCommentLength? (s.take n ++ y) = some n := by
  fun_induction blockCommentLength? s generalizing n with
  | case1 => cases h
  | case2 r =>
    cases h
    rfl
  | case3 c r hne ih =>
    obtain ⟨m, hm, rfl⟩ := Option.map_eq_some_iff.mp h
    have hle := blockCommentLength?_le hm
    rw [List.take_succ_cons, List.cons_append, blockCommentLength?, ih hm]
    · rfl
    · intro r' hc hr
      cases r with
      | nil => cases hm
      | cons d r =>
        obtain ⟨m, rfl⟩ : ∃ k, m = k + 1 := ⟨m - 1, by omega⟩
        rw [List.take_succ_cons, List.cons_append, List.cons.injEq] at hr
        exact hne r hc (by rw [hr.1])

theorem blockCommentLength?_of_append {a b : List Char} (h : blockCommentLength? (a ++ b) = none) :
    blockCommentLength? a = none := by
  cases ha : blockCommentLength? a with
  | none => rfl
  | some n =>
    have hle := blockCommentLength?_le ha
    have htake := blockCommentLength?_take ha (a.drop n ++ b)
    rw [← List.append_assoc, List.take_append_drop, h] at htake
    cases htake

/-! ## Up to a line end -/

/-- Whether a text is empty or begins with a line end. -/
def EndsLine (y : List Char) : Prop := ∀ c ∈ y.head?, c = '\n'

/-- Characters that no stretch of another kind goes on with: blanks, a semicolon, an opening
parenthesis, and what begins a comment or a string. -/
def isSeparator (c : Char) : Bool :=
  isInlineBlank c || c = ';' || c = '/' || c = '(' || c = '"' || c = '\x60'

/-- Whether a text ends what stands before it as another does: it ends the line, or begins with
the separator that the other begins with. -/
def EndsAlike (x y : List Char) : Prop :=
  EndsLine y ∨ ∃ c x' y', x = c :: x' ∧ y = c :: y' ∧ isSeparator c

/-- Whether a text goes on as another does, up to a line end or a separator of both, or its end. -/
def KeepsLine (x y : List Char) : Prop := ∃ u x' y', x = u ++ x' ∧ y = u ++ y' ∧ EndsAlike x' y'

/-- The line ends, or the first characters are the same. -/
theorem KeepsLine.head {x y : List Char} (h : KeepsLine x y) :
    EndsLine y ∨ ∃ c x' y', x = c :: x' ∧ y = c :: y' := by
  obtain ⟨u, x', y', rfl, rfl, hend⟩ := h
  cases u with
  | nil => exact hend.imp_right fun ⟨c, x', y', hx, hy, _⟩ => ⟨c, x', y', hx, hy⟩
  | cons c u => exact Or.inr ⟨c, _, _, rfl, rfl⟩

theorem EndsLine.takeWhile {p : Char → Bool} (hp : p '\n' = false) {y : List Char} (h : EndsLine y) :
    y.takeWhile p = [] := by
  cases y with
  | nil => rfl
  | cons c y =>
    obtain rfl : c = '\n' := h c rfl
    rw [List.takeWhile_cons, if_neg (by rw [hp]; nofun)]

theorem takeWhile_keepsLine {p : Char → Bool} (hp : p '\n' = false) {r y : List Char}
    (h : KeepsLine (r.drop (r.takeWhile p).length) y) :
    (r.take (r.takeWhile p).length ++ y).takeWhile p = r.takeWhile p := by
  rw [take_length_takeWhile]
  rw [drop_length_takeWhile] at h
  have hy : y.takeWhile p = [] := by
    rcases h.head with hend | ⟨c, x', y', hx, rfl⟩
    · exact hend.takeWhile hp
    · have hne : r.dropWhile p ≠ [] := by rw [hx]; nofun
      have hnot := List.head_dropWhile_not p hne
      simp only [hx, List.head_cons] at hnot
      rw [List.takeWhile_cons, if_neg (by rw [hnot]; nofun)]
  rw [List.takeWhile_append_of_pos fun c hc => mem_takeWhile hc, hy, List.append_nil]

theorem blockCommentLength?_cons_eq_none {c : Char} {r : List Char} :
    blockCommentLength? (c :: r) = none ↔
      ¬ (c = '*' ∧ r.head? = some '/') ∧ blockCommentLength? r = none := by
  by_cases h : c = '*' ∧ r.head? = some '/'
  · obtain ⟨rfl, hhead⟩ := h
    obtain ⟨r', rfl⟩ := List.head?_eq_some_iff.mp hhead
    simp [blockCommentLength?]
  · rw [blockCommentLength?, Option.map_eq_none_iff, and_iff_right h]
    rintro r' hc rfl
    exact h ⟨hc, rfl⟩

/-- The mark that ends a comment does not come up where a text takes the place of another. -/
theorem blockCommentLength?_replaced {a x y : List Char} (ha : blockCommentLength? (a ++ x) = none)
    (hy : blockCommentLength? y = none) (hend : EndsAlike x y) : blockCommentLength? (a ++ y) = none := by
  induction a with
  | nil => exact hy
  | cons c a ih =>
    rw [List.cons_append, blockCommentLength?_cons_eq_none] at ha ⊢
    refine ⟨fun ⟨hc, hhead⟩ => ha.1 ⟨hc, ?_⟩, ih ha.2⟩
    cases a with
    | cons d a => exact hhead
    | nil =>
      rw [List.nil_append] at hhead ⊢
      rcases hend with hline | ⟨d, x', y', rfl, rfl, -⟩
      · exact absurd (hline '/' hhead) (by decide)
      · exact hhead

/-- A mark of an end that neither of two texts holds does not come up across a line end. -/
theorem blockCommentLength?_append {a b : List Char} (ha : blockCommentLength? a = none)
    (hb : blockCommentLength? b = none) (hend : EndsLine b) : blockCommentLength? (a ++ b) = none :=
  blockCommentLength?_replaced (x := []) (by rw [List.append_nil]; exact ha) hb (Or.inl hend)

/-- Whether a character that is read after another goes on with a number. -/
def goesOn (hex : Bool) (previous c : Char) : Bool :=
  c.isAlphanum || c = '_' || c = '.' || ((c = '+' || c = '-') &&
    if hex then previous = 'p' || previous = 'P' else previous = 'e' || previous = 'E')

theorem numberLength_cons (hex : Bool) (previous c : Char) (r : List Char) :
    numberLength hex previous (c :: r) =
      if goesOn hex previous c then numberLength hex c r + 1 else 0 := by
  cases hex <;> simp [numberLength, goesOn]

theorem numberLength_le (hex : Bool) (previous : Char) (r : List Char) :
    numberLength hex previous r ≤ r.length := by
  induction r generalizing previous with
  | nil => exact Nat.le_refl 0
  | cons c r ih =>
    rw [numberLength_cons, List.length_cons]
    split
    · exact Nat.succ_le_succ (ih c)
    · exact Nat.zero_le _

theorem lineEnd_notMem_number (hex : Bool) (previous : Char) (r : List Char) :
    '\n' ∉ r.take (numberLength hex previous r) := by
  induction r generalizing previous with
  | nil => rw [List.take_nil]; exact List.not_mem_nil
  | cons c r ih =>
    rw [numberLength_cons]
    split
    · next hc =>
      rw [List.take_succ_cons, List.mem_cons, not_or]
      refine ⟨?_, ih c⟩
      rintro rfl
      simp [goesOn] at hc
    · exact List.not_mem_nil

theorem EndsLine.numberLength {y : List Char} (h : EndsLine y) (hex : Bool) (previous : Char) :
    numberLength hex previous y = 0 := by
  cases y with
  | nil => rfl
  | cons c y =>
    obtain rfl : c = '\n' := h c rfl
    have hline : goesOn hex previous '\n' = false := by simp [goesOn]
    rw [numberLength_cons, if_neg (by rw [hline]; nofun)]

theorem numberLength_keepsLine {hex : Bool} {previous : Char} {r y : List Char}
    (h : KeepsLine (r.drop (numberLength hex previous r)) y) :
    numberLength hex previous (r.take (numberLength hex previous r) ++ y) =
        numberLength hex previous r := by
  induction r generalizing previous with
  | nil =>
    rcases h.head with hend | ⟨c, x', y', hx, -⟩
    · exact hend.numberLength hex previous
    · rw [List.drop_nil] at hx
      cases hx
  | cons c r ih =>
    rw [numberLength_cons] at h ⊢
    by_cases hc : goesOn hex previous c
    · rw [if_pos hc, List.drop_succ_cons] at h
      rw [if_pos hc, List.take_succ_cons, List.cons_append, numberLength_cons, if_pos hc, ih h]
    · rw [if_neg hc, List.drop_zero] at h
      rw [if_neg hc, List.take_zero, List.nil_append]
      rcases h.head with hend | ⟨d, x', y', hx, rfl⟩
      · exact hend.numberLength hex previous
      · obtain ⟨rfl, -⟩ := List.cons.inj hx
        rw [numberLength_cons, if_neg hc]

/-- No spelling of an operator holds a line end. -/
theorem lineEnd_notMem_operator {w : String} {o : Operator} (h : (w, o) ∈ operators) :
    '\n' ∉ w.toList := by
  have hall : ∀ x ∈ operators, '\n' ∉ x.1.toList := by decide
  exact hall _ h

/-- No spelling of an operator goes on with a separator. -/
theorem separator_notMem_operator {w : String} {o : Operator} (h : (w, o) ∈ operators) {c : Char}
    (hc : isSeparator c) : c ∉ w.toList.tail := by
  have hall : ∀ x ∈ operators, x.1.toList.tail.all (!isSeparator ·) := by decide
  intro hmem
  have := List.all_eq_true.mp (hall _ h) c hmem
  simp [hc] at this

/-- A text without a character that begins two others lies before it. -/
theorem isPrefix_of_notMem {v p q : List Char} {c : Char} (hv : c ∉ v) (hq : ∀ d ∈ q.head?, d = c)
    (h : v <+: p ++ q) : v <+: p := by
  induction v generalizing p with
  | nil => exact List.nil_prefix
  | cons d v ih =>
    rw [List.mem_cons, not_or] at hv
    cases p with
    | nil =>
      cases q with
      | nil => exact h
      | cons e q =>
        rw [List.nil_append, List.cons_prefix_cons] at h
        exact absurd (h.1.trans (hq e rfl)).symm hv.1
    | cons e p =>
      rw [List.cons_append, List.cons_prefix_cons] at h
      rw [List.cons_prefix_cons]
      exact ⟨h.1, ih hv.2 h.2⟩

/-- A text without line ends that begins another lies before its first line end. -/
theorem isPrefix_of_endsLine {v p q : List Char} (hv : '\n' ∉ v) (hq : EndsLine q) (h : v <+: p ++ q) :
    v <+: p :=
  isPrefix_of_notMem hv hq h

/-- An operator that begins with a text begins with what is before the text's end. -/
theorem isPrefix_of_endsAlike {w : String} {o : Operator} (h : (w, o) ∈ operators) {p x y : List Char}
    (hp : p ≠ []) (hend : EndsAlike x y) (hw : w.toList <+: p ++ y) : w.toList <+: p := by
  rcases hend with hline | ⟨c, x', y', -, rfl, hc⟩
  · exact isPrefix_of_endsLine (lineEnd_notMem_operator h) hline hw
  · have htail := separator_notMem_operator h hc
    obtain ⟨d, p, rfl⟩ := List.exists_cons_of_ne_nil hp
    cases hv : w.toList with
    | nil => exact List.nil_prefix
    | cons e v =>
      rw [hv, List.cons_append, List.cons_prefix_cons] at hw
      rw [hv, List.tail_cons] at htail
      rw [List.cons_prefix_cons]
      exact ⟨hw.1, isPrefix_of_notMem htail (by rintro d ⟨⟩; rfl) hw.2⟩

theorem operator?_keepsLine {s y : List Char} {w : String} {o : Operator}
    (h : operator? s = some (w, o)) (hy : KeepsLine (s.drop w.length) y) :
    operator? (s.take w.length ++ y) = some (w, o) := by
  unfold operator? at h ⊢
  rw [List.find?_eq_some_iff_append] at h ⊢
  obtain ⟨hw, as, bs, hops, has⟩ := h
  obtain ⟨x, hx⟩ := List.isPrefixOf_iff_prefix.mp hw
  have hlen : w.length = w.toList.length := String.length_toList.symm
  obtain ⟨u, x', y', hu, rfl, hend⟩ := hy
  rw [hlen, ← hx, List.drop_left] at hu
  rw [hlen, ← hx, List.take_left]
  refine ⟨List.isPrefixOf_iff_prefix.mpr ⟨_, rfl⟩, as, bs, hops, fun a ha => ?_⟩
  have hnot := has a ha
  rw [Bool.not_eq_true', Bool.eq_false_iff, Ne, List.isPrefixOf_iff_prefix] at hnot ⊢
  intro hcon
  have hmem : (a.1, a.2) ∈ operators := by rw [hops]; simp [ha]
  rw [← List.append_assoc] at hcon
  have hall : ∀ x ∈ operators, x.1.toList ≠ [] := by decide
  have hne : w.toList ≠ [] := hall (w, o) (by rw [hops]; simp)
  have hpre := isPrefix_of_endsAlike hmem (List.append_ne_nil_of_left_ne_nil hne u) hend hcon
  refine hnot (hpre.trans ⟨x', ?_⟩)
  rw [← hx, hu, List.append_assoc]

end GoSplice.Syntax
