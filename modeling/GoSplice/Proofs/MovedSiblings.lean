import GoSplice.Proofs.Growth

/-!
# Siblings that move

Bytes that are put into a file move what is behind their place, and the rows there grow by the line
feeds among them.  The doc comment of a declaration behind the place moves with it, if it begins there
too and trails the item before it just where it did:

    i.place ≤ o → row (o + i.text.length) of i.apply bs = row o of bs, plus the line feeds   (row_behind)
    siblings of moved nodes and comments = the siblings, moved                           (siblings_moved)
    docRange? lines' (start + n) (zs moved, then us') =
      docRange? lines start (zs, then us), moved                                         (docRange?_moved)
-/

namespace GoSplice

open Syntax

/-! ## Bytes that are put in -/

/-- Bytes, and the offset at which they are put in. -/
structure Insertion where
  place : Nat
  text : Bytes
  deriving Repr, DecidableEq

namespace Insertion

variable {i : Insertion} {source : Bytes} {o : Nat}

def apply (i : Insertion) (source : Bytes) : Bytes := source.take i.place ++ i.text ++ source.drop i.place

/-- Where what began at an offset begins: what began at the place is behind it. -/
def start (i : Insertion) (o : Nat) : Nat := if o < i.place then o else o + i.text.length

/-- Where what ended at an offset ends: what ended at the place is before it. -/
def stop (i : Insertion) (o : Nat) : Nat := if o ≤ i.place then o else o + i.text.length

def comment (i : Insertion) (c : Comment) : Comment := ⟨i.start c.start, i.stop c.stop⟩

def doc (i : Insertion) (r : DocRange) : DocRange := ⟨i.start r.start, i.stop r.stop⟩

theorem start_before (h : o < i.place) : i.start o = o := if_pos h

theorem start_behind (h : i.place ≤ o) : i.start o = o + i.text.length := if_neg (Nat.not_lt.mpr h)

theorem stop_before (h : o ≤ i.place) : i.stop o = o := if_pos h

theorem stop_behind (h : i.place < o) : i.stop o = o + i.text.length := if_neg (Nat.not_le.mpr h)

/-- Up to the place the rows are those of the file. -/
theorem row_before (ho : o ≤ i.place) (hplace : i.place ≤ source.length) :
    (LineIndex.ofBytes (i.apply source)).row o = (LineIndex.ofBytes source).row o := by
  have htake : (source.take i.place).length = i.place := List.length_take_of_le hplace
  rw [LineIndex.row_ofBytes, LineIndex.row_ofBytes, apply, List.append_assoc,
    List.take_append_of_le_length (by omega), List.take_take, Nat.min_eq_left ho]

/-- From the place on the rows grow by the line feeds that are put in. -/
theorem row_behind (ho : i.place ≤ o) (hplace : i.place ≤ source.length) :
    (LineIndex.ofBytes (i.apply source)).row (o + i.text.length) =
      (LineIndex.ofBytes source).row o + i.text.count LineIndex.lineFeed := by
  obtain ⟨j, rfl⟩ := Nat.exists_eq_add_of_le ho
  have hlength : (source.take i.place ++ i.text).length = i.place + i.text.length := by
    rw [List.length_append, List.length_take_of_le hplace]
  have hnew : (i.apply source).take (i.place + j + i.text.length) =
      source.take i.place ++ i.text ++ (source.drop i.place).take j := by
    rw [apply, show i.place + j + i.text.length = (source.take i.place ++ i.text).length + j by omega,
      List.take_length_add_append]
  rw [LineIndex.row_ofBytes, LineIndex.row_ofBytes, hnew, List.take_add]
  simp only [List.count_append]
  omega

end Insertion

namespace Declaration

/-! ## Siblings further on -/

def Sibling.moved (n : Nat) : Sibling → Sibling
  | .comment c => .comment (c.moved n)
  | .item t => .item (t.moved n)

@[simp] theorem Sibling.start_moved (n : Nat) (x : Sibling) : (x.moved n).start = x.start + n := by
  cases x with
  | comment c => rfl
  | item t => exact Tree.start_moved n t

@[simp] theorem Sibling.stop_moved (n : Nat) (x : Sibling) : (x.moved n).stop = x.stop + n := by
  cases x with
  | comment c => rfl
  | item t => exact Tree.stop_moved n t

theorem siblings_moved (n : Nat) (ns : List Node) (cs : List Comment) :
    siblings (ns.map (Tree.moved n)) (cs.map (Comment.moved n)) = (siblings ns cs).map (Sibling.moved n) := by
  have hcomments : ∀ cs : List Comment,
      (cs.map (Comment.moved n)).map Sibling.comment = (cs.map Sibling.comment).map (Sibling.moved n) := fun cs => by
    rw [List.map_map, List.map_map]
    rfl
  induction ns generalizing cs with
  | nil => exact hcomments cs
  | cons t ts ih =>
    have hless : ∀ o, ((fun c : Comment => decide (c.start < o + n)) ∘ Comment.moved n) =
        fun c => decide (c.start < o) := fun o => by
      funext c
      simp [Comment.moved]
    rw [List.map_cons, siblings, siblings, Tree.start_moved, Tree.stop_moved, List.takeWhile_map, List.dropWhile_map,
      hless, hless, ih, hcomments, List.map_append, List.map_cons]
    rfl

/-! ## Doc comments further on -/

section Moved

variable {lines lines' : LineIndex} {k n m row start : Nat} {us us' zs : List Sibling}

/-- The comment nearest to a row begins its group, or the group above does. -/
theorem docStart?_cons_eq {c : Comment} (hrow : row ≤ lines.row c.stop + 1)
    (htrailing : NotTrailing lines.row (lines.row c.start) us) :
    docStart? lines row (.comment c :: us) = (docStart? lines (lines.row c.start) us).or (some c.start) := by
  unfold docStart?
  rw [if_neg (Nat.not_lt.mpr hrow)]
  cases us with
  | nil => rfl
  | cons x us =>
    cases x with
    | comment d => rfl
    | item t =>
      have hne : (lines.row t.stop == lines.row c.start) = false := beq_false_of_ne (htrailing t us rfl)
      dsimp only
      rw [hne]
      rfl

theorem docStart?_moved (hrows : ∀ o, k ≤ o → lines'.row (o + n) = lines.row o + m)
    (hus : ∀ x ∈ us, x.start < k) (hzs : ∀ x ∈ zs, k ≤ x.start ∧ k ≤ x.stop) (hlast : ∃ t r, us' = .item t :: r)
    (hedge : ∀ c, .comment c ∈ zs → (NotTrailing lines'.row (lines'.row (c.start + n)) us' ↔
      NotTrailing lines.row (lines.row c.start) us))
    (hstart : ∀ o, docStart? lines row (zs ++ us) = some o → k ≤ o) :
    docStart? lines' (row + m) (zs.map (Sibling.moved n) ++ us') = (docStart? lines row (zs ++ us)).map (· + n) := by
  induction zs generalizing row with
  | nil =>
    obtain ⟨t, r, rfl⟩ := hlast
    cases hold : docStart? lines row us with
    | none =>
      rw [List.nil_append, hold]
      rfl
    | some o =>
      -- the group would begin before the place
      obtain ⟨c, hc, rfl⟩ := exists_comment_of_docStart? hold
      exact absurd (hstart _ hold) (Nat.not_le.mpr (hus _ hc))
  | cons x zs ih =>
    cases x with
    | item t => rfl
    | comment c =>
      obtain ⟨⟨hstartc, hstopc⟩, hzs⟩ := List.forall_mem_cons.mp hzs
      have hrowStart := hrows c.start hstartc
      have hrowStop : lines'.row (c.moved n).stop = lines.row c.stop + m := hrows c.stop hstopc
      have htrailing : NotTrailing lines'.row (lines'.row (c.moved n).start) (zs.map (Sibling.moved n) ++ us') ↔
          NotTrailing lines.row (lines.row c.start) (zs ++ us) := by
        cases zs with
        | nil => exact hedge c List.mem_cons_self
        | cons y zs =>
          cases y with
          | comment d => exact ⟨fun _ => nofun, fun _ => nofun⟩
          | item t =>
            have ht : lines'.row (t.moved n).stop = lines.row t.stop + m := by
              rw [Tree.stop_moved]
              exact hrows t.stop (hzs _ List.mem_cons_self).2
            have hiff : lines'.row (t.moved n).stop ≠ lines'.row (c.moved n).start ↔
                lines.row t.stop ≠ lines.row c.start := by
              rw [ht, show (c.moved n).start = c.start + n from rfl, hrowStart, ne_eq, Nat.add_right_cancel_iff]
            refine ⟨fun h => ?_, fun h => ?_⟩
            · rintro u r ⟨⟩
              exact hiff.mp (h _ _ rfl)
            · rintro u r ⟨⟩
              exact hiff.mpr (h _ _ rfl)
      by_cases hnear : row ≤ lines.row c.stop + 1 ∧ NotTrailing lines.row (lines.row c.start) (zs ++ us)
      · have hold : docStart? lines row (.comment c :: zs ++ us) =
            (docStart? lines (lines.row c.start) (zs ++ us)).or (some c.start) := docStart?_cons_eq hnear.1 hnear.2
        have hrest := @ih (lines.row c.start) hzs (fun d hd => hedge d (List.mem_cons_of_mem _ hd)) fun o ho =>
          hstart o (by rw [hold, ho, Option.some_or])
        have hnew := @docStart?_cons_eq lines' (row + m) (zs.map (Sibling.moved n) ++ us') (c.moved n) (by
          rw [hrowStop]
          omega) (htrailing.mpr hnear.2)
        rw [show (c.moved n).start = c.start + n from rfl, hrowStart, hrest] at hnew
        rw [hold]
        refine hnew.trans ?_
        cases docStart? lines (lines.row c.start) (zs ++ us) <;> rfl
      · have hold : docStart? lines row (.comment c :: zs ++ us) = none :=
          Option.eq_none_iff_forall_ne_some.mpr fun o ho => hnear ⟨(docStart?_cons ho).1, (docStart?_cons ho).2.1⟩
        rw [hold]
        refine Option.eq_none_iff_forall_ne_some.mpr fun o ho => hnear ?_
        obtain ⟨hle, hnot, -⟩ := docStart?_cons (c := c.moved n) ho
        rw [hrowStop] at hle
        exact ⟨by omega, htrailing.mp hnot⟩

/-- A doc comment behind a place moves with its declaration. -/
theorem docRange?_moved (hrows : ∀ o, k ≤ o → lines'.row (o + n) = lines.row o + m) (hstart : k ≤ start)
    (hus : ∀ x ∈ us, x.start < k) (hzs : ∀ x ∈ zs, k ≤ x.start ∧ k ≤ x.stop) (hlast : ∃ t r, us' = .item t :: r)
    (hedge : ∀ c, .comment c ∈ zs → (NotTrailing lines'.row (lines'.row (c.start + n)) us' ↔
      NotTrailing lines.row (lines.row c.start) us))
    (hdoc : ∀ r, docRange? lines start (zs ++ us) = some r → k ≤ r.start) :
    docRange? lines' (start + n) (zs.map (Sibling.moved n) ++ us') =
      (docRange? lines start (zs ++ us)).map fun r => ⟨r.start + n, r.stop + n⟩ := by
  have hfirst : ∀ o, docStart? lines (lines.row start) (zs ++ us) = some o → k ≤ o := fun o ho => by
    obtain ⟨c, hc, -⟩ := exists_comment_of_docStart? ho
    obtain ⟨x, r, hx⟩ := List.exists_cons_of_ne_nil (List.ne_nil_of_mem hc)
    refine hdoc ⟨o, x.stop⟩ ?_
    unfold docRange?
    rw [ho, hx]
  have hmoved := docStart?_moved hrows hus hzs hlast hedge hfirst
  unfold docRange?
  rw [hrows start hstart, hmoved]
  cases hold : docStart? lines (lines.row start) (zs ++ us) with
  | none => rfl
  | some o =>
    cases zs with
    | nil =>
      -- nothing lies between the place and the declaration
      rw [hold] at hmoved
      obtain ⟨t, r, rfl⟩ := hlast
      cases hmoved
    | cons x zs =>
      rw [List.map_cons, List.cons_append, List.cons_append]
      simp only [Option.map_some, Sibling.stop_moved]

end Moved

/-! ## Declarations read off siblings -/

/-- Each item that is no package clause is one that a declaration is read off. -/
theorem exists_readOff {source : Bytes} {comments : List Comment} {lines : LineIndex} {before pre post : List Sibling}
    {t : Node} {ds : List Declaration} (h : ofSiblings source comments lines before (pre ++ .item t :: post) = .ok ds)
    (hl : t.label ≠ .packageClause) : ∃ d ∈ ds, ReadOff source comments lines (pre.reverse ++ before) t d := by
  induction pre generalizing before ds with
  | nil =>
    rw [List.nil_append] at h
    unfold ofSiblings at h
    dsimp only at h
    rw [if_neg hl] at h
    cases hd : declaredBy source comments t with
    | error e => rw [hd] at h; cases h
    | ok declared =>
      cases hrest : ofSiblings source comments lines (.item t :: before) post with
      | error e => rw [hd, hrest] at h; cases h
      | ok rest =>
        rw [hd, hrest] at h
        cases h
        exact ⟨_, List.mem_cons_self, rfl, rfl, rfl, hd, hl⟩
  | cons x pre ih =>
    rw [List.reverse_cons, List.append_assoc]
    rw [List.cons_append] at h
    rcases ofSiblings_cons h with ⟨u, d, rest, -, -, rfl, hrest⟩ | hrest
    · obtain ⟨e, he, hread⟩ := ih hrest
      exact ⟨e, List.mem_cons_of_mem d he, hread⟩
    · exact ih hrest

end Declaration

end GoSplice
