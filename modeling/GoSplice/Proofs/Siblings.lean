import GoSplice.Proofs.Items
import GoSplice.Source.Declaration

/-!
# Doc comments between items

Items and the comments outside of them stand in order.  A doc comment is a group
of comments right before its declaration, so nothing but comments lies between
its start and the declaration:

    (siblings ns cs).Pairwise Before                       (siblings_pairwise)
    docStart? lines row before = some n →
      before = group ++ rest, n the start of the group     (docStart?_eq_some)
    the group's comments lie Above row, before = group ++ rest, rest an item
      on another row → docStart? lines row before = some n (docStart?_of_above)
-/

namespace GoSplice

open Syntax

namespace Declaration

/-- One sibling ends before the other begins. -/
def Before (a b : Sibling) : Prop := a.stop ≤ b.start

/-! ## Siblings in order -/

theorem comment_mem_siblings {ns : List Node} {cs : List Comment} {c : Comment}
    (h : .comment c ∈ siblings ns cs) : c ∈ cs := by
  induction ns generalizing cs with
  | nil =>
    obtain ⟨d, hd, he⟩ := List.mem_map.mp h
    cases he
    exact hd
  | cons t ts ih =>
    rw [siblings, List.mem_append, List.mem_cons] at h
    rcases h with h | h | h
    · obtain ⟨d, hd, he⟩ := List.mem_map.mp h
      cases he
      exact List.takeWhile_subset _ hd
    · cases h
    · exact (List.dropWhile_suffix _).subset (ih h)

theorem item_mem_siblings {ns : List Node} {cs : List Comment} {n : Node} :
    .item n ∈ siblings ns cs ↔ n ∈ ns := by
  induction ns generalizing cs with
  | nil => simp [siblings]
  | cons t ts ih =>
    rw [siblings, List.mem_append, List.mem_cons, ih, List.mem_cons, Sibling.item.injEq]
    simp

def Sibling.node? : Sibling → Option Node
  | .item t => some t
  | .comment _ => none

theorem filterMap_siblings (ns : List Node) (cs : List Comment) :
    (siblings ns cs).filterMap Sibling.node? = ns := by
  have hcomments : ∀ cs : List Comment, (cs.map Sibling.comment).filterMap Sibling.node? = [] := by
    intro cs
    rw [List.filterMap_map]
    exact List.filterMap_eq_nil_iff.mpr fun _ _ => rfl
  induction ns generalizing cs with
  | nil => exact hcomments cs
  | cons t ts ih =>
    rw [siblings, List.filterMap_append, hcomments, List.nil_append, List.filterMap_cons, ih]
    rfl

theorem le_of_mem_dropWhile {cs : List Comment} (hcs : cs.Pairwise fun a b => a.stop ≤ b.start)
    (hpos : ∀ c ∈ cs, c.start < c.stop) {n : Nat} :
    ∀ c ∈ cs.dropWhile (·.start < n), n ≤ c.start := by
  induction cs with
  | nil => intro c hc; cases hc
  | cons d cs ih =>
    rw [List.pairwise_cons] at hcs
    intro c hc
    rw [List.dropWhile_cons] at hc
    split at hc
    · exact ih hcs.2 (fun c hc => hpos c (List.mem_cons_of_mem _ hc)) c hc
    · next hd =>
      have hd : n ≤ d.start := by simpa using hd
      rcases List.mem_cons.mp hc with rfl | hc
      · exact hd
      · have := hcs.1 c hc
        have := hpos d List.mem_cons_self
        omega

section Order

variable {cut : Nat → Prop}

theorem siblings_pairwise {ns : List Node} {cs : List Comment} {lo hi : Nat}
    (hns : Nested cut lo hi ns) (hcs : cs.Pairwise fun a b => a.stop ≤ b.start)
    (hpos : ∀ c ∈ cs, c.start < c.stop) (hlo : ∀ c ∈ cs, lo ≤ c.start)
    (hsep : ∀ n ∈ ns, ∀ c ∈ cs, c.start < n.start → c.stop ≤ n.start) :
    (siblings ns cs).Pairwise Before ∧ ∀ x ∈ siblings ns cs, lo ≤ x.start := by
  induction ns generalizing cs lo with
  | nil =>
    refine ⟨List.Pairwise.map _ (fun a b h => h) hcs, ?_⟩
    intro x hx
    obtain ⟨c, hc, rfl⟩ := List.mem_map.mp hx
    exact hlo c hc
  | cons t ts ih =>
    obtain ⟨ht, hts⟩ := hns
    have hle : lo ≤ t.start ∧ t.start < t.stop := by
      obtain ⟨l, s, e, c⟩ := t
      exact ⟨ht.1, ht.2.1⟩
    have hdrop : ∀ c ∈ cs.dropWhile (·.start < t.stop), c ∈ cs :=
      fun c hc => (List.dropWhile_suffix _).subset hc
    obtain ⟨ihp, ihlo⟩ := ih hts (hcs.sublist (List.dropWhile_suffix _).sublist)
      (fun c hc => hpos c (hdrop c hc)) (le_of_mem_dropWhile hcs hpos)
      fun n hn c hc => hsep n (List.mem_cons_of_mem _ hn) c (hdrop c hc)
    have hfirst : ∀ c ∈ cs.takeWhile (·.start < t.start), c.start < t.start ∧ c ∈ cs := by
      intro c hc
      have hall := List.all_takeWhile (p := fun c : Comment => decide (c.start < t.start)) (l := cs)
      rw [List.all_eq_true] at hall
      exact ⟨by simpa using hall c hc, List.takeWhile_subset _ hc⟩
    rw [siblings]
    constructor
    · rw [List.pairwise_append, List.pairwise_cons]
      refine ⟨List.Pairwise.map _ (fun a b h => h)
        (hcs.sublist (List.takeWhile_sublist _)), ⟨fun x hx => ihlo x hx, ihp⟩, ?_⟩
      intro x hx y hy
      obtain ⟨c, hc, rfl⟩ := List.mem_map.mp hx
      obtain ⟨hlt, hmem⟩ := hfirst c hc
      have hstop := hsep t List.mem_cons_self c hmem hlt
      show c.stop ≤ y.start
      rcases List.mem_cons.mp hy with rfl | hy
      · exact hstop
      · have := ihlo y hy
        omega
    · intro x hx
      rw [List.mem_append, List.mem_cons] at hx
      rcases hx with hx | rfl | hx
      · obtain ⟨c, hc, rfl⟩ := List.mem_map.mp hx
        exact hlo c (hfirst c hc).2
      · exact hle.1
      · have := ihlo x hx
        omega

end Order

/-! ## Doc comments -/

/-- Comments above a row, nearest first, each on the line above the next or further down. -/
def Above (rowOf : Nat → Nat) : Nat → List Comment → Prop
  | _, [] => True
  | row, c :: cs => row ≤ rowOf c.stop + 1 ∧ Above rowOf (rowOf c.start) cs

/-- Whether the nearest sibling is no item that ends in a row. -/
def NotTrailing (rowOf : Nat → Nat) (row : Nat) (before : List Sibling) : Prop :=
  ∀ t r, before = .item t :: r → rowOf t.stop ≠ row

/-- The comment nearest to a row lies above it without a gap and trails no item; the group begins
with it or further up. -/
theorem docStart?_cons {lines : LineIndex} {row n : Nat} {c : Comment} {before : List Sibling}
    (h : docStart? lines row (.comment c :: before) = some n) :
    row ≤ lines.row c.stop + 1 ∧ NotTrailing lines.row (lines.row c.start) before ∧
      (docStart? lines (lines.row c.start) before).or (some c.start) = some n := by
  unfold docStart? at h
  split at h
  · cases h
  · next hrow =>
    have hif : ∀ (b : Bool) (o : Option Nat), (if b then none else o) = some n → b = false ∧ o = some n := by
      intro b o
      cases b <;> simp
    obtain ⟨htrailing, h⟩ := hif _ _ h
    refine ⟨Nat.le_of_not_lt hrow, ?_, h⟩
    rintro t r rfl
    exact beq_eq_false_iff_ne.mp htrailing

/-- The comments of a doc comment are the nearest siblings, without a gap. -/
theorem docStart?_eq_some {lines : LineIndex} {row n : Nat} {before : List Sibling}
    (h : docStart? lines row before = some n) :
    ∃ (group : List Comment) (c : Comment) (rest : List Sibling),
      before = (group ++ [c]).map .comment ++ rest ∧ c.start = n ∧
        Above lines.row row (group ++ [c]) ∧ NotTrailing lines.row (lines.row c.start) rest := by
  induction before generalizing row with
  | nil => cases h
  | cons x before ih =>
    cases x with
    | item t => cases h
    | comment c =>
      obtain ⟨hrow, htrailing, h⟩ := docStart?_cons h
      cases hd : docStart? lines (lines.row c.start) before with
      | none =>
        rw [hd, Option.none_or, Option.some.injEq] at h
        exact ⟨[], c, before, rfl, h, ⟨hrow, trivial⟩, htrailing⟩
      | some m =>
        rw [hd, Option.some_or, Option.some.injEq] at h
        subst h
        obtain ⟨group, d, rest, rfl, hm, habove, hrest⟩ := ih hd
        exact ⟨c :: group, d, rest, rfl, hm, ⟨hrow, habove⟩, hrest⟩

/-- A doc comment begins and ends with comments right before the declaration. -/
theorem docRange?_eq_some {lines : LineIndex} {start : Nat} {before : List Sibling} {r : DocRange}
    (h : docRange? lines start before = some r) :
    ∃ (group : List Comment) (first last : Comment) (rest : List Sibling),
      before = group.map .comment ++ rest ∧ group.head? = some last ∧ group.getLast? = some first ∧
        r = ⟨first.start, last.stop⟩ ∧ Above lines.row (lines.row start) group ∧
        NotTrailing lines.row (lines.row first.start) rest := by
  unfold docRange? at h
  split at h
  · next n last tail hd =>
    obtain ⟨group, c, rest, hb, rfl, habove, hrest⟩ := docStart?_eq_some hd
    cases h
    cases hg : group ++ [c] with
    | nil => simp at hg
    | cons d ds =>
      rw [hg, List.map_cons, List.cons_append, List.cons.injEq] at hb
      obtain ⟨rfl, rfl⟩ := hb
      refine ⟨d :: ds, c, d, rest, rfl, rfl, ?_, rfl, hg ▸ habove, hrest⟩
      rw [← hg, List.getLast?_append]
      rfl
  · cases h

/-- Comments without a gap are a doc comment, if the first does not trail an item. -/
theorem docStart?_of_above {lines : LineIndex} {row : Nat} {group : List Comment} {c : Comment}
    {rest : List Sibling} (h : Above lines.row row (group ++ [c]))
    (hrest : ∀ x r, rest = x :: r → ∃ t, x = .item t ∧ lines.row t.stop ≠ lines.row c.start) :
    docStart? lines row ((group ++ [c]).map .comment ++ rest) = some c.start := by
  induction group generalizing row with
  | nil =>
    have hrow := h.1
    have hnone : docStart? lines (lines.row c.start) rest = none := by
      cases rest with
      | nil => rfl
      | cons x r =>
        obtain ⟨t, rfl, -⟩ := hrest x r rfl
        rfl
    show docStart? lines row (.comment c :: rest) = _
    unfold docStart?
    rw [if_neg (Nat.not_lt.mpr hrow), hnone, Option.none_or]
    cases rest with
    | nil => rfl
    | cons x r =>
      obtain ⟨t, rfl, hne⟩ := hrest x r rfl
      simp [hne]
  | cons d group ih =>
    have hrow := h.1
    have hfirst := ih h.2
    obtain ⟨x, r, hx⟩ : ∃ x r, (group ++ [c]).map Sibling.comment ++ rest = .comment x :: r := by
      cases group with
      | nil => exact ⟨c, rest, rfl⟩
      | cons y ys => exact ⟨y, _, rfl⟩
    show docStart? lines row (.comment d :: ((group ++ [c]).map .comment ++ rest)) = _
    rw [hx] at hfirst ⊢
    rw [docStart?, if_neg (Nat.not_lt.mpr hrow), hfirst]
    · rfl
    · rintro t tail ⟨⟩

/-! ## Declarations from siblings -/

/-- A declaration as it was read off an item with the siblings before it, nearest first. -/
structure ReadOff (source : Bytes) (comments : List Comment) (lines : LineIndex)
    (before : List Sibling) (t : Node) (d : Declaration) : Prop where
  start : d.start = t.start
  stop : d.stop = t.stop
  doc : d.doc = docRange? lines t.start before
  declared : declaredBy source comments t = .ok d.declared
  label : t.label ≠ .packageClause

/-- The declarations of a file, one for each item that is no package clause. -/
theorem ofSiblings_cons {source : Bytes} {comments : List Comment} {lines : LineIndex}
    {before after : List Sibling} {x : Sibling} {ds : List Declaration}
    (h : ofSiblings source comments lines before (x :: after) = .ok ds) :
    (∃ t d rest, x = .item t ∧ ReadOff source comments lines before t d ∧ ds = d :: rest ∧
      ofSiblings source comments lines (x :: before) after = .ok rest) ∨
    ofSiblings source comments lines (x :: before) after = .ok ds := by
  cases x with
  | comment c => exact Or.inr h
  | item t =>
    unfold ofSiblings at h
    dsimp only at h
    split at h
    · exact Or.inr h
    · next hl =>
      left
      cases hd : declaredBy source comments t with
      | error e => rw [hd] at h; cases h
      | ok declared =>
        cases hr : ofSiblings source comments lines (.item t :: before) after with
        | error e => rw [hd, hr] at h; cases h
        | ok rest =>
          rw [hd, hr] at h
          cases h
          exact ⟨t, _, rest, rfl, ⟨rfl, rfl, rfl, hd, hl⟩, rfl, rfl⟩

theorem mem_ofSiblings {source : Bytes} {comments : List Comment} {lines : LineIndex}
    {before after : List Sibling} {ds : List Declaration} {d : Declaration}
    (h : ofSiblings source comments lines before after = .ok ds) (hd : d ∈ ds) :
    ∃ pre t post, after = pre ++ .item t :: post ∧
      ReadOff source comments lines (pre.reverse ++ before) t d := by
  induction after generalizing before ds with
  | nil => cases h; cases hd
  | cons x after ih =>
    rcases ofSiblings_cons h with ⟨t, d', rest, rfl, hread, rfl, hrest⟩ | hrest
    · rcases List.mem_cons.mp hd with rfl | hd
      · exact ⟨[], t, after, rfl, hread⟩
      · obtain ⟨pre, u, post, rfl, hu⟩ := ih hrest hd
        exact ⟨.item t :: pre, u, post, rfl, by simpa using hu⟩
    · obtain ⟨pre, u, post, rfl, hu⟩ := ih hrest hd
      exact ⟨x :: pre, u, post, rfl, by simpa using hu⟩

/-! ## Splice starts -/

/-- Whether a declaration is read off the sibling behind some others, nearest first, and
the siblings are in order. -/
structure ReadInOrder (source : Bytes) (comments : List Comment) (lines : LineIndex)
    (before : List Sibling) (t : Node) (d : Declaration) : Prop extends
    ReadOff source comments lines before t d where
  order : (before.reverse ++ [Sibling.item t]).Pairwise Before
  range : ∀ x ∈ before, x.start < x.stop

section SpliceStart

variable {source : Bytes} {comments : List Comment} {lines : LineIndex} {before : List Sibling}
  {t : Node} {d : Declaration}

/-- A doc comment begins with a comment and ends with one, and only comments lie between it
and its declaration. -/
theorem ReadInOrder.docRange (h : ReadInOrder source comments lines before t d) {r : DocRange}
    (hr : d.doc = some r) : ∃ (group : List Comment) (first last : Comment) (rest : List Sibling),
      before = group.map .comment ++ rest ∧ first ∈ group ∧ last ∈ group ∧ r = ⟨first.start, last.stop⟩ ∧
      r.start < r.stop ∧ r.stop ≤ d.start ∧ ∀ x ∈ rest, x.stop ≤ r.start := by
  rw [h.doc] at hr
  obtain ⟨group, first, last, rest, hb, hlast, hfirst, rfl, -⟩ := docRange?_eq_some hr
  have hmf : first ∈ group := List.mem_of_getLast? hfirst
  have hml : last ∈ group := List.mem_of_head? hlast
  have hmem : ∀ c ∈ group, .comment c ∈ before := by
    intro c hc
    rw [hb, List.mem_append]
    exact Or.inl (List.mem_map_of_mem hc)
  have horder := h.order
  rw [hb, List.reverse_append, List.append_assoc, List.pairwise_append] at horder
  obtain ⟨-, hgroup, hrest⟩ := horder
  refine ⟨group, first, last, rest, hb, hmf, hml, rfl, ?_, ?_, ?_⟩
  · show first.start < last.stop
    have hw : first.start < first.stop := h.range _ (hmem first hmf)
    have hw' : last.start < last.stop := h.range _ (hmem last hml)
    obtain ⟨front, rfl⟩ := List.getLast?_eq_some_iff.mp hfirst
    cases front with
    | nil =>
      rw [List.nil_append, List.head?_cons, Option.some.injEq] at hlast
      subst hlast
      exact hw
    | cons c cs =>
      rw [List.cons_append, List.head?_cons, Option.some.injEq] at hlast
      subst hlast
      rw [List.map_append, List.reverse_append, List.append_assoc, List.map_cons] at hgroup
      have : first.stop ≤ c.start := (List.pairwise_cons.mp hgroup).1 (.comment c) (by simp)
      omega
  · show last.stop ≤ d.start
    rw [h.start]
    rw [List.pairwise_append] at hgroup
    exact hgroup.2.2 (.comment last) (by simpa using hml) (.item t) (by simp)
  · intro x hx
    exact hrest x (by simpa using hx) (.comment first) (by simp [hmf])

/-- The siblings before a declaration are comments behind its splice start, or end before it. -/
theorem ReadInOrder.before_splice (h : ReadInOrder source comments lines before t d) {u : Node}
    (hu : .item u ∈ before) : u.stop ≤ d.spliceStart := by
  unfold spliceStart
  cases hd : d.doc with
  | none =>
    have horder := h.order
    rw [List.pairwise_append] at horder
    have := horder.2.2 (.item u) (List.mem_reverse.mpr hu) (.item t) (by simp)
    rw [h.start]
    exact this
  | some r =>
    obtain ⟨group, first, last, rest, rfl, -, -, -, -, -, hrest⟩ := h.docRange hd
    rcases List.mem_append.mp hu with hu | hu
    · obtain ⟨c, -, he⟩ := List.mem_map.mp hu
      cases he
    · exact hrest _ hu

/-- No item ends where a doc comment begins. -/
theorem ReadInOrder.stop_ne_doc (h : ReadInOrder source comments lines before t d) {r : DocRange}
    (hr : d.doc = some r) {u : Node} (hu : .item u ∈ before) : u.stop ≠ r.start := by
  intro heq
  have hdoc := h.doc
  rw [hr] at hdoc
  obtain ⟨group, first, last, rest, hb, -, hfirst, rfl, -, htrailing⟩ := docRange?_eq_some hdoc.symm
  have horder := h.order
  rw [hb, List.reverse_append, List.append_assoc, List.pairwise_append] at horder
  have hrest : .item u ∈ rest := by
    rw [hb, List.mem_append] at hu
    refine hu.resolve_left fun hu => ?_
    obtain ⟨c, -, he⟩ := List.mem_map.mp hu
    cases he
  cases rest with
  | nil => cases hrest
  | cons x rest =>
    have hx : x.start < x.stop := h.range x (by rw [hb]; simp)
    have hstop : x.stop ≤ first.start := horder.2.2 x (by simp) (.comment first)
      (List.mem_append_left _ (List.mem_reverse.mpr (List.mem_map_of_mem (List.mem_of_getLast? hfirst))))
    rcases List.mem_cons.mp hrest with rfl | hrest
    · exact htrailing u rest rfl (congrArg lines.row heq)
    · -- otherwise another sibling lies between the item and the comment
      rw [List.reverse_cons, List.pairwise_append] at horder
      have hbefore : u.stop ≤ x.start :=
        horder.1.2.2 (.item u) (List.mem_reverse.mpr hrest) x (List.mem_singleton.mpr rfl)
      change u.stop = first.start at heq
      omega

theorem ReadInOrder.splice_le (h : ReadInOrder source comments lines before t d) :
    d.spliceStart ≤ d.start := by
  unfold spliceStart
  cases hd : d.doc with
  | none => exact Nat.le_refl _
  | some r =>
    obtain ⟨-, -, -, -, -, -, -, -, hlt, hle, -⟩ := h.docRange hd
    show r.start ≤ d.start
    omega

/-- Every declaration is read off siblings in order, if the siblings are. -/
theorem readInOrder_of_mem {after : List Sibling} {ds : List Declaration}
    (h : ofSiblings source comments lines before after = .ok ds) (hd : d ∈ ds)
    (horder : (before.reverse ++ after).Pairwise Before)
    (hrange : ∀ x ∈ before ++ after, x.start < x.stop) :
    ∃ pre t post, after = pre ++ .item t :: post ∧
      ReadInOrder source comments lines (pre.reverse ++ before) t d := by
  obtain ⟨pre, t, post, rfl, hread⟩ := mem_ofSiblings h hd
  refine ⟨pre, t, post, rfl, hread, ?_, ?_⟩
  · have hsub : ((pre.reverse ++ before).reverse ++ [Sibling.item t]).Sublist
        (before.reverse ++ (pre ++ .item t :: post)) := by
      rw [List.reverse_append, List.reverse_reverse, List.append_assoc]
      refine List.Sublist.append_left (List.Sublist.append_left ?_ _) _
      exact List.Sublist.cons_cons _ (List.nil_sublist _)
    exact horder.sublist hsub
  · intro x hx
    rw [List.mem_append, List.mem_reverse] at hx
    refine hrange x ?_
    rw [List.mem_append, List.mem_append]
    exact hx.elim (fun hx => Or.inr (Or.inl hx)) Or.inl

/-- Each declaration ends before the splice start of the next. -/
theorem ofSiblings_pairwise {after : List Sibling} {ds : List Declaration}
    (h : ofSiblings source comments lines before after = .ok ds)
    (horder : (before.reverse ++ after).Pairwise Before)
    (hrange : ∀ x ∈ before ++ after, x.start < x.stop) :
    ds.Pairwise fun d e => d.stop ≤ e.spliceStart := by
  induction after generalizing before ds with
  | nil => cases h; exact .nil
  | cons x after ih =>
    have horder' : ((x :: before).reverse ++ after).Pairwise Before := by
      rw [List.reverse_cons, List.append_assoc]
      exact horder
    have hrange' : ∀ y ∈ (x :: before) ++ after, y.start < y.stop := by
      intro y hy
      refine hrange y ?_
      simp only [List.cons_append, List.mem_cons, List.mem_append] at hy ⊢
      exact or_left_comm.mp hy
    rcases ofSiblings_cons h with ⟨t, d, rest, rfl, hread, rfl, hrest⟩ | hrest
    · refine .cons (fun e he => ?_) (ih hrest horder' hrange')
      obtain ⟨pre, u, post, -, hu⟩ := readInOrder_of_mem hrest he horder' hrange'
      rw [hread.stop]
      exact hu.before_splice (by simp)
    · exact ih hrest horder' hrange'

end SpliceStart

end Declaration

end GoSplice
