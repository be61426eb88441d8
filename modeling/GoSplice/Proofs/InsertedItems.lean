import GoSplice.Proofs.AddedImports
import GoSplice.Proofs.MovedSiblings
import Mathlib.Data.List.TakeWhile

/-!
# Files with stretches put in

Stretches without comments that are put between those of a text move the comments, the items and the
declarations behind them.  Where an item more stands between them, or the item around them is longer,
every declaration of the file is one of the other, with its doc comment:

    Inserts s s' x ins y → encode s' = (insertionAt s x ins).apply (encode s)      (Inserts.encode_eq)
    Inserts s s' x ins y → the comments of s' are those of s, moved                (Inserts.comments_eq)
    Displaced i … us us' vs, siblingsOf s = us ++ vs, siblingsOf s' = us' ++ vs, moved →
      each declaration of s is one of s', moved                                   (Displaced.exists_moved)
-/

namespace GoSplice

open Syntax Syntax.Segment

/-! ## Items further on -/

namespace Syntax

mutual
theorem Tree.moved_moved {L : Type} (m n : Nat) : ∀ t : Tree L, (t.moved m).moved n = t.moved (m + n)
  | .node l s e cs => by rw [Tree.moved, Tree.moved, Tree.moved, movedAll_moved m n cs, Nat.add_assoc, Nat.add_assoc]
theorem movedAll_moved {L : Type} (m n : Nat) : ∀ ts : List (Tree L), movedAll n (movedAll m ts) = movedAll (m + n) ts
  | [] => rfl
  | t :: ts => by rw [movedAll, movedAll, movedAll, Tree.moved_moved m n t, movedAll_moved m n ts]
end

theorem nodes_append (o : Nat) (as bs : List Segment) :
    nodes o (as ++ bs) = nodes o as ++ nodes (o + byteWidth (texts (joined as))) bs := by
  induction as generalizing o with
  | nil => rfl
  | cons a as ih =>
    rw [List.cons_append, nodes, nodes, ih, List.cons_append, Nat.add_assoc, ← byteWidth_append, ← texts_append]
    rfl

theorem nodes_moved (o n : Nat) (gs : List Segment) : nodes (o + n) gs = (nodes o gs).map (Tree.moved n) := by
  induction gs generalizing o with
  | nil => rfl
  | cons g gs ih =>
    rw [nodes, nodes, List.map_cons, ← ih, Tree.moved_moved, Nat.add_right_comm]

theorem range_of_mem_nodes {o : Nat} {gs : List Segment} {t : Node} (hgs : ∀ g ∈ gs, g.IsItem) (h : t ∈ nodes o gs) :
    o ≤ t.start ∧ t.start < t.stop ∧ t.stop ≤ o + byteWidth (texts (joined gs)) := by
  obtain ⟨as, p, bs, rfl, rfl⟩ := mem_nodes.mp h
  have hp : p.IsItem := hgs p (by simp)
  obtain ⟨l, r, k, hcode, -⟩ := hp.declares.head
  have hpos := byteWidth_pos (hp.nonempty l (by rw [hcode]; exact List.mem_cons_self))
  have hwidth : byteWidth l.text ≤ byteWidth (texts p.code) := by
    rw [hcode, texts_cons, byteWidth_append]
    exact Nat.le_add_right _ _
  rw [Tree.start_moved, Tree.stop_moved, hp.declares.start, hp.declares.stop, joined_append, joined_cons]
  simp only [texts_append, byteWidth_append]
  omega

end Syntax

/-! ## Stretches that are put in -/

namespace Syntax

/-- Whether a text is another with stretches put in that hold no comment. -/
structure Inserts (s s' : List Char) (x ins y : List Lexeme) : Prop where
  old : stretches s = x ++ y
  new : stretches s' = x ++ (ins ++ y)
  mark : orderMark s' = orderMark s
  bare : ∀ l ∈ ins, l.cls ≠ .comment

/-- The bytes of stretches that are put in behind others. -/
def insertionAt (s : List Char) (x ins : List Lexeme) : Insertion :=
  ⟨byteWidth (orderMark s ++ texts x), Utf8.encode (texts ins)⟩

theorem comments_of_bare {pos : Nat} {ls : List Lexeme} (h : ∀ l ∈ ls, l.cls ≠ .comment) :
    (place pos none ls).comments = [] := by
  rw [place_comments, List.filterMap_eq_nil_iff]
  rintro ⟨n, l⟩ hl
  obtain ⟨a, b, rfl, -⟩ := mem_located.mp hl
  exact if_neg (h l (by simp))

/-- The comments of a text up to a place between its stretches, and those behind it. -/
theorem comments_split {s : List Char} {x y : List Lexeme} (h : stretches s = x ++ y) :
    (scan s).comments = (place (byteWidth (orderMark s)) none x).comments ++
      (place (byteWidth (orderMark s ++ texts x)) none y).comments := by
  rw [scan_eq, ← stretches_eq, h, place_comments_append, ← byteWidth_append]

namespace Inserts

variable {s s' : List Char} {x ins y : List Lexeme}

theorem encode_eq (h : Inserts s s' x ins y) : Utf8.encode s' = (insertionAt s x ins).apply (Utf8.encode s) := by
  obtain ⟨htake, hdrop⟩ := split_bytes h.old
  rw [Insertion.apply, insertionAt, htake, hdrop, ← Utf8.encode_append, ← Utf8.encode_append]
  conv => lhs; rw [← orderMark_append_texts s', h.new, h.mark]
  simp only [texts_append, List.append_assoc]

theorem place_le (h : Inserts s s' x ins y) : (insertionAt s x ins).place ≤ (Utf8.encode s).length := by
  rw [← byteWidth_eq]
  conv => rhs; rw [← orderMark_append_texts s, h.old, texts_append, ← List.append_assoc, byteWidth_append]
  exact Nat.le_add_right _ _

/-- The comments with the stretches: those behind them are moved. -/
theorem comments_eq (h : Inserts s s' x ins y) : (scan s').comments =
    (place (byteWidth (orderMark s)) none x).comments ++
      (place (byteWidth (orderMark s ++ texts x)) none y).comments.map (Comment.moved (byteWidth (texts ins))) := by
  have hmoved := congrArg Scanned.comments
    (place_moved (byteWidth (texts ins)) (byteWidth (orderMark s ++ texts x)) none y)
  rw [Option.map_none, byteWidth_append] at hmoved
  rw [comments_split (x := x ++ ins) (by rw [h.new, List.append_assoc]), place_comments_append,
    comments_of_bare h.bare, List.append_nil, h.mark, texts_append, ← List.append_assoc, byteWidth_append,
    byteWidth_append, hmoved]

theorem nonempty (h : Inserts s s' x ins y) : (∀ l ∈ x, l.text ≠ []) ∧ ∀ l ∈ y, l.text ≠ [] := by
  rw [← List.forall_mem_append, ← h.old]
  exact fun l hl => ne_nil_of_mem_stretches hl

/-- The comments of a text before stretches that are put in, and those behind them. -/
theorem comments_range (h : Inserts s s' x ins y) :
    (∀ c ∈ (place (byteWidth (orderMark s)) none x).comments,
      c.start < byteWidth (orderMark s ++ texts x) ∧ c.stop ≤ byteWidth (orderMark s ++ texts x)) ∧
    ∀ c ∈ (place (byteWidth (orderMark s ++ texts x)) none y).comments,
      byteWidth (orderMark s ++ texts x) ≤ c.start ∧ byteWidth (orderMark s ++ texts x) < c.stop := by
  refine ⟨fun c hc => ?_, fun c hc => ?_⟩
  · have hrange := comment_range hc h.nonempty.1
    rw [← byteWidth_append] at hrange
    omega
  · have hrange := comment_range hc h.nonempty.2
    omega

theorem length_eq (s : List Char) (x ins : List Lexeme) : (insertionAt s x ins).text.length = byteWidth (texts ins) :=
  (byteWidth_eq _).symm

end Inserts

end Syntax

/-! ## Declarations further on -/

/-- Whether a declaration is another in a file with bytes put in. -/
structure Declaration.IsMoved (i : Insertion) (d d' : Declaration) : Prop where
  start : d'.start = i.start d.start
  stop : d'.stop = i.stop d.stop
  doc : d'.doc = d.doc.map i.doc

namespace Declaration

variable {i : Insertion} {lines lines' : LineIndex} {us us' vs ws : List Sibling} {t g g' : Node}

/-- The siblings before a place in two files, and those behind it: each item before it is one of the
other file, and the last sibling before it there is an item, which a comment behind the place trails
just if it trailed what stood last. -/
structure Displaced (i : Insertion) (lines lines' : LineIndex) (us us' vs : List Sibling) : Prop where
  before : ∀ x ∈ us, x.start < i.place
  behind : ∀ x ∈ vs, i.place ≤ x.start ∧ i.place < x.stop
  item : ∀ pre t r, us = pre ++ .item t :: r → ∃ t' r', us' = pre ++ .item t' :: r' ∧ t'.start = t.start ∧
    t'.stop = i.stop t.stop ∧ t'.label = t.label
  last : ∃ t r, us'.reverse = .item t :: r
  edge : ∀ c, .comment c ∈ vs → (NotTrailing lines'.row (lines'.row (c.start + i.text.length)) us'.reverse ↔
    NotTrailing lines.row (lines.row c.start) us.reverse)

/-- An item more stands at the place, and no comment behind it trails one. -/
theorem Displaced.more (hus : ∀ x ∈ us, x.start < i.place ∧ x.stop ≤ i.place)
    (hvs : ∀ x ∈ vs, i.place ≤ x.start ∧ i.place < x.stop)
    (hold : ∀ c, .comment c ∈ vs → ∀ x ∈ us, lines.row x.stop ≠ lines.row c.start)
    (hnew : ∀ c, .comment c ∈ vs → lines'.row t.stop ≠ lines'.row (c.start + i.text.length)) :
    Displaced i lines lines' us (us ++ [.item t]) vs := by
  refine ⟨fun x hx => (hus x hx).1, hvs, ?_, ⟨t, us.reverse, by simp⟩, fun c hc => iff_of_true ?_ ?_⟩
  · rintro pre u r rfl
    exact ⟨u, r ++ [.item t], by simp, rfl, (Insertion.stop_before (hus (.item u) (by simp)).2).symm, rfl⟩
  · rintro u r hu
    rw [List.reverse_append, List.reverse_singleton, List.singleton_append] at hu
    obtain ⟨hut, -⟩ := List.cons.inj hu
    rw [← Sibling.item.inj hut]
    exact hnew c hc
  · rintro u r hu
    exact hold c hc (.item u) (List.mem_reverse.mp (by rw [hu]; exact List.mem_cons_self))

/-- The place is in the last item before it, which is longer with the bytes. -/
theorem Displaced.wider (hws : ∀ x ∈ ws, x.start < i.place ∧ x.stop ≤ i.place) (hstart : g.start < i.place)
    (hstop : i.place < g.stop) (hvs : ∀ x ∈ vs, i.place ≤ x.start ∧ i.place < x.stop)
    (hstart' : g'.start = g.start) (hstop' : g'.stop = g.stop + i.text.length) (hlabel : g'.label = g.label) {m : Nat}
    (hrows : ∀ o, i.place ≤ o → lines'.row (o + i.text.length) = lines.row o + m) :
    Displaced i lines lines' (ws ++ [.item g]) (ws ++ [.item g']) vs := by
  refine ⟨List.forall_mem_append.mpr ⟨fun x hx => (hws x hx).1, List.forall_mem_singleton.mpr hstart⟩, hvs, ?_,
    ⟨g', ws.reverse, by simp⟩, fun c hc => ?_⟩
  · intro pre u r h
    rcases List.eq_nil_or_concat r with rfl | ⟨r, y, rfl⟩
    · obtain ⟨rfl, hu⟩ := List.append_inj' h rfl
      obtain rfl := Sibling.item.inj (List.cons.inj hu).1
      exact ⟨g', [], rfl, hstart', by rw [hstop', Insertion.stop_behind hstop], hlabel⟩
    · rw [List.concat_eq_append, ← List.cons_append, ← List.append_assoc] at h
      obtain ⟨rfl, -⟩ := List.append_inj' h rfl
      exact ⟨u, r ++ [.item g'], by simp, rfl, (Insertion.stop_before (hws (.item u) (by simp)).2).symm, rfl⟩
  · have hrow : lines'.row g'.stop ≠ lines'.row (c.start + i.text.length) ↔ lines.row g.stop ≠ lines.row c.start := by
      have hstartc : lines'.row (c.start + i.text.length) = lines.row c.start + m := hrows _ (hvs _ hc).1
      rw [hstop', hrows _ (Nat.le_of_lt hstop), hstartc, ne_eq, Nat.add_right_cancel_iff]
    rw [List.reverse_append, List.reverse_append, List.reverse_singleton, List.reverse_singleton]
    refine ⟨fun h => ?_, fun h => ?_⟩
    · rintro u r ⟨⟩
      exact hrow.mp (h _ _ rfl)
    · rintro u r ⟨⟩
      exact hrow.mpr (h _ _ rfl)

/-! ## Siblings on both sides of a place -/

section Sides

variable {as bs : List Node} {cs ds : List Comment} {k n : Nat}

/-- The last item is the last sibling if no comment begins behind it. -/
theorem siblings_concat (as : List Node) (cs : List Comment) (k : Nat) : ∃ ws, ∀ g : Node, g.start = k →
    (∀ c ∈ cs, c.start < g.stop) → siblings (as ++ [g]) cs = ws ++ [.item g] := by
  induction as generalizing cs with
  | nil =>
    refine ⟨(cs.takeWhile (·.start < k)).map .comment, fun g hg hcs => ?_⟩
    have hnone : cs.dropWhile (·.start < g.stop) = [] :=
      List.dropWhile_eq_nil_iff.mpr fun c hc => decide_eq_true (hcs c hc)
    rw [List.nil_append, siblings, hnone, hg]
    rfl
  | cons u as ih =>
    obtain ⟨ws, hws⟩ := ih (cs.dropWhile (·.start < u.stop))
    refine ⟨(cs.takeWhile (·.start < u.start)).map .comment ++ .item u :: ws, fun g hg hcs => ?_⟩
    rw [List.cons_append, siblings, hws g hg fun c hc => hcs c ((List.dropWhile_suffix _).subset hc), List.append_assoc]
    rfl

/-- The siblings with an item more at a place. -/
theorem siblings_more (has : ∀ u ∈ as, u.start ≤ k ∧ u.stop ≤ k) (hcs : ∀ c ∈ cs, c.start < k)
    (hds : ∀ c ∈ ds, k ≤ c.start) (hbs : ∀ u ∈ bs, k ≤ u.start ∧ k ≤ u.stop) (hstart : k ≤ t.start)
    (hlt : t.start < t.stop) (hstop : t.stop ≤ k + n) :
    siblings (as ++ t :: bs.map (Tree.moved n)) (cs ++ ds.map (Comment.moved n)) =
      siblings as cs ++ [.item t] ++ (siblings bs ds).map (Sibling.moved n) := by
  have hdsMoved : ∀ c ∈ ds.map (Comment.moved n), k + n ≤ c.start := List.forall_mem_map.mpr fun c hc =>
    Nat.add_le_add_right (hds c hc) n
  have hbsMoved : ∀ u ∈ bs.map (Tree.moved n), k + n ≤ u.start ∧ k + n ≤ u.stop := by
    refine List.forall_mem_map.mpr fun u hu => ?_
    rw [Tree.start_moved, Tree.stop_moved]
    have := hbs u hu
    omega
  have hrest : siblings (t :: bs.map (Tree.moved n)) (ds.map (Comment.moved n)) =
      .item t :: (siblings bs ds).map (Sibling.moved n) := by
    have hone : ∀ u ∈ [t], u.start ≤ k + n ∧ u.stop ≤ k + n := List.forall_mem_singleton.mpr ⟨by omega, hstop⟩
    have happend := siblings_append hone (List.forall_mem_nil _) hdsMoved hbsMoved
    rw [List.singleton_append, List.nil_append, siblings_moved] at happend
    exact happend
  rw [siblings_append has hcs (fun c hc => by have := hdsMoved c hc; omega)
    (List.forall_mem_cons.mpr ⟨⟨hstart, by omega⟩, fun u hu => by have := hbsMoved u hu; omega⟩),
    hrest, List.append_assoc, List.singleton_append]

/-- The siblings with a longer item around a place. -/
theorem siblings_wider (has : ∀ u ∈ as, u.start < k ∧ u.stop ≤ k) (hcs : ∀ c ∈ cs, c.start < k ∧ c.stop ≤ k)
    (hds : ∀ c ∈ ds, g.stop ≤ c.start) (hbs : ∀ u ∈ bs, g.stop ≤ u.start ∧ g.stop ≤ u.stop) (hstart : g.start < k)
    (hstop : k < g.stop) (hstart' : g'.start = g.start) (hstop' : g'.stop = g.stop + n) :
    ∃ ws, (∀ x ∈ ws, x.start < k ∧ x.stop ≤ k) ∧
      siblings (as ++ g :: bs) (cs ++ ds) = ws ++ [.item g] ++ siblings bs ds ∧
      siblings (as ++ g' :: bs.map (Tree.moved n)) (cs ++ ds.map (Comment.moved n)) =
        ws ++ [.item g'] ++ (siblings bs ds).map (Sibling.moved n) := by
  obtain ⟨ws, hws⟩ := siblings_concat as cs g.start
  have hg := hws g rfl fun c hc => Nat.lt_trans (hcs c hc).1 hstop
  have hg' := hws g' hstart' fun c hc => by
    have := hcs c hc
    omega
  refine ⟨ws, fun x hx => ?_, ?_, ?_⟩
  · cases x with
    | comment c => exact hcs c (comment_mem_siblings (show .comment c ∈ siblings (as ++ [g]) cs by rw [hg]; simp [hx]))
    | item u =>
      have hitems := filterMap_siblings (as ++ [g]) cs
      rw [hg, List.filterMap_append] at hitems
      obtain ⟨hitems, -⟩ := List.append_inj' hitems rfl
      exact has u (hitems ▸ List.mem_filterMap.mpr ⟨_, hx, rfl⟩)
  · rw [List.append_cons,
      siblings_append (m := g.stop) (fun u hu => ?_) (fun c hc => by have := hcs c hc; omega) hds hbs, hg]
    rcases List.mem_append.mp hu with hu | hu
    · have := has u hu
      omega
    · rw [List.mem_singleton.mp hu]
      omega
  · rw [List.append_cons, siblings_append (m := g.stop + n) (fun u hu => ?_) (fun c hc => by have := hcs c hc; omega)
      (List.forall_mem_map.mpr fun c hc => Nat.add_le_add_right (hds c hc) n)
      (List.forall_mem_map.mpr fun u hu => by
        rw [Tree.start_moved, Tree.stop_moved]
        have := hbs u hu
        omega), hg', siblings_moved]
    rcases List.mem_append.mp hu with hu | hu
    · have := has u hu
      omega
    · rw [List.mem_singleton.mp hu]
      omega

/-- The first clause of some items is that of the items with others in between. -/
theorem find?_clause_moved {mid mid' : List Node} (hmid : ∀ u ∈ mid, u.label ≠ .packageClause)
    (hmid' : ∀ u ∈ mid', u.label ≠ .packageClause) (h : (as ++ (mid ++ bs)).find? (·.label == .packageClause) = some t) :
    t ∈ as ∧ (as ++ (mid' ++ bs.map (Tree.moved n))).find? (·.label == .packageClause) = some t ∨
    t ∈ bs ∧ (as ++ (mid' ++ bs.map (Tree.moved n))).find? (·.label == .packageClause) = some (t.moved n) := by
  have hnone : ∀ {ms : List Node}, (∀ u ∈ ms, u.label ≠ .packageClause) →
      ms.find? (·.label == .packageClause) = none := fun {ms} hms =>
    List.find?_eq_none.mpr fun u hu => by simpa using hms u hu
  have hsame : ((·.label == .packageClause) ∘ Tree.moved n : Node → Bool) = (·.label == .packageClause) := by
    funext u
    simp
  rw [List.find?_append, List.find?_append, hnone hmid, Option.none_or] at h
  rw [List.find?_append, List.find?_append, hnone hmid', Option.none_or, List.find?_map, hsame]
  rcases Option.or_eq_some_iff.mp h with h | ⟨hnil, h⟩
  · exact .inl ⟨List.mem_of_find?_eq_some h, by rw [h, Option.some_or]⟩
  · exact .inr ⟨List.mem_of_find?_eq_some h, by rw [hnil, h, Option.none_or, Option.map_some]⟩

end Sides

end Declaration

section Files

open Declaration

variable {filename : String} {strict : Bool} {source : Bytes} {f f' : SourceFile} {s s' : List Char} {i : Insertion}
  {us us' vs : List Sibling}

/-- A doc comment that begins before an item that reaches to a place is that of a declaration before it. -/
theorem Parsed.doc_before_item (hp : Parsed filename source strict f s) {k : Nat} {u : Node}
    (hu : u ∈ (textItems s).nodes) (hstart : u.start < k) (hstop : k ≤ u.stop) {d : Declaration} (hd : d ∈ f.declarations)
    {r : DocRange} (hr : d.doc = some r) (hlt : r.start < k) : d.start < k := by
  obtain ⟨pre, t, post, hsib, -, hread⟩ := hp.readInOrder hd
  refine Nat.lt_of_not_le fun hle => ?_
  rw [hread.start] at hle
  obtain ⟨horder, hrange⟩ := siblingsOf_pairwise hp.refusal
  have hmem : .item u ∈ siblingsOf s := item_mem_siblings.mpr hu
  have hpos : t.start < t.stop := hrange (.item t) (by rw [hsib]; simp)
  rw [hsib] at hmem horder
  rw [List.pairwise_append, List.pairwise_cons] at horder
  rcases List.mem_append.mp hmem with hmem | hmem
  · -- the item stands before the doc comment
    have hsplice := hread.before_splice (List.mem_reverse.mpr hmem)
    rw [spliceStart, hr] at hsplice
    dsimp only at hsplice
    omega
  · rcases List.mem_cons.mp hmem with he | hmem
    · cases he
      omega
    · have hafter : t.stop ≤ u.start := horder.2.1.1 (.item u) hmem
      omega

/-- The declarations of a file are those of the file with bytes put in, moved, if no doc comment is parted
from its declaration. -/
theorem Declaration.Displaced.exists_moved (hp : Parsed filename source strict f s)
    (hp' : Parsed filename (i.apply source) strict f' s') (hplace : i.place ≤ source.length)
    (hold : siblingsOf s = us ++ vs) (hnew : siblingsOf s' = us' ++ vs.map (Sibling.moved i.text.length))
    (h : Displaced i (.ofBytes source) (.ofBytes (i.apply source)) us us' vs) {d : Declaration}
    (hd : d ∈ f.declarations) (hdoc : ∀ r, d.doc = some r → r.start < i.place → d.start < i.place) :
    ∃ d' ∈ f'.declarations, d.IsMoved i d' := by
  obtain ⟨pre, t, post, hsib, -, hread⟩ := hp.readInOrder hd
  have hmem : ∀ {x}, x ∈ pre → x.stop ≤ t.start ∧ x.start < x.stop := fun {x} hx => by
    have horder := (List.pairwise_append.mp hread.order).2.2 x (by simpa using hx) (.item t) List.mem_cons_self
    exact ⟨horder, hread.range x (List.mem_reverse.mpr hx)⟩
  have hrange : ∀ r, d.doc = some r → r.start < r.stop ∧ r.stop ≤ t.start := fun r hr => by
    obtain ⟨-, -, -, -, -, -, -, -, hlt, hle, -⟩ := hread.docRange hr
    exact ⟨hlt, hread.start ▸ hle⟩
  have hlabel := hread.label
  rw [hsib] at hold
  -- a declaration before the place has the siblings before it that it had
  have hfirst : ∀ r, us = pre ++ .item t :: r → ∃ d' ∈ f'.declarations, d.IsMoved i d' := fun r hr => by
    obtain ⟨t', r', hus', hstart, hstop, hlabel'⟩ := h.item pre t r hr
    have hdecls := hp'.declarations
    change ofSiblings _ _ _ [] (siblingsOf s') = _ at hdecls
    rw [hnew, hus', List.append_assoc, List.cons_append] at hdecls
    obtain ⟨d', hd', hread'⟩ := exists_readOff hdecls (by rw [hlabel']; exact hlabel)
    have hbefore : t.start < i.place := h.before (.item t) (by rw [hr]; simp)
    refine ⟨d', hd', ?_, ?_, ?_⟩
    · rw [hread'.start, hstart, hread.start, Insertion.start_before hbefore]
    · rw [hread'.stop, hstop, hread.stop]
    · have hsame : docRange? (.ofBytes (i.apply source)) t.start pre.reverse =
          docRange? (.ofBytes source) t.start pre.reverse :=
        docRange?_congr (Insertion.row_before (Nat.le_of_lt hbefore) hplace) fun x hx => by
          obtain ⟨hstopx, hrangex⟩ := hmem (List.mem_reverse.mp hx)
          exact ⟨Insertion.row_before (by omega) hplace, Insertion.row_before (by omega) hplace⟩
      rw [hread'.doc, hstart, List.append_nil, hsame, ← hread.doc]
      cases hr : d.doc with
      | none => rfl
      | some r =>
        obtain ⟨hlt, hle⟩ := hrange r hr
        rw [Option.map_some, Insertion.doc, Insertion.start_before (by omega), Insertion.stop_before (by omega)]
  -- a declaration behind it is moved, and so are the siblings between
  have hsecond : ∀ zs, pre = us ++ zs → vs = zs ++ .item t :: post → ∃ d' ∈ f'.declarations, d.IsMoved i d' := by
    intro zs hpre hvs
    have hdecls := hp'.declarations
    change ofSiblings _ _ _ [] (siblingsOf s') = _ at hdecls
    rw [hnew, hvs, List.map_append, List.map_cons, ← List.append_assoc] at hdecls
    obtain ⟨d', hd', hread'⟩ := exists_readOff (t := t.moved i.text.length) hdecls (by
      rw [Tree.label_moved]
      exact hlabel)
    obtain ⟨hstart, hstop⟩ : i.place ≤ t.start ∧ i.place < t.stop := h.behind (.item t) (by rw [hvs]; simp)
    have hzs : ∀ x ∈ zs.reverse, i.place ≤ x.start ∧ i.place ≤ x.stop := fun x hx => by
      have := h.behind x (by rw [hvs]; simp [List.mem_reverse.mp hx])
      omega
    have hdocs : d.doc = docRange? (.ofBytes source) t.start (zs.reverse ++ us.reverse) := by
      rw [hread.doc, hpre, List.reverse_append]
    have hrows : ∀ o, i.place ≤ o → (LineIndex.ofBytes (i.apply source)).row (o + i.text.length) =
        (LineIndex.ofBytes source).row o + i.text.count LineIndex.lineFeed := fun o ho => Insertion.row_behind ho hplace
    have hmoved := docRange?_moved hrows hstart (fun x hx => h.before x (List.mem_reverse.mp hx)) hzs h.last
      (fun c hc => h.edge c (by rw [hvs]; simp [List.mem_reverse.mp hc])) fun r hr => by
        rw [← hdocs] at hr
        have hlt := hdoc r hr
        rw [hread.start] at hlt
        omega
    refine ⟨d', hd', ?_, ?_, ?_⟩
    · rw [hread'.start, Tree.start_moved, hread.start, Insertion.start_behind hstart]
    · rw [hread'.stop, Tree.stop_moved, hread.stop, Insertion.stop_behind hstop]
    · rw [hread'.doc, List.append_nil, List.reverse_append, ← List.map_reverse, Tree.start_moved, hmoved, ← hdocs]
      cases hr : d.doc with
      | none => rfl
      | some r =>
        have hlt := hdoc r hr
        rw [hread.start] at hlt
        obtain ⟨hpos, -⟩ := hrange r hr
        rw [Option.map_some, Option.map_some, Insertion.doc, Insertion.start_behind (by omega),
          Insertion.stop_behind (by omega)]
  rcases append_eq_append_cons hold.symm with ⟨e, hus, -⟩ | ⟨e, hpre, he⟩
  · exact hfirst e hus
  · exact hsecond e hpre he

/-- The package clause of a file is that of the file with bytes put in, moved. -/
theorem clauseEnd_moved (hp : Parsed filename source strict f s) (hp' : Parsed filename (i.apply source) strict f' s')
    {ms ns mid mid' : List Node} (hnodes : (textItems s).nodes = ms ++ (mid ++ ns))
    (hnodes' : (textItems s').nodes = ms ++ (mid' ++ ns.map (Tree.moved i.text.length)))
    (hms : ∀ u ∈ ms, u.stop ≤ i.place) (hns : ∀ u ∈ ns, i.place < u.stop)
    (hmid : ∀ u ∈ mid, u.label ≠ .packageClause) (hmid' : ∀ u ∈ mid', u.label ≠ .packageClause) :
    f'.clauseEnd = i.stop f.clauseEnd := by
  obtain ⟨t, ht, -, hend⟩ := hp.clause
  obtain ⟨t', ht', -, hend'⟩ := hp'.clause
  rw [hnodes] at ht
  rw [hnodes'] at ht'
  rw [hend, hend']
  rcases find?_clause_moved (n := i.text.length) hmid hmid' ht with ⟨hmem, h⟩ | ⟨hmem, h⟩
  · obtain rfl := Option.some.inj (h.symm.trans ht')
    rw [Insertion.stop_before (hms t hmem)]
  · obtain rfl := Option.some.inj (h.symm.trans ht')
    rw [Insertion.stop_behind (hns t hmem), Tree.stop_moved]

variable {x ins y : List Lexeme} {ms ns : List Node} {t t' : Node}

/-- The siblings of a text with stretches put in that hold an item. -/
theorem Syntax.Inserts.siblings_more (h : Inserts s s' x ins y) (hnodes : (textItems s).nodes = ms ++ ns)
    (hnodes' : (textItems s').nodes = ms ++ t :: ns.map (Tree.moved (byteWidth (texts ins))))
    (hms : ∀ u ∈ ms, u.start < byteWidth (orderMark s ++ texts x) ∧ u.stop ≤ byteWidth (orderMark s ++ texts x))
    (hns : ∀ u ∈ ns, byteWidth (orderMark s ++ texts x) ≤ u.start ∧ byteWidth (orderMark s ++ texts x) < u.stop)
    (hstart : byteWidth (orderMark s ++ texts x) ≤ t.start) (hlt : t.start < t.stop)
    (hstop : t.stop ≤ byteWidth (orderMark s ++ texts x) + byteWidth (texts ins)) :
    ∃ us vs, siblingsOf s = us ++ vs ∧
      siblingsOf s' = us ++ [.item t] ++ vs.map (Sibling.moved (insertionAt s x ins).text.length) ∧
      (∀ z ∈ us, z.start < (insertionAt s x ins).place ∧ z.stop ≤ (insertionAt s x ins).place) ∧
      (∀ z ∈ vs, (insertionAt s x ins).place ≤ z.start ∧ (insertionAt s x ins).place < z.stop) ∧
      ∀ c, .comment c ∈ vs → c ∈ (scan s).comments ∧ c.moved (insertionAt s x ins).text.length ∈ (scan s').comments := by
  obtain ⟨hcs, hds⟩ := h.comments_range
  refine ⟨siblings ms (place (byteWidth (orderMark s)) none x).comments,
    siblings ns (place (byteWidth (orderMark s ++ texts x)) none y).comments, ?_, ?_, fun z hz => ?_, fun z hz => ?_,
    fun c hc => ?_⟩
  · unfold siblingsOf
    rw [hnodes, comments_split h.old]
    exact siblings_append (fun u hu => ⟨Nat.le_of_lt (hms u hu).1, (hms u hu).2⟩) (fun c hc => (hcs c hc).1)
      (fun c hc => (hds c hc).1) fun u hu => ⟨(hns u hu).1, Nat.le_of_lt (hns u hu).2⟩
  · unfold siblingsOf
    rw [hnodes', h.comments_eq, length_eq]
    exact Declaration.siblings_more (fun u hu => ⟨Nat.le_of_lt (hms u hu).1, (hms u hu).2⟩) (fun c hc => (hcs c hc).1)
      (fun c hc => (hds c hc).1) (fun u hu => ⟨(hns u hu).1, Nat.le_of_lt (hns u hu).2⟩) hstart hlt hstop
  · cases z with
    | comment c => exact hcs c (comment_mem_siblings hz)
    | item u => exact hms u (item_mem_siblings.mp hz)
  · cases z with
    | comment c => exact hds c (comment_mem_siblings hz)
    | item u => exact hns u (item_mem_siblings.mp hz)
  · have hmem := comment_mem_siblings hc
    rw [comments_split h.old, h.comments_eq, length_eq]
    exact ⟨List.mem_append_right _ hmem, List.mem_append_right _ (List.mem_map_of_mem hmem)⟩

/-- The siblings of a text with stretches put into an item. -/
theorem Syntax.Inserts.siblings_wider (h : Inserts s s' x ins y) (hnodes : (textItems s).nodes = ms ++ t :: ns)
    (hnodes' : (textItems s').nodes = ms ++ t' :: ns.map (Tree.moved (byteWidth (texts ins))))
    (hms : ∀ u ∈ ms, u.start < byteWidth (orderMark s ++ texts x) ∧ u.stop ≤ byteWidth (orderMark s ++ texts x))
    (hns : ∀ u ∈ ns, t.stop ≤ u.start ∧ t.stop < u.stop) (hstart : t.start < byteWidth (orderMark s ++ texts x))
    (hstop : byteWidth (orderMark s ++ texts x) < t.stop) (hstart' : t'.start = t.start)
    (hstop' : t'.stop = t.stop + byteWidth (texts ins))
    (hbehind : ∀ c ∈ (scan s).comments, byteWidth (orderMark s ++ texts x) ≤ c.start → t.stop ≤ c.start) :
    ∃ ws vs, siblingsOf s = ws ++ [.item t] ++ vs ∧
      siblingsOf s' = ws ++ [.item t'] ++ vs.map (Sibling.moved (insertionAt s x ins).text.length) ∧
      (∀ z ∈ ws, z.start < (insertionAt s x ins).place ∧ z.stop ≤ (insertionAt s x ins).place) ∧
      ∀ z ∈ vs, (insertionAt s x ins).place ≤ z.start ∧ (insertionAt s x ins).place < z.stop := by
  obtain ⟨hcs, hds⟩ := h.comments_range
  have hds' : ∀ c ∈ (place (byteWidth (orderMark s ++ texts x)) none y).comments, t.stop ≤ c.start := fun c hc =>
    hbehind c (by rw [comments_split h.old]; exact List.mem_append_right _ hc) (hds c hc).1
  obtain ⟨ws, hws, hold, hnew⟩ := Declaration.siblings_wider hms hcs hds'
    (fun u hu => ⟨(hns u hu).1, Nat.le_of_lt (hns u hu).2⟩) hstart hstop hstart' hstop'
  refine ⟨ws, siblings ns (place (byteWidth (orderMark s ++ texts x)) none y).comments, ?_, ?_, hws, fun z hz => ?_⟩
  · unfold siblingsOf
    rw [hnodes, comments_split h.old, hold]
  · unfold siblingsOf
    rw [hnodes', h.comments_eq, length_eq, hnew]
  · cases z with
    | comment c => exact hds c (comment_mem_siblings hz)
    | item u =>
      have hrange := hns u (item_mem_siblings.mp hz)
      exact ⟨Nat.le_trans (Nat.le_of_lt hstop) hrange.1, Nat.lt_trans hstop hrange.2⟩

end Files

end GoSplice
