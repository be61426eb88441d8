import GoSplice.Proofs.Extracts
import GoSplice.Proofs.Outlines
import GoSplice.Proofs.PartFiles

/-!
# Files and their outlines

A file is read just if its text has an outline whose segments can be read and
one of which is a package clause, and what it declares is what the segments
declare, wherever they stand:

    Outline s lead gs, gs readable, c the first clause of gs →
      parse filename (encode s) true = ok f                           (Outline.parse)
    Parsed … f s → Outline s lead gs → f.packageName is that of c,
      f has as many declarations of a subject as gs                   (Outline.packageName_eq,
                                                                       Outline.count_eq)
-/

namespace GoSplice

open Syntax

/-! ## Declarations of a subject -/

/-- How many declarations of a file declare what a subject names. -/
def SourceFile.count (f : SourceFile) (s : Subject) : Nat :=
  f.declarations.countP (s.isDeclaredBy ·.declared)

namespace Declaration

section OfSiblings

variable {source : Bytes} {comments : List Comment} {lines : LineIndex}

/-- Whether an item declares what a subject names. -/
def itemDeclares (source : Bytes) (comments : List Comment) (s : Subject) (t : Node) : Bool :=
  t.label != .packageClause && (declaredBy source comments t).toOption.any s.isDeclaredBy

/-- Siblings are read if each item of them is, doc comments apart. -/
theorem exists_ofSiblings {before after : List Sibling} (h : ∀ t, .item t ∈ after →
    t.label ≠ .packageClause → ∃ d, declaredBy source comments t = .ok d) :
    ∃ ds, ofSiblings source comments lines before after = .ok ds := by
  induction after generalizing before with
  | nil => exact ⟨[], rfl⟩
  | cons x after ih =>
    obtain ⟨ds, hds⟩ := @ih (x :: before) fun t ht => h t (List.mem_cons_of_mem x ht)
    cases x with
    | comment c => exact ⟨ds, hds⟩
    | item t =>
      unfold ofSiblings
      dsimp only
      split
      · exact ⟨ds, hds⟩
      · next hl =>
        obtain ⟨d, hd⟩ := h t List.mem_cons_self hl
        rw [hd, hds]
        exact ⟨_, rfl⟩

/-- The declarations of siblings declare what their items do. -/
theorem countP_ofSiblings {before after : List Sibling} {ds : List Declaration}
    (h : ofSiblings source comments lines before after = .ok ds) (s : Subject) :
    ds.countP (s.isDeclaredBy ·.declared) =
      (after.filterMap Sibling.node?).countP (itemDeclares source comments s) := by
  induction after generalizing before ds with
  | nil =>
    cases h
    rfl
  | cons x after ih =>
    cases x with
    | comment c => exact ih h
    | item t =>
      unfold ofSiblings at h
      dsimp only at h
      rw [List.filterMap_cons_some (show Sibling.node? (.item t) = some t from rfl), List.countP_cons]
      split at h
      · next hl => rw [ih h, if_neg (by simp [itemDeclares, hl]), Nat.add_zero]
      · next hl =>
        cases hd : declaredBy source comments t with
        | error e => rw [hd] at h; cases h
        | ok d =>
          cases hrest : ofSiblings source comments lines (.item t :: before) after with
          | error e => rw [hd, hrest] at h; cases h
          | ok rest =>
            rw [hd, hrest] at h
            cases h
            have hsame : itemDeclares source comments s t = s.isDeclaredBy d := by
              rw [itemDeclares, hd, bne_iff_ne.mpr hl]
              rfl
            rw [List.countP_cons, ih hrest, hsame]

end OfSiblings

end Declaration

/-! ## What segments declare -/

namespace Syntax.Segment

/-- What the item of a segment declares. -/
def declared (g : Segment) : Except PatchError Declared :=
  Declaration.declaredBy (Utf8.encode (texts g.code)) (place 0 none g.code).comments g.node

def isClause (g : Segment) : Bool := g.node.label == .packageClause

/-- The package name of a clause. -/
def packageName (g : Segment) : String :=
  Declaration.childText (Utf8.encode (texts g.code)) .name g.node

/-- Whether what a segment declares can be read. -/
def IsReadable (g : Segment) : Prop := g.isClause = false → ∃ d, g.declared = .ok d

/-- Whether a segment declares what a subject names. -/
def declares (s : Subject) (g : Segment) : Bool :=
  !g.isClause && g.declared.toOption.any s.isDeclaredBy

end Syntax.Segment

open Syntax.Segment

section Nodes

variable {s : List Char} {a b : List Lexeme} {gs : List Segment}

/-- The item of a segment of a text declares what the segment declares. -/
theorem declaredBy_segment {g : Segment} (hg : g.IsItem) (hs : stretches s = a ++ (g.code ++ b)) :
    Declaration.declaredBy (Utf8.encode s) (scan s).comments
        (g.node.moved (byteWidth (orderMark s ++ texts a))) =
      g.declared.map (Declared.moved (byteWidth (orderMark s ++ texts a))) :=
  declaredBy_stretches hs hg.declares

theorem itemDeclares_segment {g : Segment} (hg : g.IsItem) (hs : stretches s = a ++ (g.code ++ b)) (t : Subject) :
    Declaration.itemDeclares (Utf8.encode s) (scan s).comments t
      (g.node.moved (byteWidth (orderMark s ++ texts a))) = g.declares t := by
  rw [Declaration.itemDeclares, declaredBy_segment hg hs, Tree.label_moved, Segment.declares]
  cases g.declared with
  | error e => rfl
  | ok d =>
    show (_ && t.isDeclaredBy (d.moved _)) = _
    rw [isDeclaredBy_moved]
    rfl

/-- The name in a clause of a text is that of its segment. -/
theorem childText_segment {g : Segment} (hg : g.IsItem) (hs : stretches s = a ++ (g.code ++ b)) :
    Declaration.childText (Utf8.encode s) .name (g.node.moved (byteWidth (orderMark s ++ texts a))) =
      g.packageName := by
  have hsource : Utf8.encode s = Utf8.encode (orderMark s ++ texts a) ++ Utf8.encode (texts g.code) ++
      Utf8.encode (texts b) := by
    conv => lhs; rw [← orderMark_append_texts s, hs]
    simp only [texts_append, Utf8.encode_append, List.append_assoc]
  have hwithin : Declaration.Within (Utf8.encode (texts g.code)).length g.node :=
    ⟨0, _, Nat.le_of_eq (byteWidth_eq _), hg.declares.nested⟩
  rw [hsource, byteWidth_eq]
  exact Declaration.childText_moved _ fun u hu => (hwithin.child hu).stop_le

/-- What is the same for a segment and its item, at its place, is the same for all. -/
theorem map_nodes {β : Type} {f : Node → β} {F : Segment → β} (hgs : ∀ g ∈ gs, g.IsItem)
    (hs : stretches s = a ++ joined gs)
    (hf : ∀ g a b, g.IsItem → stretches s = a ++ (g.code ++ b) →
      f (g.node.moved (byteWidth (orderMark s ++ texts a))) = F g) :
    (nodes (byteWidth (orderMark s ++ texts a)) gs).map f = gs.map F := by
  induction gs generalizing a with
  | nil => rfl
  | cons g gs ih =>
    obtain ⟨hg, hgs⟩ := List.forall_mem_cons.mp hgs
    rw [joined_cons] at hs
    have hrest := @ih (a ++ g.stretches) hgs (by rw [hs]; simp [Segment.stretches])
    rw [texts_append, ← List.append_assoc, byteWidth_append] at hrest
    rw [nodes, List.map_cons, List.map_cons, hrest, hf g a _ hg hs]

end Nodes

namespace Syntax.Outline

variable {filename : String} {source : Bytes} {s : List Char} {f : SourceFile} {lead : List Lexeme}
  {gs : List Segment}

theorem map_nodes {β : Type} {f : Node → β} {F : Segment → β} (h : Outline s lead gs)
    (hf : ∀ g a b, g.IsItem → stretches s = a ++ (g.code ++ b) →
      f (g.node.moved (byteWidth (orderMark s ++ texts a))) = F g) :
    (textItems s).nodes.map f = gs.map F := by
  rw [h.items]
  exact GoSplice.map_nodes h.linked.items h.stretches_eq hf

/-- The first package clause of a text is that of its segments. -/
theorem find?_clause (h : Outline s lead gs) :
    ((textItems s).nodes.find? (·.label == .packageClause)).map (Declaration.childText (Utf8.encode s) .name) =
      (gs.find? isClause).map packageName := by
  have hmap := congrArg (fun l => (List.find? Prod.fst l).map Prod.snd) (h.map_nodes
    (f := fun n => (n.label == .packageClause, Declaration.childText (Utf8.encode s) .name n))
    (F := fun g => (g.isClause, g.packageName)) fun g a b hg hs => by
      rw [childText_segment hg hs, Tree.label_moved]
      rfl)
  rw [List.find?_map, List.find?_map, Option.map_map, Option.map_map] at hmap
  exact hmap

theorem packageName_eq (h : Outline s lead gs) (hp : Parsed filename source true f s) :
    (gs.find? isClause).map packageName = some f.packageName := by
  obtain ⟨t, ht, hname, -⟩ := hp.clause
  rw [← h.find?_clause, ht, hname, hp.encode_eq]
  rfl

/-- A file declares a subject as often as the segments of its outline. -/
theorem count_eq (h : Outline s lead gs) (hp : Parsed filename source true f s) (t : Subject) :
    f.count t = gs.countP (Segment.declares t) := by
  have hmap := congrArg (List.countP id) (h.map_nodes
    (f := Declaration.itemDeclares (Utf8.encode s) (scan s).comments t) (F := Segment.declares t)
    fun g a b hg hs => itemDeclares_segment hg hs t)
  rw [List.countP_map, List.countP_map] at hmap
  have hcount := Declaration.countP_ofSiblings hp.declarations t
  rw [Declaration.filterMap_siblings, hp.encode_eq] at hcount
  exact hcount.trans hmap

theorem itemReadable_iff (h : Outline s lead gs) :
    (∀ n ∈ (textItems s).nodes, n.label ≠ .packageClause →
      ∃ d, Declaration.declaredBy (Utf8.encode s) (scan s).comments n = .ok d) ↔ ∀ g ∈ gs, g.IsReadable := by
  have hmap := h.map_nodes (F := IsReadable) (f := fun n => n.label ≠ .packageClause →
      ∃ d, Declaration.declaredBy (Utf8.encode s) (scan s).comments n = .ok d) fun g a b hg hs => by
    rw [declaredBy_segment hg hs, Tree.label_moved, IsReadable, isClause, beq_eq_false_iff_ne]
    cases g.declared with
    | error e => simp [Except.map]
    | ok d => simp [Except.map]
  rw [← List.forall_mem_map (P := fun q : Prop => q), hmap, List.forall_mem_map]

/-- The segments of a file that was read can be read. -/
theorem isReadable (h : Outline s lead gs) (hp : Parsed filename source true f s) :
    ∀ g ∈ gs, g.IsReadable := by
  refine h.itemReadable_iff.mp fun n hn hl => ?_
  obtain ⟨d, -, hd⟩ := Declaration.declaredBy_of_mem hp.declarations
    (Declaration.item_mem_siblings.mpr hn) hl
  rw [hp.encode_eq] at hd
  exact ⟨_, hd⟩

/-- A text with an outline is read as a file if its segments can be read and one of them is a
package clause. -/
theorem parse (h : Outline s lead gs) (hread : ∀ g ∈ gs, g.IsReadable) {c : Segment}
    (hc : gs.find? isClause = some c) (filename : String) :
    ∃ f, SourceFile.parse filename (Utf8.encode s) true = .ok f ∧ Parsed filename (Utf8.encode s) true f s := by
  obtain ⟨ds, hds⟩ := @Declaration.exists_ofSiblings (Utf8.encode s) (scan s).comments
    (.ofBytes (Utf8.encode s)) [] (siblingsOf s)
    fun t ht hl => h.itemReadable_iff.mpr hread t (Declaration.item_mem_siblings.mp ht) hl
  have hclause := h.find?_clause
  rw [hc] at hclause
  obtain ⟨t, ht, -⟩ := Option.map_eq_some_iff.mp hclause
  have hparsed : Parsed filename (Utf8.encode s) true {
      filename, source := Utf8.encode s, lines := .ofBytes (Utf8.encode s), declarations := ds
      packageName := Declaration.childText (Utf8.encode s) .name t
      clauseEnd := t.stop
      clauseCount := (textItems s).nodes.countP (·.label == .packageClause) } s := by
    refine ⟨rfl, rfl, rfl, rfl, by rw [h.items], ⟨t, ht, rfl, rfl⟩, rfl, fun _ n hn => ?_, hds⟩
    rw [h.items] at hn
    exact isDeclaration_iff.mpr (h.linked.isOpened n hn)
  exact ⟨_, parse_eq_ok_iff.mpr ⟨s, hparsed⟩, hparsed⟩

end Syntax.Outline

/-- The text of a file that was read has an outline. -/
theorem Parsed.exists_outline {filename : String} {source : Bytes} {f : SourceFile} {s : List Char}
    (h : Parsed filename source true f s) : ∃ lead gs, Outline s lead gs :=
  Syntax.exists_outline h.refusal fun n hn => isDeclaration_iff.mp (h.isDeclaration rfl n hn)

end GoSplice
