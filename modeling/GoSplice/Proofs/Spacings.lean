import GoSplice.Proofs.Retention

/-!
# White space where imports are put

Segments that import each path once have a place where the next import is put.  An import of a path
that the file imports already is put there, and taken out again by the pass over repeated imports; of
what surrounded it, white space stays at that place:

    Distinct gs, an import in gs → ∃ k r, Slot [] gs k r                            (Distinct.exists_slot)
    s is spaced at k r, p.withImport i = ok (encode s'), i.path there → s' is too  (IsSpaced.withImport)
-/

namespace GoSplice

open Syntax Syntax.Segment

/-! ## Places of imports -/

namespace Syntax.Segment

/-- Segments with an import of a path that was not seen have a place for the next one. -/
theorem exists_slot {as bs : List Segment} {g : Segment} (hg : g.IsItem) (himport : g.isImport) {d : Declared}
    (hd : g.declared = .ok d) (hlast : ∀ k ∈ bs, k.isImport = false) {x : String} (hx : x ∈ g.paths)
    (hbefore : x ∉ as.flatMap paths) {seen : List String} (hseen : x ∉ seen) :
    ∃ k r, Slot seen (as ++ g :: bs) k r := by
  induction as generalizing seen with
  | nil =>
    rcases hg.import_cases himport hd with ⟨-, c, l, -, hcode, hl⟩ | ⟨-, head, ps, z, -, hcode, hparts⟩
    · exact ⟨_, _, .single himport hlast hcode hl⟩
    · refine ⟨_, _, .block himport hlast hcode hparts fun hall => hseen ?_⟩
      exact List.contains_iff_mem.mp (List.all_eq_true.mp hall x hx)
  | cons a as ih =>
    rw [List.flatMap_cons, List.mem_append, not_or] at hbefore
    obtain ⟨k, r, h⟩ := ih hbefore.2 fun hmem : x ∈ a.paths ++ seen =>
      (List.mem_append.mp hmem).elim hbefore.1 hseen
    exact ⟨_, _, .there h⟩

/-- Segments that import each path once have a place for the next import if they have an import. -/
theorem Distinct.exists_slot {gs : List Segment} (h : Distinct gs) (hgs : ∀ g ∈ gs, g.IsItem)
    (hread : ∀ g ∈ gs, g.IsReadable) (himport : ∃ g ∈ gs, g.isImport) : ∃ k r, Slot [] gs k r := by
  obtain ⟨as, g, bs, rfl, himport, hlast⟩ := exists_lastImport himport
  have hg : g ∈ as ++ g :: bs := by simp
  have hclause : g.isClause = false := by
    rw [isClause, (hgs g hg).isImport_iff.mp himport]
    rfl
  obtain ⟨d, hd⟩ := hread g hg hclause
  obtain ⟨x, hx⟩ := List.exists_mem_of_ne_nil _ (h.nonempty g hg himport)
  refine Segment.exists_slot (hgs g hg) himport hd hlast hx (fun hmem => ?_) List.not_mem_nil
  have hnodup := h.nodup
  rw [List.flatMap_append, List.nodup_append, List.flatMap_cons] at hnodup
  exact hnodup.2.2 x hmem x (List.mem_append_left _ hx) rfl

end Syntax.Segment

/-! ## White space at the place of an import -/

/-- Whether a text is an order mark and some stretches, with white space put in at the place where the
next import is put in. -/
structure IsSpaced (mark : List Char) (lead k e : List Lexeme) (s : List Char) : Prop where
  mark : orderMark s = mark
  spaced : ∃ gs w v, stretches s = lead ++ joined gs ∧ Loose gs ∧ Slot [] gs (k ++ w) (v ++ e) ∧ IsWhite w ∧ IsWhite v

section Spaced

variable {filename : String} {f : SourceFile} {s mark : List Char} {a b lead lead' k e : List Lexeme} {gs : List Segment}
  {p : Package} {i : ImportAddition}

theorem Syntax.Outline.isSpaced (ho : Outline s lead gs) (h : Slot [] gs k e) : IsSpaced (orderMark s) lead k e s :=
  ⟨rfl, gs, [], [], ho.stretches_eq, ho.linked.loose, by rwa [List.append_nil], List.forall_mem_nil _, List.forall_mem_nil _⟩

theorem IsSpaced.exists_slot (h : IsSpaced mark lead k e s) (hlead : ∀ l ∈ lead, l.cls.isFiller)
    (ho : Outline s lead' gs) : lead' = lead ∧ ∃ w v, Slot [] gs (k ++ w) (v ++ e) ∧ IsWhite w ∧ IsWhite v := by
  obtain ⟨hs, w, v, heq, hloose, hslot, hw, hv⟩ := h.spaced
  obtain ⟨hsame, halike⟩ := ho.eq_of_loose heq hlead hloose
  exact ⟨hsame, w, v, hslot.of_alike halike, hw, hv⟩

/-- An import of a path that a file imports puts white space more at the place of the next one. -/
theorem IsSpaced.withImport (h : IsSpaced mark lead k e s) (hlead : ∀ l ∈ lead, l.cls.isFiller) (htailed : Tailed s a b)
    (hparsed : Parsed filename (Utf8.encode s) true f s) (hfile : p.files.file? i.filename = some f)
    (hname : IsImportName i.name.toList) (hpath : IsPlainText i.path.toList) (ho : Outline s lead' gs)
    (hmem : i.path ∈ gs.flatMap paths) :
    ∃ s' a', p.withImport i = .ok (Utf8.encode s') ∧ Tailed s' a' b ∧ IsSpaced mark lead k e s' := by
  obtain ⟨rfl, w, v, hslot, hw, hv⟩ := h.exists_slot hlead ho
  obtain ⟨a', hs, heq, htailed, hks, hadded⟩ :=
    htailed.withImport_added hparsed ho hslot.exists_isImport hfile hname hpath
  obtain ⟨w', v', hslot, hw', hv'⟩ := hslot.added hadded hname hpath (.inr (by rwa [String.ofList_toList]))
  refine ⟨_, a', heq, htailed, (orderMark_eq htailed.stretches_eq).trans h.mark, hs, w ++ w', v' ++ v,
    htailed.stretches_eq.trans hks, hadded.loose ho.linked.loose hname, ?_, hw.append hw', hv'.append hv⟩
  rwa [← List.append_assoc, List.append_assoc v']

theorem Syntax.IsWhite.bytes {ls : List Lexeme} (h : IsWhite ls) : ∀ b ∈ Utf8.encode (texts ls), b = 9 ∨ b = 10 := by
  induction ls with
  | nil => exact List.forall_mem_nil _
  | cons l ls ih =>
    obtain ⟨hl, hls⟩ := List.forall_mem_cons.mp h
    rw [texts_cons, Utf8.encode_append]
    refine List.forall_mem_append.mpr ⟨?_, ih hls⟩
    rcases hl with rfl | rfl
    · exact List.forall_mem_singleton.mpr (.inl rfl)
    · exact List.forall_mem_singleton.mpr (.inr rfl)

end Spaced

end GoSplice
