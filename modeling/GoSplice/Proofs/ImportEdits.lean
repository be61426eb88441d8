import GoSplice.Proofs.Insertions

/-!
# Files with an import more

The last import of a file is that of its segments, so what a file with an import more declares and
imports can be told from these.  What was put to the end of the file stays there, then and where the
repeated imports are taken out:

    Tailed s a b → the file with an import = encode s', Tailed s' a' b, and
      Outline s lead gs → Outline s' lead' hs → Covers gs hs              (Tailed.withImport)
    Tailed s a b → Outline s lead gs → s' is what remains of it → Tailed s' a' b
                                                                          (Tailed.withoutRepeated)
-/

namespace GoSplice

open Syntax Syntax.Segment

/-! ## The last import -/

namespace Syntax.Segment

variable {o : Nat} {as bs gs : List Segment} {p : Segment} {ds : List Declaration}

/-- Segments without imports declare none. -/
theorem Placed.not_imports (h : Placed o gs ds) (hgs : ∀ g ∈ gs, g.IsItem) (hnone : ∀ g ∈ gs, g.isImport = false) :
    ∀ d ∈ ds, ∀ specs close, d.declared ≠ .imports specs close := by
  induction h with
  | nil => exact nofun
  | clause _ _ ih => exact ih (List.forall_mem_cons.mp hgs).2 (List.forall_mem_cons.mp hnone).2
  | item _ _ _ hdecl _ ih =>
    obtain ⟨hg, hgs⟩ := List.forall_mem_cons.mp hgs
    obtain ⟨himport, hnone⟩ := List.forall_mem_cons.mp hnone
    refine List.forall_mem_cons.mpr ⟨fun specs close heq => ?_, ih hgs hnone⟩
    obtain ⟨d, hd, hmoved⟩ := exists_of_map_ok hdecl
    obtain ⟨specs', close', rfl, -⟩ := Declared.moved_eq_imports (hmoved.trans heq)
    exact Segment.not_imports hg himport hd rfl

/-- The declaration of a segment among others, and those behind it. -/
theorem Placed.split (h : Placed o (as ++ p :: bs) ds) (hp : p.isClause = false) :
    ∃ ds₁ d ds₂, ds = ds₁ ++ d :: ds₂ ∧ d.stop = o + byteWidth (texts (joined as ++ p.code)) ∧
      p.declared.map (Declared.moved (o + byteWidth (texts (joined as)))) = .ok d.declared ∧
      Placed (o + byteWidth (texts (joined as ++ p.stretches))) bs ds₂ := by
  induction as generalizing o ds with
  | nil =>
    cases h with
    | clause hclause _ =>
      rw [hp] at hclause
      cases hclause
    | item _ hstart hstop hdecl hrest =>
      exact ⟨[], _, _, rfl, hstop, hdecl, hrest⟩
  | cons a as ih =>
    have hnext : ∀ x : List Lexeme, o + byteWidth (texts (joined (a :: as) ++ x)) =
        o + byteWidth (texts a.stretches) + byteWidth (texts (joined as ++ x)) := fun x => by
      simp only [joined_cons, Segment.stretches, texts_append, byteWidth_append]
      omega
    have hzero := hnext []
    rw [List.append_nil, List.append_nil] at hzero
    simp only [hnext, hzero]
    cases h with
    | clause _ hrest => exact ih hrest
    | item _ _ _ _ hrest =>
      obtain ⟨ds₁, d, ds₂, rfl, h⟩ := ih hrest
      exact ⟨_ :: ds₁, d, ds₂, rfl, h⟩

/-- The last import among segments. -/
theorem exists_lastImport (h : ∃ g ∈ gs, g.isImport) :
    ∃ as p bs, gs = as ++ p :: bs ∧ p.isImport ∧ ∀ g ∈ bs, g.isImport = false := by
  induction gs with
  | nil =>
    obtain ⟨g, hg, -⟩ := h
    cases hg
  | cons g gs ih =>
    by_cases hrest : ∃ g ∈ gs, g.isImport
    · obtain ⟨as, p, bs, rfl, hp⟩ := ih hrest
      exact ⟨g :: as, p, bs, rfl, hp⟩
    · have hnone : ∀ k ∈ gs, k.isImport = false := fun k hk => Bool.eq_false_iff.mpr fun himport => hrest ⟨k, hk, himport⟩
      obtain ⟨k, hk, himport⟩ := h
      rcases List.mem_cons.mp hk with rfl | hk
      · exact ⟨[], k, gs, rfl, himport, hnone⟩
      · exact absurd himport (Bool.eq_false_iff.mp (hnone k hk))

/-- An import ends with its path, or with a parenthesis, whose place it declares. -/
theorem IsItem.import_cases {g : Segment} (h : g.IsItem) (himport : g.isImport) {d : Declared} (hd : g.declared = .ok d) :
    (∃ specs c l, d = .imports specs none ∧ g.code = c ++ [l] ∧ l.cls = .token .text) ∨
    ∃ specs head ps z, d = .imports specs (some (byteWidth (texts (head ++ ImportPart.code ps)))) ∧
      g.code = head ++ (ImportPart.code ps ++ [z]) ∧ IsImport head ps [z] := by
  obtain ⟨head, ps, close, hcode, hparts, hchildren⟩ := h.exists_parts (h.isImport_iff.mp himport)
  obtain ⟨specs, rfl, -⟩ := declared_of_parts (h.isImport_iff.mp himport) hcode hchildren hd
  cases hparts with
  | @single _ _ ns hhead hps hns hkinds =>
    left
    obtain ⟨c, l, k, hlast, hl⟩ := h.exists_last
    refine ⟨specs, c, l, rfl, hlast, ?_⟩
    have hall : kindsOf c ++ [k] = (.keyword .importK :: ns) ++ [.text] := by
      rw [← kindsOf_singleton hl, ← kindsOf_append, ← hlast, hcode, List.append_nil, kindsOf_append, hhead, hkinds]
      rfl
    obtain ⟨-, hk⟩ := List.append_inj' hall rfl
    rw [hl, (List.cons.inj hk).1]
  | block hhead ho hps hz => exact .inr ⟨specs, _, ps, _, rfl, hcode, .block hhead ho hps hz⟩

end Syntax.Segment

section Last

variable {filename : String} {source : Bytes} {f : SourceFile} {s : List Char} {lead : List Lexeme}
  {as bs : List Segment} {p : Segment}

/-- The last import of a file is that of its segments. -/
theorem Syntax.Outline.lastImport?_cases (h : Outline s lead (as ++ p :: bs)) (hp : Parsed filename source true f s)
    (himport : p.isImport) (hlast : ∀ g ∈ bs, g.isImport = false) :
    (∃ c l, p.code = c ++ [l] ∧ l.cls = .token .text ∧
      Splice.lastImport? f = some (byteWidth (orderMark s ++ texts (lead ++ (joined as ++ p.code))), none)) ∨
    ∃ head ps z n, p.code = head ++ (ImportPart.code ps ++ [z]) ∧ IsImport head ps [z] ∧
      Splice.lastImport? f =
        some (n, some (byteWidth (orderMark s ++ texts (lead ++ (joined as ++ (head ++ ImportPart.code ps)))))) := by
  have hitems := h.linked.items
  have hitem : p.IsItem := hitems p (by simp)
  have hlabel := hitem.isImport_iff.mp himport
  have hclause : p.isClause = false := by
    rw [isClause, hlabel]
    rfl
  obtain ⟨ds₁, d, ds₂, hds, hstop, hdecl, hrest⟩ := (h.placed hp).split hclause
  have hnone := hrest.not_imports (fun g hg => hitems g (by simp [hg])) hlast
  have hbehind : ∀ close, (∃ specs, d.declared = .imports specs close) → Splice.lastImport? f = some (d.stop, close) := by
    rintro close ⟨specs, hd⟩
    rw [Splice.lastImport?, hds, List.reverse_append, List.reverse_cons, List.append_assoc, List.findSome?_append,
      List.findSome?_eq_none_iff.mpr, List.singleton_append, List.findSome?_cons, hd]
    · rfl
    · intro e he
      split
      · next specs' close' hd' => exact absurd hd' (hnone e (List.mem_reverse.mp he) specs' close')
      · rfl
  obtain ⟨d', hd', hmoved⟩ := exists_of_map_ok hdecl
  have hwidth : ∀ x : List Lexeme, byteWidth (orderMark s ++ texts (lead ++ x)) =
      byteWidth (orderMark s ++ texts lead) + byteWidth (texts x) := fun x => by
    rw [texts_append, ← List.append_assoc, byteWidth_append _ (texts x)]
  rcases hitem.import_cases himport hd' with ⟨specs, c, l, rfl, hcode, hl⟩ | ⟨specs, head, ps, z, rfl, hcode, hparts⟩
  · refine .inl ⟨c, l, hcode, hl, ?_⟩
    rw [hbehind none ⟨_, hmoved.symm⟩, hstop, hwidth]
  · refine .inr ⟨head, ps, z, d.stop, hcode, hparts, ?_⟩
    have hplace := hwidth (joined as ++ (head ++ ImportPart.code ps))
    rw [texts_append (joined as), byteWidth_append (texts (joined as)), ← Nat.add_assoc, Nat.add_comm] at hplace
    rw [hbehind _ ⟨_, hmoved.symm⟩, hplace]
    rfl

end Last

/-! ## The import that is put in -/

theorem Syntax.orderMark_eq {s : List Char} {ls : List Lexeme} (h : stretches (orderMark s ++ texts ls) = ls) :
    orderMark (orderMark s ++ texts ls) = orderMark s := by
  have hall := orderMark_append_texts (orderMark s ++ texts ls)
  rw [h] at hall
  exact List.append_cancel_right hall

/-- A line end behind an item stands behind its code. -/
theorem Syntax.Segment.exists_gap_of_lineEnd {x gap ls : List Lexeme} {g : Segment} (hg : g.IsItem)
    (h : x ++ g.code ++ gap = ls ++ [⟨.newline, ['\n']⟩]) :
    ∃ gap', gap = gap' ++ [⟨.newline, ['\n']⟩] ∧ x ++ g.code ++ gap' = ls := by
  rcases List.eq_nil_or_concat gap with rfl | ⟨gap, m, rfl⟩
  · rw [List.append_nil] at h
    obtain ⟨k, hk⟩ := hg.last h
    cases hk
  · rw [List.concat_eq_append] at h ⊢
    rw [← List.append_assoc] at h
    obtain ⟨hrest, hm⟩ := List.append_inj' h rfl
    exact ⟨gap, by rw [hm], hrest⟩

/-- The first of its kind is at one place only. -/
theorem eq_of_first {α : Type} {P : α → Prop} {a b c d : List α} {x y : α} (h : a ++ x :: c = b ++ y :: d) (hx : P x)
    (hy : P y) (ha : ∀ z ∈ a, ¬ P z) (hb : ∀ z ∈ b, ¬ P z) : a = b ∧ x :: c = y :: d := by
  rcases append_cons_eq_append_cons h with ⟨e, rfl, -⟩ | ⟨e, rfl, -⟩ | ⟨hab, rfl, rfl⟩
  · exact absurd hy (ha y (by simp))
  · exact absurd hx (hb x (by simp))
  · exact ⟨hab, rfl⟩

/-- Segments that are no imports have no word for one. -/
theorem Syntax.Segment.Linked.notMem_importK {gs : List Segment} (h : Linked gs) (hnone : ∀ g ∈ gs, g.isImport = false) :
    .keyword .importK ∉ kindsOf (joined gs) := by
  intro hk
  obtain hsemicolon | ⟨g, hg, hk⟩ := h.kinds hk
  · cases hsemicolon
  · obtain ⟨l, hl, hcls⟩ := mem_kindsOf.mp hk
    have hitem := h.items g hg
    have himport := hitem.isImport_iff.mpr (Label.eq_importDecl (hitem.vocabulary hl hcls))
    rw [hnone g hg] at himport
    cases himport

/-- The first import of a text, where its word stands. -/
theorem Syntax.Outline.exists_first {t : List Char} {lead x y : List Lexeme} {hs : List Segment} {name path : List Char}
    (ho : Outline t lead hs) (hname : IsImportName name) (h : stretches t = x ++ (importStretches name path ++ y))
    (hx : .keyword .importK ∉ kindsOf x) :
    ∃ as g bs, hs = as ++ g :: bs ∧ g.isImport ∧ (∀ k ∈ as, k.isImport = false) ∧
      g.code = importStretches name path ∧ lead ++ joined as = x ∧ g.gap ++ joined bs = y := by
  have hword : .keyword .importK ∈ kindsOf (stretches t) :=
    mem_kindsOf.mpr ⟨⟨.token (.keyword .importK), "import".toList⟩, by rw [h]; simp [importStretches], rfl⟩
  obtain ⟨g, hg, hallows⟩ := ho.exists_item hword (by simp)
  have himport := (ho.linked.items g hg).isImport_iff.mpr (Label.eq_importDecl hallows)
  obtain ⟨g, hfound⟩ := Option.isSome_iff_exists.mp (List.find?_isSome.mpr ⟨g, hg, himport⟩)
  obtain ⟨himport, as, bs, rfl, has⟩ := List.find?_eq_some_iff_append.mp hfound
  have hnone : ∀ k ∈ as, k.isImport = false := fun k hk => by simpa using has k hk
  have hitem : g.IsItem := ho.linked.items g (by simp)
  have hregion := hitem.isRegion (hitem.isImport_iff.mp himport)
  obtain ⟨l, r, hcode, hl⟩ := hregion.first
  have hall : (lead ++ joined as) ++ l :: (r ++ (g.gap ++ joined bs)) =
      x ++ ⟨.token (.keyword .importK), "import".toList⟩ :: (space :: specStretches name path ++ y) := by
    have hsame := ho.stretches_eq.symm.trans h
    rw [joined_append, joined_cons, hcode] at hsame
    simpa [importStretches] using hsame
  have hbefore : .keyword .importK ∉ kindsOf (lead ++ joined as) := by
    rw [kindsOf_append, noCode_iff_kindsOf.mp ho.noCode, List.nil_append]
    exact ho.linked.before.notMem_importK hnone
  obtain ⟨heq, hrest⟩ := eq_of_first (P := fun l : Lexeme => l.cls = .token (.keyword .importK)) hall hl rfl
    (fun z hz hcls => hbefore (mem_kindsOf.mpr ⟨z, hz, hcls⟩)) fun z hz hcls => hx (mem_kindsOf.mpr ⟨z, hz, hcls⟩)
  have hsame : g.code ++ (g.gap ++ joined bs) = importStretches name path ++ y := by
    rw [hcode]
    exact hrest
  have hcodes := hregion.eq_of_append ((@isItem_importSegment name path hname []).isRegion rfl) hsame
  refine ⟨as, g, bs, rfl, himport, hnone, hcodes, heq, ?_⟩
  rw [hcodes] at hsame
  exact List.append_cancel_left hsame

/-- A text imports the path of its first import. -/
theorem Syntax.Outline.mem_paths_first {t : List Char} {lead x y : List Lexeme} {hs : List Segment}
    {name path : List Char} (ho : Outline t lead hs) (hname : IsImportName name) (hpath : IsPlainText path)
    (h : stretches t = x ++ (importStretches name path ++ y)) (hx : .keyword .importK ∉ kindsOf x) :
    String.ofList path ∈ hs.flatMap paths := by
  obtain ⟨as, g, bs, rfl, -, -, hcode, -, -⟩ := ho.exists_first hname h hx
  refine List.mem_flatMap.mpr ⟨g, by simp, ?_⟩
  rw [paths_congr (h := importSegment name path []) hcode, paths_importSegment hname hpath]
  exact List.mem_singleton_self _

section WithImport

variable {filename : String} {f : SourceFile} {s : List Char} {a b lead : List Lexeme} {gs : List Segment}
  {p : Package} {i : ImportAddition}

/-- A file with imports and one more: its segments with an import more. -/
theorem Syntax.Tailed.withImport_added (h : Tailed s a b) (hparsed : Parsed filename (Utf8.encode s) true f s)
    (ho : Outline s lead gs) (himport : ∃ g ∈ gs, g.isImport) (hfile : p.files.file? i.filename = some f)
    (hname : IsImportName i.name.toList) (hpath : IsPlainText i.path.toList) :
    ∃ a' hs, p.withImport i = .ok (Utf8.encode (orderMark s ++ texts (a' ++ b))) ∧
      Tailed (orderMark s ++ texts (a' ++ b)) a' b ∧ a' ++ b = lead ++ joined hs ∧
      Added i.name.toList i.path.toList gs hs := by
  obtain ⟨as, g, bs, rfl, himport, hlast⟩ := exists_lastImport himport
  have hitem : g.IsItem := ho.linked.items g (by simp)
  obtain ⟨hword, c, ha⟩ := h.import_before ho (hitem.isImport_iff.mp himport)
  have hbs : Linked bs := @Linked.of_append [g] bs ho.linked.of_append
  -- what stands behind the last import
  have hbehind : c ++ b = g.gap ++ joined bs := by
    have hall := h.stretches_eq.symm.trans ho.stretches_eq
    rw [ha, joined_append, joined_cons] at hall
    simpa only [List.append_assoc, List.append_cancel_left_eq] using hall
  have hsource : f.source = Utf8.encode s := hparsed.source_eq
  unfold Package.withImport
  simp only [hfile, hsource, importText_eq]
  rcases ho.lastImport?_cases hparsed himport hlast with
    ⟨d, l, hcode, hl, hfound⟩ | ⟨head, ps, z, n, hcode, hparts, hfound⟩
  · have hend : lead ++ (joined as ++ g.code) = (lead ++ (joined as ++ d)) ++ [l] := by
      rw [hcode]
      simp
    obtain ⟨e, y, hc, he, heq, htailed⟩ := h.importBelow hname hpath (x := lead ++ (joined as ++ d)) (l := l) (y := c)
      (by rw [ha, hend, List.append_assoc]; rfl) hl
    -- the line end that goes stands before the next segment
    obtain ⟨gap, hgap, hrest⟩ : ∃ gap, g.gap = e ++ gap ∧ y ++ b = gap ++ joined bs := by
      rw [hc, List.append_assoc] at hbehind
      rcases he with rfl | rfl
      · exact ⟨g.gap, rfl, hbehind⟩
      · obtain ⟨gap, hgap, hrest⟩ := hbs.line_before hbehind.symm
        exact ⟨gap, hgap, hrest.symm⟩
    refine ⟨_, as ++ { g with gap := [⟨.newline, ['\n']⟩] } ::
      importSegment i.name.toList i.path.toList (⟨.newline, ['\n']⟩ :: gap) :: bs, ?_, htailed, ?_,
      (Added.single himport hlast hcode hl hgap he).append_left as⟩
    · rw [hfound]
      exact congrArg _ (hend ▸ heq)
    · simp [hrest, hcode, importSegment]
  · obtain ⟨x, e, hx, he, heq, htailed⟩ := h.importInside hname hpath
      (x := lead ++ (joined as ++ (head ++ ImportPart.code ps))) (y := z :: c) (by rw [ha, hcode]; simp) hword
    have hspec : ∃ qs, IsSpecLine i.name.toList i.path.toList qs ∧ 
        x ++ ⟨.newline, ['\n']⟩ :: (⟨.blank, ['\t']⟩ :: specStretches i.name.toList i.path.toList ++
          ⟨.newline, ['\n']⟩ :: z :: c) =
        lead ++ (joined as ++ (head ++ ImportPart.code (ps ++ qs))) ++ z :: c := by
      rcases he with rfl | rfl
      · rw [List.append_nil] at hx
        refine ⟨_, .inr rfl, ?_⟩
        rw [← hx]
        simp [ImportPart.stretches, code_specLine]
      · refine ⟨_, .inl rfl, ?_⟩
        rw [ImportPart.code_append, code_specLine]
        have := congrArg (· ++ (⟨.blank, ['\t']⟩ :: specStretches i.name.toList i.path.toList ++
          ⟨.newline, ['\n']⟩ :: z :: c)) hx
        simpa using this.symm
    obtain ⟨qs, hqs, hall⟩ := hspec
    refine ⟨_, as ++ ⟨head ++ (ImportPart.code (ps ++ qs) ++ [z]), g.node, g.gap⟩ :: bs, ?_, htailed, ?_,
      (Added.block himport hlast hcode hparts hqs).append_left as⟩
    · rw [hfound]
      exact congrArg _ heq
    · rw [hall]
      simp [hbehind]

/-- Whether segments declare what others do, each subject as often, and import what the others do. -/
structure Syntax.Segment.Covers (gs hs : List Segment) : Prop where
  declares : ∀ u, gs.countP (Segment.declares u) ≤ hs.countP (Segment.declares u)
  paths : ∀ x ∈ gs.flatMap paths, x ∈ hs.flatMap Segment.paths

/-- Loose segments stay loose without an import between two of them. -/
theorem Syntax.Segment.Loose.merge {as bs : List Segment} {g k : Segment} {c d : List Lexeme}
    (h : Loose (as ++ g :: k :: bs)) (hg : g.gap = c ++ [⟨.newline, ['\n']⟩, ⟨.newline, ['\n']⟩])
    (hk : k.gap = ⟨.newline, ['\n']⟩ :: ⟨.newline, ['\n']⟩ :: d) :
    Loose (as ++ { g with gap := c ++ ⟨.newline, ['\n']⟩ :: d } :: bs) := by
  induction as with
  | nil =>
    cases h with
    | cons hpiece hgap _ hrest =>
      cases hrest with
      | cons _ hgap' _ hbs =>
        rw [hg, List.forall_mem_append] at hgap
        rw [hk, List.forall_mem_cons, List.forall_mem_cons] at hgap'
        refine .cons (hpiece.imp_left fun hitem => ⟨hitem.declares, hitem.nonempty⟩)
          (List.forall_mem_append.mpr ⟨hgap.1, List.forall_mem_cons.mpr ⟨rfl, hgap'.2.2⟩⟩)
          (fun _ => ⟨⟨.newline, ['\n']⟩, by simp, rfl⟩) hbs
  | cons a as ih =>
    cases h with
    | cons hpiece hgap hends hrest =>
      exact .cons hpiece hgap (fun _ => hends (by simp)) (ih hrest)

/-- A file without imports and one below its package clause. -/
theorem Syntax.Tailed.withImport_first (h : Tailed s a b) (hparsed : Parsed filename (Utf8.encode s) true f s)
    (ho : Outline s lead gs) (hnone : ∀ g ∈ gs, g.isImport = false) (hfile : p.files.file? i.filename = some f)
    (hcontents : p.contentsOrNew i.filename = Utf8.encode s)
    (hname : IsImportName i.name.toList) (hpath : IsPlainText i.path.toList) :
    ∃ a', p.withImport i = .ok (Utf8.encode (orderMark s ++ texts (a' ++ b))) ∧
      Tailed (orderMark s ++ texts (a' ++ b)) a' b ∧ ∀ lead' hs, Outline (orderMark s ++ texts (a' ++ b)) lead' hs →
        Covers gs hs ∧ i.path ∈ hs.flatMap paths := by
  have hlast : Splice.lastImport? f = none := by
    refine List.findSome?_eq_none_iff.mpr fun d hd => ?_
    split
    · next specs close hdecl =>
      exact absurd hdecl ((ho.placed hparsed).not_imports ho.linked.items hnone d (List.mem_reverse.mp hd) specs close)
    · rfl
  obtain ⟨x, y, ha, hclause, hend⟩ := h.exists_clauseLine hparsed ho hlast
  obtain ⟨heq, htailed⟩ := h.importAfterClause hname hpath ha
  refine ⟨_, ?_, htailed, fun lead' hs ho' => ?_⟩
  · unfold Package.withImport
    simp only [hfile, hcontents, hlast, importText_eq, hend, heq]
  -- the import is one of the segments, and the others are those that the file had
  have hx : .keyword .importK ∉ kindsOf x := fun hmem => by
    refine hparsed.notMem_of_lastImport? ho hlast ?_
    rw [h.stretches_eq, ha, kindsOf_append, kindsOf_append]
    exact List.mem_append_left _ (List.mem_append_left _ hmem)
  have hfirst : stretches (orderMark s ++ texts (x ++ ⟨.newline, ['\n']⟩ :: (⟨.newline, ['\n']⟩ ::
      importStretches i.name.toList i.path.toList ++ ⟨.newline, ['\n']⟩ :: ⟨.newline, ['\n']⟩ :: y) ++ b)) =
      (x ++ [⟨.newline, ['\n']⟩, ⟨.newline, ['\n']⟩]) ++ (importStretches i.name.toList i.path.toList ++
        ⟨.newline, ['\n']⟩ :: ⟨.newline, ['\n']⟩ :: (y ++ b)) := by
    rw [htailed.stretches_eq]
    simp
  have hfront' : .keyword .importK ∉ kindsOf (x ++ [⟨.newline, ['\n']⟩, ⟨.newline, ['\n']⟩]) := by
    rw [kindsOf_append]
    exact fun hmem => hx ((List.mem_append.mp hmem).resolve_right List.not_mem_nil)
  obtain ⟨as, g, bs, rfl, himport, has, hcode, hbefore, hbehind⟩ := ho'.exists_first hname hfirst hfront'
  have hbs : Linked bs := @Linked.of_append [g] bs ho'.linked.of_append
  obtain ⟨gapN, hgapN, hline⟩ := hbs.line_before hbehind
  obtain ⟨gap, hgap, hrest⟩ := hbs.line_before hline
  rcases List.eq_nil_or_concat as with rfl | ⟨as, k, rfl⟩
  · -- the clause is no part of what stands before all segments
    obtain ⟨l, hl, hcls⟩ := mem_kindsOf.mp hclause
    rw [joined_nil, List.append_nil] at hbefore
    exact absurd hcls (ho'.noCode l (by rw [hbefore]; exact List.mem_append_left _ hl) _)
  rw [List.concat_eq_append] at *
  have hk : k.IsItem := ho'.linked.items k (by simp)
  rw [joined_append, joined_cons, joined_nil, List.append_nil, ← List.append_assoc, ← List.append_assoc,
    List.append_cons x] at hbefore
  obtain ⟨gapL, hgapL, hlineEnd⟩ := exists_gap_of_lineEnd hk hbefore
  obtain ⟨gapF, hgapF, hfront⟩ := exists_gap_of_lineEnd hk hlineEnd
  have hloose := ho'.linked.loose
  rw [List.append_assoc] at hloose
  have hmerged := hloose.merge (c := gapF) (by rw [hgapL, hgapF]; simp) (hgapN.trans (congrArg _ hgap))
  have hold : stretches s = lead' ++ joined (as ++ { k with gap := gapF ++ ⟨.newline, ['\n']⟩ :: gap } :: bs) := by
    rw [h.stretches_eq, ha, joined_append, joined_cons, List.append_assoc, List.cons_append, ← hrest, ← hfront]
    simp
  obtain ⟨-, halike⟩ := ho.eq_of_loose hold ho'.noCode.isFiller hmerged
  refine ⟨⟨fun u => Nat.le_of_eq ?_, ?_⟩, ?_⟩
  · rw [countP_declares ho'.linked.items, countP_declares ho.linked.items, countP_of_alike halike hmerged.pieces]
    have hg : g.declaresBeside u = false := by rw [declaresBeside, himport]; rfl
    have hsame : ({ k with gap := gapF ++ ⟨.newline, ['\n']⟩ :: gap } : Segment).declaresBeside u = k.declaresBeside u := rfl
    simp [List.countP_cons, List.countP_append, hg, hsame]
  · rw [paths_of_not_imports hnone]
    exact List.nil_subset _
  · have hmem := ho'.mem_paths_first hname hpath hfirst hfront'
    rwa [String.ofList_toList] at hmem

/-- Segments with an import more stand in place of those that they were. -/
theorem Syntax.Segment.Added.covers {name path : List Char} {gs hs ks : List Segment} (h : Added name path gs hs)
    (hname : IsImportName name) (hpath : IsPlainText path) (hgs : Linked gs) (hks : ∀ k ∈ ks, k.IsItem)
    (halike : List.Forall₂ Alike hs ks) : Covers gs ks ∧ String.ofList path ∈ ks.flatMap paths := by
  have hmem := h.mem_paths hname hpath
  rw [paths_of_alike halike]
  refine ⟨⟨fun u => Nat.le_of_eq ?_, fun x hx => ?_⟩, (hmem _).mpr (.inl rfl)⟩
  · rw [countP_declares hks, countP_declares hgs.items, countP_of_alike halike (h.loose hgs.loose hname).pieces,
      h.countP_declaresBeside]
  · rw [paths_of_alike halike]
    exact (hmem x).mpr (.inr hx)

/-- An import that is put into a loaded file stands before the last stretches, and takes nothing
away from what the file declares and imports. -/
theorem Syntax.Tailed.withImport (h : Tailed s a b) (hparsed : Parsed filename (Utf8.encode s) true f s)
    (ho : Outline s lead gs) (hfile : p.files.file? i.filename = some f)
    (hcontents : p.contentsOrNew i.filename = Utf8.encode s)
    (hname : IsImportName i.name.toList) (hpath : IsPlainText i.path.toList) :
    ∃ s' a', p.withImport i = .ok (Utf8.encode s') ∧ Tailed s' a' b ∧
      ∀ lead' hs, Outline s' lead' hs → Covers gs hs ∧ i.path ∈ hs.flatMap paths := by
  by_cases himport : ∃ g ∈ gs, g.isImport
  · obtain ⟨a', ks, heq, htailed, hks, hadded⟩ := h.withImport_added hparsed ho himport hfile hname hpath
    refine ⟨_, a', heq, htailed, fun lead' hs ho' => ?_⟩
    obtain ⟨-, halike⟩ := ho'.eq_of_loose (htailed.stretches_eq.trans hks) ho.noCode.isFiller
      (hadded.loose ho.linked.loose hname)
    have hcovers := hadded.covers hname hpath ho.linked ho'.linked.items halike
    rwa [String.ofList_toList] at hcovers
  · have hnone : ∀ g ∈ gs, g.isImport = false := fun g hg => Bool.eq_false_iff.mpr fun h => himport ⟨g, hg, h⟩
    obtain ⟨a', heq, htailed, hcovers⟩ := h.withImport_first hparsed ho hnone hfile hcontents hname hpath
    exact ⟨_, a', heq, htailed, hcovers⟩

end WithImport

/-! ## Files without their repeated imports -/

namespace Syntax

theorem Segment.exists_remainders_append (seen : List String) (as : List Segment) :
    ∃ seen', ∀ gs, remainders seen (as ++ gs) = remainders seen as ++ remainders seen' gs := by
  induction as generalizing seen with
  | nil => exact ⟨seen, fun _ => rfl⟩
  | cons a as ih =>
    obtain ⟨seen', h⟩ := ih (a.paths ++ seen)
    exact ⟨seen', fun gs => by rw [List.cons_append, remainders, remainders, h]; simp⟩

/-- Loose segments up to the code of one of them. -/
theorem Segment.Loose.upTo {as bs : List Segment} {g : Segment} (h : Loose (as ++ g :: bs)) :
    Loose (as ++ [{ g with gap := [] }]) := by
  induction as with
  | nil =>
    cases h with
    | cons hpiece _ _ _ =>
      exact .cons (hpiece.imp_left fun hitem => ⟨hitem.declares, hitem.nonempty⟩) (List.forall_mem_nil _)
        (fun hnil => absurd rfl hnil) .nil
  | cons a as ih =>
    cases h with
    | cons hpiece hgap hends hrest => exact .cons hpiece hgap (fun _ => hends (by simp)) (ih hrest)

/-- Where the repeated imports of a file are taken out, what stands at its end stays there. -/
theorem Tailed.withoutRepeated {s : List Char} {a b lead lead' : List Lexeme} {gs hs : List Segment} (h : Tailed s a b)
    (ho : Outline s lead gs) (ho' : Outline (orderMark s ++ texts (lead ++ remainders [] gs)) lead' hs)
    (hpath : ∃ x, x ∈ gs.flatMap paths) :
    ∃ a', Tailed (orderMark s ++ texts (lead ++ remainders [] gs)) a' b := by
  obtain ⟨x, hx⟩ := hpath
  have himport : ∀ ks : List Segment, x ∈ ks.flatMap paths → ∃ g ∈ ks, g.isImport := fun ks hmem => by
    by_contra hnone
    rw [paths_of_not_imports fun g hg => Bool.eq_false_iff.mpr fun himport => hnone ⟨g, hg, himport⟩] at hmem
    cases hmem
  obtain ⟨as, p, bs, rfl, hp, hlast⟩ := exists_lastImport (himport gs hx)
  have hitem : p.IsItem := ho.linked.items p (by simp)
  obtain ⟨-, c, ha⟩ := h.import_before ho (hitem.isImport_iff.mp hp)
  obtain ⟨y, hy⟩ := h.line
  rw [← List.append_assoc] at ha
  obtain ⟨c, rfl, hfront⟩ := exists_gap_of_lineEnd hitem (ha.symm.trans hy)
  have hbehind : c ++ [⟨.newline, ['\n']⟩] ++ b = p.gap ++ joined bs := by
    have hall := h.stretches_eq.symm.trans ho.stretches_eq
    rw [ha, joined_append, joined_cons] at hall
    simpa only [List.append_assoc, List.append_cancel_left_eq] using hall
  -- what remains up to the last import, and all behind it
  obtain ⟨seen, hseen⟩ := exists_remainders_append [] as
  generalize hk : lead ++ (remainders [] as ++ p.remainder seen) = k
  have hremains : lead ++ remainders [] (as ++ p :: bs) = (k ++ c) ++ ⟨.newline, ['\n']⟩ :: b := by
    rw [hseen, remainders, remainders_of_not_imports hlast, ← hbehind, ← hk]
    simp
  have hthin : Thinned a ((k ++ c) ++ [⟨.newline, ['\n']⟩]) := by
    have hitems : ∀ g ∈ as ++ [{ p with gap := [] }], g.IsItem := by
      refine List.forall_mem_append.mpr ⟨fun g hg => ho.linked.items g (by simp [hg]), List.forall_mem_singleton.mpr ?_⟩
      exact ⟨hitem.declares, hitem.nonempty⟩
    have hupTo := ((ho.linked.loose.upTo.thinned hitems []).append_left (isJoint_of_fillers ho.noCode.isFiller)).append_right
      (c ++ [⟨.newline, ['\n']⟩])
    rw [hseen, remainders, remainders, remainder_congr (g := { p with gap := [] }) (h := p) rfl] at hupTo
    simpa [ha, ← hk] using hupTo
  have hsound := h.isSound
  rw [List.forall_mem_append] at hsound
  have hwhole : lexemes (texts a) = a := by
    have hall : lexemes (s.drop (orderMark s).length) = y ++ ⟨.newline, ['\n']⟩ :: (b ++ []) := by
      show stretches s = _
      rw [h.stretches_eq, hy]
      simp
    have hcut := lexemes_cut hall (fun l hl => hsound.1 l (by rw [hy]; exact List.mem_append_left _ hl)) rfl (by simp)
    rw [hy, texts_append]
    exact hcut
  obtain ⟨-, -, hcomment⟩ := lexemes_thinned hthin hwhole hsound.1
  have hb : fuse b = b := by
    have hapart : Apart (a ++ (b ++ [])) := by
      rw [List.append_nil]
      exact apart_of_lexemes h.stretches_eq
    exact hapart.part.fuse_eq
  have hnewline : LexemeClass.newline ≠ .blank := by simp
  have hline := fuse_append_cons (l := ⟨.newline, ['\n']⟩) hnewline (k ++ c) []
  have hst : stretches (orderMark s ++ texts (lead ++ remainders [] (as ++ p :: bs))) =
      fuse ((k ++ c) ++ [⟨.newline, ['\n']⟩]) ++ b := by
    rw [ho.stretches_remainders.2, hremains, fuse_append_cons (l := ⟨.newline, ['\n']⟩) hnewline, hb, hline]
    simp
  refine ⟨fuse ((k ++ c) ++ [⟨.newline, ['\n']⟩]), hst, ?_, ?_, ⟨_, hline⟩, h.tailLine, h.tail, .inl ?_⟩
  · refine List.forall_mem_append.mpr ⟨fun l hl => ?_, hsound.2⟩
    obtain ⟨m, hm, hcls⟩ := cls_of_mem_fuse hl
    exact hcls ▸ hsound.1 m (hthin.subset m hm)
  · exact Bool.eq_false_iff.mpr fun hopen => Bool.eq_false_iff.mp h.closed (hcomment hopen)
  · -- an import remains, and it is not among the last stretches
    obtain ⟨g, hg, hgimport⟩ := himport hs ((ho.withoutRepeated ho').2.2 x hx)
    obtain ⟨l, r, hcode, hl⟩ := ((ho'.linked.items g hg).isRegion ((ho'.linked.items g hg).isImport_iff.mp hgimport)).first
    have hword : .keyword .importK ∈ kindsOf (stretches (orderMark s ++ texts (lead ++ remainders [] (as ++ p :: bs)))) := by
      obtain ⟨xs, ys, rfl⟩ := List.append_of_mem hg
      refine mem_kindsOf.mpr ⟨l, ?_, hl⟩
      rw [ho'.stretches_eq, joined_append, joined_cons, hcode]
      simp
    rw [hst, kindsOf_append, List.mem_append] at hword
    exact hword.resolve_right fun hmem => (h.tail.kinds _ hmem).1 rfl

end Syntax

end GoSplice
