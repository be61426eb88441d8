import GoSplice.Proofs.PartPackages

/-!
# Changing packages made of parts

Every change of a package made of parts leaves such a package, whether it
succeeds or fails on the way: additions of whole declarations (and those that
replace others), of imports, and passes over repeated imports.

    Opened name q parts → Consists name (addDeclaration a q).2 parts'    (Opened.addDeclaration)
    Opened name q parts → Consists name (addImport a q).2 parts'         (Opened.addImport)
    Opened name q parts → Consists name (dedupImports ns q).2 parts'     (Opened.dedupImports)
-/

namespace GoSplice

open Syntax GoSplice.Part

/-! ## Identities and subjects -/

/-- What a declaration names when it is added. -/
def Declared.subject? : Declared → Option Subject
  | .func name receiver _ => some (.func receiver name)
  | .value kind names => some (.value kind names)
  | .type [name] => some (.type name)
  | _ => none

@[simp] theorem Declared.identities_moved (n : Nat) (d : Declared) :
    (d.moved n).identities = d.identities := by
  cases d <;> rfl

theorem Declared.subject?_moved (n : Nat) (d : Declared) : (d.moved n).subject? = d.subject? := by
  cases d <;> rfl

theorem isDeclaredBy_of_mem {s : Subject} {d : Declared} (h : s ∈ d.identities) : s.isDeclaredBy d := by
  cases d with
  | func name receiver simple =>
    rw [List.mem_singleton.mp h]
    simp [Subject.isDeclaredBy]
  | type names =>
    obtain ⟨n, hn, rfl⟩ := List.mem_map.mp h
    simpa [Subject.isDeclaredBy] using hn
  | _ => cases h

/-- What can be declared but once is an identity of all that declare it. -/
theorem mem_of_isDeclaredBy {s : Subject} {d e : Declared} (hs : s ∈ e.identities)
    (h : s.isDeclaredBy d) : s ∈ d.identities := by
  cases s with
  | func receiver name =>
    cases d with
    | func name' receiver' simple =>
      rw [Subject.isDeclaredBy, Bool.and_eq_true, beq_iff_eq, beq_iff_eq] at h
      rw [h.1, h.2]
      exact List.mem_singleton.mpr rfl
    | _ => cases h
  | type name =>
    cases d with
    | type names => exact List.mem_map_of_mem (List.contains_iff_mem.mp h)
    | _ => cases h
  | value kind names =>
    cases e with
    | func => cases List.mem_singleton.mp hs
    | type ns =>
      obtain ⟨n, -, hn⟩ := List.mem_map.mp hs
      cases hn
    | _ => cases hs

/-- A declaration has its subject as an identity, or none at all. -/
theorem identities_of_subject? {s : Subject} {d : Declared} (h : d.subject? = some s) :
    d.identities = [s] ∨ d.identities = [] := by
  cases d with
  | func => cases h; exact Or.inl rfl
  | value => exact Or.inr rfl
  | type names =>
    cases names with
    | nil => cases h
    | cons n ns =>
      cases ns with
      | nil => cases h; exact Or.inl rfl
      | cons => cases h
  | _ => cases h

theorem mem_allIdentities {s : Subject} {ps : List Part} (h : s ∈ allIdentities ps) :
    ∃ as g bs, ps = as ++ .paragraph g :: bs ∧ s ∈ g.declared.identities := by
  obtain ⟨b, hb, hs⟩ := List.mem_flatMap.mp h
  cases b with
  | blank => cases hs
  | paragraph g =>
    obtain ⟨as, bs, rfl⟩ := List.append_of_mem hb
    exact ⟨as, g, bs, rfl, hs⟩

theorem allIdentities_append (as bs : List Part) :
    allIdentities (as ++ bs) = allIdentities as ++ allIdentities bs := List.flatMap_append

theorem allIdentities_paragraph (as : List Part) (g : Paragraph) (bs : List Part) :
    allIdentities (as ++ .paragraph g :: bs) =
      allIdentities as ++ (g.declared.identities ++ allIdentities bs) := allIdentities_append _ _

theorem declarationAt_mem (o : Nat) (as : List Part) (g : Paragraph) (bs : List Part) :
    g.declarationAt (o + byteWidth (bodyText as)) ∈ spread declarations o (as ++ .paragraph g :: bs) := by
  rw [spread_append]
  exact List.mem_append_right _ (List.mem_append_left _ (List.mem_singleton.mpr rfl))

namespace Package

variable {p q : Package} {name : List Char} {parts : String → List Part}

/-! ## Look-ups -/

/-- The file at a layer path that has identities. -/
theorem Opened.exists_file (h : Opened name q parts) {s : Subject} {x : String}
    (hs : s ∈ allIdentities (parts x)) : ∃ g ∈ q.files, g = fileOf g.filename name (parts x) := by
  cases hf : q.layers.file? x with
  | none =>
    rw [h.noFile x hf] at hs
    cases hs
  | some f =>
    obtain ⟨g, hg, hx⟩ := h.member x f hf
    obtain ⟨y, -, hy, he⟩ := h.files g hg
    rw [hx, Except.ok.injEq] at hy
    exact ⟨g, hg, hy ▸ he⟩

/-- What is not found is declared nowhere. -/
theorem Opened.fresh_of_not_found (h : Opened name q parts) {s : Subject}
    (hm : q.files.findSubject? s = none) (x : String) : s ∉ allIdentities (parts x) := by
  intro hs
  obtain ⟨f, hf, he⟩ := h.exists_file hs
  obtain ⟨as, g, bs, hparts, hg⟩ := mem_allIdentities hs
  have hmem := declarationAt_mem (bodyStart name) as g bs
  rw [← hparts, show spread declarations (bodyStart name) (parts x) = f.declarations by rw [he]; rfl] at hmem
  refine not_isDeclaredBy hm hf hmem ?_
  show s.isDeclaredBy (g.declared.moved _)
  rw [isDeclaredBy_moved]
  exact isDeclaredBy_of_mem hg

/-- What is found is a paragraph of a file. -/
theorem Opened.found (h : Opened name q parts) {s : Subject} {m : Match}
    (hm : q.files.findSubject? s = some m) : ∃ x as g bs, IsFileName m.file.filename ∧
      q.path m.file.filename = .ok x ∧ parts x = as ++ .paragraph g :: bs ∧
      m.declaration = g.declarationAt (bodyStart name + byteWidth (bodyText as)) ∧
      s.isDeclaredBy g.declared := by
  obtain ⟨hfile, hdecl, hs⟩ := mem_of_findSubject? hm
  obtain ⟨x, hn, hx, he⟩ := h.files m.file hfile
  rw [he] at hdecl
  obtain ⟨as, g, bs, hparts, hd⟩ := mem_declarations hdecl
  refine ⟨x, as, g, bs, hn, hx, hparts, hd, ?_⟩
  rw [hd] at hs
  rw [← isDeclaredBy_moved]
  exact hs

/-! ## Declarations -/

/-- Whether a file that a package writes to has the contents of its parts. -/
def HasContents (name : List Char) (p : Package) (parts : String → List Part) (filename : String) : Prop :=
  ∀ x, p.path filename = .ok x → p.contentsOrNew filename = Utf8.encode (fileText name (parts x))

theorem write_of_hasDirectory {filename : String} (data : Bytes) (h : hasDirectory filename) :
    write filename data p = (.error (.nameWithDirectory filename), p) := by
  unfold write
  rw [if_pos h]
  rfl

/-- A new declaration at the end of a file. -/
theorem Consists.append (h : Consists name p parts) {filename : String} (hn : isSourceName filename)
    (hcontents : IsFileName filename → HasContents name p parts filename) {g : Paragraph}
    (hg : g.IsSingle) (hnodup : g.declared.identities.Nodup)
    (hfresh : ∀ s ∈ g.declared.identities, ∀ x, s ∉ allIdentities (parts x)) :
    ∃ parts', Consists name (Package.append filename (String.ofList g.text) p).2 parts' := by
  rw [append_eq]
  cases hplain : hasDirectory filename with
  | true =>
    rw [write_of_hasDirectory _ hplain]
    exact ⟨parts, h⟩
  | false =>
    have hfile : IsFileName filename := ⟨hn, hplain⟩
    obtain ⟨x, hx, -⟩ := h.inMemory.path_eq hfile
    have hids : allIdentities (parts x ++ [.paragraph g]) =
        allIdentities (parts x) ++ g.declared.identities := by
      rw [allIdentities_paragraph]
      exact congrArg _ (List.append_nil _)
    have hfits : Fits parts x (parts x ++ [.paragraph g]) := by
      refine ⟨List.forall_mem_append.mpr ⟨h.single x, List.forall_mem_singleton.mpr hg⟩, ?_, ?_⟩
      · rw [hids, List.nodup_append]
        refine ⟨h.nodup x, hnodup, ?_⟩
        rintro s hs t ht rfl
        exact hfresh s ht x hs
      · intro s hs y hy hs'
        rw [hids, List.mem_append] at hs
        rcases hs with hs | hs
        · exact hy (h.disjoint y x s hs' hs)
        · exact hfresh s hs y hs'
    rw [hcontents hfile x hx, append_fileText]
    rcases h.write hfile hx hfits with ⟨q, hq, -, hc⟩ | ⟨e, q, hq, hc⟩
    · rw [hq]
      exact ⟨_, hc⟩
    · rw [hq]
      exact ⟨_, hc⟩

/-- Without one of its paragraphs a file still fits, and does not declare what that did. -/
theorem Consists.fits_cut (h : Consists name p parts) {x : String} {as bs : List Part} {g : Paragraph}
    (hx : parts x = as ++ .paragraph g :: bs) : Fits parts x (as ++ .blank :: bs) ∧
      ∀ s ∈ g.declared.identities, ∀ y, s ∉ allIdentities (put x (as ++ .blank :: bs) parts y) := by
  have hall : allIdentities (as ++ .blank :: bs) = allIdentities as ++ allIdentities bs :=
    allIdentities_append _ _
  have hids : allIdentities (parts x) =
      allIdentities as ++ (g.declared.identities ++ allIdentities bs) := by
    rw [hx, allIdentities_paragraph]
  have hsub : ∀ s ∈ allIdentities (as ++ .blank :: bs), s ∈ allIdentities (parts x) := by
    intro s hs
    rw [hall, List.mem_append] at hs
    rw [hids, List.mem_append, List.mem_append]
    exact hs.imp_right Or.inr
  have hsingle := h.single x
  have hnodup := h.nodup x
  rw [hids, List.nodup_append, List.nodup_append] at hnodup
  obtain ⟨has, ⟨-, hbs, hgb⟩, hag⟩ := hnodup
  rw [hx, List.forall_mem_append, List.forall_mem_cons] at hsingle
  refine ⟨⟨List.forall_mem_append.mpr ⟨hsingle.1, List.forall_mem_cons.mpr ⟨trivial, hsingle.2.2⟩⟩, ?_, ?_⟩, ?_⟩
  · rw [hall, List.nodup_append]
    exact ⟨has, hbs, fun s hs t ht => hag s hs t (List.mem_append_right _ ht)⟩
  · intro s hs y hy hs'
    exact hy (h.disjoint y x s hs' (hsub s hs))
  · intro s hs y hs'
    by_cases hy : y = x
    · rw [hy, put_same, hall, List.mem_append] at hs'
      rcases hs' with hs' | hs'
      · exact hag s hs' s (List.mem_append_left _ hs) rfl
      · exact hgb s hs s hs' rfl
    · rw [put_of_ne hy] at hs'
      refine hy (h.disjoint y x s hs' ?_)
      rw [hids, List.mem_append, List.mem_append]
      exact Or.inr (Or.inl hs)

/-- An added declaration, whether it replaces another or not. -/
theorem Opened.addDeclaration (h : Opened name q parts) {a : Addition} (hn : isSourceName a.filename)
    {g : Paragraph} (hg : g.IsSingle) (htext : a.text = String.ofList g.text)
    (hsubject : g.declared.subject? = some a.subject) :
    ∃ parts', Consists name (Package.addDeclaration a q).2 parts' := by
  have hids := identities_of_subject? hsubject
  have hnodup : g.declared.identities.Nodup := by
    rcases hids with hids | hids
    · rw [hids]
      exact List.nodup_cons.mpr ⟨List.not_mem_nil, .nil⟩
    · rw [hids]
      exact .nil
  have hname : ∀ s ∈ g.declared.identities, s = a.subject := by
    intro s hs
    rcases hids with hids | hids
    · exact List.mem_singleton.mp (hids ▸ hs)
    · rw [hids] at hs
      cases hs
  cases hm : q.files.findSubject? a.subject with
  | none =>
    rw [addDeclaration_of_none hm, htext]
    refine h.toConsists.append hn (fun hfile x hx => h.contents _ x hfile hx) hg hnodup fun s hs x => ?_
    rw [hname s hs]
    exact h.fresh_of_not_found hm x
  | some m =>
    obtain ⟨x, as, g', bs, hfile, hx, hparts, hd, hdeclared⟩ := h.found hm
    rw [addDeclaration_of_some hm, bind_apply]
    cases exceeds a m.declaration.declared with
    | some e => exact ⟨parts, h.toConsists⟩
    | none =>
      show ∃ parts', Consists name ((if a.replace then _ else _ : Operation Unit) q).2 parts'
      by_cases hreplace : a.replace
      · rw [if_pos hreplace, bind_apply]
        cases sharesGroup a m.declaration.declared with
        | some e => exact ⟨parts, h.toConsists⟩
        | none =>
          show ∃ parts', Consists name ((remove m >>= _ : Operation Unit) q).2 parts'
          obtain ⟨hfits, hgone⟩ := h.fits_cut hparts
          have hwhole : g'.IsWhole :=
            Paragraph.IsSingle.isWhole (h.single x (.paragraph g') (by rw [hparts]; simp))
          rw [bind_apply, remove_eq, h.contents _ x hfile hx, hd, hparts, cut_fileText hwhole]
          rcases h.write hfile hx hfits with ⟨r, hr, hw, hc⟩ | ⟨e, r, hr, hc⟩
          · rw [hr, htext]
            dsimp only
            refine hc.append hn (fun hfile' y hy => ?_) hg hnodup fun s hs y => ?_
            · have hpath := path_eq_of_directory hw.directory
              rw [hpath] at hy
              rw [hw.contentsOrNew]
              split
              · next heq =>
                rw [heq, hx, Except.ok.injEq] at hy
                rw [← hy, put_same]
              · next hne =>
                have hyx : y ≠ x := by
                  rintro rfl
                  exact hne (h.inMemory.path_injective hfile' hfile hy hx)
                rw [put_of_ne hyx]
                exact h.contents _ y hfile' hy
            · exact hgone s (mem_of_isDeclaredBy hs (by rw [hname s hs]; exact hdeclared)) y
          · rw [hr]
            exact ⟨parts, hc⟩
      · rw [if_neg hreplace]
        exact ⟨parts, h.toConsists⟩

/-! ## Imports -/

/-- Parts with the identities of those in their place fit. -/
theorem Consists.fits_same (h : Consists name p parts) {x : String} {ps : List Part}
    (hsingle : ∀ b ∈ ps, b.IsSingle) (hids : allIdentities ps = allIdentities (parts x)) :
    Fits parts x ps := by
  refine ⟨hsingle, hids ▸ h.nodup x, fun s hs y hy hs' => ?_⟩
  rw [hids] at hs
  exact hy (h.disjoint y x s hs' hs)

/-- An added import. -/
theorem Opened.addImport (h : Opened name q parts) (hw : IsWordText name) {a : ImportAddition}
    (hn : isSourceName a.filename) (hname : IsImportName a.name.toList)
    (hpath : IsPlainText a.path.toList) : ∃ parts', Consists name (Package.addImport a q).2 parts' := by
  rw [addImport_eq]
  cases hplain : hasDirectory a.filename with
  | true =>
    cases q.withImport a with
    | error e => exact ⟨parts, h.toConsists⟩
    | ok data =>
      dsimp only
      rw [write_of_hasDirectory _ hplain]
      exact ⟨parts, h.toConsists⟩
  | false =>
    have hfile : IsFileName a.filename := ⟨hn, hplain⟩
    obtain ⟨x, hx, -⟩ := h.inMemory.path_eq hfile
    have hcontents := h.contents _ x hfile hx
    have hadded : ∃ ps', q.withImport a = .ok (Utf8.encode (fileText name ps')) ∧
        SameButImports (parts x) ps' := by
      cases hf : q.files.file? a.filename with
      | some f =>
        obtain ⟨hmem, hfn⟩ := Members.mem_of_file? hf
        obtain ⟨y, -, hy, he⟩ := h.files f hmem
        rw [hfn, hx, Except.ok.injEq] at hy
        subst hy
        rw [hfn] at he
        obtain ⟨ps', hok, hsame, -⟩ := withImport_fileOf (he ▸ hf) hcontents (h.single x) hname hpath
        exact ⟨ps', hok, hsame⟩
      | none =>
        have hnone : q.layers.file? x = none := by
          cases hg : q.layers.file? x with
          | none => rfl
          | some g =>
            obtain ⟨f, hmem, hfx⟩ := h.member x g hg
            obtain ⟨-, hff, -⟩ := h.files f hmem
            have hne := List.find?_eq_none.mp hf f hmem
            exact absurd (decide_eq_true (h.inMemory.path_injective hff hfile hfx hx)) hne
        rw [h.noFile x hnone] at hcontents ⊢
        exact withImport_newFile hw hf hcontents hname hpath
    obtain ⟨ps', hok, hsame⟩ := hadded
    rw [hok]
    rcases h.write hfile hx (h.fits_same hsame.single hsame.identities) with ⟨r, hr, -, hc⟩ | ⟨e, r, hr, hc⟩
    · dsimp only
      rw [hr]
      exact ⟨_, hc⟩
    · dsimp only
      rw [hr]
      exact ⟨_, hc⟩

/-! ## Passes over repeated imports -/

/-- What a pass over some files of a package keeps: the package is made of parts with the
identities of others, and has the same directory. -/
structure Passed (name : List Char) (q : Package) (parts : String → List Part) (r : Package)
    (parts' : String → List Part) : Prop where
  consists : Consists name r parts'
  directory : r.directory = q.directory
  identities : ∀ x, allIdentities (parts' x) = allIdentities (parts x)

theorem Opened.forM_dedupFile (h : Opened name q parts) {fs : List SourceFile} (hfs : ∀ f ∈ fs, f ∈ q.files)
    {r : Package} {parts' : String → List Part} (hr : Passed name q parts r parts') :
    ∃ parts'', Consists name (fs.forM dedupFile r).2 parts'' := by
  induction fs generalizing r parts' with
  | nil => exact ⟨parts', hr.consists⟩
  | cons f fs ih =>
    obtain ⟨hf, hfs⟩ := List.forall_mem_cons.mp hfs
    obtain ⟨x, hfile, hx, he⟩ := h.files f hf
    show ∃ parts'', Consists name ((dedupFile f >>= fun _ => fs.forM dedupFile) r).2 parts''
    rw [bind_apply]
    by_cases hsame : f.withoutRepeatedImports = f.source
    · have hpure : dedupFile f r = (.ok (), r) := by
        unfold dedupFile
        rw [if_neg (not_not_intro hsame)]
        rfl
      rw [hpure]
      exact ih hfs hr
    · have hwrite : dedupFile f r = Package.write f.filename
          (Utf8.encode (fileText name (withoutRepeated [] (parts x)))) r := by
        rw [← withoutRepeatedImports_fileOf (h.single x) f.filename name, ← he]
        unfold dedupFile
        rw [if_pos hsame]
      obtain ⟨hsingle, hids, -⟩ := sameButImports_withoutRepeated (h.single x) []
      have hfits : Fits parts' x (withoutRepeated [] (parts x)) :=
        hr.consists.fits_same hsingle (hids.trans (hr.identities x).symm)
      have hxr : r.path f.filename = .ok x := (path_eq_of_directory hr.directory _).trans hx
      rw [hwrite]
      rcases hr.consists.write hfile hxr hfits with ⟨r', hr', hw, hc⟩ | ⟨e, r', hr', hc⟩
      · rw [hr']
        refine ih hfs ⟨hc, hw.directory.trans hr.directory, fun y => ?_⟩
        by_cases hy : y = x
        · rw [hy, put_same, hids]
        · rw [put_of_ne hy]
          exact hr.identities y
      · rw [hr']
        exact ⟨parts', hc⟩

/-- A pass over repeated imports. -/
theorem Opened.dedupImports (h : Opened name q parts) (filenames : Option (List String)) :
    ∃ parts', Consists name (Package.dedupImports filenames q).2 parts' := by
  unfold Package.dedupImports
  rw [bind_apply, get_apply]
  refine h.forM_dedupFile (fun f hf => ?_) ⟨h.toConsists, rfl, fun _ => rfl⟩
  cases filenames with
  | none => exact hf
  | some names =>
    obtain ⟨n, -, hn⟩ := List.mem_filterMap.mp hf
    exact (Members.mem_of_file? hn).1

end Package

end GoSplice
