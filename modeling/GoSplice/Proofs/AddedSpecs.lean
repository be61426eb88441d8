import GoSplice.Proofs.SpecRows

/-!
# Imports with a spec more

A spec on a line of its own can be put before the parenthesis that closes an import: it parts the specs before
it from nothing, so the parts of the import are rows as before, with one more.

    g.IsItem, an import that ends with z → g with a spec before z is an item, and declares
      what g does, then the spec                                            (IsItem.withSpec)
-/

namespace GoSplice

open Syntax

namespace Syntax

variable {name path : List Char}

/-- The parts of a line with a spec. -/
def specRow (name path : List Char) : List ImportPart :=
  [.other ⟨.newline, ['\n']⟩, .other ⟨.blank, ['\t']⟩, .spec (localStretches name) (quotedStretch path),
    .other ⟨.newline, ['\n']⟩]

/-- The stretches of an import whose last line before its parenthesis is a spec. -/
def groupWith (y : List Lexeme) (name path : List Char) (z : Lexeme) : List Lexeme :=
  y ++ ⟨.newline, ['\n']⟩ :: (⟨.blank, ['\t']⟩ :: specStretches name path ++ [⟨.newline, ['\n']⟩, z])

theorem code_specRow (name path : List Char) : ImportPart.code (specRow name path) =
    ⟨.newline, ['\n']⟩ :: (⟨.blank, ['\t']⟩ :: specStretches name path ++ [⟨.newline, ['\n']⟩]) := by
  rw [specStretches_eq]
  simp [specRow, ImportPart.stretches]

theorem fits_specRow (h : IsImportName name) : ∀ p ∈ specRow name path, p.Fits := by
  have hother : ∀ c, c ∈ [LexemeClass.newline, .blank] → ∀ text, (ImportPart.other ⟨c, text⟩).Fits := by
    intro c hc text
    refine .other fun k hk => ?_
    obtain rfl : c = .token k := hk
    simp at hc
  have hspec : (ImportPart.spec (localStretches name) (quotedStretch path)).Fits := by
    unfold localStretches
    split
    · exact .bare rfl
    · next hne =>
      refine .named rfl (importNameKind_mem h hne) (List.forall_mem_singleton.mpr ?_) rfl
      exact fun k => LexemeClass.noConfusion
  simp only [specRow, List.forall_mem_cons]
  exact ⟨hother _ (by simp) _, hother _ (by simp) _, hspec, hother _ (by simp) _, List.forall_mem_nil _⟩

theorem reads_specRow (hpath : IsPlainText path) : ∀ p ∈ specRow name path, p.Reads := by
  have hliteral : ImportPath.ofLiteral? (quotedStretch path).text = some path := ofLiteral?_plain hpath
  simp only [specRow, List.forall_mem_cons]
  refine ⟨True.intro, True.intro, ?_, True.intro, List.forall_mem_nil _⟩
  rw [ImportPart.Reads, hliteral]
  exact Option.some_ne_none _

theorem imports_specRow (hpath : IsPlainText path) :
    ImportPart.imports (specRow name path) = [(String.ofList name, String.ofList path)] := by
  have hname : ((localStretches name).head?.map Lexeme.text).getD [] = name := by
    unfold localStretches
    split
    · next hnil => exact hnil.symm
    · rfl
  have hliteral : ImportPath.ofLiteral? (quotedStretch path).text = some path := ofLiteral?_plain hpath
  simp only [specRow, ImportPart.imports, hname, Lexeme.path, hliteral, Option.getD_some]

/-- There is room for a line with a spec everywhere. -/
theorem parted_specRow (room : Bool) (name path : List Char) : ImportPart.Parted room (specRow name path) := by
  simp [specRow, ImportPart.Parted]

namespace Segment

variable {p : Segment} {y e : List Lexeme} {z : Lexeme}

/-- An import in parentheses is its word, the first parenthesis, parts and the last parenthesis. -/
theorem IsItem.exists_group (hp : p.IsItem) (himport : p.isImport) (hcode : p.code = y ++ (e ++ [z]))
    (hz : z.cls = .token (.operator .rightParen)) : ∃ head ps, y ++ e = head ++ ImportPart.code ps ∧
      IsImport head ps [z] ∧ p.node.children = ImportPart.trees (byteWidth (texts head)) ps ++
        [.node .closeParen (byteWidth (texts (y ++ e))) (byteWidth (texts (y ++ e)) + byteWidth z.text) []] := by
  obtain ⟨head, ps, close, hparts, himports, hchildren⟩ := hp.exists_parts (hp.isImport_iff.mp himport)
  have hall : (y ++ e) ++ [z] = (head ++ ImportPart.code ps) ++ close := by
    rw [List.append_assoc, ← hcode, hparts, List.append_assoc]
  cases himports with
  | @single _ _ ns hhead hps hns hkinds =>
    -- a single import ends with its path
    exfalso
    obtain ⟨c, l, hcl⟩ : ∃ c l, head ++ ImportPart.code ps = c ++ [l] := ⟨y ++ e, z, by rw [hall, List.append_nil]⟩
    have hkind : kindsOf ((y ++ e) ++ [z]) = (.keyword .importK :: ns) ++ [.text] := by
      rw [hall, List.append_nil, kindsOf_append, hhead, hkinds]
      rfl
    rw [kindsOf_append, kindsOf_singleton hz] at hkind
    obtain ⟨-, hlast⟩ := List.append_inj' hkind rfl
    cases hlast
  | @block head o z' ps hhead ho hps hz' =>
    obtain ⟨hopen, hclose⟩ := List.append_inj' hall rfl
    obtain rfl := (List.cons.inj hclose).1
    refine ⟨head ++ [o], ps, hopen, .block hhead ho hps hz, ?_⟩
    rw [hchildren, hopen]
    rfl

/-- The parts of an import before a line end, if that is left out. -/
theorem exists_parts_before {head : List Lexeme} {ps : List ImportPart} (h : y ++ e = head ++ ImportPart.code ps)
    (himports : IsImport head ps [z]) (he : e = [] ∨ e = [⟨.newline, ['\n']⟩]) :
    ∃ qs rest, ps = qs ++ rest ∧ y = head ++ ImportPart.code qs ∧ ImportPart.imports ps = ImportPart.imports qs := by
  rcases he with rfl | rfl
  · exact ⟨ps, [], (List.append_nil ps).symm, by rwa [List.append_nil] at h, rfl⟩
  · rcases List.eq_nil_or_concat ps with rfl | ⟨qs, q, rfl⟩
    · -- a parenthesis ends the stretches before the parts
      cases himports with
      | block _ ho _ _ =>
        rw [ImportPart.code_nil, List.append_nil] at h
        obtain ⟨-, hlast⟩ := List.append_inj' h rfl
        obtain rfl := (List.cons.inj hlast).1
        cases ho
    · rw [List.concat_eq_append, ImportPart.code_append, ImportPart.code_cons, ImportPart.code_nil, List.append_nil,
        ← List.append_assoc] at h
      cases q with
      | other l =>
        obtain ⟨hy, -⟩ := List.append_inj' h rfl
        refine ⟨qs, [.other l], List.concat_eq_append .., hy, ?_⟩
        rw [List.concat_eq_append, ImportPart.imports_append]
        exact List.append_nil _
      | spec n literal =>
        exfalso
        have hfits := himports.fits (.spec n literal) (by simp)
        rw [ImportPart.stretches, ← List.append_assoc] at h
        obtain ⟨-, hlast⟩ := List.append_inj' h rfl
        obtain rfl := (List.cons.inj hlast).1
        cases hfits with
        | bare hl => cases hl
        | named _ _ _ hl => cases hl

/-- An import in parentheses is one with a spec more, and declares what it did and then the spec. -/
theorem IsItem.withSpec (hp : p.IsItem) (himport : p.isImport) (hcode : p.code = y ++ (e ++ [z]))
    (hz : z.cls = .token (.operator .rightParen)) (he : e = [] ∨ e = [⟨.newline, ['\n']⟩]) (hname : IsImportName name)
    (hpath : IsPlainText path) {d : Declared} (hd : p.declared = .ok d) :
    ∃ node, node.label = .importDecl ∧ ∀ gap, (⟨groupWith y name path z, node, gap⟩ : Segment).IsItem ∧
      ∃ d', (⟨groupWith y name path z, node, gap⟩ : Segment).declared = .ok d' ∧
        d'.specs = d.specs ++ [(String.ofList name, String.ofList path)] := by
  have hlabel := hp.isImport_iff.mp himport
  obtain ⟨head, ps, hopen, himports, hchildren⟩ := hp.exists_group himport hcode hz
  have hparts : p.code = head ++ (ImportPart.code ps ++ [z]) := by
    rw [hcode, ← List.append_assoc, hopen, List.append_assoc]
  obtain ⟨hreads, hspecs⟩ := @reads_of_declared p head ps [z] hlabel hparts (by rw [hchildren, hopen]; rfl) d hd
  obtain ⟨l, r, k, hfirst, hl, -⟩ := hp.declares.head
  obtain ⟨r, hhead⟩ : ∃ r, head = l :: r := by
    cases head with
    | nil => exact absurd rfl himports.head_ne_nil
    | cons m r =>
      rw [hparts, List.cons_append] at hfirst
      exact ⟨r, by rw [(List.cons.inj hfirst).1]⟩
  have hrows := hp.parted hlabel himports hhead hl (fun m hm => hp.nonempty m (by rw [hparts]; simp [hm]))
    fun _ _ => by rw [hparts]
  obtain ⟨qs, rest, rfl, rfl, himported⟩ := exists_parts_before hopen himports he
  have hgroup : groupWith (head ++ ImportPart.code qs) name path z =
      head ++ (ImportPart.code (qs ++ specRow name path) ++ [z]) := by
    rw [groupWith, ImportPart.code_append, code_specRow]
    simp
  have hmem : ∀ m ∈ groupWith (head ++ ImportPart.code qs) name path z,
      m ∈ p.code ∨ m ∈ importStretches name path ∨ m = ⟨.newline, ['\n']⟩ ∨ m = ⟨.blank, ['\t']⟩ := by
    intro m hm
    rw [hcode, importStretches]
    simp only [groupWith, List.mem_append, List.mem_cons, List.not_mem_nil, or_false] at hm ⊢
    tauto
  have hsound : ∀ m ∈ groupWith (head ++ ImportPart.code qs) name path z, m.cls.isSound := fun m hm => by
    rcases hmem m hm with hm | hm | rfl | rfl
    · exact hp.declares.isSound m hm
    · exact (declares_import hname).isSound m hm
    · rfl
    · rfl
  have hne : ∀ m ∈ groupWith (head ++ ImportPart.code qs) name path z, m.text ≠ [] := fun m hm => by
    rcases hmem m hm with hm | hm | rfl | rfl
    · exact hp.nonempty m hm
    · exact (@isItem_importSegment name path hname []).nonempty m hm
    · exact List.cons_ne_nil _ _
    · exact List.cons_ne_nil _ _
  have hfits := (List.forall_mem_append.mp himports.fits).1
  rw [hgroup] at hsound hne ⊢
  refine ⟨blockNode head (qs ++ specRow name path) z, rfl, fun gap => ⟨?_, ?_⟩⟩
  · refine isItem_block (himports.withParts (List.forall_mem_append.mpr ⟨hfits, fits_specRow hname⟩)) hhead hl hsound hne ?_ gap
    exact ImportPart.parted_append.mpr ⟨(ImportPart.parted_append.mp hrows).1, parted_specRow _ name path⟩
  · obtain ⟨d', hd', hspecs'⟩ := @exists_declared_block head (qs ++ specRow name path) z
      (List.forall_mem_append.mpr ⟨(List.forall_mem_append.mp hreads).1, reads_specRow hpath⟩) gap
    refine ⟨d', hd', ?_⟩
    rw [hspecs', ImportPart.imports_append, imports_specRow hpath, hspecs, himported]

end Segment

end Syntax

end GoSplice
