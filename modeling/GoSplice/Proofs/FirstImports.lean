import GoSplice.Proofs.Remainders
import GoSplice.Proofs.RoundTrips
import GoSplice.Proofs.SpecRows

/-!
# The first import of each path

A pass over repeated imports takes out specs and imports, and leaves what stands between them.  A line end that
is left parts nothing from nothing, but a semicolon does not stand alone: the result is read just if none is the
first token behind what is taken out.  Then it imports the first of each path, under the name that this one had,
declares else what the file did, and a further pass changes nothing:

    Parted room ps → (Parted room (firsts seen ps) ↔ Spares seen rest ps)         (parted_firsts_iff)
    Linked gs → Spares seen gs → what remains of gs are segments that import
      what firstOfPaths leaves of what gs do, and declare else what gs do         (Linked.exists_firstsOf)
    what remains of gs is read → Spares seen gs                                   (Linked.spares_of_alike)
    parse filename source true = ok f →
      (f.withoutRepeatedImports is read ↔ no semicolon behind a range that goes)  (withoutRepeated_read)
-/

namespace GoSplice

open Syntax Syntax.Segment

/-! ## The first of each path -/

/-- Which paths come first depends on what was seen, not on how often or in which order. -/
theorem firstOfPaths_congr {seen seen' : List String} (h : ∀ x, x ∈ seen ↔ x ∈ seen') (xs : List (String × String)) :
    firstOfPaths seen xs = firstOfPaths seen' xs := by
  induction xs generalizing seen seen' with
  | nil => rfl
  | cons x xs ih =>
    have hsame : seen.contains x.2 = seen'.contains x.2 := by
      rw [Bool.eq_iff_iff, List.contains_iff_mem, List.contains_iff_mem, h]
    rw [firstOfPaths, firstOfPaths, hsame, @ih (x.2 :: seen) (x.2 :: seen') fun y => by
      simp only [List.mem_cons, h]]

theorem firstOfPaths_append (seen : List String) (xs ys : List (String × String)) :
    firstOfPaths seen (xs ++ ys) = firstOfPaths seen xs ++ firstOfPaths (xs.map (·.2) ++ seen) ys := by
  induction xs generalizing seen with
  | nil => rfl
  | cons x xs ih =>
    rw [List.cons_append, firstOfPaths, firstOfPaths, ih, List.append_assoc]
    congr 2
    refine firstOfPaths_congr (fun y => ?_) ys
    simp only [List.map_cons, List.cons_append, List.mem_append, List.mem_cons]
    tauto

theorem firstOfPaths_eq_nil {seen : List String} {xs : List (String × String)} (h : ∀ p ∈ xs.map (·.2), p ∈ seen) :
    firstOfPaths seen xs = [] := by
  induction xs generalizing seen with
  | nil => rfl
  | cons x xs ih =>
    rw [List.map_cons, List.forall_mem_cons] at h
    rw [firstOfPaths, if_pos (List.contains_iff_mem.mpr h.1), ih fun p hp => List.mem_cons_of_mem _ (h.2 p hp),
      List.append_nil]

/-! ## The first specs among parts -/

namespace Syntax

namespace ImportPart

/-- Parts without the specs of paths that were seen, or that stand among them before. -/
def firsts (seen : List String) : List ImportPart → List ImportPart
  | [] => []
  | .other l :: ps => .other l :: firsts seen ps
  | .spec name literal :: ps =>
    if seen.contains literal.path then firsts seen ps
    else .spec name literal :: firsts (literal.path :: seen) ps

/-- Whether no semicolon is the first token behind a spec that goes, in parts that others stand behind. -/
def Spares (seen : List String) (rest : List Lexeme) : List ImportPart → Prop
  | [] => True
  | .other _ :: ps => Spares seen rest ps
  | .spec _ literal :: ps =>
    if seen.contains literal.path then ¬ LeadsSemicolon (code ps ++ rest) ∧ Spares seen rest ps
    else Spares (literal.path :: seen) rest ps

section Parts

variable {ps : List ImportPart} {seen : List String} {rest : List Lexeme}

theorem code_firsts (seen : List String) (ps : List ImportPart) : code (firsts seen ps) = kept seen ps := by
  induction ps generalizing seen with
  | nil => rfl
  | cons p ps ih =>
    cases p with
    | other l => exact congrArg (l :: ·) (ih seen)
    | spec name literal =>
      rw [firsts, kept]
      split
      · exact ih seen
      · rw [code_cons, ih, stretches, List.append_assoc, List.singleton_append]

theorem firsts_subset (seen : List String) (ps : List ImportPart) : ∀ p ∈ firsts seen ps, p ∈ ps := by
  induction ps generalizing seen with
  | nil => exact nofun
  | cons p ps ih =>
    cases p with
    | other l => exact List.forall_mem_cons.mpr ⟨List.mem_cons_self, fun q hq => List.mem_cons_of_mem _ (ih seen q hq)⟩
    | spec name literal =>
      rw [firsts]
      split
      · exact fun q hq => List.mem_cons_of_mem _ (ih seen q hq)
      · exact List.forall_mem_cons.mpr ⟨List.mem_cons_self, fun q hq => List.mem_cons_of_mem _ (ih _ q hq)⟩

theorem imports_paths (ps : List ImportPart) : (imports ps).map (·.2) = paths ps := by
  induction ps with
  | nil => rfl
  | cons p ps ih =>
    cases p with
    | other l => exact ih
    | spec name literal => exact congrArg (literal.path :: ·) ih

theorem imports_firsts (seen : List String) (ps : List ImportPart) :
    imports (firsts seen ps) = firstOfPaths seen (imports ps) := by
  induction ps generalizing seen with
  | nil => rfl
  | cons p ps ih =>
    cases p with
    | other l => exact ih seen
    | spec name literal =>
      rw [firsts, imports, firstOfPaths]
      dsimp only
      split
      · next hseen =>
        rw [List.nil_append, ih]
        refine firstOfPaths_congr (fun x => ?_) _
        rw [List.mem_cons, iff_or_self]
        rintro rfl
        exact List.contains_iff_mem.mp hseen
      · rw [imports, ih, List.singleton_append]

/-! ### Semicolons behind specs that go -/

/-- A stretch that belongs to no spec is a semicolon or no code. -/
theorem Fits.other_cases {l : Lexeme} (h : (ImportPart.other l).Fits) :
    l.cls = .token (.operator .semicolon) ∨ l.cls ≠ .token (.operator .semicolon) ∧ NoCode [l] := by
  cases h with
  | other hl =>
    by_cases hc : l.cls = .token (.operator .semicolon)
    · exact .inl hc
    · refine .inr ⟨hc, List.forall_mem_singleton.mpr fun k hk => hc ?_⟩
      rw [hk, hl k hk]

/-- Where a spec goes there is room for the next one, unless a semicolon comes before it. -/
theorem Parted.room (h : Parted false ps) (hfits : ∀ p ∈ ps, p.Fits) (hnot : ¬ LeadsSemicolon (code ps)) :
    Parted true ps := by
  induction ps with
  | nil => exact True.intro
  | cons p ps ih =>
    obtain ⟨hp, hps⟩ := List.forall_mem_cons.mp hfits
    cases p with
    | spec name literal => exact absurd h.1 nofun
    | other l =>
      rw [code_cons, stretches] at hnot
      rw [Parted] at h ⊢
      rcases hp.other_cases with hl | ⟨hl, hnone⟩
      · exact absurd ((leadsSemicolon_cons hl _).mpr rfl) hnot
      · rw [if_neg hl, Bool.false_or] at h
        rw [if_neg hl, Bool.true_or]
        by_cases hline : l.cls = .newline
        · simpa [hline] using h
        · exact ih (by simpa [hline] using h) hps fun hlead => hnot ((leadsSemicolon_append hnone _).mpr hlead)

/-- Where a spec goes before a semicolon, nothing is before that. -/
theorem not_parted_of_leadsSemicolon (hlead : LeadsSemicolon (code ps)) (hfits : ∀ p ∈ ps, p.Fits) (seen : List String) :
    ¬ Parted true (firsts seen ps) := by
  induction ps with
  | nil => cases hlead
  | cons p ps ih =>
    obtain ⟨hp, hps⟩ := List.forall_mem_cons.mp hfits
    rw [code_cons, stretches.eq_def] at hlead
    cases p with
    | spec name literal =>
      exfalso
      cases hp with
      | bare hl => exact absurd ((leadsSemicolon_cons hl _).mp hlead) (by decide)
      | named hn hk _ _ =>
        obtain rfl := (leadsSemicolon_cons hn _).mp hlead
        exact absurd hk (by decide)
    | other l =>
      rw [firsts, Parted]
      rcases hp.other_cases with hl | ⟨hl, hnone⟩
      · rw [if_pos hl]
        exact fun h => Bool.noConfusion h.1
      · rw [if_neg hl, Bool.true_or]
        exact ih ((leadsSemicolon_append hnone _).mp hlead) hps

/-- The first specs of rows are rows just if no semicolon follows on a spec that goes. -/
theorem parted_firsts_iff (hfits : ∀ p ∈ ps, p.Fits) {z : Lexeme} (hz : z.cls = .token (.operator .rightParen))
    (rest : List Lexeme) {room : Bool} (h : Parted room ps) (seen : List String) :
    Parted room (firsts seen ps) ↔ Spares seen (z :: rest) ps := by
  induction ps generalizing room seen with
  | nil => exact iff_of_true True.intro True.intro
  | cons p ps ih =>
    have hps := (List.forall_mem_cons.mp hfits).2
    cases p with
    | other l =>
      rw [Parted] at h
      rw [firsts, Parted, Spares]
      split at h
      · next hc =>
        rw [if_pos hc, and_iff_right h.1]
        exact ih hps h.2 seen
      · next hc =>
        rw [if_neg hc]
        exact ih hps h seen
    | spec name literal =>
      rw [Parted] at h
      rw [firsts, Spares]
      split
      · -- the parenthesis behind the parts is no semicolon
        have hlead : LeadsSemicolon (code ps ++ z :: rest) ↔ LeadsSemicolon (code ps) := by
          rw [LeadsSemicolon, LeadsSemicolon, kindsOf_append]
          cases kindsOf (code ps) with
          | nil =>
            rw [List.nil_append, kindsOf, List.filterMap_cons_some (Lexeme.kind?_eq_some.mpr hz)]
            simp
          | cons k ks => rfl
        rw [hlead]
        obtain rfl := h.1
        by_cases hsemicolon : LeadsSemicolon (code ps)
        · exact iff_of_false (not_parted_of_leadsSemicolon hsemicolon hps seen) fun h => h.1 hsemicolon
        · rw [and_iff_right hsemicolon]
          exact ih hps (h.2.room hps hsemicolon) seen
      · rw [Parted, and_iff_right h.1]
        exact ih hps h.2 _

/-! ### Parts that stay -/

theorem IsNew.firsts_eq (h : IsNew seen ps) : firsts seen ps = ps := by
  induction ps generalizing seen with
  | nil => rfl
  | cons p ps ih =>
    cases p with
    | other l => exact congrArg (other l :: ·) (ih h)
    | spec name literal => rw [firsts, if_neg (by rw [h.of_spec.1]; nofun), ih h.of_spec.2]

theorem IsNew.spares (h : IsNew seen ps) : Spares seen rest ps := by
  induction ps generalizing seen with
  | nil => exact True.intro
  | cons p ps ih =>
    cases p with
    | other l => exact ih h
    | spec name literal =>
      rw [Spares, if_neg (by rw [h.of_spec.1]; nofun)]
      exact ih h.of_spec.2

theorem spares_others (seen : List String) (rest ls : List Lexeme) (ps : List ImportPart) :
    Spares seen rest (ls.map other ++ ps) ↔ Spares seen rest ps := by
  induction ls with
  | nil => exact Iff.rfl
  | cons l ls ih => exact ih

theorem spares_append_others (seen : List String) (rest ls : List Lexeme) (ps : List ImportPart) :
    Spares seen rest (ps ++ ls.map other) ↔ Spares seen (ls ++ rest) ps := by
  induction ps generalizing seen with
  | nil =>
    have h := spares_others seen rest ls []
    rwa [List.append_nil] at h
  | cons p ps ih =>
    cases p with
    | other l => exact ih seen
    | spec name literal =>
      rw [List.cons_append, Spares, Spares, code_append, code_others, List.append_assoc, ih, ih]

end Parts

end ImportPart

/-! ## What stands behind the end of an item -/

theorem EndsItem.length_kinds {ls : List Lexeme} (h : EndsItem ls) : (kindsOf ls).length ≤ 1 := by
  cases h with
  | line hnone _ =>
    rw [noCode_iff_kindsOf.mp hnone]
    exact Nat.zero_le 1
  | semicolon hx _ hl hy =>
    rw [List.append_cons, kindsOf_append, kindsOf_head hx hl, noCode_iff_kindsOf.mp hy]
    exact Nat.le_refl 1

/-- Behind what ends an item stands no code, if that with it ends an item as well. -/
theorem EndsItem.noCode_more {a b : List Lexeme} (ha : EndsItem a) (hab : EndsItem (a ++ b)) : NoCode b := by
  cases ha with
  | line hnone hbreaks =>
    generalize heq : a ++ b = ls at hab
    cases hab with
    | line hall _ => exact fun l hl => hall l (by rw [← heq]; simp [hl])
    | semicolon _ hline hl _ =>
      rcases append_eq_append_cons heq with ⟨z, rfl, -⟩ | ⟨z, rfl, -⟩
      · exact absurd hl (hnone _ (by simp) _)
      · exact absurd (hbreaks.append_left z) hline
  | @semicolon x y l hx _ hl hy =>
    have hlength := hab.length_kinds
    rw [kindsOf_append, List.append_cons x l y, kindsOf_append, kindsOf_head hx hl, List.length_append,
      List.length_append, List.length_singleton] at hlength
    exact noCode_iff_kindsOf.mpr (List.eq_nil_of_length_eq_zero (by omega))

/-! ## Segments with blanks that fuse -/

namespace Segment

variable {g : Segment} {gs hs : List Segment} {seen : List String}

theorem IsItem.fused (h : g.IsItem) : g.fused.IsItem := by
  refine ⟨⟨h.declares.opened, fun l hl => ?_, ?_, h.declares.start, ?_, ?_, fun F hF o b => ?_⟩,
    ne_nil_of_mem_fuse h.nonempty⟩
  · obtain ⟨m, hm, hcls⟩ := cls_of_mem_fuse hl
    exact hcls ▸ h.declares.isSound m hm
  · obtain ⟨l, r, k, hcode, hl, hk⟩ := h.declares.head
    exact ⟨l, fuse r, k, by rw [Segment.fused, hcode]; exact push_of_ne (ne_blank_of_token hl) _, hl, hk⟩
  · rw [Segment.fused, texts_fuse]
    exact h.declares.stop
  · rw [Segment.fused, texts_fuse]
    exact h.declares.nested
  · rw [Segment.fused, place_fuse]
    exact h.declares.read F hF o b

theorem Linked.fused (h : Linked gs) : Linked (gs.map Segment.fused) := by
  induction h with
  | nil => exact .nil
  | cons hg hends _ ih => exact .cons hg.fused (hends.of_place (place_fuse 0 none _)) ih
  | last hg hnone hend => exact .last hg.fused (hnone.of_place (place_fuse 0 none _)) hend

theorem declared_fused (g : Segment) : g.fused.declared = g.declared := by
  rw [declared, declared, Segment.fused, texts_fuse, place_fuse]

theorem specs_fused (g : Segment) : g.fused.specs = g.specs := by
  rw [Segment.specs, Segment.specs, declared_fused]
  rfl

theorem IsItem.others_fused (h : g.IsItem) : g.fused.others = g.others := by
  have himport : g.fused.isImport = g.isImport := by
    rw [Bool.eq_iff_iff, h.isImport_iff, h.fused.isImport_iff]
    rfl
  rw [Segment.others, Segment.others, declared_fused, himport, Segment.fused, texts_fuse]
  rfl

/-! ## What a segment imports first -/

section Item

variable {g : Segment} {seen : List String}

/-- The paths that a segment imports are those of what it declares. -/
theorem IsItem.specs_paths (hg : g.IsItem) (hread : g.IsReadable) : g.specs.map (·.2) = g.paths := by
  by_cases himport : g.isImport
  · have hclause := hg.isClause_of_isImport himport
    obtain ⟨d, hd⟩ := hread hclause
    obtain ⟨head, ps, close, hcode, hparts, hchildren⟩ := hg.exists_parts (hg.isImport_iff.mp himport)
    rw [specs_of_declared hclause hd, (reads_of_declared (hg.isImport_iff.mp himport) hcode hchildren hd).2,
      ImportPart.imports_paths, paths_eq_of_parts himport hcode hparts]
  · rw [hg.specs_of_not_import (Bool.eq_false_iff.mpr himport), paths, if_neg himport]
    rfl

/-- Whether a segment is what remains of another where some paths were seen: it can be read if that can, it
imports what that imports first, and it declares else what that does. -/
structure FirstOf (seen : List String) (g k : Segment) : Prop where
  code : k.code = g.remainder seen
  isItem : k.IsItem
  mayEnd : mayEndFile g.node → mayEndFile k.node
  isReadable : g.IsReadable → k.IsReadable
  clause : k.isClause = g.isClause
  specs : k.specs = firstOfPaths seen g.specs
  others : k.others = g.others

/-- A segment that stays as it is. -/
theorem IsItem.firstOf_self (hg : g.IsItem) (hcode : g.remainder seen = g.code)
    (hspecs : firstOfPaths seen g.specs = g.specs) (gap : List Lexeme) :
    FirstOf seen g ⟨g.remainder seen, g.node, gap⟩ := by
  rw [hcode]
  exact ⟨hcode.symm, ⟨hg.declares, hg.nonempty⟩, id, id, rfl, hspecs.symm, rfl⟩

/-- What stands before the specs of an import in parentheses begins with a token. -/
theorem IsItem.exists_head (hg : g.IsItem) (himport : g.isImport) {head : List Lexeme} {ps : List ImportPart} {z : Lexeme}
    (hcode : g.code = head ++ (ImportPart.code ps ++ [z])) (h : IsImport head ps [z]) :
    ∃ l r k, head = l :: r ∧ l.cls = .token k := by
  obtain ⟨l, r, hlr, hl⟩ := (hg.isRegion (hg.isImport_iff.mp himport)).first
  cases h with
  | @block first o _ _ hfirst _ _ _ =>
    cases first with
    | nil => cases hfirst
    | cons m fill => exact ⟨l, fill ++ [o], _, congrArg (· :: _) (List.cons.inj (hcode.symm.trans hlr)).1, hl⟩

/-- The first specs of an import in parentheses are rows just if semicolons are spared. -/
theorem IsItem.parted_iff_spares (hg : g.IsItem) (himport : g.isImport) {head : List Lexeme} {ps : List ImportPart}
    {z : Lexeme} (hcode : g.code = head ++ (ImportPart.code ps ++ [z])) (h : IsImport head ps [z]) (rest : List Lexeme) :
    ImportPart.Parted true (ImportPart.firsts seen ps) ↔ ImportPart.Spares seen rest (ImportPart.ofCode [] g.code) := by
  have hz : z.cls = .token (.operator .rightParen) := by
    cases h with
    | block _ _ _ hz => exact hz
  obtain ⟨l, r, k, hhead, hl⟩ := hg.exists_head himport hcode h
  have hparted := hg.parted (hg.isImport_iff.mp himport) h hhead hl
    (fun m hm => hg.nonempty m (by rw [hcode]; simp [hm])) fun pos brk => by rw [hcode]
  rw [hcode, ImportPart.ofCode_import h, ImportPart.spares_others, ImportPart.spares_append_others]
  exact ImportPart.parted_firsts_iff h.fits hz rest hparted seen

/-- What remains of an import in parentheses are the first of its specs. -/
theorem IsItem.firstOf_block (hg : g.IsItem) (hread : g.IsReadable) (himport : g.isImport) {head : List Lexeme}
    {ps : List ImportPart} {z : Lexeme} (hcode : g.code = head ++ (ImportPart.code ps ++ [z])) (h : IsImport head ps [z])
    (hchildren : g.node.children = ImportPart.trees (byteWidth (texts head)) ps ++
      closeTrees (byteWidth (texts (head ++ ImportPart.code ps))) [z]) (hstays : ¬ g.paths.all seen.contains)
    (hparted : ImportPart.Parted true (ImportPart.firsts seen ps)) (gap : List Lexeme) :
    FirstOf seen g ⟨g.remainder seen, blockNode head (ImportPart.firsts seen ps) z, gap⟩ := by
  have hclause := hg.isClause_of_isImport himport
  obtain ⟨d, hd⟩ := hread hclause
  obtain ⟨hreads, hspecs⟩ := reads_of_declared (hg.isImport_iff.mp himport) hcode hchildren hd
  obtain ⟨l, r, k, hhead, hl⟩ := hg.exists_head himport hcode h
  have hsubset := ImportPart.firsts_subset seen ps
  have hremains : g.remainder seen = head ++ (ImportPart.code (ImportPart.firsts seen ps) ++ [z]) := by
    rw [remainder_eq_of_parts himport hcode h hstays, ImportPart.code_firsts]
  have hcodes : ∀ m ∈ head ++ (ImportPart.code (ImportPart.firsts seen ps) ++ [z]), m ∈ g.code := by
    rw [← hremains]
    exact remainder_subset seen g
  obtain ⟨e, hdeclared, hfirsts⟩ := @exists_declared_block head (ImportPart.firsts seen ps) z
    (fun p hp => hreads p (hsubset p hp)) gap
  have hitem := isItem_block (h.withParts fun p hp => h.fits p (hsubset p hp)) hhead hl
    (fun m hm => hg.declares.isSound m (hcodes m hm)) (fun m hm => hg.nonempty m (hcodes m hm)) hparted gap
  rw [hremains]
  refine ⟨hremains.symm, hitem, fun _ => rfl, fun _ _ => ⟨e, hdeclared⟩, hclause.symm, ?_, ?_⟩
  · rw [specs_of_declared rfl hdeclared, hfirsts, ImportPart.imports_firsts, specs_of_declared hclause hd, hspecs]
  · rw [others_of_isImport himport, others_of_isImport (hitem.isImport_iff.mpr rfl)]

/-- Where semicolons are spared, what remains of a segment is one. -/
theorem IsItem.exists_firstOf (hg : g.IsItem) (hread : g.IsReadable) {rest : List Lexeme}
    (hstays : ¬ (g.isImport && g.paths.all seen.contains))
    (hspares : g.isImport → ImportPart.Spares seen rest (ImportPart.ofCode [] g.code)) (gap : List Lexeme) :
    ∃ n, FirstOf seen g ⟨g.remainder seen, n, gap⟩ := by
  by_cases himport : g.isImport
  · have hnot : ¬ g.paths.all seen.contains := by simpa [himport] using hstays
    have hlabel := hg.isImport_iff.mp himport
    obtain ⟨head, ps, close, hcode, hparts, hchildren⟩ := hg.exists_parts hlabel
    have hpaths := paths_eq_of_parts himport hcode hparts
    cases close with
    | nil =>
      have hnew := hparts.isNew_single (hpaths ▸ hnot)
      obtain ⟨d, hd⟩ := hread (hg.isClause_of_isImport himport)
      refine ⟨g.node, hg.firstOf_self ?_ ?_ gap⟩
      · rw [remainder_eq_of_parts himport hcode hparts hnot, hnew.kept_eq, hcode]
      · rw [specs_of_declared (hg.isClause_of_isImport himport) hd, (reads_of_declared hlabel hcode hchildren hd).2,
          ← ImportPart.imports_firsts, hnew.firsts_eq]
    | cons z close =>
      obtain rfl : close = [] := by cases hparts; rfl
      exact ⟨_, hg.firstOf_block hread himport hcode hparts hchildren hnot
        ((hg.parted_iff_spares himport hcode hparts rest).mpr (hspares himport)) gap⟩
  · refine ⟨g.node, hg.firstOf_self (if_pos (by simpa using himport)) ?_ gap⟩
    rw [hg.specs_of_not_import (Bool.eq_false_iff.mpr himport)]
    rfl

end Item

/-! ## The first imports of segments -/

/-- Whether no semicolon is the first token behind an import or a spec that goes where some paths were seen. -/
def Spares (seen : List String) : List Segment → Prop
  | [] => True
  | g :: gs => (g.isImport → if g.paths.all seen.contains then ¬ LeadsSemicolon (g.gap ++ joined gs)
      else ImportPart.Spares seen (g.gap ++ joined gs) (ImportPart.ofCode [] g.code)) ∧ Spares (g.paths ++ seen) gs

/-- Whether stretches without code and then segments are what remains of others where some paths were seen: the
segments can be read, one is a package clause if one of the others is, they import what those import first, and
they declare else what those do. -/
structure FirstsOf (seen : List String) (gs : List Segment) (x : List Lexeme) (hs : List Segment) : Prop where
  eq : remainders seen gs = x ++ joined hs
  noCode : NoCode x
  linked : Linked hs
  isReadable : ∀ h ∈ hs, h.IsReadable
  clause : (∃ g ∈ gs, g.isClause) → ∃ h ∈ hs, h.isClause
  specs : hs.flatMap Segment.specs = firstOfPaths seen (gs.flatMap Segment.specs)
  others : hs.flatMap Segment.others = gs.flatMap Segment.others

section Lists

variable {g k : Segment} {gs hs : List Segment} {seen : List String} {x : List Lexeme}

theorem specs_cons (hg : g.IsItem) (hread : g.IsReadable) (seen : List String) (gs : List Segment) :
    firstOfPaths seen ((g :: gs).flatMap Segment.specs) =
      firstOfPaths seen g.specs ++ firstOfPaths (g.paths ++ seen) (gs.flatMap Segment.specs) := by
  rw [List.flatMap_cons, firstOfPaths_append, hg.specs_paths hread]

/-- An import that goes leaves what stands behind it. -/
theorem FirstsOf.gone (h : FirstsOf (g.paths ++ seen) gs x hs) (hg : g.IsItem) (hread : g.IsReadable)
    (himport : g.isImport) (hall : g.paths.all seen.contains) (hgap : NoCode g.gap) :
    FirstsOf seen (g :: gs) (g.gap ++ x) hs := by
  refine ⟨?_, hgap.append h.noCode, h.linked, h.isReadable, ?_, ?_, ?_⟩
  · rw [remainders, remainder, if_neg (by simp [himport]), if_pos hall, h.eq, List.nil_append, List.append_assoc]
  · rintro ⟨c, hc, hclause⟩
    rcases List.mem_cons.mp hc with rfl | hc
    · rw [hg.isClause_of_isImport himport] at hclause
      cases hclause
    · exact h.clause ⟨c, hc, hclause⟩
  · have hnone : firstOfPaths seen g.specs = [] := firstOfPaths_eq_nil (by
      rw [hg.specs_paths hread]
      exact fun y hy => List.contains_iff_mem.mp (List.all_eq_true.mp hall y hy))
    rw [specs_cons hg hread, h.specs, hnone, List.nil_append]
  · rw [List.flatMap_cons, others_of_isImport himport, List.nil_append, h.others]

/-- What remains of a segment stands before what remains behind it. -/
theorem FirstsOf.stays (h : FirstsOf (g.paths ++ seen) gs x hs) (hg : g.IsItem) (hread : g.IsReadable)
    (hk : FirstOf seen g k) (hgap : k.gap = g.gap ++ x) (hlinked : Linked (k :: hs)) :
    FirstsOf seen (g :: gs) [] (k :: hs) := by
  refine ⟨?_, nofun, hlinked, List.forall_mem_cons.mpr ⟨hk.isReadable hread, h.isReadable⟩, ?_, ?_, ?_⟩
  · rw [remainders, h.eq, List.nil_append, joined_cons, hk.code, hgap, List.append_assoc]
  · rintro ⟨c, hc, hclause⟩
    rcases List.mem_cons.mp hc with rfl | hc
    · exact ⟨k, List.mem_cons_self, hk.clause.trans hclause⟩
    · obtain ⟨d, hd, hclause⟩ := h.clause ⟨c, hc, hclause⟩
      exact ⟨d, List.mem_cons_of_mem k hd, hclause⟩
  · rw [specs_cons hg hread, List.flatMap_cons, hk.specs, h.specs]
  · rw [List.flatMap_cons, List.flatMap_cons, hk.others, h.others]

/-- Where semicolons are spared, what remains of segments are segments that import the first of each path. -/
theorem Linked.exists_firstsOf (h : Linked gs) (hread : ∀ g ∈ gs, g.IsReadable) (hspares : Spares seen gs) :
    ∃ x hs, FirstsOf seen gs x hs := by
  induction h generalizing seen with
  | nil => exact ⟨[], [], rfl, nofun, .nil, nofun, nofun, rfl, rfl⟩
  | @cons g gs hg hends hlinked ih =>
    obtain ⟨hfirst, hrest⟩ := List.forall_mem_cons.mp hread
    obtain ⟨hsemicolon, hspares⟩ := hspares
    obtain ⟨x, hs, hfirsts⟩ := ih hrest hspares
    by_cases hgone : g.isImport && g.paths.all seen.contains
    · obtain ⟨himport, hall⟩ := Bool.and_eq_true_iff.mp hgone
      have hnot := hsemicolon himport
      rw [if_pos hall] at hnot
      exact ⟨_, _, hfirsts.gone hg hfirst himport hall (hends.noCode hnot)⟩
    · obtain ⟨n, hk⟩ := hg.exists_firstOf hfirst hgone (fun himport => by
        have hparts := hsemicolon himport
        rwa [if_neg (by simpa [himport] using hgone)] at hparts) (g.gap ++ x)
      exact ⟨[], _, hfirsts.stays hg hfirst hk rfl (.cons hk.isItem (hends.append hfirsts.noCode) hfirsts.linked)⟩
  | @last g hg hnone hend =>
    obtain ⟨hfirst, -⟩ := List.forall_mem_cons.mp hread
    have hfirsts : FirstsOf (g.paths ++ seen) [] [] [] := ⟨rfl, nofun, .nil, nofun, nofun, rfl, rfl⟩
    by_cases hgone : g.isImport && g.paths.all seen.contains
    · obtain ⟨himport, hall⟩ := Bool.and_eq_true_iff.mp hgone
      exact ⟨_, _, hfirsts.gone hg hfirst himport hall hnone⟩
    · obtain ⟨n, hk⟩ := hg.exists_firstOf hfirst hgone (fun himport => by
        have hparts := hspares.1 himport
        rwa [if_neg (by simpa [himport] using hgone)] at hparts) g.gap
      exact ⟨[], _, hfirsts.stays hg hfirst hk (List.append_nil _).symm (.last hk.isItem hnone (hk.mayEnd hend))⟩

/-! ### Semicolons behind what goes -/

/-- Segments begin with no semicolon. -/
theorem Linked.not_leadsSemicolon (h : Linked gs) : ¬ LeadsSemicolon (joined gs) := by
  cases gs with
  | nil => exact nofun
  | cons g gs =>
    obtain ⟨l, r, k, hcode, hl, hk⟩ := h.isItem.declares.head
    rw [joined_cons, hcode, List.cons_append, leadsSemicolon_cons hl]
    rintro rfl
    cases hk

/-- Parts of an import go before no semicolon if what remains of it is an item. -/
theorem IsItem.spares_of_remainder (hg : g.IsItem) (himport : g.isImport) (hnot : ¬ g.paths.all seen.contains)
    (hk : k.IsItem) (hcode : k.code = fuse (g.remainder seen)) (rest : List Lexeme) :
    ImportPart.Spares seen rest (ImportPart.ofCode [] g.code) := by
  obtain ⟨head, ps, close, hparts, h, -⟩ := hg.exists_parts (hg.isImport_iff.mp himport)
  cases close with
  | nil =>
    rw [hparts, ImportPart.ofCode_import h, ImportPart.spares_others, ImportPart.spares_append_others]
    exact (h.isNew_single (paths_eq_of_parts himport hparts h ▸ hnot)).spares
  | cons z close =>
    obtain rfl : close = [] := by cases h; rfl
    obtain ⟨l, r, j, hhead, hl⟩ := hg.exists_head himport hparts h
    have hsubset := ImportPart.firsts_subset seen ps
    have hremains : g.remainder seen = head ++ (ImportPart.code (ImportPart.firsts seen ps) ++ [z]) := by
      rw [remainder_eq_of_parts himport hparts h hnot, ImportPart.code_firsts]
    have hregion : IsRegion k.code := hcode ▸ (hg.isRegion_remainder himport hnot).fuse
    refine (hg.parted_iff_spares himport hparts h rest).mp (hk.parted (hk.isImport_iff.mp (isImport_of_region hregion))
      (h.withParts fun p hp => h.fits p (hsubset p hp)) hhead hl (fun m hm => ?_) fun pos brk => ?_)
    · exact hg.nonempty m (remainder_subset seen g m (by rw [hremains]; simp [hm]))
    · rw [hcode, place_fuse, hremains]

/-- Where what remains of segments is read, semicolons are spared. -/
theorem Linked.spares_of_alike (h : Linked gs) (hhs : Linked hs) (hfirst : NoCode (remaining seen gs).1)
    (halike : List.Forall₂ Alike ((remaining seen gs).2.map Segment.fused) hs) : Spares seen gs := by
  induction gs generalizing seen hs with
  | nil => exact True.intro
  | cons g gs ih =>
    have hg := h.isItem
    have hgs : Linked gs := @Linked.behind g [] gs h
    rw [remaining] at hfirst halike
    by_cases hgone : g.isImport && g.paths.all seen.contains
    · rw [if_pos hgone] at hfirst halike
      obtain ⟨hgap, hfirst⟩ := List.forall_mem_append.mp hfirst
      refine ⟨fun _ => ?_, ih hgs hhs hfirst halike⟩
      rw [if_pos (Bool.and_eq_true_iff.mp hgone).2, leadsSemicolon_append hgap]
      exact hgs.not_leadsSemicolon
    · rw [if_neg hgone] at halike
      cases halike with
      | @cons _ k _ ks hk halike =>
        have hplace := place_fuse 0 none (g.gap ++ (remaining (g.paths ++ seen) gs).1)
        rw [show fuse (g.gap ++ (remaining (g.paths ++ seen) gs).1) = k.gap from hk.gap] at hplace
        have hrest : NoCode (remaining (g.paths ++ seen) gs).1 := by
          cases hhs with
          | cons _ hends _ =>
            cases h with
            | cons _ hgap _ => exact hgap.noCode_more (hends.of_place hplace.symm)
            | last => exact List.forall_mem_nil _
          | last _ hnone _ => exact (List.forall_mem_append.mp (hnone.of_place hplace.symm)).2
        refine ⟨fun himport => ?_, ih hgs (@Linked.behind k [] ks hhs) hrest halike⟩
        have hnot : ¬ g.paths.all seen.contains := by simpa [himport] using hgone
        rw [if_neg hnot]
        exact hg.spares_of_remainder himport hnot hhs.isItem hk.code.symm _

end Lists

end Segment

/-! ## Files without repeated imports -/

section Ranges

variable {f : SourceFile} {s : List Char} {gs : List Segment}

/-- No semicolon stands behind a range of parts that goes just if semicolons are spared. -/
theorem ImportPart.spares_iff (hsource : f.source = Utf8.encode s) {a rest : List Lexeme} {ps : List ImportPart}
    (hs : Syntax.stretches s = a ++ (code ps ++ rest)) (seen : List String) :
    (∀ r ∈ repeatedRanges seen (byteWidth (orderMark s ++ texts a)) ps, ¬ f.SemicolonBehind r.stop) ↔
      Spares seen rest ps := by
  induction ps generalizing a seen with
  | nil => exact iff_of_true (List.forall_mem_nil _) True.intro
  | cons p ps ih =>
    rw [code_cons, List.append_assoc, ← List.append_assoc a] at hs
    have hnext : byteWidth (orderMark s ++ texts a) + byteWidth (texts p.stretches) =
        byteWidth (orderMark s ++ texts (a ++ p.stretches)) := by
      rw [texts_append, ← List.append_assoc, byteWidth_append _ (texts p.stretches)]
    have ih := ih hs
    rw [← hnext] at ih
    cases p with
    | other l =>
      rw [stretches, texts_cons, texts_nil, List.append_nil] at ih
      exact ih seen
    | spec name literal =>
      rw [repeatedRanges, Spares]
      split
      · rw [List.forall_mem_cons, ← SourceFile.semicolonBehind_iff hsource hs, ← hnext]
        exact and_congr_right fun _ => ih seen
      · exact ih _

/-- No semicolon stands behind a repeated import just if semicolons are spared. -/
theorem Segment.Placed.spares_iff {o : Nat} {ds : List Declaration} (h : Placed o gs ds) (hgs : ∀ g ∈ gs, g.IsItem)
    (hsource : f.source = Utf8.encode s) {a : List Lexeme} (ho : o = byteWidth (orderMark s ++ texts a))
    (hs : Syntax.stretches s = a ++ joined gs) (seen : List String) :
    (∀ r ∈ RepeatedImports.ranges seen ds, ¬ f.SemicolonBehind r.stop) ↔ Spares seen gs := by
  induction h generalizing a seen with
  | nil => exact iff_of_true (List.forall_mem_nil _) True.intro
  | @clause o g gs ds hclause _ ih =>
    obtain ⟨hg, hgs⟩ := List.forall_mem_cons.mp hgs
    have himport : ¬ g.isImport := fun himport => by
      rw [hg.isClause_of_isImport himport] at hclause
      cases hclause
    rw [Spares, paths, if_neg himport, List.nil_append, and_iff_right fun h => absurd h himport]
    refine ih hgs (a := a ++ g.stretches) ?_ ?_ seen
    · rw [ho, texts_append, ← List.append_assoc, byteWidth_append _ (texts g.stretches)]
    · rw [hs, joined_cons]
      simp [Segment.stretches]
  | @item o g gs d ds hclause hstart hstop hdecl _ ih =>
    obtain ⟨hg, hgs⟩ := List.forall_mem_cons.mp hgs
    have hcode : Syntax.stretches s = (a ++ g.code) ++ (g.gap ++ joined gs) := by
      rw [hs, joined_cons, List.append_assoc]
    have hbehind : d.stop = byteWidth (orderMark s ++ texts (a ++ g.code)) := by
      rw [hstop, ho, texts_append, ← List.append_assoc, byteWidth_append _ (texts g.code)]
    have hrest := fun seen => ih hgs (a := a ++ g.stretches) (by
      rw [ho, texts_append, ← List.append_assoc, byteWidth_append _ (texts g.stretches)]) (by
      rw [hs, joined_cons]
      simp [Segment.stretches]) seen
    rw [hg.ranges_cons hdecl, List.forall_mem_append, hrest, Spares]
    refine and_congr_left fun _ => ?_
    by_cases himport : g.isImport
    · rw [if_neg (by simp [himport]), forall_prop_of_true himport]
      split
      · rw [List.forall_mem_singleton, hbehind, SourceFile.semicolonBehind_iff hsource hcode]
      · have hparts : Syntax.stretches s = a ++ (ImportPart.code (ImportPart.ofCode [] g.code) ++ (g.gap ++ joined gs)) := by
          rw [ImportPart.code_ofCode, List.nil_append, hs, joined_cons]
        rw [ho]
        exact ImportPart.spares_iff hsource hparts seen
    · rw [if_pos (by simpa using himport)]
      exact iff_of_true (List.forall_mem_nil _) fun h => absurd h himport

end Ranges

section Outline

variable {s : List Char} {lead : List Lexeme} {gs : List Segment}

/-- Where what remains of a text is read, semicolons are spared. -/
theorem Outline.spares (h : Outline s lead gs) {lead' : List Lexeme} {hs : List Segment}
    (h' : Outline (orderMark s ++ texts (lead ++ remainders [] gs)) lead' hs) : Spares [] gs := by
  obtain ⟨hlead, halike⟩ := h.alike_remaining h'
  have hnone : NoCode (lead ++ (remaining [] gs).1) :=
    (hlead ▸ h'.noCode).of_place (place_fuse 0 none _).symm
  exact h.linked.spares_of_alike h'.linked (List.forall_mem_append.mp hnone).2 halike

/-- Where semicolons are spared, the first imports of a text are the segments of what remains of it. -/
theorem Outline.exists_firstsOf (h : Outline s lead gs) (hread : ∀ g ∈ gs, g.IsReadable) (hspares : Spares [] gs) :
    ∃ x hs, FirstsOf [] gs x hs ∧
      Outline (orderMark s ++ texts (lead ++ remainders [] gs)) (fuse (lead ++ x)) (hs.map Segment.fused) := by
  obtain ⟨x, hs, hfirsts⟩ := h.linked.exists_firstsOf hread hspares
  refine ⟨x, hs, hfirsts, ?_, (h.noCode.append hfirsts.noCode).of_place (place_fuse 0 none _), hfirsts.linked.fused⟩
  rw [h.stretches_remainders.2, hfirsts.eq, ← List.append_assoc,
    fuse_joined fun k hk => isFirm_of_piece (.inl (hfirsts.linked.items k hk))]

end Outline

end Syntax

open Syntax

section Read

variable {filename : String} {source : Bytes} {f f' : SourceFile} {s s' : List Char} {lead lead' x : List Lexeme}
  {gs hs : List Segment}

/-- The file of what remains of segments is read. -/
theorem Syntax.Segment.FirstsOf.exists_parse (h : FirstsOf [] gs x hs) (ho : Outline s lead gs)
    (hp : Parsed filename source true f s) (ho' : Outline s' lead' (hs.map Segment.fused)) :
    ∃ f', SourceFile.parse filename (Utf8.encode s') true = .ok f' := by
  obtain ⟨c, hc, hclause⟩ := h.clause (ho.exists_clause hp)
  have hfound : ((hs.map Segment.fused).find? isClause).isSome :=
    List.find?_isSome.mpr ⟨c.fused, List.mem_map_of_mem hc, hclause⟩
  obtain ⟨d, hd⟩ := Option.isSome_iff_exists.mp hfound
  obtain ⟨f', hparse, -⟩ := ho'.parse (List.forall_mem_map.mpr fun k hk hclause => by
    rw [declared_fused]
    exact h.isReadable k hk hclause) hd filename
  exact ⟨f', hparse⟩

/-- The file of what remains of segments imports the first of each path, and declares else what that of these does. -/
theorem Syntax.Segment.FirstsOf.declares (h : FirstsOf [] gs x hs) (ho : Outline s lead gs)
    (hp : Parsed filename source true f s) {source' : Bytes} (ho' : Outline s' lead' (hs.map Segment.fused))
    (hp' : Parsed filename source' true f' s') : f'.imports = firstOfPaths [] f.imports ∧ f'.others = f.others := by
  have hspecs : (hs.map Segment.fused).flatMap Segment.specs = hs.flatMap Segment.specs := by
    rw [List.flatMap_map]
    exact List.flatMap_congr fun k _ => k.specs_fused
  have hothers : (hs.map Segment.fused).flatMap Segment.others = hs.flatMap Segment.others := by
    rw [List.flatMap_map]
    exact List.flatMap_congr fun k hk => (h.linked.items k hk).others_fused
  rw [ho'.imports_eq hp', ho.imports_eq hp, ho'.others_eq hp', ho.others_eq hp, hspecs, hothers]
  exact ⟨h.specs, h.others⟩

/-- A file without its repeated imports is read just if no semicolon is the first token behind one of these.  Then
it imports the first of each path, declares else what the file did, and has no repeated import. -/
theorem SourceFile.withoutRepeated_read (h : SourceFile.parse filename source true = .ok f) :
    ((∃ f', SourceFile.parse filename f.withoutRepeatedImports true = .ok f') ↔
      ∀ r ∈ RepeatedImports.ranges [] f.declarations, ¬ f.SemicolonBehind r.stop) ∧
    ∀ f', SourceFile.parse filename f.withoutRepeatedImports true = .ok f' →
      f'.imports = firstOfPaths [] f.imports ∧ f'.others = f.others ∧ f'.withoutRepeatedImports = f'.source := by
  obtain ⟨s, hp⟩ := parse_eq_ok_iff.mp h
  obtain ⟨lead, gs, ho⟩ := hp.exists_outline
  have hsource : f.source = Utf8.encode s := hp.source_eq.trans hp.encode_eq
  have hranges := (ho.placed hp).spares_iff ho.linked.items hsource rfl ho.stretches_eq []
  have hspares : ∀ f', SourceFile.parse filename f.withoutRepeatedImports true = .ok f' → Spares [] gs ∧
      Parsed filename f.withoutRepeatedImports true f' (orderMark s ++ texts (lead ++ remainders [] gs)) := by
    intro f' hf'
    obtain ⟨s', hp'⟩ := parse_eq_ok_iff.mp hf'
    obtain rfl := Utf8.encode_injective (hp'.encode_eq.symm.trans (ho.withoutRepeated_eq hp))
    obtain ⟨lead', hs, ho'⟩ := hp'.exists_outline
    exact ⟨ho.spares ho', hp'⟩
  rw [hranges]
  refine ⟨⟨fun ⟨f', hf'⟩ => (hspares f' hf').1, fun hspares => ?_⟩, fun f' hf' => ?_⟩
  · obtain ⟨x, hs, hfirsts, ho'⟩ := ho.exists_firstsOf (ho.isReadable hp) hspares
    rw [ho.withoutRepeated_eq hp]
    exact hfirsts.exists_parse ho hp ho'
  · obtain ⟨hspares, hp'⟩ := hspares f' hf'
    obtain ⟨x, hs, hfirsts, ho'⟩ := ho.exists_firstsOf (ho.isReadable hp) hspares
    obtain ⟨himports, hothers⟩ := hfirsts.declares ho hp ho' hp'
    refine ⟨himports, hothers, ?_⟩
    rw [ho'.withoutRepeated_eq hp', ho'.text_of_distinct (ho.withoutRepeated ho').2.1, hp'.source_eq, hp'.encode_eq]

/-- A file with an import that goes, and with a spec that goes behind a semicolon. -/
def ioTwice : Bytes :=
  bytesOf "package a\n\nimport f \"io\" // Again below.\n\nimport \"io\"\n\nimport (\n\t\"fmt\"; \"io\"\n)\n\ntype T int\n"

/-- What remains of that file. -/
def ioOnce : Bytes :=
  bytesOf "package a\n\nimport f \"io\" // Again below.\n\n\n\nimport (\n\t\"fmt\"; \n)\n\ntype T int\n"

theorem ioTwice_read : ∃ f, SourceFile.parse "a.go" ioTwice true = .ok f ∧ f.withoutRepeatedImports = ioOnce ∧
    ((∃ f', SourceFile.parse "a.go" f.withoutRepeatedImports true = .ok f') ↔
      ∀ r ∈ RepeatedImports.ranges [] f.declarations, ¬ f.SemicolonBehind r.stop) ∧
    ∀ f', SourceFile.parse "a.go" f.withoutRepeatedImports true = .ok f' →
      f'.imports = firstOfPaths [] f.imports ∧ f'.others = f.others ∧ f'.withoutRepeatedImports = f'.source := by
  have hparse : (SourceFile.parse "a.go" ioTwice true).toOption.map SourceFile.withoutRepeatedImports = some ioOnce := by
    decide +kernel
  obtain ⟨f, hf, hout⟩ := Option.map_eq_some_iff.mp hparse
  replace hf := Package.eq_ok_of_toOption hf
  exact ⟨f, hf, hout, SourceFile.withoutRepeated_read hf⟩

end Read

end GoSplice
