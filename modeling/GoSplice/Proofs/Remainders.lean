import GoSplice.Proofs.Repetitions
import GoSplice.Proofs.Thinning

/-!
# Files without repeated imports

A pass over repeated imports takes out specs and whole imports.  Where the result is read, it has the
items that it had before, apart from imports, and imports each path once:

    Outline s lead gs → s' is what remains of it → Outline s' lead' hs →
      hs declare what gs do, and import the paths of gs, each once      (Outline.withoutRepeated)
-/

namespace GoSplice.Syntax

/-! ## Blanks that fuse -/

theorem filterMap_fuse {β : Type} {f : Lexeme → Option β} (hf : ∀ l, l.cls = .blank → f l = none) (ls : List Lexeme) :
    (fuse ls).filterMap f = ls.filterMap f := by
  induction ls with
  | nil => rfl
  | cons l ls ih =>
    rw [fuse_cons, List.filterMap_cons, ← ih]
    obtain ⟨m, r, hpush, hcls, ⟨rfl, rfl⟩ | ⟨n, hn, hl, hblank, -⟩⟩ := exists_push l (fuse ls)
    · rw [hpush, List.filterMap_cons]
    · rw [hpush, hn, List.filterMap_cons, List.filterMap_cons, hf m (hcls.trans hl), hf l hl, hf n hblank]

theorem kindsOf_fuse (ls : List Lexeme) : kindsOf (fuse ls) = kindsOf ls :=
  filterMap_fuse (fun l hl => by rw [Lexeme.kind?, hl]) ls

theorem literals_fuse (ls : List Lexeme) : (fuse ls).filter Lexeme.isLiteral = ls.filter Lexeme.isLiteral := by
  rw [← List.filterMap_eq_filter]
  exact filterMap_fuse (fun l hl => by simp [Option.guard, Lexeme.isLiteral, hl]) ls

theorem cls_of_mem_fuse {ls : List Lexeme} {l : Lexeme} (h : l ∈ fuse ls) : ∃ m ∈ ls, m.cls = l.cls := by
  induction ls generalizing l with
  | nil => cases h
  | cons k ls ih =>
    rw [fuse_cons] at h
    obtain ⟨m, r, hpush, hcls, hcase⟩ := exists_push k (fuse ls)
    rw [hpush] at h
    have hr : ∀ n ∈ r, n ∈ fuse ls := by
      rcases hcase with ⟨-, rfl⟩ | ⟨n, hn, -⟩
      · exact fun _ => id
      · exact fun x hx => by rw [hn]; exact List.mem_cons_of_mem n hx
    rcases List.mem_cons.mp h with rfl | h
    · exact ⟨k, List.mem_cons_self, hcls.symm⟩
    · obtain ⟨n, hn, hcls⟩ := ih (hr l h)
      exact ⟨n, List.mem_cons_of_mem k hn, hcls⟩

theorem mem_fuse {ls : List Lexeme} {l : Lexeme} (h : l ∈ ls) (hl : l.cls ≠ .blank) : l ∈ fuse ls := by
  obtain ⟨x, y, rfl⟩ := List.append_of_mem h
  rw [fuse_append_cons hl]
  simp

theorem fuse_append_of_head {a b : List Lexeme} (hb : ∀ l ∈ b.head?, l.cls ≠ .blank) :
    fuse (a ++ b) = fuse a ++ fuse b := by
  cases b with
  | nil => simp
  | cons l b => rw [fuse_append_cons (hb l rfl), fuse_cons, push_of_ne (hb l rfl)]

theorem fuse_append_of_last {a b : List Lexeme} (ha : ∀ l ∈ a.getLast?, l.cls ≠ .blank) :
    fuse (a ++ b) = fuse a ++ fuse b := by
  rcases List.eq_nil_or_concat a with rfl | ⟨a, l, rfl⟩
  · rfl
  · rw [List.concat_eq_append] at ha ⊢
    have hl := ha l (by simp)
    have hone := fuse_append_cons hl a []
    rw [fuse_nil] at hone
    rw [List.append_assoc, List.singleton_append, fuse_append_cons hl, hone, List.append_assoc, List.singleton_append]

theorem ne_blank_of_token {l : Lexeme} {k : Kind} (h : l.cls = .token k) : l.cls ≠ .blank := by
  rw [h]
  exact nofun

theorem IsRegion.fuse {code : List Lexeme} (h : IsRegion code) : IsRegion (fuse code) := by
  refine ⟨by rw [kindsOf_fuse]; exact h.kinds, ?_, ?_⟩
  · obtain ⟨l, r, rfl, hl⟩ := h.first
    exact ⟨l, Syntax.fuse r, push_of_ne (ne_blank_of_token hl) _, hl⟩
  · obtain ⟨x, l, k, rfl, hl⟩ := h.last
    exact ⟨Syntax.fuse x, l, k, fuse_append_cons (ne_blank_of_token hl) x [], hl⟩

namespace Segment

/-- A segment with blanks that stand side by side as one. -/
def fused (g : Segment) : Segment := ⟨fuse g.code, g.node, fuse g.gap⟩

/-- Whether the code of a segment begins and ends with tokens. -/
structure IsFirm (g : Segment) : Prop where
  first : ∃ l r k, g.code = l :: r ∧ l.cls = .token k
  last : ∃ x l k, g.code = x ++ [l] ∧ l.cls = .token k

theorem isFirm_of_piece {g : Segment} (h : g.IsItem ∨ IsRegion g.code) : g.IsFirm := by
  obtain ⟨l, r, k, hcode, hl, -⟩ := exists_opening_of_piece h
  exact ⟨⟨l, r, k, hcode, hl⟩, h.elim IsItem.exists_last IsRegion.last⟩

theorem fuse_joined {gs : List Segment} (h : ∀ g ∈ gs, g.IsFirm) (x : List Lexeme) :
    fuse (x ++ joined gs) = fuse x ++ joined (gs.map fused) := by
  induction gs generalizing x with
  | nil => simp
  | cons g gs ih =>
    obtain ⟨⟨⟨l, r, k, hfirst, hl⟩, ⟨y, m, j, hlast, hm⟩⟩, h⟩ := List.forall_mem_cons.mp h
    rw [joined_cons, fuse_append_of_head, fuse_append_of_last, ih h, List.map_cons, joined_cons]
    · rfl
    · rw [hlast, List.getLast?_append, List.getLast?_singleton]
      intro n hn
      obtain rfl := Option.some.inj hn
      exact ne_blank_of_token hm
    · rw [hfirst]
      intro n hn
      obtain rfl := Option.some.inj hn
      exact ne_blank_of_token hl

end Segment

/-! ## What remains of parts -/

namespace ImportPart

/-- The paths of the literals among stretches. -/
def pathsAmong (ls : List Lexeme) : List String := (ls.filter Lexeme.isLiteral).map Lexeme.path

theorem pathsAmong_append (a b : List Lexeme) : pathsAmong (a ++ b) = pathsAmong a ++ pathsAmong b := by
  rw [pathsAmong, List.filter_append, List.map_append]
  rfl

theorem pathsAmong_fuse (ls : List Lexeme) : pathsAmong (fuse ls) = pathsAmong ls := by
  rw [pathsAmong, literals_fuse]
  rfl

theorem pathsAmong_eq_nil {ls : List Lexeme} (h : .text ∉ kindsOf ls) : pathsAmong ls = [] := by
  have hnone : ls.filter Lexeme.isLiteral = [] := List.filter_eq_nil_iff.mpr fun l hl hlit =>
    h (mem_kindsOf.mpr ⟨l, hl, isLiteral_iff.mp hlit⟩)
  rw [pathsAmong, hnone]
  rfl

theorem Fits.pathsAmong {p : ImportPart} (h : p.Fits) : ImportPart.pathsAmong p.stretches = paths [p] := by
  cases h with
  | @other l hl =>
    refine pathsAmong_eq_nil fun hmem => ?_
    obtain ⟨m, hm, hcls⟩ := mem_kindsOf.mp hmem
    obtain rfl := List.mem_singleton.mp hm
    cases hl _ hcls
  | @bare literal hl => simp [ImportPart.pathsAmong, stretches, paths, isLiteral_iff.mpr hl]
  | @named n literal k fill hn hk hfill hl =>
    have hname : ImportPart.pathsAmong (n :: fill) = [] := by
      refine pathsAmong_eq_nil fun hmem => ?_
      rw [kindsOf, List.filterMap_cons_some (Lexeme.kind?_eq_some.mpr hn)] at hmem
      rcases List.mem_cons.mp hmem with rfl | hmem
      · revert hk
        decide
      · rw [show fill.filterMap Lexeme.kind? = [] from noCode_iff_kindsOf.mp hfill] at hmem
        cases hmem
    rw [stretches, pathsAmong_append, hname]
    simp [ImportPart.pathsAmong, paths, isLiteral_iff.mpr hl]

/-- What remains of parts has each path once that was not seen. -/
theorem kept_paths {ps : List ImportPart} (h : ∀ p ∈ ps, p.Fits) (seen : List String) :
    (pathsAmong (kept seen ps)).Nodup ∧ (∀ x ∈ pathsAmong (kept seen ps), x ∉ seen) ∧
      ∀ x ∈ paths ps, x ∈ seen ∨ x ∈ pathsAmong (kept seen ps) := by
  induction ps generalizing seen with
  | nil => exact ⟨List.nodup_nil, nofun, nofun⟩
  | cons p ps ih =>
    obtain ⟨hp, hps⟩ := List.forall_mem_cons.mp h
    cases p with
    | other l =>
      have hl : pathsAmong (l :: kept seen ps) = pathsAmong (kept seen ps) := by
        rw [← List.singleton_append, pathsAmong_append, show pathsAmong [l] = [] from hp.pathsAmong, List.nil_append]
      rw [kept, hl]
      exact ih hps seen
    | spec name literal =>
      rw [kept]
      split
      · next hseen =>
        obtain ⟨hnodup, hnew, hall⟩ := ih hps seen
        refine ⟨hnodup, hnew, fun x hx => ?_⟩
        rcases List.mem_cons.mp hx with rfl | hx
        · exact .inl (List.contains_iff_mem.mp hseen)
        · exact hall x hx
      · next hseen =>
        obtain ⟨hnodup, hnew, hall⟩ := ih hps (literal.path :: seen)
        have hspec : pathsAmong (name ++ literal :: kept (literal.path :: seen) ps) =
            literal.path :: pathsAmong (kept (literal.path :: seen) ps) := by
          rw [List.append_cons, pathsAmong_append,
            show pathsAmong (name ++ [literal]) = [literal.path] from hp.pathsAmong]
          rfl
        rw [hspec]
        refine ⟨List.nodup_cons.mpr ⟨fun hmem => hnew _ hmem List.mem_cons_self, hnodup⟩, ?_, fun x hx => ?_⟩
        · refine List.forall_mem_cons.mpr ⟨fun hmem => hseen (List.contains_iff_mem.mpr hmem), fun x hx hmem => ?_⟩
          exact hnew x hx (List.mem_cons_of_mem _ hmem)
        · rcases List.mem_cons.mp hx with rfl | hx
          · exact .inr List.mem_cons_self
          · rcases hall x hx with hmem | hmem
            · rcases List.mem_cons.mp hmem with rfl | hmem
              · exact .inr List.mem_cons_self
              · exact .inl hmem
            · exact .inr (List.mem_cons_of_mem _ hmem)

theorem kept_others (seen : List String) (a : List Lexeme) (ps : List ImportPart) :
    kept seen (a.map other ++ ps) = a ++ kept seen ps := by
  induction a with
  | nil => rfl
  | cons l a ih => exact congrArg (l :: ·) ih

theorem kept_append_others (seen : List String) (ps : List ImportPart) (a : List Lexeme) :
    kept seen (ps ++ a.map other) = kept seen ps ++ a := by
  induction ps generalizing seen with
  | nil =>
    have h := kept_others seen a []
    rwa [List.append_nil, show kept seen [] = [] from rfl, List.append_nil] at h
  | cons p ps ih =>
    cases p with
    | other l => exact congrArg (l :: ·) (ih seen)
    | spec name literal =>
      rw [List.cons_append, kept, kept]
      split
      · exact ih seen
      · rw [ih, List.append_assoc, List.cons_append]

theorem kept_subset (seen : List String) (ps : List ImportPart) : ∀ l ∈ kept seen ps, l ∈ code ps := by
  induction ps generalizing seen with
  | nil => exact nofun
  | cons p ps ih =>
    intro l hl
    cases p with
    | other m =>
      rcases List.mem_cons.mp hl with rfl | hl
      · exact List.mem_cons_self
      · exact List.mem_append_right _ (ih seen l hl)
    | spec name literal =>
      rw [kept] at hl
      split at hl
      · exact List.mem_append_right _ (ih seen l hl)
      · rw [List.append_cons] at hl
        rcases List.mem_append.mp hl with hl | hl
        · exact List.mem_append_left _ hl
        · exact List.mem_append_right _ (ih _ l hl)

theorem pathsAmong_code {ps : List ImportPart} (h : ∀ p ∈ ps, p.Fits) : pathsAmong (code ps) = paths ps := by
  induction ps with
  | nil => rfl
  | cons p ps ih =>
    obtain ⟨hp, hps⟩ := List.forall_mem_cons.mp h
    rw [code_cons, pathsAmong_append, ih hps, hp.pathsAmong, ← paths_append]
    rfl

theorem length_pathsAmong (ls : List Lexeme) : (pathsAmong ls).length = (kindsOf ls).count .text := by
  induction ls with
  | nil => rfl
  | cons l ls ih =>
    rw [← List.singleton_append, pathsAmong_append, kindsOf_append, List.length_append, List.count_append, ih]
    congr 1
    by_cases hl : l.isLiteral
    · have hkind : kindsOf [l] = [.text] := by
        rw [kindsOf, List.filterMap_cons_some (Lexeme.kind?_eq_some.mpr (isLiteral_iff.mp hl))]
        rfl
      simp [pathsAmong, hl, hkind]
    · have hnot : .text ∉ kindsOf [l] := fun hmem => by
        obtain ⟨m, hm, hcls⟩ := mem_kindsOf.mp hmem
        obtain rfl := List.mem_singleton.mp hm
        exact hl (isLiteral_iff.mpr hcls)
      rw [pathsAmong_eq_nil hnot, List.count_eq_zero.mpr hnot]
      rfl

end ImportPart

/-! ## What remains of an import -/

theorem IsImport.pathsAmong_eq_nil {head close : List Lexeme} {ps : List ImportPart} (h : IsImport head ps close) :
    ImportPart.pathsAmong head = [] ∧ ImportPart.pathsAmong close = [] := by
  cases h with
  | single hhead _ _ _ => exact ⟨ImportPart.pathsAmong_eq_nil (by rw [hhead]; decide), rfl⟩
  | block hhead ho _ hz =>
    exact ⟨ImportPart.pathsAmong_eq_nil (by rw [kindsOf_append, hhead, kindsOf_singleton ho]; decide),
      ImportPart.pathsAmong_eq_nil (by rw [kindsOf_singleton hz]; decide)⟩

section Import

variable {g : Segment} {seen : List String}

theorem Segment.paths_eq_of_parts {head close : List Lexeme} {ps : List ImportPart} (himport : g.isImport)
    (hcode : g.code = head ++ (ImportPart.code ps ++ close)) (h : IsImport head ps close) :
    g.paths = ImportPart.paths ps := by
  rw [Segment.paths_eq himport, hcode, ImportPart.ofCode_import h, ImportPart.paths_append, ImportPart.paths_append,
    ImportPart.paths_others, ImportPart.paths_others, List.append_nil, List.nil_append]

theorem Segment.remainder_eq_of_parts {head close : List Lexeme} {ps : List ImportPart} (himport : g.isImport)
    (hcode : g.code = head ++ (ImportPart.code ps ++ close)) (h : IsImport head ps close)
    (hnot : ¬ g.paths.all seen.contains) : g.remainder seen = head ++ (ImportPart.kept seen ps ++ close) := by
  rw [Segment.remainder, if_neg (by simp [himport]), if_neg hnot, hcode, ImportPart.ofCode_import h,
    ImportPart.kept_others, ImportPart.kept_append_others]

/-- The path of a single import is new if it was not seen. -/
theorem IsImport.isNew_single {head : List Lexeme} {ps : List ImportPart} (h : IsImport head ps [])
    (hnot : ¬ (ImportPart.paths ps).all seen.contains) : ImportPart.IsNew seen ps := by
  cases h with
  | @single _ _ ns _ hps hns hkinds =>
    have hlength := ImportPart.length_pathsAmong (ImportPart.code ps)
    have hnone : ns.count .text = 0 := List.count_eq_zero.mpr fun hmem => text_notMem_nameKinds (hns _ hmem)
    rw [ImportPart.pathsAmong_code hps, hkinds, List.count_append, hnone] at hlength
    obtain ⟨x, hx⟩ := List.length_eq_one_iff.mp hlength
    rw [hx] at hnot
    refine ⟨by simp [hx], ?_⟩
    rw [hx]
    intro y hy hmem
    obtain rfl := List.mem_singleton.mp hy
    exact hnot (by simpa using hmem)

/-- What remains of an import is one. -/
theorem Segment.IsItem.isRegion_remainder (h : g.IsItem) (himport : g.isImport) (hnot : ¬ g.paths.all seen.contains) :
    IsRegion (g.remainder seen) := by
  obtain ⟨head, ps, close, hcode, hparts, -⟩ := h.exists_parts (h.isImport_iff.mp himport)
  have hregion := h.isRegion (h.isImport_iff.mp himport)
  rw [remainder_eq_of_parts himport hcode hparts hnot]
  cases hparts with
  | single hhead hps hns hkinds =>
    have hnew := IsImport.isNew_single (.single hhead hps hns hkinds)
      (paths_eq_of_parts himport hcode (.single hhead hps hns hkinds) ▸ hnot)
    rw [hnew.kept_eq, ← hcode]
    exact hregion
  | @block head o z _ hhead ho hps hz =>
    refine ⟨?_, ?_, ⟨head ++ [o] ++ ImportPart.kept seen ps, z, _, by simp, hz⟩⟩
    · rw [kindsOf_append, kindsOf_append, kindsOf_append, hhead, kindsOf_singleton ho, kindsOf_singleton hz]
      refine .block fun hmem => ?_
      obtain ⟨l, hl, hcls⟩ := mem_kindsOf.mp hmem
      have hkind := ImportPart.kinds_of_fits hps _ (mem_kindsOf.mpr ⟨l, ImportPart.kept_subset seen ps l hl, hcls⟩)
      revert hkind
      decide
    · obtain ⟨l, r, hlr, hl⟩ := hregion.first
      cases head with
      | nil => cases hhead
      | cons m head =>
        rw [hcode] at hlr
        obtain rfl : m = l := (List.cons.inj hlr).1
        exact ⟨m, _, rfl, hl⟩

/-- What remains of an import has each path once that was not seen. -/
theorem Segment.IsItem.remainder_paths (h : g.IsItem) (himport : g.isImport) (hnot : ¬ g.paths.all seen.contains) :
    (ImportPart.pathsAmong (g.remainder seen)).Nodup ∧ (∀ x ∈ ImportPart.pathsAmong (g.remainder seen), x ∉ seen) ∧
      ∀ x ∈ g.paths, x ∈ seen ∨ x ∈ ImportPart.pathsAmong (g.remainder seen) := by
  obtain ⟨head, ps, close, hcode, hparts, -⟩ := h.exists_parts (h.isImport_iff.mp himport)
  obtain ⟨hhead, hclose⟩ := hparts.pathsAmong_eq_nil
  rw [remainder_eq_of_parts himport hcode hparts hnot, ImportPart.pathsAmong_append, ImportPart.pathsAmong_append, hhead,
    hclose, List.append_nil, List.nil_append, paths_eq_of_parts himport hcode hparts]
  exact ImportPart.kept_paths hparts.fits seen

end Import

/-! ## Taking out repeated imports -/

theorem isJoint_of_fillers {ls : List Lexeme} (h : ∀ l ∈ ls, l.cls.isFiller) : ∀ l ∈ ls.getLast?, l.cls.isJoint := fun l hl => by
  rw [LexemeClass.isJoint, h l (List.mem_of_getLast? hl), Bool.true_or, Bool.true_or]

/-- What remains of parts is what they are without some of their specs. -/
theorem ImportPart.thinned_kept {ps : List ImportPart} (h : ∀ p ∈ ps, p.Fits) (seen : List String) {a b : List Lexeme}
    (hab : Thinned a b) : Thinned (code ps ++ a) (kept seen ps ++ b) := by
  induction ps generalizing seen with
  | nil => exact hab
  | cons p ps ih =>
    obtain ⟨hp, hps⟩ := List.forall_mem_cons.mp h
    rw [code_cons, List.append_assoc]
    cases p with
    | other l =>
      cases hp with
      | other hl =>
        refine Thinned.append_left (x := [l]) (isJoint_of_fillers fun m hm => ?_) (ih hps seen)
        obtain rfl := List.mem_singleton.mp hm
        cases hcls : m.cls with
        | token k =>
          obtain rfl := hl k hcls
          rfl
        | _ => rfl
    | spec name literal =>
      have hliteral : literal.cls = .token .text := by
        cases hp with
        | bare hl => exact hl
        | named _ _ _ hl => exact hl
      rw [kept]
      split
      · obtain ⟨k, m, hk, hcls⟩ : ∃ k m, name ++ [literal] = k :: m ∧ k.cls ≠ .newline := by
          cases hp with
          | bare hl => exact ⟨literal, [], rfl, by rw [hl]; simp⟩
          | named hn _ _ _ => exact ⟨_, _, rfl, by rw [hn]; simp⟩
        rw [stretches, hk]
        exact Thinned.drop (x := []) (by simp) hcls (ih hps seen)
      · rw [List.append_cons, List.append_assoc]
        refine Thinned.append_left (fun m hm => ?_) (ih hps _)
        rw [stretches, List.getLast?_append, List.getLast?_singleton] at hm
        obtain rfl := Option.some.inj hm
        rw [hliteral]
        rfl

namespace Segment

/-- What remains of segments is what they are without some specs and imports. -/
theorem Loose.thinned {gs : List Segment} (h : Loose gs) (hgs : ∀ g ∈ gs, g.IsItem) (seen : List String) :
    Thinned (joined gs) (remainders seen gs) := by
  induction h generalizing seen with
  | nil => exact .refl []
  | @cons g gs _ hgap hends hloose ih =>
    obtain ⟨hg, hgs⟩ := List.forall_mem_cons.mp hgs
    have hrest : Thinned (g.gap ++ joined gs) (g.gap ++ remainders (g.paths ++ seen) gs) :=
      (ih hgs _).append_left (isJoint_of_fillers hgap)
    -- what stays before the gap stays with it
    have hbefore : ∀ x, Thinned (x ++ (g.gap ++ joined gs)) (x ++ (g.gap ++ remainders (g.paths ++ seen) gs)) := by
      intro x
      by_cases hnil : gs = []
      · subst hnil
        exact .refl _
      · obtain ⟨l, hl, -⟩ := hends hnil
        rw [← List.append_assoc, ← List.append_assoc]
        refine (ih hgs _).append_left fun m hm => isJoint_of_fillers hgap m ?_
        rwa [List.getLast?_append, Option.or_of_isSome (by simpa using List.ne_nil_of_mem hl)] at hm
    rw [joined_cons, remainders]
    by_cases himport : g.isImport
    · by_cases hall : g.paths.all seen.contains
      · have hnone : g.remainder seen = [] := by
          rw [remainder, if_neg (by simp [himport]), if_pos hall]
        obtain ⟨l, r, hcode, hl⟩ := (hg.isRegion (hg.isImport_iff.mp himport)).first
        rw [hnone, hcode]
        exact Thinned.drop (x := []) (by simp) (by rw [hl]; simp) hrest
      · obtain ⟨head, ps, close, hcode, hparts, -⟩ := hg.exists_parts (hg.isImport_iff.mp himport)
        rw [remainder_eq_of_parts himport hcode hparts hall, hcode]
        have hpaths := paths_eq_of_parts himport hcode hparts
        cases hparts with
        | single hhead hps hns hkinds =>
          rw [(IsImport.isNew_single (.single hhead hps hns hkinds) (hpaths ▸ hall)).kept_eq]
          exact hbefore _
        | @block head o z _ hhead ho hps hz =>
          have hjoint : ∀ l ∈ (head ++ [o]).getLast?, l.cls.isJoint := by
            intro m hm
            rw [List.getLast?_append, List.getLast?_singleton] at hm
            obtain rfl := Option.some.inj hm
            rw [ho]
            rfl
          have hthin := (ImportPart.thinned_kept hps seen (hbefore [z])).append_left hjoint
          simp only [List.append_assoc] at hthin ⊢
          exact hthin
    · rw [remainder, if_pos (by simpa using himport)]
      exact hbefore g.code

/-- The stretches before the first segment that remains of some, and these segments. -/
def remaining (seen : List String) : List Segment → List Lexeme × List Segment
  | [] => ([], [])
  | g :: gs =>
    let rest := remaining (g.paths ++ seen) gs
    if g.isImport && g.paths.all seen.contains then (g.gap ++ rest.1, rest.2)
    else ([], ⟨g.remainder seen, g.node, g.gap ++ rest.1⟩ :: rest.2)

theorem remainders_eq_remaining (seen : List String) (gs : List Segment) :
    remainders seen gs = (remaining seen gs).1 ++ joined (remaining seen gs).2 := by
  induction gs generalizing seen with
  | nil => rfl
  | cons g gs ih =>
    rw [remainders, ih, remaining]
    split
    · next h =>
      obtain ⟨himport, hall⟩ := Bool.and_eq_true_iff.mp h
      rw [remainder, if_neg (by simp [himport]), if_pos hall, List.nil_append, List.append_assoc]
    · rw [List.nil_append, joined_cons, List.append_assoc]

section Remaining

variable {gs : List Segment}

/-- What remains before the first segment that remains is blanks, comments, line ends and semicolons. -/
theorem Loose.isFiller_remaining (h : Loose gs) (seen : List String) : ∀ l ∈ (remaining seen gs).1, l.cls.isFiller := by
  induction h generalizing seen with
  | nil => exact nofun
  | @cons g gs _ hgap _ _ ih =>
    rw [remaining]
    split
    · exact List.forall_mem_append.mpr ⟨hgap, ih _⟩
    · exact nofun

theorem isFiller_fuse {ls : List Lexeme} (h : ∀ l ∈ ls, l.cls.isFiller) : ∀ l ∈ fuse ls, l.cls.isFiller := fun l hl => by
  obtain ⟨m, hm, hcls⟩ := cls_of_mem_fuse hl
  exact hcls ▸ h m hm

/-- The segments that remain may be linked. -/
theorem Loose.remaining (h : Loose gs) (hgs : ∀ g ∈ gs, g.IsItem) (hapart : ∀ g ∈ gs, Apart g.code) (seen : List String) :
    Loose ((remaining seen gs).2.map fused) ∧ ∀ g ∈ (remaining seen gs).2, g.IsFirm := by
  induction h generalizing seen with
  | nil => exact ⟨.nil, nofun⟩
  | @cons g gs hpiece hgap hends hloose ih =>
    obtain ⟨hg, hgs⟩ := List.forall_mem_cons.mp hgs
    obtain ⟨hcode, hapart⟩ := List.forall_mem_cons.mp hapart
    obtain ⟨hrest, hfirm⟩ := ih hgs hapart (g.paths ++ seen)
    rw [Segment.remaining]
    split
    · exact ⟨hrest, hfirm⟩
    · next hstays =>
      have hpiece : ∀ gap gap', ((⟨g.remainder seen, g.node, gap⟩ : Segment).IsItem ∨ IsRegion (g.remainder seen)) ∧
          ((⟨fuse (g.remainder seen), g.node, gap'⟩ : Segment).IsItem ∨ IsRegion (fuse (g.remainder seen))) := by
        intro gap gap'
        by_cases himport : g.isImport
        · have hregion := hg.isRegion_remainder himport (show ¬ g.paths.all seen.contains by simpa [himport] using hstays)
          exact ⟨.inr hregion, .inr hregion.fuse⟩
        · have hsame : g.remainder seen = g.code := by
            rw [remainder, if_pos (by simpa using himport)]
          rw [hsame, hcode.fuse_eq]
          exact ⟨.inl ⟨hg.declares, hg.nonempty⟩, .inl ⟨hg.declares, hg.nonempty⟩⟩
      refine ⟨.cons (hpiece [] _).2 (isFiller_fuse (List.forall_mem_append.mpr ⟨hgap, hloose.isFiller_remaining _⟩))
        (fun hne => ?_) hrest, List.forall_mem_cons.mpr ⟨isFirm_of_piece (hpiece _ []).1, hfirm⟩⟩
      obtain ⟨l, hl, hend⟩ := hends (by
        rintro rfl
        exact hne rfl)
      refine ⟨l, mem_fuse (List.mem_append_left _ hl) ?_, hend⟩
      intro hblank
      rw [Lexeme.isEnd, hblank] at hend
      cases hend

end Remaining

end Segment

/-! ## Reading what remains -/

open Segment

section Outline

variable {s : List Char} {lead : List Lexeme} {gs : List Segment}

/-- The stretches of what remains of a text. -/
theorem Outline.stretches_remainders (h : Outline s lead gs) :
    Thinned (stretches s) (lead ++ remainders [] gs) ∧
    stretches (orderMark s ++ texts (lead ++ remainders [] gs)) = fuse (lead ++ remainders [] gs) := by
  have hloose := h.linked.loose
  have hthin : Thinned (stretches s) (lead ++ remainders [] gs) := by
    rw [h.stretches_eq]
    exact (hloose.thinned h.linked.items []).append_left (isJoint_of_fillers h.noCode.isFiller)
  have hall : lexemes (texts (stretches s)) = stretches s := lexemes_suffix (a := []) rfl
  have hlex := (lexemes_thinned hthin hall h.isSound).1
  refine ⟨hthin, ?_⟩
  rw [(stretches_mark s _).1, hlex]
  rw [hlex]
  intro l hl
  obtain ⟨m, hm, hcls⟩ := cls_of_mem_fuse hl
  exact hcls ▸ h.isSound m (hthin.subset m hm)

theorem Outline.apart (h : Outline s lead gs) : ∀ g ∈ gs, Apart g.code := by
  intro g hg
  obtain ⟨as, bs, rfl⟩ := List.append_of_mem hg
  have hall : Apart (lead ++ joined (as ++ g :: bs)) := apart_of_lexemes h.stretches_eq
  rw [joined_append, joined_cons, ← List.append_assoc] at hall
  exact hall.part

/-- The segments of what remains of a text, where it is read. -/
theorem Outline.alike_remaining (h : Outline s lead gs) {lead' : List Lexeme} {hs : List Segment}
    (h' : Outline (orderMark s ++ texts (lead ++ remainders [] gs)) lead' hs) :
    lead' = fuse (lead ++ (remaining [] gs).1) ∧ List.Forall₂ Alike ((remaining [] gs).2.map fused) hs := by
  have hloose := h.linked.loose
  obtain ⟨hremains, hfirm⟩ := hloose.remaining h.linked.items h.apart []
  refine h'.eq_of_loose ?_ ?_ hremains
  · rw [h.stretches_remainders.2, remainders_eq_remaining, ← List.append_assoc, fuse_joined hfirm]
  · exact isFiller_fuse (List.forall_mem_append.mpr ⟨h.noCode.isFiller, hloose.isFiller_remaining []⟩)

end Outline

/-! ## What is declared beside imports -/

namespace Segment

/-- Whether a segment that is no import declares what a subject names. -/
def declaresBeside (u : Subject) (g : Segment) : Bool := !g.isImport && g.declares u

/-- Imports declare nothing that has a name. -/
theorem IsItem.declares_eq {g : Segment} (h : g.IsItem) (u : Subject) : g.declares u = g.declaresBeside u := by
  by_cases himport : g.isImport
  · rw [declaresBeside, himport, Segment.declares]
    cases hd : g.declared with
    | error e => simp [Except.toOption]
    | ok d =>
      obtain ⟨specs, close, rfl, -⟩ := h.declared_import himport hd
      cases u <;> simp [Except.toOption, Subject.isDeclaredBy]
  · rw [declaresBeside, Bool.eq_false_iff.mpr himport]
    rfl

theorem countP_declares {gs : List Segment} (h : ∀ g ∈ gs, g.IsItem) (u : Subject) :
    gs.countP (declares u) = gs.countP (declaresBeside u) :=
  List.countP_congr fun g hg => by rw [(h g hg).declares_eq u]

theorem Loose.pieces {gs : List Segment} (h : Loose gs) : ∀ g ∈ gs, g.IsItem ∨ IsRegion g.code := by
  induction h with
  | nil => exact nofun
  | cons hpiece _ _ _ ih => exact List.forall_mem_cons.mpr ⟨hpiece, ih⟩

theorem isImport_of_region {g : Segment} (h : IsRegion g.code) : g.isImport := by
  obtain ⟨l, r, hcode, hl⟩ := h.first
  rw [isImport, hcode, List.head?_cons, Option.any_some, decide_eq_true_eq]
  exact hl

theorem isImport_congr {g h : Segment} (hcode : g.code = h.code) : g.isImport = h.isImport := by
  rw [isImport, isImport, hcode]

theorem paths_congr {g h : Segment} (hcode : g.code = h.code) : g.paths = h.paths := by
  rw [paths, paths, isImport_congr hcode, hcode]

section Alike

variable {ks hs : List Segment}

/-- Segments that are alike declare the same beside imports. -/
theorem countP_of_alike (h : List.Forall₂ Alike ks hs) (hks : ∀ k ∈ ks, k.IsItem ∨ IsRegion k.code) (u : Subject) :
    hs.countP (declaresBeside u) = ks.countP (declaresBeside u) := by
  induction h with
  | nil => rfl
  | @cons k h ks hs halike _ ih =>
    obtain ⟨hk, hks⟩ := List.forall_mem_cons.mp hks
    have hsame : h.declaresBeside u = k.declaresBeside u := by
      rw [declaresBeside, declaresBeside, ← isImport_congr halike.code]
      rcases hk with hitem | hregion
      · rw [declares, declares, isClause, isClause, declared, declared, halike.code, halike.node hitem]
      · rw [isImport_of_region hregion]
        rfl
    rw [List.countP_cons, List.countP_cons, ih hks, hsame]

theorem paths_of_alike (h : List.Forall₂ Alike ks hs) : hs.flatMap paths = ks.flatMap paths := by
  induction h with
  | nil => rfl
  | cons halike _ ih => rw [List.flatMap_cons, List.flatMap_cons, ih, paths_congr halike.code]

theorem Distinct.of_alike (h : List.Forall₂ Alike ks hs) (hks : Distinct ks) : Distinct hs := by
  refine ⟨by rw [paths_of_alike h]; exact hks.nodup, ?_⟩
  have hnonempty := hks.nonempty
  clear hks
  induction h with
  | nil => exact nofun
  | cons halike _ ih =>
    obtain ⟨hk, hks⟩ := List.forall_mem_cons.mp hnonempty
    rw [isImport_congr halike.code, paths_congr halike.code] at hk
    exact List.forall_mem_cons.mpr ⟨hk, ih hks⟩

end Alike

/-! ## What is declared by what remains -/

section Remaining

variable {gs : List Segment}

/-- What remains declares what was declared, beside imports. -/
theorem countP_remaining (hgs : ∀ g ∈ gs, g.IsItem) (hapart : ∀ g ∈ gs, Apart g.code) (u : Subject) (seen : List String) :
    ((remaining seen gs).2.map fused).countP (declaresBeside u) = gs.countP (declaresBeside u) := by
  induction gs generalizing seen with
  | nil => rfl
  | cons g gs ih =>
    obtain ⟨hg, hgs⟩ := List.forall_mem_cons.mp hgs
    obtain ⟨hcode, hapart⟩ := List.forall_mem_cons.mp hapart
    have ih := ih hgs hapart (g.paths ++ seen)
    rw [remaining, List.countP_cons]
    by_cases himport : g.isImport
    · have hnone : g.declaresBeside u = false := by rw [declaresBeside, himport]; rfl
      rw [hnone]
      split
      · exact ih
      · next hstays =>
        have hregion := hg.isRegion_remainder himport (show ¬ g.paths.all seen.contains by simpa [himport] using hstays)
        have himports : ∀ gap, (fused ⟨g.remainder seen, g.node, gap⟩).isImport := fun gap =>
          isImport_of_region (show IsRegion (fuse (g.remainder seen)) from hregion.fuse)
        rw [List.map_cons, List.countP_cons, ih, declaresBeside, himports]
        rfl
    · have hsame : g.remainder seen = g.code := by
        rw [remainder, if_pos (by simpa using himport)]
      rw [if_neg (by simp [himport]), List.map_cons, List.countP_cons, ih, hsame]
      congr 2
      rw [fused, hcode.fuse_eq]
      rfl

theorem remainder_subset (seen : List String) (g : Segment) : ∀ l ∈ g.remainder seen, l ∈ g.code := by
  intro l hl
  rw [remainder] at hl
  split at hl
  · exact hl
  · split at hl
    · cases hl
    · have hmem := ImportPart.kept_subset seen _ l hl
      rwa [ImportPart.code_ofCode] at hmem

/-- The paths of a segment that remains. -/
theorem IsItem.paths_stays {g : Segment} (hg : g.IsItem) (hcode : Apart g.code) {seen : List String}
    (hstays : ¬ (g.isImport && g.paths.all seen.contains)) (gap : List Lexeme) :
    let k := fused ⟨g.remainder seen, g.node, gap⟩
    k.paths.Nodup ∧ (∀ x ∈ k.paths, x ∈ g.paths ∧ x ∉ seen) ∧ (∀ x ∈ g.paths, x ∈ seen ∨ x ∈ k.paths) ∧
      (k.isImport → k.paths ≠ []) := by
  intro k
  by_cases himport : g.isImport
  · have hnot : ¬ g.paths.all seen.contains := by simpa [himport] using hstays
    have hregion : IsRegion k.code := (hg.isRegion_remainder himport hnot).fuse
    have hpaths : k.paths = ImportPart.pathsAmong (g.remainder seen) := by
      rw [paths, if_pos (isImport_of_region hregion)]
      exact ImportPart.pathsAmong_fuse _
    obtain ⟨hnodup, hnew, hall⟩ := hg.remainder_paths himport hnot
    rw [hpaths]
    refine ⟨hnodup, fun x hx => ⟨?_, hnew x hx⟩, hall, fun _ hnil => hnot ?_⟩
    · obtain ⟨l, hl, rfl⟩ := List.mem_map.mp hx
      obtain ⟨hl, hliteral⟩ := List.mem_filter.mp hl
      rw [paths, if_pos himport]
      exact List.mem_map_of_mem (List.mem_filter.mpr ⟨remainder_subset seen g l hl, hliteral⟩)
    · rw [hnil] at hall
      exact List.all_eq_true.mpr fun x hx => List.contains_iff_mem.mpr ((hall x hx).resolve_right List.not_mem_nil)
  · have hsame : k.code = g.code := by
      show fuse (g.remainder seen) = g.code
      rw [remainder, if_pos (by simpa using himport), hcode.fuse_eq]
    have hnone : g.paths = [] := if_neg himport
    rw [paths_congr hsame, isImport_congr hsame, hnone]
    exact ⟨List.nodup_nil, List.forall_mem_nil _, List.forall_mem_nil _, fun h => absurd h himport⟩

/-- What remains imports each path once that was not seen. -/
theorem paths_remaining (hgs : ∀ g ∈ gs, g.IsItem) (hapart : ∀ g ∈ gs, Apart g.code) (seen : List String) :
    Distinct ((remaining seen gs).2.map fused) ∧
    (∀ x ∈ ((remaining seen gs).2.map fused).flatMap paths, x ∉ seen) ∧
      ∀ x ∈ gs.flatMap paths, x ∈ seen ∨ x ∈ ((remaining seen gs).2.map fused).flatMap paths := by
  induction gs generalizing seen with
  | nil => exact ⟨⟨List.nodup_nil, nofun⟩, nofun, nofun⟩
  | cons g gs ih =>
    obtain ⟨hg, hgs⟩ := List.forall_mem_cons.mp hgs
    obtain ⟨hcode, hapart⟩ := List.forall_mem_cons.mp hapart
    obtain ⟨⟨hnodup, hnonempty⟩, hnew, hall⟩ := ih hgs hapart (g.paths ++ seen)
    rw [remaining, List.flatMap_cons]
    by_cases hstays : g.isImport && g.paths.all seen.contains
    · rw [if_pos hstays]
      refine ⟨⟨hnodup, hnonempty⟩, fun x hx hmem => hnew x hx (List.mem_append_right _ hmem), fun x hx => ?_⟩
      have hseen : ∀ y ∈ g.paths, y ∈ seen := fun y hy =>
        List.contains_iff_mem.mp (List.all_eq_true.mp (Bool.and_eq_true_iff.mp hstays).2 y hy)
      rcases List.mem_append.mp hx with hx | hx
      · exact .inl (hseen x hx)
      · rcases hall x hx with hmem | hmem
        · exact .inl ((List.mem_append.mp hmem).elim (hseen x) id)
        · exact .inr hmem
    · obtain ⟨hfirst, hwithin, hcovers, hne⟩ := hg.paths_stays hcode hstays (g.gap ++ (remaining (g.paths ++ seen) gs).1)
      rw [if_neg hstays, List.map_cons, List.flatMap_cons]
      refine ⟨⟨?_, List.forall_mem_cons.mpr ⟨hne, hnonempty⟩⟩, ?_, fun x hx => ?_⟩
      · rw [List.flatMap_cons, List.nodup_append]
        refine ⟨hfirst, hnodup, fun x hx y hy => ?_⟩
        rintro rfl
        exact hnew x hy (List.mem_append_left _ (hwithin x hx).1)
      · refine List.forall_mem_append.mpr ⟨fun x hx => (hwithin x hx).2, fun x hx hmem => ?_⟩
        exact hnew x hx (List.mem_append_right _ hmem)
      · rcases List.mem_append.mp hx with hx | hx
        · exact (hcovers x hx).imp_right (List.mem_append_left _)
        · rcases hall x hx with hmem | hmem
          · rcases List.mem_append.mp hmem with hmem | hmem
            · exact (hcovers x hmem).imp_right (List.mem_append_left _)
            · exact .inl hmem
          · exact .inr (List.mem_append_right _ hmem)

end Remaining

end Segment

/-- Where what remains of a text is read, it declares what the text did, and imports each of its paths once. -/
theorem Outline.withoutRepeated {s : List Char} {lead lead' : List Lexeme} {gs hs : List Segment} (h : Outline s lead gs)
    (h' : Outline (orderMark s ++ texts (lead ++ remainders [] gs)) lead' hs) :
    (∀ u, hs.countP (Segment.declares u) = gs.countP (Segment.declares u)) ∧ Distinct hs ∧
      ∀ x ∈ gs.flatMap paths, x ∈ hs.flatMap paths := by
  have halike := (h.alike_remaining h').2
  obtain ⟨hdistinct, -, hall⟩ := paths_remaining h.linked.items h.apart []
  have hpieces := (h.linked.loose.remaining h.linked.items h.apart []).1.pieces
  refine ⟨fun u => ?_, hdistinct.of_alike halike, fun x hx => ?_⟩
  · rw [countP_declares h'.linked.items, countP_declares h.linked.items, countP_of_alike halike hpieces,
      countP_remaining h.linked.items h.apart]
  · rw [paths_of_alike halike]
    exact (hall x hx).resolve_left List.not_mem_nil

end GoSplice.Syntax
