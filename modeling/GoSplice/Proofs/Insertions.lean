import GoSplice.Proofs.Remainders

/-!
# Imports among segments

An import that is put into a file is one more among its segments: a line more inside the parentheses
of the last import, or an import on the line below it.  If its path was imported already, nothing
remains of it where the repeated imports are taken out, but white space at one place:

    Added name path gs hs → hs declare what gs do, and import path beside what gs do
    Slot seen gs k r → what remains of gs is k, then r                    (Slot.remainders_eq)
    Slot seen gs k r → Added name path gs hs, path is among gs →
      Slot seen hs (k ++ w) (v ++ r), where w and v are white             (Slot.added)
-/

namespace GoSplice.Syntax

open Segment

variable {name path : List Char}

/-! ## Lines with a spec -/

/-- The local name of a spec, and the blank behind it. -/
def localStretches (name : List Char) : List Lexeme :=
  if name = [] then [] else [⟨.token (importNameKind name), name⟩, space]

theorem specStretches_eq (name path : List Char) :
    specStretches name path = localStretches name ++ [quotedStretch path] := by
  unfold specStretches localStretches
  split <;> rfl

/-- The parts of a line with a spec. -/
def specLine (name path : List Char) : List ImportPart :=
  [.other ⟨.blank, ['\t']⟩, .spec (localStretches name) (quotedStretch path), .other ⟨.newline, ['\n']⟩]

theorem code_specLine (name path : List Char) :
    ImportPart.code (specLine name path) = ⟨.blank, ['\t']⟩ :: specStretches name path ++ [⟨.newline, ['\n']⟩] := by
  simp [specLine, specStretches_eq, ImportPart.stretches]

theorem fits_spec (h : IsImportName name) : (ImportPart.spec (localStretches name) (quotedStretch path)).Fits := by
  unfold localStretches
  split
  · exact .bare rfl
  · next hne => exact .named rfl (importNameKind_mem h hne) (List.forall_mem_singleton.mpr nofun) rfl

theorem fits_specLine (h : IsImportName name) : ∀ p ∈ specLine name path, p.Fits :=
  List.forall_mem_cons.mpr ⟨.other nofun, List.forall_mem_cons.mpr ⟨fits_spec h,
    List.forall_mem_singleton.mpr (.other nofun)⟩⟩

theorem path_quotedStretch (h : IsPlainText path) : (quotedStretch path).path = String.ofList path := by
  rw [Lexeme.path, quotedStretch, ofLiteral?_plain h]
  rfl

theorem paths_specLine (h : IsPlainText path) : ImportPart.paths (specLine name path) = [String.ofList path] := by
  simp [specLine, ImportPart.paths, path_quotedStretch h]

/-- The segment of an import, and what stands behind it. -/
def importSegment (name path : List Char) (gap : List Lexeme) : Segment :=
  ⟨importStretches name path, importNode name path, gap⟩

theorem isItem_importSegment (h : IsImportName name) (gap : List Lexeme) : (importSegment name path gap).IsItem := by
  have hall : ∀ l ∈ specStretches name path, l.text ≠ [] := by
    unfold specStretches
    split
    · exact List.forall_mem_singleton.mpr (List.cons_ne_nil _ _)
    · next hne =>
      exact List.forall_mem_cons.mpr ⟨hne, List.forall_mem_cons.mpr ⟨List.cons_ne_nil _ _,
        List.forall_mem_singleton.mpr (List.cons_ne_nil _ _)⟩⟩
  exact ⟨declares_import h, List.forall_mem_cons.mpr ⟨List.cons_ne_nil _ _,
    List.forall_mem_cons.mpr ⟨List.cons_ne_nil _ _, hall⟩⟩⟩

theorem isImport_importSegment (name path : List Char) (gap : List Lexeme) : (importSegment name path gap).isImport := rfl

/-- The parts of an import of one spec. -/
theorem isImport_spec (h : IsImportName name) :
    IsImport [⟨.token (.keyword .importK), "import".toList⟩, space]
      [.spec (localStretches name) (quotedStretch path)] [] := by
  refine @IsImport.single _ _ (kindsOf (localStretches name)) rfl (List.forall_mem_singleton.mpr (fits_spec h)) ?_ ?_
  · unfold localStretches
    split
    · exact nofun
    · next hne => exact List.forall_mem_singleton.mpr (importNameKind_mem h hne)
  · rw [ImportPart.code_cons, ImportPart.code_nil, List.append_nil, ImportPart.stretches, kindsOf_append]
    rfl

theorem importSegment_code (name path : List Char) (gap : List Lexeme) : (importSegment name path gap).code =
    ⟨.token (.keyword .importK), "import".toList⟩ :: space :: localStretches name ++ [quotedStretch path] := by
  rw [importSegment, importStretches, specStretches_eq]
  rfl

theorem paths_importSegment (h : IsImportName name) (hpath : IsPlainText path) (gap : List Lexeme) :
    (importSegment name path gap).paths = [String.ofList path] := by
  rw [Segment.paths_eq_of_parts (isImport_importSegment name path gap) _ (@isImport_spec name path h),
    ImportPart.paths, ImportPart.paths, path_quotedStretch hpath]
  simp [importSegment, importStretches, specStretches_eq, ImportPart.stretches]

/-! ## Segments with an import more -/

section IsImport

variable {head close : List Lexeme} {ps qs : List ImportPart}

theorem IsImport.head_ne_nil (h : IsImport head ps close) : head ≠ [] := by
  cases h with
  | single hhead _ _ _ =>
    rintro rfl
    cases hhead
  | block _ _ _ _ => exact List.append_ne_nil_of_right_ne_nil _ (List.cons_ne_nil _ _)

/-- Imports in parentheses can hold more parts. -/
theorem IsImport.append {z : Lexeme} (h : IsImport head ps [z]) (hqs : ∀ p ∈ qs, p.Fits) :
    IsImport head (ps ++ qs) [z] := by
  cases h with
  | block hhead ho hps hz => exact .block hhead ho (List.forall_mem_append.mpr ⟨hps, hqs⟩) hz

theorem IsImport.closes {z : Lexeme} (h : IsImport head ps [z]) : z.cls = .token (.operator .rightParen) := by
  cases h with
  | block _ _ _ hz => exact hz

end IsImport

/-- Whether parts are a line with a spec, or one behind a line end. -/
def IsSpecLine (name path : List Char) (qs : List ImportPart) : Prop :=
  qs = specLine name path ∨ qs = .other ⟨.newline, ['\n']⟩ :: specLine name path

section IsSpecLine

variable {qs : List ImportPart}

theorem IsSpecLine.fits (h : IsSpecLine name path qs) (hname : IsImportName name) : ∀ p ∈ qs, p.Fits := by
  rcases h with rfl | rfl
  · exact fits_specLine hname
  · exact List.forall_mem_cons.mpr ⟨.other nofun, fits_specLine hname⟩

theorem IsSpecLine.paths (h : IsSpecLine name path qs) (hpath : IsPlainText path) :
    ImportPart.paths qs = [String.ofList path] := by
  have hline := @paths_specLine name path hpath
  rcases h with rfl | rfl <;> exact hline

end IsSpecLine

namespace Segment

/-- Segments, and these with an import more: a line more in the last import, or an import below it. -/
inductive Added (name path : List Char) : List Segment → List Segment → Prop
  | block {p : Segment} {bs : List Segment} {head : List Lexeme} {ps qs : List ImportPart} {z : Lexeme} :
      p.isImport → (∀ g ∈ bs, g.isImport = false) → p.code = head ++ (ImportPart.code ps ++ [z]) →
      IsImport head ps [z] → IsSpecLine name path qs →
      Added name path (p :: bs) (⟨head ++ (ImportPart.code (ps ++ qs) ++ [z]), p.node, p.gap⟩ :: bs)
  | single {p : Segment} {bs : List Segment} {c e gap : List Lexeme} {l : Lexeme} :
      p.isImport → (∀ g ∈ bs, g.isImport = false) → p.code = c ++ [l] → l.cls = .token .text →
      p.gap = e ++ gap → e = [] ∨ e = [⟨.newline, ['\n']⟩] →
      Added name path (p :: bs) ({ p with gap := [⟨.newline, ['\n']⟩] } ::
        importSegment name path (⟨.newline, ['\n']⟩ :: gap) :: bs)
  | there {g : Segment} {gs hs : List Segment} : Added name path gs hs → Added name path (g :: gs) (g :: hs)

theorem isImport_of_head {g h : Segment} {head x y : List Lexeme} (hg : g.code = head ++ x) (hh : h.code = head ++ y)
    (hne : head ≠ []) : h.isImport = g.isImport := by
  obtain ⟨l, r, rfl⟩ := List.exists_cons_of_ne_nil hne
  rw [isImport, isImport, hg, hh]
  rfl

namespace Added

variable {gs hs : List Segment}

theorem append_left (h : Added name path gs hs) (as : List Segment) : Added name path (as ++ gs) (as ++ hs) := by
  induction as with
  | nil => exact h
  | cons a as ih => exact .there ih

/-- An import with a line more is one. -/
theorem isRegion {p : Segment} {head : List Lexeme} {ps qs : List ImportPart} {z : Lexeme}
    (hp : p.IsItem ∨ IsRegion p.code) (himport : p.isImport) (hcode : p.code = head ++ (ImportPart.code ps ++ [z]))
    (hparts : IsImport head (ps ++ qs) [z]) : IsRegion (head ++ (ImportPart.code (ps ++ qs) ++ [z])) := by
  have hregion : IsRegion p.code := hp.elim (fun hitem => hitem.isRegion (hitem.isImport_iff.mp himport)) id
  obtain ⟨l, r, hlr, hl⟩ := hregion.first
  obtain ⟨m, t, rfl⟩ := List.exists_cons_of_ne_nil hparts.head_ne_nil
  rw [hcode] at hlr
  obtain rfl : m = l := (List.cons.inj hlr).1
  refine ⟨hparts.kinds, ⟨m, _, rfl, hl⟩, ⟨m :: t ++ ImportPart.code (ps ++ qs), z, _, ?_, hparts.closes⟩⟩
  rw [List.append_assoc]

/-- Loose segments with an import more are loose. -/
theorem loose (h : Added name path gs hs) (hgs : Loose gs) (hname : IsImportName name) : Loose hs := by
  induction h with
  | block himport _ hcode hparts hqs =>
    cases hgs with
    | cons hpiece hgap hends hbs =>
      exact .cons (.inr (isRegion hpiece himport hcode (hparts.append (hqs.fits hname)))) hgap hends hbs
  | @single p bs c e gap l himport _ hcode hl hgap' he =>
    cases hgs with
    | cons hpiece hgap hends hbs =>
      rw [hgap'] at hgap
      have hline : (⟨.newline, ['\n']⟩ : Lexeme).isEnd := rfl
      refine .cons (hpiece.imp_left fun hitem => ⟨hitem.declares, hitem.nonempty⟩) (List.forall_mem_singleton.mpr rfl) (fun _ => ⟨_, List.mem_singleton_self _, hline⟩)
        (.cons (.inl (isItem_importSegment hname _)) ?_ (fun _ => ⟨_, List.mem_cons_self, hline⟩) hbs)
      exact List.forall_mem_cons.mpr ⟨rfl, (List.forall_mem_append.mp hgap).2⟩
  | there _ ih =>
    cases hgs with
    | cons hpiece hgap hends hrest =>
      refine .cons hpiece hgap (fun _ => hends ?_) (ih hrest)
      rintro rfl
      contradiction

/-- Segments with an import more declare the same beside imports. -/
theorem countP_declaresBeside (h : Added name path gs hs) (u : Subject) :
    hs.countP (declaresBeside u) = gs.countP (declaresBeside u) := by
  induction h with
  | @block p bs head ps qs z himport _ hcode hparts _ =>
    have hnew : (⟨head ++ (ImportPart.code (ps ++ qs) ++ [z]), p.node, p.gap⟩ : Segment).isImport :=
      (isImport_of_head hcode rfl hparts.head_ne_nil).trans himport
    rw [List.countP_cons, List.countP_cons, declaresBeside, declaresBeside, hnew, himport]
    rfl
  | @single p bs c e gap l himport _ _ _ _ _ =>
    have hold : ({ p with gap := [⟨.newline, ['\n']⟩] } : Segment).isImport := himport
    simp [declaresBeside, himport, hold, isImport_importSegment]
  | there _ ih => rw [List.countP_cons, List.countP_cons, ih]

/-- Segments with an import more import its path beside what they imported. -/
theorem mem_paths (h : Added name path gs hs) (hname : IsImportName name) (hpath : IsPlainText path) (x : String) :
    x ∈ hs.flatMap paths ↔ x = String.ofList path ∨ x ∈ gs.flatMap paths := by
  induction h with
  | @block p bs head ps qs z himport _ hcode hparts hqs =>
    have hnew : (⟨head ++ (ImportPart.code (ps ++ qs) ++ [z]), p.node, p.gap⟩ : Segment).isImport :=
      (isImport_of_head hcode rfl hparts.head_ne_nil).trans himport
    rw [List.flatMap_cons, List.flatMap_cons, paths_eq_of_parts hnew rfl (hparts.append (hqs.fits hname)),
      paths_eq_of_parts himport hcode hparts, ImportPart.paths_append, hqs.paths hpath]
    simp only [List.mem_append, List.mem_singleton]
    tauto
  | @single p bs c e gap l himport _ _ _ _ _ =>
    rw [List.flatMap_cons, List.flatMap_cons, List.flatMap_cons, paths_importSegment hname hpath,
      paths_congr (g := { p with gap := [⟨.newline, ['\n']⟩] }) (h := p) rfl]
    simp only [List.mem_append, List.mem_singleton]
    tauto
  | there _ ih =>
    rw [List.flatMap_cons, List.flatMap_cons, List.mem_append, List.mem_append, ih]
    tauto

theorem exists_isImport (h : Added name path gs hs) : ∃ g ∈ gs, g.isImport := by
  induction h with
  | block himport _ _ _ _ => exact ⟨_, List.mem_cons_self, himport⟩
  | single himport _ _ _ _ _ => exact ⟨_, List.mem_cons_self, himport⟩
  | there _ ih =>
    obtain ⟨g, hg, himport⟩ := ih
    exact ⟨g, List.mem_cons_of_mem _ hg, himport⟩

end Added

end Segment

/-! ## What remains with an import more -/

namespace ImportPart

theorem kept_congr {seen seen' : List String} (h : ∀ x, x ∈ seen ↔ x ∈ seen') (ps : List ImportPart) :
    kept seen ps = kept seen' ps := by
  induction ps generalizing seen seen' with
  | nil => rfl
  | cons p ps ih =>
    cases p with
    | other l => exact congrArg (l :: ·) (ih h)
    | spec name literal =>
      have hsame : seen.contains literal.path = seen'.contains literal.path :=
        Bool.eq_iff_iff.mpr (by rw [List.contains_iff_mem, List.contains_iff_mem, h])
      have hmore : ∀ x, x ∈ literal.path :: seen ↔ x ∈ literal.path :: seen' := fun x => by
        rw [List.mem_cons, List.mem_cons, h]
      rw [kept, kept, hsame, ih h, ih hmore]

/-- What remains of parts behind others is what remains of them with the paths of the others seen. -/
theorem kept_append (seen : List String) (ps qs : List ImportPart) :
    kept seen (ps ++ qs) = kept seen ps ++ kept (paths ps ++ seen) qs := by
  induction ps generalizing seen with
  | nil => rfl
  | cons p ps ih =>
    cases p with
    | other l => exact congrArg (l :: ·) (ih seen)
    | spec name literal =>
      rw [List.cons_append, kept, kept, paths]
      split
      · next hseen =>
        rw [ih]
        refine congrArg (kept seen ps ++ ·) (kept_congr (fun x => ?_) qs)
        have hmem := List.contains_iff_mem.mp hseen
        simp only [List.mem_append, List.cons_append, List.mem_cons]
        constructor
        · exact .inr
        · rintro (rfl | hx)
          · exact .inr hmem
          · exact hx
      · rw [ih, List.append_assoc, List.cons_append]
        refine congrArg (fun x => name ++ literal :: (kept (literal.path :: seen) ps ++ x)) (kept_congr (fun x => ?_) qs)
        simp only [List.mem_append, List.cons_append, List.mem_cons]
        tauto

end ImportPart

/-- Whether stretches are tabs and line ends. -/
def IsWhite (ls : List Lexeme) : Prop := ∀ l ∈ ls, l = ⟨.blank, ['\t']⟩ ∨ l = ⟨.newline, ['\n']⟩

theorem IsWhite.append {a b : List Lexeme} (ha : IsWhite a) (hb : IsWhite b) : IsWhite (a ++ b) :=
  List.forall_mem_append.mpr ⟨ha, hb⟩

theorem isWhite_line : IsWhite [⟨.newline, ['\n']⟩] := List.forall_mem_singleton.mpr (.inr rfl)

/-- Nothing but white space remains of a line with a spec of a path that was seen. -/
theorem IsSpecLine.kept {qs : List ImportPart} (h : IsSpecLine name path qs) (hpath : IsPlainText path)
    {seen : List String} (hseen : String.ofList path ∈ seen) : IsWhite (ImportPart.kept seen qs) := by
  have hline : ImportPart.kept seen (specLine name path) = [⟨.blank, ['\t']⟩, ⟨.newline, ['\n']⟩] := by
    rw [specLine, ImportPart.kept, ImportPart.kept, path_quotedStretch hpath, if_pos (List.contains_iff_mem.mpr hseen)]
    rfl
  have hwhite : IsWhite [⟨.blank, ['\t']⟩, ⟨.newline, ['\n']⟩] := List.forall_mem_cons.mpr ⟨.inl rfl, isWhite_line⟩
  rcases h with rfl | rfl
  · rwa [hline]
  · rw [ImportPart.kept, hline]
    exact isWhite_line.append hwhite

theorem IsImport.ofCode_open {head : List Lexeme} {ps : List ImportPart} {z : Lexeme} (h : IsImport head ps [z]) :
    ImportPart.ofCode [] (head ++ ImportPart.code ps) = head.map ImportPart.other ++ ps := by
  have hall := ImportPart.ofCode_code h.fits []
  have hhead : ∀ l ∈ head, l.isLiteral = false ∧ l.isLocalName = false := by
    cases h with
    | block hhead ho _ _ =>
      refine ImportPart.isOther_of_kinds fun k hk => ?_
      rw [kindsOf_append, hhead, kindsOf_singleton ho] at hk
      revert hk
      decide +revert
  rw [List.append_nil] at hall
  rw [ImportPart.ofCode_others hhead, hall]
  simp [ImportPart.ofCode]

namespace Segment

theorem remainders_of_not_imports {seen : List String} {gs : List Segment} (h : ∀ g ∈ gs, g.isImport = false) :
    remainders seen gs = joined gs := by
  induction gs generalizing seen with
  | nil => rfl
  | cons g gs ih =>
    obtain ⟨hg, hgs⟩ := List.forall_mem_cons.mp h
    rw [remainders, joined_cons, ih hgs, remainder, hg]
    rfl

theorem paths_of_not_imports {gs : List Segment} (h : ∀ g ∈ gs, g.isImport = false) : gs.flatMap paths = [] :=
  List.flatMap_eq_nil_iff.mpr fun g hg => by rw [paths, h g hg]; rfl

section Alike

variable {gs hs : List Segment}

theorem joined_of_alike (h : List.Forall₂ Alike gs hs) : joined gs = joined hs := by
  induction h with
  | nil => rfl
  | cons halike _ ih => rw [joined_cons, joined_cons, ih, halike.code, halike.gap]

theorem not_imports_of_alike (h : List.Forall₂ Alike gs hs) (hgs : ∀ g ∈ gs, g.isImport = false) :
    ∀ g ∈ hs, g.isImport = false := by
  induction h with
  | nil => exact hgs
  | cons halike _ ih =>
    obtain ⟨hg, hgs⟩ := List.forall_mem_cons.mp hgs
    exact List.forall_mem_cons.mpr ⟨(isImport_congr halike.code).symm.trans hg, ih hgs⟩

theorem remainder_congr {g h : Segment} (hcode : g.code = h.code) {seen : List String} :
    g.remainder seen = h.remainder seen := by
  rw [remainder, remainder, isImport_congr hcode, paths_congr hcode, hcode]

end Alike

/-- The place where the next import is put into segments, if some paths were seen: what remains of the
stretches before it, and the stretches behind it. -/
inductive Slot : List String → List Segment → List Lexeme → List Lexeme → Prop
  | block {seen : List String} {p : Segment} {bs : List Segment} {head : List Lexeme} {ps : List ImportPart}
      {z : Lexeme} : p.isImport → (∀ g ∈ bs, g.isImport = false) → p.code = head ++ (ImportPart.code ps ++ [z]) →
      IsImport head ps [z] → ¬ p.paths.all seen.contains →
      Slot seen (p :: bs) (ImportPart.kept seen (ImportPart.ofCode [] (head ++ ImportPart.code ps)))
        (z :: (p.gap ++ joined bs))
  | single {seen : List String} {p : Segment} {bs : List Segment} {c : List Lexeme} {l : Lexeme} :
      p.isImport → (∀ g ∈ bs, g.isImport = false) → p.code = c ++ [l] → l.cls = .token .text →
      Slot seen (p :: bs) (p.remainder seen) (p.gap ++ joined bs)
  | there {seen : List String} {g : Segment} {gs : List Segment} {k r : List Lexeme} :
      Slot (g.paths ++ seen) gs k r → Slot seen (g :: gs) (g.remainder seen ++ (g.gap ++ k)) r

namespace Slot

variable {seen : List String} {gs hs : List Segment} {k r : List Lexeme}

theorem exists_isImport (h : Slot seen gs k r) : ∃ g ∈ gs, g.isImport := by
  induction h with
  | block himport _ _ _ _ => exact ⟨_, List.mem_cons_self, himport⟩
  | single himport _ _ _ => exact ⟨_, List.mem_cons_self, himport⟩
  | there _ ih =>
    obtain ⟨g, hg, himport⟩ := ih
    exact ⟨g, List.mem_cons_of_mem _ hg, himport⟩

/-- What remains of segments is what remains before the place, and all behind it. -/
theorem remainders_eq (h : Slot seen gs k r) : remainders seen gs = k ++ r := by
  induction h with
  | block himport hlast hcode hparts hnot =>
    rw [remainders, remainders_of_not_imports hlast, remainder_eq_of_parts himport hcode hparts hnot,
      hparts.ofCode_open, ImportPart.kept_others]
    simp
  | single _ hlast _ _ => rw [remainders, remainders_of_not_imports hlast]
  | there _ ih =>
    rw [remainders, ih]
    simp

/-- The place is the same in segments that are alike. -/
theorem of_alike (h : Slot seen gs k r) (halike : List.Forall₂ Alike gs hs) : Slot seen hs k r := by
  induction h generalizing hs with
  | block himport hlast hcode hparts hnot =>
    cases halike with
    | cons hp hbs =>
      rw [hp.gap, joined_of_alike hbs]
      exact .block ((isImport_congr hp.code).symm.trans himport) (not_imports_of_alike hbs hlast)
        (hp.code.symm.trans hcode) hparts (by rwa [← paths_congr hp.code])
  | single himport hlast hcode hl =>
    cases halike with
    | cons hp hbs =>
      rw [hp.gap, joined_of_alike hbs, remainder_congr hp.code]
      exact .single ((isImport_congr hp.code).symm.trans himport) (not_imports_of_alike hbs hlast)
        (hp.code.symm.trans hcode) hl
  | there _ ih =>
    cases halike with
    | cons hg hgs =>
      rw [remainder_congr hg.code, hg.gap]
      exact .there (paths_congr hg.code ▸ ih hgs)

/-- Where an import of a path that was imported before is put into segments, white space is what
remains of it. -/
theorem added (h : Slot seen gs k r) (hadded : Added name path gs hs) (hname : IsImportName name)
    (hpath : IsPlainText path) (hseen : String.ofList path ∈ seen ∨ String.ofList path ∈ gs.flatMap paths) :
    ∃ w v, Slot seen hs (k ++ w) (v ++ r) ∧ IsWhite w ∧ IsWhite v := by
  induction hadded generalizing seen k with
  | @block p bs head ps qs z himport hlast hcode hparts hqs =>
    have hpaths := paths_eq_of_parts himport hcode hparts
    cases h with
    | @block _ _ _ head' ps' z' _ _ hcode' hparts' hnot =>
      have hsame : (head ++ ImportPart.code ps) ++ [z] = (head' ++ ImportPart.code ps') ++ [z'] := by
        rw [List.append_assoc, ← hcode, hcode', List.append_assoc]
      obtain ⟨hopen, hz⟩ := List.append_inj' hsame rfl
      obtain rfl := (List.cons.inj hz).1
      have hmore := hparts.append (hqs.fits hname)
      have hnew := (isImport_of_head (h := ⟨head ++ (ImportPart.code (ps ++ qs) ++ [z]), p.node, p.gap⟩) hcode rfl
        hparts.head_ne_nil).trans himport
      have hmem : String.ofList path ∈ ImportPart.paths ps ++ seen := by
        rw [List.flatMap_cons, paths_of_not_imports hlast, List.append_nil, hpaths] at hseen
        exact List.mem_append.mpr hseen.symm
      refine ⟨ImportPart.kept (ImportPart.paths ps ++ seen) qs, [], ?_, hqs.kept hpath hmem, List.forall_mem_nil _⟩
      rw [← hopen, hparts.ofCode_open, ImportPart.kept_others, List.append_assoc, ← ImportPart.kept_append,
        ← ImportPart.kept_others, ← hmore.ofCode_open]
      refine .block hnew hlast rfl hmore fun hall => hnot ?_
      rw [paths_eq_of_parts hnew rfl hmore, ImportPart.paths_append, List.all_append, Bool.and_eq_true] at hall
      rw [hpaths]
      exact hall.1
    | @single _ _ _ c l _ _ hcode' hl =>
      have hsame : (head ++ ImportPart.code ps) ++ [z] = c ++ [l] := by rw [List.append_assoc, ← hcode, hcode']
      obtain ⟨-, hz⟩ := List.append_inj' hsame rfl
      rw [← (List.cons.inj hz).1, hparts.closes] at hl
      cases hl
    | there h =>
      obtain ⟨g, hg, himport⟩ := h.exists_isImport
      rw [hlast g hg] at himport
      cases himport
  | @single p bs c e gap l himport hlast hcode hl hgap he =>
    cases h with
    | @block _ _ _ head' ps' z' _ _ hcode' hparts' _ =>
      have hsame : c ++ [l] = (head' ++ ImportPart.code ps') ++ [z'] := by rw [← hcode, hcode', List.append_assoc]
      obtain ⟨-, hz⟩ := List.append_inj' hsame rfl
      rw [(List.cons.inj hz).1, hparts'.closes] at hl
      cases hl
    | single _ _ _ _ =>
      have hnew := @Slot.single (p.paths ++ seen) _ _ _ _
        (isImport_importSegment name path (⟨.newline, ['\n']⟩ :: gap)) hlast (importSegment_code name path _) rfl
      have hnone : (importSegment name path (⟨.newline, ['\n']⟩ :: gap)).remainder (p.paths ++ seen) = [] := by
        rw [List.flatMap_cons, paths_of_not_imports hlast, List.append_nil] at hseen
        rw [remainder, isImport_importSegment, paths_importSegment hname hpath, if_neg (by simp), if_pos]
        rw [List.all_cons, List.all_nil, Bool.and_true, List.contains_iff_mem]
        exact List.mem_append.mpr hseen.symm
      have hslot := Slot.there (g := { p with gap := [⟨.newline, ['\n']⟩] }) hnew
      rw [hnone, remainder_congr (g := { p with gap := [⟨.newline, ['\n']⟩] }) (h := p) rfl] at hslot
      rcases he with rfl | rfl
      · exact ⟨[⟨.newline, ['\n']⟩], [⟨.newline, ['\n']⟩], by simpa [hgap, importSegment] using hslot, isWhite_line, isWhite_line⟩
      · exact ⟨[⟨.newline, ['\n']⟩], [], by simpa [hgap, importSegment] using hslot, isWhite_line, List.forall_mem_nil _⟩
    | there h =>
      obtain ⟨g, hg, himport⟩ := h.exists_isImport
      rw [hlast g hg] at himport
      cases himport
  | @there g gs hs hadded ih =>
    cases h with
    | block _ hlast _ _ _ | single _ hlast _ _ =>
      obtain ⟨g, hg, himport⟩ := hadded.exists_isImport
      rw [hlast g hg] at himport
      cases himport
    | there h =>
      obtain ⟨w, v, hslot, hw, hv⟩ := ih h (by
        rw [List.flatMap_cons, List.mem_append] at hseen
        rw [List.mem_append]
        tauto)
      refine ⟨w, v, ?_, hw, hv⟩
      rw [List.append_assoc, List.append_assoc]
      exact .there hslot

end Slot

end Segment

end GoSplice.Syntax
