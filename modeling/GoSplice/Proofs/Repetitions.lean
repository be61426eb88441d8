import GoSplice.Proofs.PartImports
import GoSplice.Proofs.Segmentation

/-!
# Repeated imports among segments

Which specs of a file are repeated can be told from its stretches, and a pass over repeated imports
leaves the stretches without them:

    Parsed … f s → Outline s lead gs →
      f.withoutRepeatedImports = encode of lead, then what remains of gs    (withoutRepeated_eq)

Where all paths are different and no import is empty, all remains            (remainders_eq).
-/

namespace GoSplice

open Syntax

namespace Syntax

/-! ## The parts of a code -/

def Lexeme.isLiteral (l : Lexeme) : Bool := l.cls = .token .text

/-- Whether a stretch is a local name, where it stands before a path. -/
def Lexeme.isLocalName (l : Lexeme) : Bool := l.kind?.any nameKinds.contains

namespace ImportPart

/-- The parts of an import, given the name and what stands behind it of the spec that is begun. -/
def ofCode : List Lexeme → List Lexeme → List ImportPart
  | name, [] => name.map other
  | name, l :: ls =>
    if l.isLiteral then .spec name l :: ofCode [] ls
    else if !name.isEmpty || l.isLocalName then ofCode (name ++ [l]) ls
    else .other l :: ofCode [] ls

theorem code_ofCode (name ls : List Lexeme) : code (ofCode name ls) = name ++ ls := by
  induction ls generalizing name with
  | nil => rw [ofCode, code_others, List.append_nil]
  | cons l ls ih =>
    rw [ofCode]
    split
    · rw [code_cons, ih, stretches, List.nil_append, List.append_assoc, List.singleton_append]
    · split
      · rw [ih, List.append_assoc, List.singleton_append]
      · next h =>
        obtain rfl : name = [] := by
          cases name with
          | nil => rfl
          | cons n name => simp at h
        rw [code_cons, ih]
        rfl

theorem ofCode_others {a : List Lexeme} (h : ∀ l ∈ a, l.isLiteral = false ∧ l.isLocalName = false) (b : List Lexeme) :
    ofCode [] (a ++ b) = a.map other ++ ofCode [] b := by
  induction a with
  | nil => rfl
  | cons l a ih =>
    obtain ⟨⟨htext, hname⟩, h⟩ := List.forall_mem_cons.mp h
    rw [List.cons_append, ofCode, if_neg (by simp [htext]), if_neg (by simp [hname]), ih h]
    rfl

/-- A spec that is begun goes on up to its literal. -/
theorem ofCode_spec {fill : List Lexeme} (hfill : NoCode fill) {name : List Lexeme} (hname : name ≠ [])
    {literal : Lexeme} (hl : literal.isLiteral) (b : List Lexeme) :
    ofCode name (fill ++ literal :: b) = .spec (name ++ fill) literal :: ofCode [] b := by
  induction fill generalizing name with
  | nil => rw [List.nil_append, ofCode, if_pos hl, List.append_nil]
  | cons l fill ih =>
    obtain ⟨hcls, hfill⟩ := List.forall_mem_cons.mp hfill
    have hempty : name.isEmpty = false := List.isEmpty_eq_false_iff.mpr hname
    rw [List.cons_append, ofCode, if_neg (by simpa [Lexeme.isLiteral] using hcls .text), if_pos (by simp [hempty]),
      ih hfill (by simp), List.append_assoc, List.singleton_append]

theorem isLiteral_iff {l : Lexeme} : l.isLiteral ↔ l.cls = .token .text := decide_eq_true_iff

theorem isLocalName_iff {l : Lexeme} : l.isLocalName ↔ ∃ k, l.cls = .token k ∧ k ∈ nameKinds := by
  rw [Lexeme.isLocalName, Option.any_eq_true]
  simp only [Lexeme.kind?_eq_some, List.contains_iff_mem]

theorem isOther_of_kinds {a : List Lexeme} (h : ∀ k ∈ kindsOf a, k ≠ .text ∧ k ∉ nameKinds) :
    ∀ l ∈ a, l.isLiteral = false ∧ l.isLocalName = false := by
  intro l hl
  refine ⟨Bool.eq_false_iff.mpr fun hlit => ?_, Bool.eq_false_iff.mpr fun hname => ?_⟩
  · exact (h _ (mem_kindsOf.mpr ⟨l, hl, isLiteral_iff.mp hlit⟩)).1 rfl
  · obtain ⟨k, hk, hmem⟩ := isLocalName_iff.mp hname
    exact (h k (mem_kindsOf.mpr ⟨l, hl, hk⟩)).2 hmem

/-- The parts of stretches are the only ones that fit. -/
theorem ofCode_code {ps : List ImportPart} (h : ∀ p ∈ ps, p.Fits) (b : List Lexeme) :
    ofCode [] (code ps ++ b) = ps ++ ofCode [] b := by
  induction ps with
  | nil => rfl
  | cons p ps ih =>
    obtain ⟨hp, hps⟩ := List.forall_mem_cons.mp h
    rw [code_cons, List.append_assoc]
    cases hp with
    | @other l hl =>
      rw [stretches, ofCode_others (a := [l]), ih hps]
      · rfl
      · refine isOther_of_kinds fun k hk => ?_
        obtain ⟨m, hm, hcls⟩ := mem_kindsOf.mp hk
        obtain rfl := List.mem_singleton.mp hm
        obtain rfl := hl k hcls
        decide
    | @bare literal hl =>
      rw [stretches, List.nil_append, List.singleton_append, ofCode, if_pos (isLiteral_iff.mpr hl), ih hps]
      rfl
    | @named n literal k fill hn hk hfill hl =>
      have hname : n.isLocalName := isLocalName_iff.mpr ⟨k, hn, hk⟩
      have hno : n.isLiteral = false := Bool.eq_false_iff.mpr fun hlit => by
        rw [isLiteral_iff, hn] at hlit
        obtain rfl := LexemeClass.token.inj hlit
        revert hk
        decide
      rw [stretches, List.cons_append, List.cons_append, List.append_assoc, List.singleton_append, ofCode,
        if_neg (by simp [hno]), if_pos (by simp [hname]), List.nil_append,
        ofCode_spec hfill (by simp) (isLiteral_iff.mpr hl), ih hps]
      rfl

theorem ofCode_import {head close : List Lexeme} {ps : List ImportPart} (h : IsImport head ps close) :
    ofCode [] (head ++ (code ps ++ close)) = head.map other ++ (ps ++ close.map other) := by
  have hothers : ∀ ks : List Kind, (∀ k ∈ ks, k ≠ .text ∧ k ∉ nameKinds) → ∀ a, kindsOf a = ks → ∀ b,
      ofCode [] (a ++ b) = a.map other ++ ofCode [] b := by
    rintro _ hks a rfl b
    exact ofCode_others (isOther_of_kinds hks) b
  cases h with
  | single hhead hps _ _ =>
    rw [hothers [.keyword .importK] (by decide) head hhead, ofCode_code hps]
    rfl
  | @block head o z _ hhead ho hps hz =>
    have hclose := hothers [.operator .rightParen] (by decide) [z] (kindsOf_singleton hz) []
    rw [List.append_nil] at hclose
    rw [hothers [.keyword .importK, .operator .leftParen] (by decide) (head ++ [o]) (by rw [kindsOf_append, hhead, kindsOf_singleton ho]; rfl), ofCode_code hps, hclose]
    rfl

/-! ## Paths -/

/-- The paths of the specs among parts. -/
def paths : List ImportPart → List String
  | [] => []
  | .other _ :: ps => paths ps
  | .spec _ literal :: ps => literal.path :: paths ps

theorem paths_append (ps qs : List ImportPart) : paths (ps ++ qs) = paths ps ++ paths qs := by
  induction ps with
  | nil => rfl
  | cons p ps ih =>
    cases p with
    | other l => exact ih
    | spec name literal => exact congrArg (literal.path :: ·) ih

theorem paths_others (ls : List Lexeme) : paths (ls.map other) = [] := by
  induction ls with
  | nil => rfl
  | cons l ls ih => exact ih

/-- The paths of parts are those of the literals among their stretches. -/
theorem paths_ofCode (name ls : List Lexeme) : paths (ofCode name ls) = (ls.filter Lexeme.isLiteral).map Lexeme.path := by
  induction ls generalizing name with
  | nil => exact paths_others name
  | cons l ls ih =>
    rw [ofCode]
    split
    · next h => rw [List.filter_cons_of_pos h, List.map_cons, paths, ih]
    · next h =>
      rw [List.filter_cons_of_neg h]
      split
      · exact ih _
      · exact ih _

/-! ## What remains -/

/-- The stretches of parts without specs of paths that were seen. -/
def kept (seen : List String) : List ImportPart → List Lexeme
  | [] => []
  | .other l :: ps => l :: kept seen ps
  | .spec name literal :: ps =>
    if seen.contains literal.path then kept seen ps
    else name ++ literal :: kept (literal.path :: seen) ps

/-- The ranges of specs of paths that were seen, among parts that begin at an offset. -/
def repeatedRanges (seen : List String) (o : Nat) : List ImportPart → List Splice.Range
  | [] => []
  | .other l :: ps => repeatedRanges seen (o + byteWidth l.text) ps
  | .spec name literal :: ps =>
    let stop := o + byteWidth (texts (name ++ [literal]))
    if seen.contains literal.path then ⟨o, stop⟩ :: repeatedRanges seen stop ps
    else repeatedRanges (literal.path :: seen) stop ps

theorem specs_paths (o : Nat) (ps : List ImportPart) : (specs o ps).map Prod.fst = paths ps := by
  induction ps generalizing o with
  | nil => rfl
  | cons p ps ih =>
    cases p with
    | other l => exact ih _
    | spec name literal => exact congrArg (literal.path :: ·) (ih _)

theorem specs_others (o : Nat) (ls : List Lexeme) (ps : List ImportPart) :
    specs o (ls.map other ++ ps) = specs (o + byteWidth (texts ls)) ps := by
  induction ls generalizing o with
  | nil => rfl
  | cons l ls ih =>
    rw [List.map_cons, List.cons_append, specs, ih, texts_cons, byteWidth_append, Nat.add_assoc]

theorem specs_append_others (o : Nat) (ps : List ImportPart) (ls : List Lexeme) :
    specs o (ps ++ ls.map other) = specs o ps := by
  induction ps generalizing o with
  | nil =>
    have h := specs_others o ls []
    rwa [List.append_nil] at h
  | cons p ps ih =>
    cases p with
    | other l => exact ih _
    | spec name literal => exact congrArg (_ :: ·) (ih _)

/-- The repeated specs of an import, and where they are. -/
theorem ranges_of_specs {specs : List ImportSpec} {o : Nat} {ps : List ImportPart}
    (h : specs.map (fun s => (s.path, s.start, s.stop)) = ImportPart.specs o ps) (seen : List String) :
    (RepeatedImports.repeated seen specs).map (fun s => (⟨s.start, s.stop⟩ : Splice.Range)) =
      repeatedRanges seen o ps := by
  induction ps generalizing specs o seen with
  | nil =>
    obtain rfl := List.map_eq_nil_iff.mp h
    rfl
  | cons p ps ih =>
    cases p with
    | other l => exact ih h seen
    | spec name literal =>
      obtain ⟨s, ss, rfl, hs, hss⟩ := List.map_eq_cons_iff.mp h
      obtain ⟨hpath, hrange⟩ := Prod.mk.inj hs
      obtain ⟨hstart, hstop⟩ := Prod.mk.inj hrange
      rw [RepeatedImports.repeated, repeatedRanges, hpath]
      split
      · rw [List.map_cons, ih hss, hstart, hstop]
      · exact ih hss _

/-- All specs of an import are repeated just if all its paths were seen. -/
theorem length_repeated_iff (seen : List String) (specs : List ImportSpec) :
    (RepeatedImports.repeated seen specs).length = specs.length ↔ (specs.map (·.path)).all seen.contains := by
  have hle : ∀ (ss : List ImportSpec) seen, (RepeatedImports.repeated seen ss).length ≤ ss.length := by
    intro ss
    induction ss with
    | nil => exact fun _ => Nat.le_refl 0
    | cons s ss ih =>
      intro seen
      rw [RepeatedImports.repeated]
      split
      · exact Nat.succ_le_succ (ih seen)
      · exact Nat.le_succ_of_le (ih _)
  induction specs with
  | nil => simp [RepeatedImports.repeated]
  | cons s ss ih =>
    rw [RepeatedImports.repeated, List.map_cons, List.all_cons]
    by_cases hs : seen.contains s.path
    · rw [if_pos hs, List.length_cons, List.length_cons, Nat.succ_inj, hs, Bool.true_and]
      exact ih
    · rw [if_neg hs, List.length_cons]
      have := hle ss (s.path :: seen)
      constructor
      · intro h
        omega
      · intro h
        exact absurd (Bool.and_eq_true_iff.mp h).1 hs

/-- Deleting the repeated specs of parts keeps what is between them. -/
theorem delete_repeated {source : Bytes} {pre : List Char} {ps : List ImportPart} {rest : List Char}
    (hsource : source = Utf8.encode (pre ++ (texts (code ps) ++ rest))) {pos : Nat} (hpos : pos ≤ byteWidth pre)
    (seen : List String) {rs : List Splice.Range} {out : Bytes}
    (hrest : ∀ pos ≤ byteWidth (pre ++ texts (code ps)),
      Splice.delete source pos rs = slice source pos (byteWidth (pre ++ texts (code ps))) ++ out) :
    Splice.delete source pos (repeatedRanges seen (byteWidth pre) ps ++ rs) =
      slice source pos (byteWidth pre) ++ (Utf8.encode (texts (kept seen ps)) ++ out) := by
  induction ps generalizing pre pos seen with
  | nil =>
    rw [code_nil, texts_nil, List.append_nil] at hrest
    exact hrest pos hpos
  | cons p ps ih =>
    rw [code_cons, texts_append, List.append_assoc] at hsource
    rw [code_cons, texts_append, ← List.append_assoc] at hrest
    have hnext : byteWidth pre ≤ byteWidth (pre ++ texts p.stretches) := by
      rw [byteWidth_append]
      exact Nat.le_add_right _ _
    have ih := fun {pos} hpos seen =>
      @ih (pre ++ texts p.stretches) (by rw [hsource, List.append_assoc]) pos hpos seen hrest
    have hkeep := ih (Nat.le_trans hpos hnext)
    rw [slice_kept hsource hpos] at hkeep
    cases p with
    | other l =>
      have htext : texts (ImportPart.other l).stretches = l.text := List.append_nil _
      rw [htext] at hkeep
      rw [repeatedRanges, ← byteWidth_append, hkeep, kept, texts_cons, Utf8.encode_append, List.append_assoc,
        List.append_assoc]
    | spec name literal =>
      have hstop : byteWidth pre + byteWidth (texts (name ++ [literal])) =
          byteWidth (pre ++ texts (ImportPart.spec name literal).stretches) := by
        rw [byteWidth_append]
        rfl
      rw [repeatedRanges, kept, hstop]
      split
      · rw [List.cons_append, Splice.delete, ih (Nat.le_refl _)]
        rw [show slice source (byteWidth (pre ++ texts (ImportPart.spec name literal).stretches)) _ = [] from
          List.drop_eq_nil_of_le (List.length_take_le _ _), List.nil_append]
      · rw [hkeep, stretches, texts_append, texts_append, texts_cons, texts_cons, texts_nil, List.append_nil]
        simp only [Utf8.encode_append, List.append_assoc]

end ImportPart

/-! ## What remains of segments -/

namespace Segment

/-- Whether the code of a segment begins as an import does. -/
def isImport (g : Segment) : Bool := g.code.head?.any fun l => l.cls = .token (.keyword .importK)

/-- The paths that a segment imports. -/
def paths (g : Segment) : List String := if g.isImport then (g.code.filter Lexeme.isLiteral).map Lexeme.path else []

/-- What remains of the code of a segment where some paths were seen: an import without the specs of
these paths, and nothing of one that imports no other. -/
def remainder (seen : List String) (g : Segment) : List Lexeme :=
  if !g.isImport then g.code
  else if g.paths.all seen.contains then []
  else ImportPart.kept seen (ImportPart.ofCode [] g.code)

/-- What remains of segments where some paths were seen. -/
def remainders (seen : List String) : List Segment → List Lexeme
  | [] => []
  | g :: gs => g.remainder seen ++ (g.gap ++ remainders (g.paths ++ seen) gs)

theorem IsItem.isImport_iff {g : Segment} (h : g.IsItem) : g.isImport ↔ g.node.label = .importDecl := by
  constructor
  · intro himport
    obtain ⟨l, r, k, hcode, -⟩ := h.declares.head
    rw [isImport, hcode, List.head?_cons, Option.any_some, decide_eq_true_eq] at himport
    exact Label.eq_importDecl_of_opening h hcode himport
  · intro hl
    obtain ⟨l, r, hcode, hcls⟩ := (h.isRegion hl).first
    rw [isImport, hcode, List.head?_cons, Option.any_some, decide_eq_true_eq]
    exact hcls

theorem paths_eq {g : Segment} (h : g.isImport) : g.paths = ImportPart.paths (ImportPart.ofCode [] g.code) := by
  rw [paths, if_pos h, ImportPart.paths_ofCode]

/-- What a segment that is an import declares. -/
theorem IsItem.declared_import {g : Segment} (h : g.IsItem) (himport : g.isImport) {d : Declared}
    (hd : g.declared = .ok d) : ∃ specs close, d = .imports specs close ∧
      specs.map (fun s => (s.path, s.start, s.stop)) = ImportPart.specs 0 (ImportPart.ofCode [] g.code) ∧
      ∀ c ∈ close, ∃ x z, g.code = x ++ [z] ∧ z.cls = .token (.operator .rightParen) ∧ c = byteWidth (texts x) := by
  obtain ⟨head, ps, close, hcode, hparts, hchildren⟩ := h.exists_parts (h.isImport_iff.mp himport)
  obtain ⟨specs, hdecl, hspecs⟩ := declared_of_parts (h.isImport_iff.mp himport) hcode hchildren hd
  refine ⟨specs, _, hdecl, ?_, fun c hc => ?_⟩
  · rw [hspecs, hcode, ImportPart.ofCode_import hparts, ImportPart.specs_others, Nat.zero_add,
      ImportPart.specs_append_others]
  · cases hparts with
    | single _ _ _ _ => cases hc
    | block _ _ _ hz => exact ⟨_, _, by rw [hcode, ← List.append_assoc], hz, (Option.some.inj hc).symm⟩

theorem not_imports {g : Segment} (h : g.IsItem) (himport : g.isImport = false) {d : Declared} (hd : g.declared = .ok d)
    {specs : List ImportSpec} {close : Option Nat} : d ≠ .imports specs close := by
  rintro rfl
  have hl := h.isImport_iff.mpr (imports_of_declaredBy hd).1
  rw [himport] at hl
  cases hl

/-! ## Declarations of segments -/

/-- Whether declarations are those of segments that begin at an offset. -/
inductive Placed : Nat → List Segment → List Declaration → Prop
  | nil {o : Nat} : Placed o [] []
  | clause {o : Nat} {g : Segment} {gs : List Segment} {ds : List Declaration} : g.isClause →
      Placed (o + byteWidth (texts g.stretches)) gs ds → Placed o (g :: gs) ds
  | item {o : Nat} {g : Segment} {gs : List Segment} {d : Declaration} {ds : List Declaration} : g.isClause = false →
      d.start = o → d.stop = o + byteWidth (texts g.code) → g.declared.map (Declared.moved o) = .ok d.declared →
      Placed (o + byteWidth (texts g.stretches)) gs ds → Placed o (g :: gs) (d :: ds)

end Segment

end Syntax

namespace Declaration

/-- There is a declaration for each item that is no package clause. -/
theorem forall₂_ofSiblings {source : Bytes} {comments : List Comment} {lines : LineIndex}
    {before after : List Sibling} {ds : List Declaration}
    (h : ofSiblings source comments lines before after = .ok ds) :
    List.Forall₂ (fun t d => d.start = t.start ∧ d.stop = t.stop ∧ declaredBy source comments t = .ok d.declared)
      ((after.filterMap Sibling.node?).filter (·.label != .packageClause)) ds := by
  induction after generalizing before ds with
  | nil =>
    cases h
    exact .nil
  | cons x after ih =>
    cases x with
    | comment c => exact ih h
    | item t =>
      unfold ofSiblings at h
      dsimp only at h
      rw [List.filterMap_cons_some (show Sibling.node? (.item t) = some t from rfl)]
      split at h
      · next hl =>
        rw [List.filter_cons_of_neg (by simp [hl])]
        exact ih h
      · next hl =>
        cases hd : declaredBy source comments t with
        | error e =>
          rw [hd] at h
          cases h
        | ok d =>
          cases hrest : ofSiblings source comments lines (.item t :: before) after with
          | error e =>
            rw [hd, hrest] at h
            cases h
          | ok rest =>
            rw [hd, hrest] at h
            cases h
            rw [List.filter_cons_of_pos (by simpa using hl)]
            exact .cons ⟨rfl, rfl, hd⟩ (ih hrest)

end Declaration

open Segment

theorem placed_of_nodes {s : List Char} {a : List Lexeme} {gs : List Segment} (hgs : ∀ g ∈ gs, g.IsItem)
    (hs : stretches s = a ++ joined gs) {ds : List Declaration}
    (h : List.Forall₂ (fun t (d : Declaration) => d.start = t.start ∧ d.stop = t.stop ∧
        Declaration.declaredBy (Utf8.encode s) (scan s).comments t = .ok d.declared)
      ((nodes (byteWidth (orderMark s ++ texts a)) gs).filter (·.label != .packageClause)) ds) :
    Placed (byteWidth (orderMark s ++ texts a)) gs ds := by
  induction gs generalizing a ds with
  | nil =>
    cases h
    exact .nil
  | cons g gs ih =>
    obtain ⟨hg, hgs⟩ := List.forall_mem_cons.mp hgs
    have hs' : stretches s = (a ++ g.stretches) ++ joined gs := by
      rw [hs, joined_cons]
      simp [Segment.stretches]
    have hnext : byteWidth (orderMark s ++ texts a) + byteWidth (texts g.stretches) =
        byteWidth (orderMark s ++ texts (a ++ g.stretches)) := by
      rw [texts_append, ← List.append_assoc, byteWidth_append _ (texts g.stretches)]
    rw [nodes, hnext] at h
    by_cases hclause : g.isClause
    · rw [List.filter_cons_of_neg (by simpa [Tree.label_moved, isClause] using hclause)] at h
      exact .clause hclause (hnext ▸ ih hgs hs' h)
    · rw [List.filter_cons_of_pos (by simpa [Tree.label_moved, isClause] using hclause)] at h
      cases h with
      | cons hd hrest =>
        obtain ⟨hstart, hstop, hdecl⟩ := hd
        rw [declaredBy_segment hg (by rw [hs, joined_cons])] at hdecl
        rw [Tree.start_moved, hg.declares.start, Nat.zero_add] at hstart
        rw [Tree.stop_moved, hg.declares.stop, Nat.add_comm] at hstop
        exact .item (Bool.eq_false_iff.mpr hclause) hstart hstop hdecl (hnext ▸ ih hgs hs' hrest)

section Outlines

variable {filename : String} {source : Bytes} {f : SourceFile} {s : List Char} {lead : List Lexeme} {gs : List Segment}

/-- The declarations of a file are those of its segments. -/
theorem Syntax.Outline.placed (h : Outline s lead gs) (hp : Parsed filename source true f s) :
    Placed (byteWidth (orderMark s ++ texts lead)) gs f.declarations := by
  have hall := Declaration.forall₂_ofSiblings hp.declarations
  rw [Declaration.filterMap_siblings, h.items, hp.encode_eq] at hall
  exact placed_of_nodes h.linked.items h.stretches_eq hall

theorem Declared.moved_eq_imports {o : Nat} {d : Declared} {specs : List ImportSpec} {close : Option Nat}
    (h : d.moved o = .imports specs close) : ∃ specs' close', d = .imports specs' close' ∧
      specs = specs'.map (ImportSpec.moved o) ∧ close = close'.map (· + o) := by
  cases d with
  | imports specs' close' =>
    cases h
    exact ⟨specs', close', rfl, rfl, rfl⟩
  | _ => cases h

section Delete

variable {g : Segment} {pre : List Char} {rs : List Splice.Range} {out : Bytes}

/-- What is deleted behind a segment is deleted behind its code. -/
theorem Syntax.Segment.delete_gap (hsource : source = Utf8.encode (pre ++ texts (joined (g :: gs))))
    (h : ∀ pos ≤ byteWidth (pre ++ texts g.stretches),
      Splice.delete source pos rs = slice source pos (byteWidth (pre ++ texts g.stretches)) ++ out)
    {pos : Nat} (hpos : pos ≤ byteWidth (pre ++ texts g.code)) :
    Splice.delete source pos rs =
      slice source pos (byteWidth (pre ++ texts g.code)) ++ (Utf8.encode (texts g.gap) ++ out) := by
  have hall : pre ++ texts g.stretches = pre ++ texts g.code ++ texts g.gap := by
    simp [Segment.stretches]
  have hle : byteWidth (pre ++ texts g.code) ≤ byteWidth (pre ++ texts g.stretches) := by
    rw [hall, byteWidth_append _ (texts g.gap)]
    exact Nat.le_add_right _ _
  rw [h pos (Nat.le_trans hpos hle), hall, slice_kept (show source = Utf8.encode (pre ++ texts g.code ++ (texts g.gap ++ texts (joined gs))) by
      rw [hsource]; simp) hpos,
    List.append_assoc]

/-- What is deleted behind a segment is deleted before it. -/
theorem Syntax.Segment.delete_code (hsource : source = Utf8.encode (pre ++ texts (joined (g :: gs))))
    (h : ∀ pos ≤ byteWidth (pre ++ texts g.stretches),
      Splice.delete source pos rs = slice source pos (byteWidth (pre ++ texts g.stretches)) ++ out)
    {pos : Nat} (hpos : pos ≤ byteWidth pre) :
    Splice.delete source pos rs =
      slice source pos (byteWidth pre) ++ (Utf8.encode (texts g.code) ++ (Utf8.encode (texts g.gap) ++ out)) := by
  have hle : byteWidth pre ≤ byteWidth (pre ++ texts g.code) := by
    rw [byteWidth_append]
    exact Nat.le_add_right _ _
  rw [delete_gap hsource h (Nat.le_trans hpos hle),
    slice_kept (show source = Utf8.encode (pre ++ (texts g.code ++ texts (g.gap ++ joined gs))) by
      rw [hsource]; simp) hpos, List.append_assoc]

/-- Where nothing of a segment is deleted, what is deleted behind it is deleted before it. -/
theorem Syntax.Segment.delete_plain (himport : g.isImport = false) {seen : List String}
    (hsource : source = Utf8.encode (pre ++ texts (joined (g :: gs))))
    (h : ∀ pos ≤ byteWidth (pre ++ texts g.stretches), Splice.delete source pos rs =
      slice source pos (byteWidth (pre ++ texts g.stretches)) ++ Utf8.encode (texts (remainders seen gs)))
    {pos : Nat} (hpos : pos ≤ byteWidth pre) :
    Splice.delete source pos rs = slice source pos (byteWidth pre) ++ Utf8.encode (texts (remainders seen (g :: gs))) := by
  have hpaths : g.paths = [] := if_neg (by simp [himport])
  have hcode : g.remainder seen = g.code := if_pos (by simp [himport])
  rw [delete_code hsource h hpos, remainders, hcode, hpaths, List.nil_append, texts_append, texts_append,
    Utf8.encode_append, Utf8.encode_append]

end Delete

theorem Syntax.ImportPart.specs_moved (o n : Nat) (ps : List ImportPart) :
    specs (o + n) ps = (specs o ps).map fun x => (x.1, x.2.1 + n, x.2.2 + n) := by
  induction ps generalizing o with
  | nil => rfl
  | cons p ps ih =>
    cases p with
    | other l => rw [specs, specs, ← ih, Nat.add_right_comm]
    | spec name literal => rw [specs, specs, List.map_cons, ← ih, Nat.add_right_comm]

/-- The repeated imports of a declaration of a segment, and then those behind it. -/
theorem Syntax.Segment.IsItem.ranges_cons {g : Segment} (hg : g.IsItem) {o : Nat} {d : Declaration}
    (hd : g.declared.map (Declared.moved o) = .ok d.declared) (seen : List String) (ds : List Declaration) :
    RepeatedImports.ranges seen (d :: ds) = (if !g.isImport then [] else if g.paths.all seen.contains
        then [⟨d.start, d.stop⟩] else ImportPart.repeatedRanges seen o (ImportPart.ofCode [] g.code)) ++
      RepeatedImports.ranges (g.paths ++ seen) ds := by
  obtain ⟨e, hdeclared, hmoved⟩ := exists_of_map_ok hd
  by_cases himport : g.isImport
  · obtain ⟨specs, close, rfl, hspecs, -⟩ := hg.declared_import himport hdeclared
    have hpaths : (specs.map (ImportSpec.moved o)).map (·.path) = g.paths := by
      have hfst := congrArg (List.map Prod.fst) hspecs
      rw [ImportPart.specs_paths, List.map_map] at hfst
      rw [paths_eq himport, ← hfst, List.map_map]
      rfl
    have hplaces : (specs.map (ImportSpec.moved o)).map (fun s => (s.path, s.start, s.stop)) =
        ImportPart.specs o (ImportPart.ofCode [] g.code) := by
      rw [← Nat.zero_add o, ImportPart.specs_moved, ← hspecs, List.map_map, List.map_map, Nat.zero_add]
      rfl
    rw [if_neg (by simp [himport]), RepeatedImports.ranges, ← hmoved]
    dsimp only [Declared.moved]
    rw [RepeatedImports.rangesOf, hpaths]
    by_cases hall : g.paths.all seen.contains
    · rw [if_pos ((ImportPart.length_repeated_iff _ _).mpr (hpaths ▸ hall)), if_pos hall]
    · rw [if_neg fun h => hall (hpaths ▸ (ImportPart.length_repeated_iff _ _).mp h), if_neg hall,
        ImportPart.ranges_of_specs hplaces]
  · have hpaths : g.paths = [] := if_neg himport
    rw [if_pos (by simpa using himport), hpaths, RepeatedImports.ranges, List.nil_append, List.nil_append]
    split
    · next specs close hspecs =>
      rw [← hmoved] at hspecs
      obtain ⟨_, _, rfl, -⟩ := Declared.moved_eq_imports hspecs
      exact absurd rfl (not_imports hg (Bool.eq_false_iff.mpr himport) hdeclared)
    · rfl

/-- Deleting the repeated imports of segments keeps what is between them. -/
theorem Syntax.Segment.Placed.delete {o : Nat} {ds : List Declaration} (h : Placed o gs ds)
    (hgs : ∀ g ∈ gs, g.IsItem) {pre : List Char} (ho : o = byteWidth pre)
    (hsource : source = Utf8.encode (pre ++ texts (joined gs))) {pos : Nat} (hpos : pos ≤ o) (seen : List String) :
    Splice.delete source pos (RepeatedImports.ranges seen ds) =
      slice source pos o ++ Utf8.encode (texts (remainders seen gs)) := by
  induction h generalizing pre pos seen with
  | nil =>
    rw [joined_nil, texts_nil, List.append_nil] at hsource
    subst ho hsource
    rw [slice, byteWidth_eq, List.take_length]
    exact (List.append_nil _).symm
  | @clause o g gs ds hclause _ ih =>
    obtain ⟨hg, hgs⟩ := List.forall_mem_cons.mp hgs
    subst ho
    have himport : g.isImport = false := Bool.eq_false_iff.mpr fun himport => by
      rw [isClause, hg.isImport_iff.mp himport] at hclause
      cases hclause
    have hnext := byteWidth_append pre (texts g.stretches)
    refine delete_plain himport hsource (fun pos hpos => ?_) hpos
    rw [hnext] at hpos ⊢
    exact ih hgs hnext.symm (by rw [hsource]; simp [Segment.stretches]) hpos seen
  | @item o g gs d ds hclause hstart hstop hdecl _ ih =>
    obtain ⟨hg, hgs⟩ := List.forall_mem_cons.mp hgs
    subst ho
    have hnext := byteWidth_append pre (texts g.stretches)
    have ih : ∀ seen, ∀ pos ≤ byteWidth (pre ++ texts g.stretches),
        Splice.delete source pos (RepeatedImports.ranges seen ds) =
          slice source pos (byteWidth (pre ++ texts g.stretches)) ++ Utf8.encode (texts (remainders seen gs)) := by
      intro seen pos hpos
      rw [hnext] at hpos ⊢
      exact ih hgs hnext.symm (by rw [hsource]; simp [Segment.stretches]) hpos seen
    rw [hg.ranges_cons hdecl]
    by_cases himport : g.isImport
    · have hrest := fun {pos} (hpos : pos ≤ byteWidth (pre ++ texts g.code)) =>
        delete_gap hsource (ih (g.paths ++ seen)) hpos
      have hremainder : g.remainder seen = if g.paths.all seen.contains then [] else
          ImportPart.kept seen (ImportPart.ofCode [] g.code) := if_neg (by simp [himport])
      rw [if_neg (by simp [himport]), remainders, hremainder]
      by_cases hall : g.paths.all seen.contains
      · rw [if_pos hall, if_pos hall, List.singleton_append, Splice.delete, hstart, hstop, ← byteWidth_append,
          hrest (Nat.le_refl _), List.nil_append, texts_append, Utf8.encode_append]
        have hnone : ∀ n, slice source n n = [] := fun n => List.drop_eq_nil_of_le (List.length_take_le _ _)
        rw [hnone, List.nil_append]
      · rw [if_neg hall, if_neg hall]
        have hparts : texts (ImportPart.code (ImportPart.ofCode [] g.code)) = texts g.code := by
          rw [ImportPart.code_ofCode, List.nil_append]
        rw [ImportPart.delete_repeated (show source = Utf8.encode (pre ++
            (texts (ImportPart.code (ImportPart.ofCode [] g.code)) ++ texts (g.gap ++ joined gs))) by
              rw [hparts, hsource]; simp) hpos seen (fun pos hpos => by rw [hparts] at hpos ⊢; exact hrest hpos)]
        simp only [texts_append, Utf8.encode_append]
    · have hpaths : g.paths = [] := if_neg himport
      rw [if_pos (by simpa using himport), hpaths, List.nil_append, List.nil_append]
      exact delete_plain (Bool.eq_false_iff.mpr himport) hsource (ih seen) hpos

/-- A pass over repeated imports leaves what remains of the segments. -/
theorem Syntax.Outline.withoutRepeated_eq (h : Outline s lead gs) (hp : Parsed filename source true f s) :
    f.withoutRepeatedImports = Utf8.encode (orderMark s ++ texts (lead ++ remainders [] gs)) := by
  have hencode : Utf8.encode s = Utf8.encode (orderMark s ++ texts lead ++ texts (joined gs)) := by
    rw [List.append_assoc, ← texts_append, ← h.stretches_eq, orderMark_append_texts]
  have hdelete := (h.placed hp).delete h.linked.items rfl hencode (Nat.zero_le _) []
  have hslice : slice (Utf8.encode s) 0 (byteWidth (orderMark s ++ texts lead)) = Utf8.encode (orderMark s ++ texts lead) := by
    rw [hencode]
    exact slice_encode [] _ _
  rw [SourceFile.withoutRepeatedImports, hp.source_eq, hp.encode_eq, hdelete, hslice, ← Utf8.encode_append, texts_append,
    List.append_assoc]

end Outlines

/-! ## Imports without repetitions -/

namespace Syntax

/-- Whether the paths of parts are different, and none of them was seen. -/
def ImportPart.IsNew (seen : List String) (ps : List ImportPart) : Prop :=
  (paths ps).Nodup ∧ ∀ x ∈ paths ps, x ∉ seen

theorem ImportPart.IsNew.of_spec {seen : List String} {name : List Lexeme} {literal : Lexeme} {ps : List ImportPart}
    (h : IsNew seen (spec name literal :: ps)) : seen.contains literal.path = false ∧ IsNew (literal.path :: seen) ps := by
  obtain ⟨hnodup, hseen⟩ := h
  obtain ⟨hnot, hnodup⟩ := List.nodup_cons.mp hnodup
  obtain ⟨hliteral, hseen⟩ := List.forall_mem_cons.mp hseen
  refine ⟨Bool.eq_false_iff.mpr fun hmem => hliteral (List.contains_iff_mem.mp hmem), hnodup, fun x hx hmem => ?_⟩
  rcases List.mem_cons.mp hmem with rfl | hmem
  · exact hnot hx
  · exact hseen x hx hmem

/-- Parts of different paths, none of which was seen, remain as they are. -/
theorem ImportPart.IsNew.kept_eq {ps : List ImportPart} {seen : List String} (h : IsNew seen ps) :
    kept seen ps = code ps := by
  induction ps generalizing seen with
  | nil => rfl
  | cons p ps ih =>
    cases p with
    | other l => exact congrArg (l :: ·) (ih h)
    | spec name literal =>
      rw [kept, if_neg (by rw [h.of_spec.1]; nofun), ih h.of_spec.2, code_cons, stretches, List.append_assoc,
        List.singleton_append]

/-- Whether segments import each path once, and no import of them is empty. -/
structure Segment.Distinct (gs : List Segment) : Prop where
  nodup : (gs.flatMap Segment.paths).Nodup
  nonempty : ∀ g ∈ gs, g.isImport → g.paths ≠ []

/-- Segments whose paths were not seen and are different remain as they are. -/
theorem Segment.remainders_eq {gs : List Segment} (h : Distinct gs) {seen : List String}
    (hseen : ∀ x ∈ gs.flatMap Segment.paths, x ∉ seen) : remainders seen gs = joined gs := by
  induction gs generalizing seen with
  | nil => rfl
  | cons g gs ih =>
    obtain ⟨hnodup, hnonempty⟩ := h
    rw [List.flatMap_cons] at hnodup hseen
    obtain ⟨hpaths, hrest, hdisjoint⟩ := List.nodup_append.mp hnodup
    obtain ⟨hfirst, hlater⟩ := List.forall_mem_append.mp hseen
    obtain ⟨hg, hnonempty⟩ := List.forall_mem_cons.mp hnonempty
    have hcode : g.remainder seen = g.code := by
      rw [remainder]
      split
      · rfl
      · next himport =>
        have himport : g.isImport := by simpa using himport
        rw [if_neg, ImportPart.IsNew.kept_eq ⟨paths_eq himport ▸ hpaths, paths_eq himport ▸ hfirst⟩, ImportPart.code_ofCode,
          List.nil_append]
        intro hall
        obtain ⟨x, hx⟩ := List.exists_mem_of_ne_nil _ (hg himport)
        exact hfirst x hx (List.contains_iff_mem.mp (List.all_eq_true.mp hall x hx))
    rw [remainders, hcode, joined_cons, ih ⟨hrest, hnonempty⟩]
    intro x hx hmem
    rcases List.mem_append.mp hmem with hmem | hmem
    · exact hdisjoint x hmem x hx rfl
    · exact hlater x hx hmem

/-- A text that imports each path once remains as it is. -/
theorem Outline.text_of_distinct {s : List Char} {lead : List Lexeme} {gs : List Segment} (h : Outline s lead gs)
    (hdistinct : Segment.Distinct gs) : orderMark s ++ texts (lead ++ remainders [] gs) = s := by
  rw [remainders_eq hdistinct fun _ _ => List.not_mem_nil, ← h.stretches_eq, orderMark_append_texts]

end Syntax

end GoSplice
