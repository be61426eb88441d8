import GoSplice.Proofs.AddedSpecs
import GoSplice.Proofs.ImportLists

/-!
# Files with an import more

An import that is put into a file is one more of its segments, or a line more in its last import.  The
segments stay linked, so the file is read again.  What it imports is what it did and then the import, and what
else it declares stays:

    gs without imports, a line ends in the gap of g → WithImport …, PutBehind …   (Outline.withFirst)
    the last import of gs single, no semicolon behind → WithImport …, PutBehind … (Outline.withBelow)
    the last import of gs in parentheses → WithImport …, PutInside …              (Outline.withInside)
    Gains x gs hs → the file of hs is read, imports what that of gs does, then x,
      and declares else what that of gs does                                          (Gains.parse)
-/

namespace GoSplice

open Syntax Syntax.Segment

/-! ## What segments import -/

namespace Syntax.Segment

variable {g h : Segment} {gs hs as bs : List Segment} {x : String × String}

/-- The names and paths that a segment imports, in order. -/
def specs (g : Segment) : List (String × String) :=
  if g.isClause then [] else (g.declared.toOption.map Declared.specs).getD []

theorem specs_of_declared {d : Declared} (hclause : g.isClause = false) (hd : g.declared = .ok d) : g.specs = d.specs := by
  rw [specs, hclause, hd]
  rfl

/-- What a segment that is no import declares, and its source. -/
def others (g : Segment) : List (Declared × Bytes) :=
  if g.isClause || g.isImport then [] else g.declared.toOption.toList.map fun d => (d, Utf8.encode (texts g.code))

theorem others_of_isImport (h : g.isImport) : g.others = [] :=
  if_pos (by rw [h, Bool.or_true])

theorem IsItem.isClause_of_isImport (hg : g.IsItem) (himport : g.isImport) : g.isClause = false := by
  rw [isClause, hg.isImport_iff.mp himport]
  rfl

theorem IsItem.specs_of_not_import (hg : g.IsItem) (himport : g.isImport = false) : g.specs = [] := by
  unfold specs
  split
  · rfl
  · cases hd : g.declared with
    | error e => rfl
    | ok d =>
      cases d with
      | imports => exact absurd rfl (not_imports hg himport hd)
      | func | value | type | other => rfl

/-- The declarations of segments import what these do. -/
theorem Placed.specs {o : Nat} {ds : List Declaration} (hplaced : Placed o gs ds) :
    ds.flatMap (·.declared.specs) = gs.flatMap Segment.specs := by
  induction hplaced with
  | nil => rfl
  | clause hclause _ ih =>
    rw [List.flatMap_cons, ih, Segment.specs, if_pos hclause]
    rfl
  | item hclause _ _ hd _ ih =>
    obtain ⟨d, hdeclared, hmoved⟩ := exists_of_map_ok hd
    rw [List.flatMap_cons, List.flatMap_cons, ih, specs_of_declared hclause hdeclared, ← hmoved, Declared.specs_moved]

theorem Declared.moved_of_not_imports {n : Nat} {d : Declared} (h : d.isImport = false) : d.moved n = d := by
  cases d with
  | imports => cases h
  | _ => rfl

/-- The declarations of segments that are no imports are those of these. -/
theorem Placed.others {o : Nat} {ds : List Declaration} (hplaced : Placed o gs ds) (hgs : ∀ g ∈ gs, g.IsItem)
    {pre : List Char} (ho : o = byteWidth pre) {source : Bytes} (hsource : source = Utf8.encode (pre ++ texts (joined gs))) :
    (ds.filter (!·.declared.isImport)).map (fun d => (d.declared, slice source d.start d.stop)) =
      gs.flatMap Segment.others := by
  induction hplaced generalizing pre with
  | nil => rfl
  | @clause o g gs ds hclause _ ih =>
    have hrest := @ih (List.forall_mem_cons.mp hgs).2 (pre ++ texts g.stretches) (by rw [byteWidth_append, ho])
      (by rw [hsource]; simp [Segment.stretches])
    rw [hrest, List.flatMap_cons, Segment.others, if_pos (by rw [hclause, Bool.true_or]), List.nil_append]
  | @item o g gs d ds hclause hstart hstop hd _ ih =>
    obtain ⟨hg, hgs⟩ := List.forall_mem_cons.mp hgs
    have hrest := @ih hgs (pre ++ texts g.stretches) (by rw [byteWidth_append, ho])
      (by rw [hsource]; simp [Segment.stretches])
    obtain ⟨e, hdeclared, hmoved⟩ := exists_of_map_ok hd
    rw [List.flatMap_cons, ← hrest]
    by_cases himport : g.isImport
    · obtain ⟨specs, close, rfl, -⟩ := hg.declared_import himport hdeclared
      rw [List.filter_cons_of_neg (by rw [← hmoved]; simp [Declared.moved, Declared.isImport]),
        others_of_isImport himport, List.nil_append]
    · have hother : e.isImport = false := by
        cases e with
        | imports => exact absurd rfl (Segment.not_imports hg (Bool.eq_false_iff.mpr himport) hdeclared)
        | _ => rfl
      have htext : slice source d.start d.stop = Utf8.encode (texts g.code) := by
        rw [hstart, hstop, ho, ← byteWidth_append, hsource, joined_cons, texts_append, ← List.append_assoc]
        exact slice_encode _ _ _
      rw [Declared.moved_of_not_imports hother] at hmoved
      rw [List.filter_cons_of_pos (by rw [← hmoved, hother]; rfl), List.map_cons, ← hmoved, htext, Segment.others,
        if_neg (by simp [hclause, himport]), hdeclared]
      rfl

/-- Whether segments are those of a file with an import more: they can be read if those can, one is a
package clause if one of those is, they import what those do and then a path under a name, and they declare
else what those do. -/
structure Gains (x : String × String) (gs hs : List Segment) : Prop where
  isReadable : (∀ g ∈ gs, g.IsReadable) → ∀ g ∈ hs, g.IsReadable
  clause : (∃ g ∈ gs, g.isClause) → ∃ g ∈ hs, g.isClause
  specs : hs.flatMap Segment.specs = gs.flatMap Segment.specs ++ [x]
  others : hs.flatMap Segment.others = gs.flatMap Segment.others

/-- A segment with an import more is one in place of the last import. -/
theorem Gains.replaced (hread : h.IsReadable) (hclause : g.isClause → h.isClause) (hg : g.isImport) (hh : h.isImport)
    (hspecs : h.specs = g.specs ++ [x]) (hbs : ∀ k ∈ bs, k.specs = []) : Gains x (as ++ g :: bs) (as ++ h :: bs) := by
  refine ⟨fun hall k hk => ?_, ?_, ?_, ?_⟩
  · simp only [List.mem_append, List.mem_cons] at hk hall
    rcases hk with hk | rfl | hk
    · exact hall k (.inl hk)
    · exact hread
    · exact hall k (.inr (.inr hk))
  · rintro ⟨k, hk, hkclause⟩
    simp only [List.mem_append, List.mem_cons] at hk
    rcases hk with hk | rfl | hk
    · exact ⟨k, by simp [hk], hkclause⟩
    · exact ⟨h, by simp, hclause hkclause⟩
    · exact ⟨k, by simp [hk], hkclause⟩
  · rw [List.flatMap_append, List.flatMap_append, List.flatMap_cons, List.flatMap_cons, List.flatMap_eq_nil_iff.mpr hbs,
      hspecs]
    simp
  · simp [others_of_isImport hg, others_of_isImport hh]

/-- A segment behind all imports is one more. -/
theorem Gains.behind (hread : h.IsReadable) (hh : h.isImport) (hspecs : h.specs = [x]) (hbs : ∀ k ∈ bs, k.specs = [])
    (gap : List Lexeme) : Gains x (as ++ g :: bs) (as ++ { g with gap := gap } :: h :: bs) := by
  refine ⟨fun hall k hk => ?_, ?_, ?_, ?_⟩
  · simp only [List.mem_append, List.mem_cons] at hk hall
    rcases hk with hk | rfl | rfl | hk
    · exact hall k (.inl hk)
    · exact hall g (.inr (.inl rfl))
    · exact hread
    · exact hall k (.inr (.inr hk))
  · rintro ⟨k, hk, hkclause⟩
    simp only [List.mem_append, List.mem_cons] at hk
    rcases hk with hk | rfl | hk
    · exact ⟨k, by simp [hk], hkclause⟩
    · exact ⟨{ k with gap := gap }, by simp, hkclause⟩
    · exact ⟨k, by simp [hk], hkclause⟩
  · have hsame : ({ g with gap := gap } : Segment).specs = g.specs := rfl
    rw [List.flatMap_append, List.flatMap_append, List.flatMap_cons, List.flatMap_cons, List.flatMap_cons,
      List.flatMap_eq_nil_iff.mpr hbs, hsame, hspecs]
    simp
  · have hsame : ({ g with gap := gap } : Segment).others = g.others := rfl
    simp [hsame, others_of_isImport hh]

end Syntax.Segment

section Read

variable {filename : String} {source : Bytes} {f : SourceFile} {s s' : List Char} {lead : List Lexeme}
  {gs hs : List Segment} {x : String × String}

/-- A file imports what the segments of its outline do. -/
theorem Syntax.Outline.imports_eq (ho : Outline s lead gs) (hp : Parsed filename source true f s) :
    f.imports = gs.flatMap Segment.specs :=
  (ho.placed hp).specs

theorem Syntax.Outline.others_eq (ho : Outline s lead gs) (hp : Parsed filename source true f s) :
    f.others = gs.flatMap Segment.others := by
  refine (ho.placed hp).others ho.linked.items rfl ?_
  rw [hp.source_eq, hp.encode_eq, List.append_assoc, ← texts_append, ← ho.stretches_eq, orderMark_append_texts]

theorem Syntax.Outline.exists_clause (ho : Outline s lead gs) (hp : Parsed filename source true f s) :
    ∃ g ∈ gs, g.isClause := by
  obtain ⟨as, p, bs, rfl, hlabel, -⟩ := hp.exists_clauseItem ho
  exact ⟨p, by simp, by rw [isClause, hlabel]; rfl⟩

/-- The file with an import more is read, imports it last, and declares else what it did. -/
theorem Syntax.Segment.Gains.parse (h : Gains x gs hs) (ho : Outline s lead gs) (hp : Parsed filename source true f s)
    (ho' : Outline s' lead hs) : ∃ f', SourceFile.parse filename (Utf8.encode s') true = .ok f' ∧
      Parsed filename (Utf8.encode s') true f' s' ∧ f'.imports = f.imports ++ [x] ∧ f'.others = f.others := by
  obtain ⟨c, hc⟩ := Option.isSome_iff_exists.mp (List.find?_isSome.mpr (h.clause (ho.exists_clause hp)))
  obtain ⟨f', hparse, hp'⟩ := ho'.parse (h.isReadable (ho.isReadable hp)) hc filename
  exact ⟨f', hparse, hp', by rw [ho'.imports_eq hp', ho.imports_eq hp, h.specs],
    by rw [ho'.others_eq hp', ho.others_eq hp, h.others]⟩

end Read

/-! ## Segments that stay linked -/

namespace Syntax

variable {name path : List Char} {g h : Segment} {as bs : List Segment}

theorem Segment.Linked.behind (hlinked : Linked (as ++ g :: bs)) : Linked bs :=
  @Linked.of_append [g] bs hlinked.of_append

/-- An item in place of another, which may end the file. -/
theorem Segment.Linked.replaced (hlinked : Linked (as ++ g :: bs)) (hh : h.IsItem) (hgap : h.gap = g.gap)
    (hend : mayEndFile h.node) : Linked (as ++ h :: bs) := by
  refine linked_append hlinked.isEnded ?_
  cases hlinked.of_append with
  | cons _ hends hbs => exact .cons hh (hgap ▸ hends) hbs
  | last _ hnone _ => exact .last hh (hgap ▸ hnone) hend

theorem newline_ne_token (k : Kind) : (⟨.newline, ['\n']⟩ : Lexeme).cls ≠ .token k :=
  LexemeClass.noConfusion

/-- An import on a line of its own behind an item. -/
theorem Segment.Linked.withImport (hlinked : Linked (as ++ g :: bs)) (hname : IsImportName name) {a b : List Lexeme}
    (ha : EndsItem a) (hb : NoCode b) :
    Linked (as ++ { g with gap := a } :: importSegment name path (⟨.newline, ['\n']⟩ :: b) :: bs) := by
  have hitem : g.IsItem := hlinked.items g (by simp)
  have hgap : NoCode (⟨.newline, ['\n']⟩ :: b) := List.forall_mem_cons.mpr ⟨newline_ne_token, hb⟩
  refine linked_append hlinked.isEnded (.cons ⟨hitem.declares, hitem.nonempty⟩ ha (.cons (isItem_importSegment hname _)
    (.line hgap ⟨_, List.mem_cons_self, rfl⟩) hlinked.behind))

/-- What ends an item holds no code behind a line end. -/
theorem EndsItem.noCode_behind {a b : List Lexeme} (h : EndsItem (a ++ ⟨.newline, ['\n']⟩ :: b)) : NoCode b := by
  generalize heq : a ++ ⟨.newline, ['\n']⟩ :: b = ls at h
  cases h with
  | line hnone _ =>
    subst heq
    exact fun l hl => hnone l (by simp [hl])
  | @semicolon x y l _ hline hl hy =>
    rcases append_cons_eq_append_cons heq with ⟨c, -, rfl⟩ | ⟨c, rfl, -⟩ | ⟨-, rfl, -⟩
    · exact fun k hk => hy k (by simp [hk])
    · exact absurd ⟨⟨.newline, ['\n']⟩, by simp, rfl⟩ hline
    · cases hl

end Syntax

/-! ## The three places -/

/-- Whether segments have an import more behind one of them, on a line of its own; with the stretches
before it, those that are put in, and those behind it. -/
inductive Syntax.PutBehind (name path : List Char) (lead : List Lexeme) :
    List Segment → List Segment → List Lexeme → List Lexeme → List Lexeme → Prop
  | intro {as bs : List Segment} {g : Segment} {a b u v c : List Lexeme} : g.gap = a ++ b →
      (∀ l ∈ u ++ v, l = ⟨.newline, ['\n']⟩) → v ++ b = ⟨.newline, ['\n']⟩ :: c →
      PutBehind name path lead (as ++ g :: bs)
        (as ++ { g with gap := a ++ u } :: importSegment name path (v ++ b) :: bs)
        (lead ++ (joined as ++ (g.code ++ a))) (u ++ (importStretches name path ++ v)) (b ++ joined bs)

/-- Whether an import of segments is longer, with stretches more before the parenthesis that closes it. -/
inductive Syntax.PutInside (lead : List Lexeme) :
    List Segment → List Segment → List Lexeme → List Lexeme → List Lexeme → Prop
  | intro {as bs : List Segment} {g h : Segment} {c ins : List Lexeme} {z : Lexeme} : g.isImport → h.isImport →
      c ≠ [] → g.code = c ++ [z] → h.code = c ++ (ins ++ [z]) → h.gap = g.gap →
      (∀ l ∈ ins ++ [z], l.cls ≠ .comment) →
      PutInside lead (as ++ g :: bs) (as ++ h :: bs) (lead ++ (joined as ++ c)) ins (z :: (g.gap ++ joined bs))

/-- Whether a text is another with an import more. -/
structure Syntax.WithImport (name path s s' : List Char) (lead : List Lexeme) (gs hs : List Segment) : Prop where
  mark : orderMark s' = orderMark s
  outline : Outline s' lead hs
  gains : Gains (String.ofList name, String.ofList path) gs hs

section Places

variable {s : List Char} {lead : List Lexeme} {as bs : List Segment} {g : Segment} {name path : List Char}

theorem declared_importSegment (hname : IsImportName name) (hpath : IsPlainText path) (gap : List Lexeme) :
    ∃ d, (importSegment name path gap).declared = .ok d ∧ d.specs = [(String.ofList name, String.ofList path)] :=
  ⟨_, (importParagraph_isWhole hname hpath).declared, rfl⟩

theorem specs_importSegment (hname : IsImportName name) (hpath : IsPlainText path) (gap : List Lexeme) :
    (importSegment name path gap).specs = [(String.ofList name, String.ofList path)] := by
  obtain ⟨d, hd, hspecs⟩ := declared_importSegment hname hpath gap
  rw [specs_of_declared rfl hd, hspecs]

/-- Imports behind an item are read where the file is. -/
theorem gains_importSegment (hname : IsImportName name) (hpath : IsPlainText path) (hbs : ∀ k ∈ bs, k.IsItem)
    (hlast : ∀ k ∈ bs, k.isImport = false) (a b : List Lexeme) : Gains (String.ofList name, String.ofList path)
      (as ++ g :: bs) (as ++ { g with gap := a } :: importSegment name path b :: bs) := by
  obtain ⟨d, hd, -⟩ := declared_importSegment hname hpath b
  exact .behind (fun _ => ⟨d, hd⟩) rfl (specs_importSegment hname hpath b)
    (fun k hk => (hbs k hk).specs_of_not_import (hlast k hk)) a

theorem specStretches_bare (name path : List Char) : ∀ l ∈ specStretches name path, l.cls ≠ .comment := by
  unfold specStretches
  split <;> simp [space, quotedStretch]

/-- An import can be put two lines below an item, in front of the end of a line. -/
theorem Syntax.Outline.withFirst (ho : Outline s lead (as ++ g :: bs)) (hsound : ∀ l ∈ stretches s, l.cls.isSound)
    (hlast : ∀ k ∈ bs, k.isImport = false) (hname : IsImportName name) (hpath : IsPlainText path) {a b : List Lexeme}
    (hgap : g.gap = a ++ b) (hb : (∃ c, b = ⟨.newline, ['\n']⟩ :: c) ∨ b = [] ∧ bs = [])
    (hclosed : opensComment (lead ++ (joined as ++ (g.code ++ a))) → ClosesNone (importStretches name path)) :
    ∃ s' hs ins y, Splice.importAfterClause (Utf8.encode s)
        (byteWidth (orderMark s ++ texts (lead ++ (joined as ++ (g.code ++ a)))))
        (Utf8.encode (texts (specStretches name path))) = Utf8.encode s' ∧
      WithImport name path s s' lead (as ++ g :: bs) hs ∧
      PutBehind name path lead (as ++ g :: bs) hs (lead ++ (joined as ++ (g.code ++ a))) ins y := by
  have hs : stretches s = lead ++ (joined as ++ (g.code ++ a)) ++ ([] ++ (b ++ joined bs)) := by
    rw [ho.stretches_eq, joined_append, joined_cons, hgap]
    simp
  obtain ⟨hst, -⟩ := stretches_inserted hs hsound
    (fun hopen => (hclosed hopen).behind (l := ⟨.newline, ['\n']⟩) rfl (by decide)) (compact_import hname hpath).line
  refine ⟨_, _, _, _, importAfterClause_stretches hs, ⟨orderMark_eq hst, ⟨hst.trans ?_, ho.noCode, ?_⟩,
    gains_importSegment hname hpath (fun k hk => ho.linked.items k (by simp [hk])) hlast _ _⟩,
    .intro (u := [⟨.newline, ['\n']⟩, ⟨.newline, ['\n']⟩]) (v := [⟨.newline, ['\n']⟩]) hgap (by simp) rfl⟩
  · rw [joined_append, joined_cons, joined_cons]
    simp [importSegment]
  -- no code stands between the line end and what is behind it
  have hlines : NoCode [(⟨.newline, ['\n']⟩ : Lexeme), ⟨.newline, ['\n']⟩] :=
    List.forall_mem_cons.mpr ⟨newline_ne_token, List.forall_mem_singleton.mpr newline_ne_token⟩
  have hbreaks : Breaks [(⟨.newline, ['\n']⟩ : Lexeme), ⟨.newline, ['\n']⟩] := ⟨_, List.mem_cons_self, rfl⟩
  have hboth : EndsItem (a ++ [⟨.newline, ['\n']⟩, ⟨.newline, ['\n']⟩]) ∧ NoCode b := by
    cases ho.linked.of_append with
    | cons _ hends _ =>
      rw [hgap] at hends
      rcases hb with ⟨c, rfl⟩ | ⟨rfl, -⟩
      · exact ⟨ EndsItem.prefix hends hlines (.inl hbreaks),
          List.forall_mem_cons.mpr ⟨newline_ne_token, hends.noCode_behind⟩⟩
      · rw [List.append_nil] at hends
        exact ⟨hends.append hlines, List.forall_mem_nil _⟩
    | last _ hnone _ =>
      rw [hgap] at hnone
      exact ⟨.line (NoCode.append (fun l hl => hnone l (List.mem_append_left _ hl)) hlines) (hbreaks.append_right a),
        fun l hl => hnone l (List.mem_append_right _ hl)⟩
  exact ho.linked.withImport hname hboth.1 hboth.2

/-- An import can be put on the line below the last import. -/
theorem Syntax.Outline.withBelow (ho : Outline s lead (as ++ g :: bs)) (hsound : ∀ l ∈ stretches s, l.cls.isSound)
    (hlast : ∀ k ∈ bs, k.isImport = false) (hname : IsImportName name) (hpath : IsPlainText path) {c : List Lexeme}
    {l : Lexeme} (hcode : g.code = c ++ [l]) (hl : l.cls = .token .text) (hgap : NoCode g.gap)
    (hclosed : opensComment (lead ++ (joined as ++ g.code)) → ClosesNone (importStretches name path)) :
    ∃ s' hs ins y, Splice.importBelow (Utf8.encode s) (byteWidth (orderMark s ++ texts (lead ++ (joined as ++ g.code))))
        (Utf8.encode (texts (specStretches name path))) = Utf8.encode s' ∧
      WithImport name path s s' lead (as ++ g :: bs) hs ∧
      PutBehind name path lead (as ++ g :: bs) hs (lead ++ (joined as ++ g.code)) ins y := by
  have hend : lead ++ (joined as ++ g.code) = (lead ++ (joined as ++ c)) ++ [l] := by
    rw [hcode]
    simp
  have hs : stretches s = (lead ++ (joined as ++ c)) ++ l :: (g.gap ++ joined bs) := by
    rw [ho.stretches_eq, joined_append, joined_cons, hcode]
    simp
  obtain ⟨e, z, hz, he, heq⟩ := @importBelow_stretches s _ _ name path _ _ hs hsound hl
  -- the line end that goes stands before the next segment
  obtain ⟨b, hb, hrest⟩ : ∃ b, g.gap = e ++ b ∧ z = b ++ joined bs := by
    rcases he with rfl | rfl
    · exact ⟨g.gap, rfl, hz.symm⟩
    · obtain ⟨b, hb, hrest⟩ := ho.linked.behind.line_before hz
      exact ⟨b, hb, hrest.symm⟩
  have hsplit : stretches s = lead ++ (joined as ++ g.code) ++ (e ++ (b ++ joined bs)) := by
    rw [ho.stretches_eq, joined_append, joined_cons, hb]
    simp
  obtain ⟨hst, -⟩ := stretches_inserted hsplit hsound hclosed (compact_import hname hpath)
  rw [hrest, ← hend, List.append_cons (lead ++ (joined as ++ c)) l, ← hend] at heq
  have hput : ∃ ins y, PutBehind name path lead (as ++ g :: bs) (as ++ { g with gap := [⟨.newline, ['\n']⟩] } ::
      importSegment name path (⟨.newline, ['\n']⟩ :: b) :: bs) (lead ++ (joined as ++ (g.code ++ []))) ins y := by
    rcases he with rfl | rfl
    · exact ⟨_, _, .intro (a := []) (u := [⟨.newline, ['\n']⟩]) (v := [⟨.newline, ['\n']⟩]) hb (by simp) rfl⟩
    · exact ⟨_, _, .intro (a := []) (u := [⟨.newline, ['\n']⟩]) (v := []) hb (by simp) rfl⟩
  rw [List.append_nil] at hput
  obtain ⟨ins, y, hput⟩ := hput
  refine ⟨_, _, ins, y, heq, ⟨orderMark_eq hst, ⟨hst.trans ?_, ho.noCode, ?_⟩,
    gains_importSegment hname hpath (fun k hk => ho.linked.items k (by simp [hk])) hlast _ _⟩, hput⟩
  · rw [joined_append, joined_cons, joined_cons]
    simp [importSegment]
  · rw [hb] at hgap
    exact ho.linked.withImport hname
      (.line (List.forall_mem_singleton.mpr newline_ne_token) ⟨_, List.mem_cons_self, rfl⟩)
      fun k hk => hgap k (List.mem_append_right _ hk)

/-- An import can be put into the parentheses of the last import. -/
theorem Syntax.Outline.withInside (ho : Outline s lead (as ++ g :: bs)) (hsound : ∀ l ∈ stretches s, l.cls.isSound)
    (hlast : ∀ k ∈ bs, k.isImport = false) (hread : g.IsReadable) (hname : IsImportName name) (hpath : IsPlainText path)
    (himport : g.isImport) {head : List Lexeme} {ps : List ImportPart} {z : Lexeme}
    (hcode : g.code = head ++ (ImportPart.code ps ++ [z])) (hparts : IsImport head ps [z])
    (hclosed : opensComment (lead ++ (joined as ++ (head ++ ImportPart.code ps))) →
      ClosesNone (⟨.blank, ['\t']⟩ :: specStretches name path)) :
    ∃ s' hs ins y, Splice.importInside (Utf8.encode s)
        (byteWidth (orderMark s ++ texts (lead ++ (joined as ++ (head ++ ImportPart.code ps)))))
        (Utf8.encode (texts (specStretches name path))) = Utf8.encode s' ∧
      WithImport name path s s' lead (as ++ g :: bs) hs ∧
      PutInside lead (as ++ g :: bs) hs (lead ++ (joined as ++ (head ++ ImportPart.code ps))) ins y := by
  have hitem : g.IsItem := ho.linked.items g (by simp)
  have hclause := hitem.isClause_of_isImport himport
  have hs : stretches s = lead ++ (joined as ++ (head ++ ImportPart.code ps)) ++ (z :: (g.gap ++ joined bs)) := by
    rw [ho.stretches_eq, joined_append, joined_cons, hcode]
    simp
  obtain ⟨x, e, hx, he, heq⟩ := @importInside_stretches s _ _ name path hs hsound
  -- the line end before the parenthesis is one of the import
  obtain ⟨y, rfl, hy⟩ : ∃ y, x = lead ++ (joined as ++ y) ∧ head ++ ImportPart.code ps = y ++ e := by
    rcases he with rfl | rfl
    · exact ⟨head ++ ImportPart.code ps, by rw [hx, List.append_nil], (List.append_nil _).symm⟩
    · rcases List.eq_nil_or_concat (head ++ ImportPart.code ps) with hnil | ⟨y, l, hy⟩
      · exact absurd (List.append_eq_nil_iff.mp hnil).1 hparts.head_ne_nil
      · rw [List.concat_eq_append] at hy
        rw [hy, ← List.append_assoc, ← List.append_assoc] at hx
        obtain ⟨hbefore, hl⟩ := List.append_inj' hx rfl
        exact ⟨y, by rw [← hbefore, List.append_assoc], by rw [hy, hl]⟩
  have hcode' : g.code = y ++ (e ++ [z]) := by rw [hcode, ← List.append_assoc, hy, List.append_assoc]
  obtain ⟨d, hd⟩ := hread hclause
  obtain ⟨node, hlabel, hwith⟩ := hitem.withSpec himport hcode' hparts.closes he hname hpath hd
  obtain ⟨hnew, d', hd', hspecs⟩ := hwith g.gap
  have hsplit : stretches s = lead ++ (joined as ++ y) ++ (e ++ (z :: (g.gap ++ joined bs))) := by
    rw [hs, hy]
    simp
  have hbefore : opensComment (lead ++ (joined as ++ y)) → ClosesNone (⟨.blank, ['\t']⟩ :: specStretches name path) :=
    fun hopen => hclosed (by
      rw [hy, ← List.append_assoc (joined as), ← List.append_assoc lead]
      exact opensComment_append e hopen)
  obtain ⟨hst, -⟩ := stretches_inserted hsplit hsound hbefore (compact_spec hname hpath)
  -- a line end before the parenthesis stays before the new line
  obtain ⟨ins, hins, hbare⟩ : ∃ ins, groupWith y name path z = y ++ e ++ (ins ++ [z]) ∧
      ∀ l ∈ ins, l.cls ≠ .comment := by
    have hspec := specStretches_bare name path
    rcases he with rfl | rfl
    · refine ⟨⟨.newline, ['\n']⟩ :: ⟨.blank, ['\t']⟩ :: (specStretches name path ++ [⟨.newline, ['\n']⟩]), ?_, ?_⟩
      · simp [groupWith]
      · simpa [or_imp, forall_and] using hspec
    · refine ⟨⟨.blank, ['\t']⟩ :: (specStretches name path ++ [⟨.newline, ['\n']⟩]), ?_, ?_⟩
      · simp [groupWith]
      · simpa [or_imp, forall_and] using hspec
  have hz : z.cls ≠ .comment := by
    rw [hparts.closes]
    decide
  have hput : PutInside lead (as ++ g :: bs) _ (lead ++ (joined as ++ (head ++ ImportPart.code ps))) ins _ :=
    .intro (h := ⟨groupWith y name path z, node, g.gap⟩) himport (hnew.isImport_iff.mpr hlabel)
      (by simp [hparts.head_ne_nil]) (by rw [hcode, List.append_assoc]) (by rw [hy]; exact hins) rfl
      (List.forall_mem_append.mpr ⟨hbare, List.forall_mem_singleton.mpr hz⟩)
  refine ⟨_, _, ins, _, heq, ⟨orderMark_eq hst, ⟨?_, ho.noCode, ho.linked.replaced hnew rfl ?_⟩,
    .replaced (fun _ => ⟨d', hd'⟩) (fun h => ?_) himport (hnew.isImport_iff.mpr hlabel) ?_ fun k hk => ?_⟩, hput⟩
  · rw [joined_append, joined_cons]
    exact hst.trans (by simp [groupWith])
  · rw [mayEndFile, hlabel]
    rfl
  · rw [hclause] at h
    cases h
  · rw [specs_of_declared (hnew.isClause_of_isImport (hnew.isImport_iff.mpr hlabel)) hd', hspecs,
      specs_of_declared hclause hd]
  · exact (ho.linked.items k (by simp [hk])).specs_of_not_import (hlast k hk)

end Places

end GoSplice
