import GoSplice.Proofs.FileEdits
import GoSplice.Proofs.PartEdits
import GoSplice.Proofs.Vocabulary

/-!
# Where imports are put

An import that is put into a text is on lines of its own between stretches of
the text, which stay as they are.  It stands behind the last import of the file,
inside its parentheses if it has some, or below the line of the package clause:

    Parsed … f s → the file with an import = encode s',
      stretches s' = x, then the lines of the import, then y
-/

namespace GoSplice

open Syntax

namespace Syntax

/-! ## Lines between stretches -/

/-- Stretches that are cut out of their text whatever comes behind it. -/
structure Compact (ws : List Lexeme) : Prop where
  lexemes_eq : ∀ y, lexemes (texts ws ++ y) = ws ++ lexemes y
  isSound : ∀ l ∈ ws, l.cls.isSound
  closed : opensComment ws = false

theorem Compact.line {ws : List Lexeme} (h : Compact ws) : Compact (⟨.newline, ['\n']⟩ :: ws) := by
  refine ⟨fun y => ?_, List.forall_mem_cons.mpr ⟨rfl, h.isSound⟩, ?_⟩
  · have hline : lexemes ('\n' :: (texts ws ++ y)) = ⟨.newline, ['\n']⟩ :: lexemes (texts ws ++ y) := lexemes_cons _ _
    rw [texts_cons, List.append_assoc]
    exact hline.trans (by rw [h.lexemes_eq, List.cons_append])
  · exact opensComment_line (a := []) rfl h.closed

section Import

variable {name path : List Char}

theorem compact_import (h : IsImportName name) (hp : IsPlainText path) : Compact (importStretches name path) :=
  ⟨lexemes_import h hp, (declares_import h).isSound, opensComment_import h⟩

/-- A tab and an import spec. -/
theorem compact_spec (h : IsImportName name) (hp : IsPlainText path) :
    Compact (⟨.blank, ['\t']⟩ :: specStretches name path) := by
  have himport : ∀ l ∈ importStretches name path, l.cls.isSound := (declares_import h).isSound
  rw [importStretches, List.forall_mem_cons, List.forall_mem_cons] at himport
  have hopen : opensComment (importStretches name path) = false := opensComment_import h
  rw [importStretches, opensComment, opensComment, Bool.or_eq_false_iff, Bool.or_eq_false_iff] at hopen
  refine ⟨fun y => ?_, List.forall_mem_cons.mpr ⟨rfl, himport.2.2⟩, ?_⟩
  · obtain ⟨c, r, hc, hblank⟩ := spec_head_plain h path y
    rw [texts_cons, List.append_assoc, hc]
    exact (lexemes_space (by decide) hblank).trans (by rw [← hc, lexemes_spec h hp, List.cons_append])
  · rw [opensComment, hopen.2.2, Bool.or_false]
    rfl

/-- Whether a line of some stretches ends no comment, if what is behind it ends none. -/
def ClosesNone (ws : List Lexeme) : Prop :=
  ∀ y, blockCommentLength? y = none → blockCommentLength? (texts ws ++ '\n' :: y) = none

/-- The mark that ends a comment does not come up across a character that is no part of it. -/
theorem blockCommentLength?_across {a b : List Char} {c : Char} (hc : c ≠ '*' ∧ c ≠ '/')
    (ha : blockCommentLength? a = none) (hb : blockCommentLength? b = none) : blockCommentLength? (a ++ c :: b) = none := by
  induction a with
  | nil => exact blockCommentLength?_cons_eq_none.mpr ⟨fun h => hc.1 h.1, hb⟩
  | cons d a ih =>
    rw [blockCommentLength?_cons_eq_none] at ha
    rw [List.cons_append, blockCommentLength?_cons_eq_none]
    refine ⟨fun ⟨hd, hhead⟩ => ?_, ih ha.2⟩
    cases a with
    | nil => exact hc.2 (Option.some.inj hhead)
    | cons e a => exact ha.1 ⟨hd, hhead⟩

theorem blockCommentLength?_of_notMem {s : List Char} (h : '*' ∉ s) : blockCommentLength? s = none := by
  induction s with
  | nil => rfl
  | cons c s ih =>
    rw [List.mem_cons, not_or] at h
    exact blockCommentLength?_cons_eq_none.mpr ⟨fun hc => h.1 hc.1.symm, ih h.2⟩

theorem IsImportName.notMem_star (h : IsImportName name) : '*' ∉ name := by
  rcases h with rfl | rfl | h
  · exact List.not_mem_nil
  · decide
  · exact fun hmem => absurd (h.all '*' hmem) (by decide)

theorem closesNone_spec (h : IsImportName name) (hp : blockCommentLength? path = none) :
    ClosesNone (specStretches name path) := by
  intro y hy
  have hquoted : ∀ y, blockCommentLength? y = none →
      blockCommentLength? ((quotedStretch path).text ++ '\n' :: y) = none := fun y hy => by
    have htext : (quotedStretch path).text ++ '\n' :: y = [] ++ '"' :: (path ++ '"' :: ([] ++ '\n' :: y)) := by
      simp [quotedStretch]
    rw [htext]
    exact blockCommentLength?_across (by decide) rfl (blockCommentLength?_across (by decide) hp
      (blockCommentLength?_across (by decide) rfl hy))
  unfold specStretches
  split
  · rw [texts_cons, texts_nil, List.append_nil]
    exact hquoted y hy
  · have htext : texts [⟨.token (importNameKind name), name⟩, space, quotedStretch path] ++ '\n' :: y =
        name ++ ' ' :: ((quotedStretch path).text ++ '\n' :: y) := by
      simp [space]
    rw [htext]
    exact blockCommentLength?_across (by decide) (blockCommentLength?_of_notMem h.notMem_star) (hquoted y hy)

theorem closesNone_import (h : IsImportName name) (hp : blockCommentLength? path = none) :
    ClosesNone (importStretches name path) := by
  intro y hy
  have htext : texts (importStretches name path) ++ '\n' :: y =
      "import".toList ++ ' ' :: (texts (specStretches name path) ++ '\n' :: y) := by
    simp [importStretches, space]
  rw [htext]
  exact blockCommentLength?_across (by decide) (blockCommentLength?_of_notMem (by decide)) (closesNone_spec h hp y hy)

theorem ClosesNone.behind {ws : List Lexeme} {l : Lexeme} {c : Char} (h : ClosesNone ws) (hl : l.text = [c])
    (hc : c ≠ '*' ∧ c ≠ '/') : ClosesNone (l :: ws) := fun y hy => by
  rw [texts_cons, hl]
  exact blockCommentLength?_across (a := []) hc rfl (h y hy)

end Import

/-- Lines that are put between the stretches of a text leave these as they are. -/
theorem stretches_inserted {s : List Char} {x e y ws : List Lexeme} (h : stretches s = x ++ (e ++ y))
    (hsound : ∀ l ∈ stretches s, l.cls.isSound) (hclosed : opensComment x → ClosesNone ws) (hws : Compact ws) :
    stretches (orderMark s ++ texts (x ++ ⟨.newline, ['\n']⟩ :: (ws ++ ⟨.newline, ['\n']⟩ :: y))) =
        x ++ ⟨.newline, ['\n']⟩ :: (ws ++ ⟨.newline, ['\n']⟩ :: y) ∧
      ∀ l ∈ x ++ ⟨.newline, ['\n']⟩ :: (ws ++ ⟨.newline, ['\n']⟩ :: y), l.cls.isSound := by
  rw [h] at hsound
  have hy : lexemes (texts y) = y := lexemes_suffix (s := s.drop (orderMark s).length) (a := x ++ e) (by
    rw [← stretches_eq, h, List.append_assoc])
  have hline : ∀ z, lexemes ('\n' :: z) = ⟨.newline, ['\n']⟩ :: lexemes z := fun z => lexemes_cons _ _
  have hlexemes : lexemes (texts (x ++ ⟨.newline, ['\n']⟩ :: (ws ++ ⟨.newline, ['\n']⟩ :: y))) =
      x ++ ⟨.newline, ['\n']⟩ :: (ws ++ ⟨.newline, ['\n']⟩ :: y) := by
    have hall : lexemes (texts x ++ texts (e ++ y)) = x ++ (e ++ y) := by
      rw [← texts_append, ← h]
      exact lexemes_suffix (s := s.drop (orderMark s).length) (a := []) rfl
    have hnone : opensComment x → blockCommentLength? (texts (⟨.newline, ['\n']⟩ ::
        (ws ++ ⟨.newline, ['\n']⟩ :: y))) = none := fun hopen => by
      have hrest : blockCommentLength? (texts y) = none := by
        have hboth := opensComment_rest hall hopen
        rw [texts_append] at hboth
        exact blockCommentLength?_suffix _ hboth
      rw [texts_cons, texts_append, texts_cons]
      exact blockCommentLength?_across (a := []) (by decide) rfl (hclosed hopen _ hrest)
    rw [texts_append, lexemes_keepsLine hall (fun l hl => hsound l (List.mem_append_left _ hl))
      (Or.inl (by rintro _ ⟨⟩; rfl)) hnone]
    rw [texts_cons, List.singleton_append, hline, texts_append, hws.lexemes_eq, texts_cons, List.singleton_append,
      hline, hy]
  have hall : ∀ l ∈ x ++ ⟨.newline, ['\n']⟩ :: (ws ++ ⟨.newline, ['\n']⟩ :: y), l.cls.isSound := by
    simp only [List.forall_mem_append, List.forall_mem_cons] at hsound ⊢
    exact ⟨hsound.1, rfl, hws.isSound, rfl, hsound.2.2⟩
  exact ⟨(stretches_mark s (by rw [hlexemes]; exact hall)).1.trans hlexemes, hall⟩

/-! ## The bytes with an import -/

section Bytes

variable {s : List Char} {x y : List Lexeme} {name path : List Char}

/-- The bytes of a text up to a place between its stretches, and those behind it. -/
theorem split_bytes (h : stretches s = x ++ y) :
    (Utf8.encode s).take (byteWidth (orderMark s ++ texts x)) = Utf8.encode (orderMark s ++ texts x) ∧
      (Utf8.encode s).drop (byteWidth (orderMark s ++ texts x)) = Utf8.encode (texts y) := by
  have hs : Utf8.encode s = Utf8.encode (orderMark s ++ texts x) ++ Utf8.encode (texts y) := by
    rw [← Utf8.encode_append, List.append_assoc, ← texts_append, ← h, orderMark_append_texts]
  rw [hs, byteWidth_eq]
  exact ⟨List.take_left, List.drop_left⟩

theorem orderMark_getLast? (s : List Char) : (orderMark s).getLast? ≠ some '\n' := by
  cases s with
  | nil => exact (Option.some_ne_none _).symm
  | cons c s =>
    rw [orderMark]
    split
    · next hc =>
      rw [hc]
      decide
    · exact (Option.some_ne_none _).symm

theorem encode_lineEnd (r : List Char) : Utf8.encode ('\n' :: r) = LineIndex.lineFeed :: Utf8.encode r := rfl

theorem texts_import (name path : List Char) :
    texts (importStretches name path) = "import ".toList ++ texts (specStretches name path) := by
  simp [importStretches, space]

/-- A line end is added behind stretches, but if the last of them is one. -/
theorem endingLine_stretches (h : stretches s = x ++ y) (hsound : ∀ l ∈ stretches s, l.cls.isSound) :
    ∃ z e, x = z ++ e ∧ (e = [] ∨ e = [⟨.newline, ['\n']⟩]) ∧
      Splice.endingLine (Utf8.encode (orderMark s ++ texts x)) = Utf8.encode (orderMark s ++ texts z ++ ['\n']) := by
  have hone : Utf8.encode ['\n'] = [LineIndex.lineFeed] := rfl
  unfold Splice.endingLine
  split
  · next hlast =>
    have hend := LineIndex.getLast?_of_encode hlast
    rw [List.getLast?_append, Option.or_eq_some_iff] at hend
    obtain ⟨z, rfl⟩ := exists_lineEnd (s := s.drop (orderMark s).length) (fun l hl => by
      rw [← stretches_eq, h]
      exact List.mem_append_left _ hl) (fun l hl => hsound l (by rw [h]; exact List.mem_append_left _ hl))
      (hend.resolve_right fun hmark => orderMark_getLast? s hmark.2)
    exact ⟨z, _, rfl, .inr rfl, by rw [texts_append, ← List.append_assoc]; rfl⟩
  · exact ⟨x, [], (List.append_nil x).symm, .inl rfl, by rw [Utf8.encode_append (_ ++ _), hone]⟩

/-- An import put before a place is a line more, behind the line end before it. -/
theorem importInside_stretches (h : stretches s = x ++ y) (hsound : ∀ l ∈ stretches s, l.cls.isSound) :
    ∃ z e, x = z ++ e ∧ (e = [] ∨ e = [⟨.newline, ['\n']⟩]) ∧
      Splice.importInside (Utf8.encode s) (byteWidth (orderMark s ++ texts x))
          (Utf8.encode (texts (specStretches name path))) =
        Utf8.encode (orderMark s ++ texts (z ++ ⟨.newline, ['\n']⟩ ::
          (⟨.blank, ['\t']⟩ :: specStretches name path ++ ⟨.newline, ['\n']⟩ :: y))) := by
  obtain ⟨z, e, hx, he, hline⟩ := endingLine_stretches h hsound
  obtain ⟨htake, hdrop⟩ := split_bytes h
  refine ⟨z, e, hx, he, ?_⟩
  rw [Splice.importInside, htake, hdrop, hline]
  have htab : ∀ r, Utf8.encode ('\t' :: r) = bytesOf "\t" ++ Utf8.encode r := fun _ => rfl
  simp only [texts_append, texts_cons, Utf8.encode_append, encode_lineEnd, htab, List.append_assoc, List.cons_append,
    List.nil_append]
  rfl

/-- An import put below a token is a line more, behind the line end that follows the token. -/
theorem importBelow_stretches {k : Kind} {l : Lexeme} (h : stretches s = x ++ l :: y)
    (hsound : ∀ l ∈ stretches s, l.cls.isSound) (hl : l.cls = .token k) :
    ∃ e z, y = e ++ z ∧ (e = [] ∨ e = [⟨.newline, ['\n']⟩]) ∧
      Splice.importBelow (Utf8.encode s) (byteWidth (orderMark s ++ texts (x ++ [l])))
          (Utf8.encode (texts (specStretches name path))) =
        Utf8.encode (orderMark s ++ texts (x ++ l :: ⟨.newline, ['\n']⟩ ::
          (importStretches name path ++ ⟨.newline, ['\n']⟩ :: z))) := by
  have h' : stretches s = (x ++ [l]) ++ y := by rw [h, List.append_assoc]; rfl
  obtain ⟨htake, hdrop⟩ := split_bytes h'
  have hmem : ∀ m ∈ x ++ l :: y, m ∈ lexemes (s.drop (orderMark s).length) := by
    rw [← h]
    exact fun m hm => hm
  -- a token does not end with a line end
  have hline : Splice.endingLine (Utf8.encode (orderMark s ++ texts (x ++ [l]))) =
      Utf8.encode (orderMark s ++ texts (x ++ [l]) ++ ['\n']) := by
    obtain ⟨z, e, hx, he, hline⟩ := endingLine_stretches h' hsound
    rcases he with rfl | rfl
    · rw [hline, ← (List.append_nil z), ← hx]
    · obtain ⟨-, hend⟩ := List.append_inj' hx rfl
      rw [List.head_eq_of_cons_eq hend] at hl
      cases hl
  obtain ⟨e, z, rfl, he, hrest⟩ : ∃ e z, y = e ++ z ∧ (e = [] ∨ e = [⟨.newline, ['\n']⟩]) ∧
      (if (Utf8.encode (texts y)).head? = some LineIndex.lineFeed then (Utf8.encode (texts y)).drop 1
        else Utf8.encode (texts y)) = Utf8.encode (texts z) := by
    cases y with
    | nil => exact ⟨[], [], rfl, .inl rfl, rfl⟩
    | cons m z =>
      by_cases hm : m.cls = .newline
      · obtain rfl := newline_stretch (hmem m (by simp)) hm
        exact ⟨[⟨.newline, ['\n']⟩], z, rfl, .inr rfl, rfl⟩
      · refine ⟨[], m :: z, rfl, .inl rfl, if_neg fun hhead => not_endsLine h' hm ?_⟩
        intro c hc
        rw [LineIndex.head?_of_encode hhead] at hc
        exact (Option.some.inj hc).symm
  refine ⟨e, z, rfl, he, ?_⟩
  unfold Splice.importBelow
  dsimp only
  rw [htake, hdrop, hline, hrest]
  simp only [texts_append, texts_cons, texts_nil, texts_import, Utf8.encode_append, encode_lineEnd, List.append_assoc,
    List.cons_append, List.nil_append]
  rfl

/-- An import put below a line is two lines more. -/
theorem importAfterClause_stretches (h : stretches s = x ++ y) :
    Splice.importAfterClause (Utf8.encode s) (byteWidth (orderMark s ++ texts x))
        (Utf8.encode (texts (specStretches name path))) =
      Utf8.encode (orderMark s ++ texts (x ++ ⟨.newline, ['\n']⟩ ::
        (⟨.newline, ['\n']⟩ :: importStretches name path ++ ⟨.newline, ['\n']⟩ :: y))) := by
  obtain ⟨htake, hdrop⟩ := split_bytes h
  rw [Splice.importAfterClause, htake, hdrop]
  simp only [texts_append, texts_cons, texts_import, Utf8.encode_append, encode_lineEnd, List.append_assoc,
    List.cons_append, List.nil_append]
  rfl

end Bytes

/-! ## Items at their places -/

open Segment

/-- A split of the nodes of segments is a split of the segments. -/
theorem nodes_eq_append {o : Nat} {gs : List Segment} {ms ns : List Node} {t : Node}
    (h : nodes o gs = ms ++ t :: ns) : ∃ as p bs, gs = as ++ p :: bs ∧ ms = nodes o as ∧
      t = p.node.moved (o + byteWidth (texts (joined as))) := by
  induction gs generalizing o ms with
  | nil => simp [nodes] at h
  | cons g gs ih =>
    rw [nodes] at h
    cases ms with
    | nil =>
      obtain ⟨rfl, -⟩ := List.cons.inj h
      exact ⟨[], g, gs, rfl, rfl, rfl⟩
    | cons m ms =>
      rw [List.cons_append, List.cons.injEq] at h
      obtain ⟨rfl, h⟩ := h
      obtain ⟨as, p, bs, rfl, rfl, rfl⟩ := ih h
      refine ⟨g :: as, p, bs, rfl, rfl, ?_⟩
      rw [show joined (g :: as) = g.stretches ++ joined as from rfl, texts_append, byteWidth_append, Nat.add_assoc]

end Syntax

open Segment

section Places

variable {filename : String} {source : Bytes} {strict : Bool} {f : SourceFile} {s : List Char} {lead : List Lexeme}
  {gs : List Segment}

/-- The first package clause of a file. -/
theorem Parsed.exists_clauseItem (h : Parsed filename source strict f s) (ho : Outline s lead gs) :
    ∃ as p bs, gs = as ++ p :: bs ∧ p.node.label = .packageClause ∧ (∀ g ∈ as, g.node.label ≠ .packageClause) ∧
      f.clauseEnd = byteWidth (orderMark s ++ texts (lead ++ (joined as ++ p.code))) := by
  obtain ⟨t, hfind, -, hend⟩ := h.clause
  obtain ⟨hlabel, ms, ns, hnodes, hms⟩ := List.find?_eq_some_iff_append.mp hfind
  rw [ho.items] at hnodes
  obtain ⟨as, p, bs, rfl, rfl, rfl⟩ := nodes_eq_append hnodes
  have hp : p.IsItem := ho.linked.items p (by simp)
  rw [Tree.label_moved] at hlabel
  refine ⟨as, p, bs, rfl, by simpa using hlabel, fun g hg => ?_, ?_⟩
  · obtain ⟨cs, ds, rfl⟩ := List.append_of_mem hg
    have := hms _ (mem_nodes.mpr ⟨cs, g, ds, rfl, rfl⟩)
    rw [Tree.label_moved] at this
    simpa using this
  · have hstop : (itemBehind s lead as p).stop = byteWidth (orderMark s ++ texts (lead ++ (joined as ++ p.code))) :=
      (hp.range s lead as).2
    rw [hend, ← hstop, itemBehind, texts_append, byteWidth_append, byteWidth_append, byteWidth_append, Nat.add_assoc]

end Places

end GoSplice
