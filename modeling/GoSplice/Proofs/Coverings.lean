import GoSplice.Proofs.Additions
import GoSplice.Proofs.ImportEdits
import GoSplice.Proofs.TakenTexts

/-!
# Files that cover others

A file to which something is added declares what it declared, and imports what it imported.  So does a
file behind a declaration that is put to its end, where it declares one thing more:

    Outline s lead gs → t is read as one declaration of u →
      Outline (s ++ t ++ "\n") lead' hs → Covers gs hs, some of hs declares u    (IsItemText.covers)
-/

namespace GoSplice

open Syntax Syntax.Segment GoSplice.Part

namespace Syntax

/-! ## Segments behind others -/

/-- Segments that are ended may stand before loose ones. -/
theorem Segment.loose_append {as bs : List Segment} (has : ∀ g ∈ as, g.IsEnded) (hbs : Loose bs) : Loose (as ++ bs) := by
  induction as with
  | nil => exact hbs
  | cons a as ih =>
    obtain ⟨ha, has⟩ := List.forall_mem_cons.mp has
    exact .cons (.inl ha.toIsItem) ha.ends.isFiller (fun _ => ha.ends.exists_isEnd) (ih has)

/-- Loose segments behind an outline that ends its last line, with blanks and comments between. -/
theorem Outline.exists_behind {s : List Char} {lead fill : List Lexeme} {gs hs : List Segment} {ls : List Lexeme}
    (h : Outline s lead gs) (hline : stretches s = ls ++ [⟨.newline, ['\n']⟩]) (hfill : ∀ l ∈ fill, l.cls.isFiller)
    (hhs : Loose hs) : ∃ lead' gs', SameItems gs' gs ∧ (∀ l ∈ lead', l.cls.isFiller) ∧ Loose (gs' ++ hs) ∧
      stretches s ++ (fill ++ joined hs) = lead' ++ joined (gs' ++ hs) := by
  have hended := h.isEnded hline
  rw [h.stretches_eq]
  rcases List.eq_nil_or_concat gs with rfl | ⟨gs, g, rfl⟩
  · exact ⟨lead ++ fill, [], rfl, List.forall_mem_append.mpr ⟨h.noCode.isFiller, hfill⟩, hhs, by simp⟩
  · rw [List.concat_eq_append] at hended ⊢
    obtain ⟨hgs, hg⟩ := List.forall_mem_append.mp hended
    have hg := hg g List.mem_cons_self
    obtain ⟨l, hl, hend⟩ := hg.ends.exists_isEnd
    refine ⟨lead, gs ++ [{ g with gap := g.gap ++ fill }], by simp [SameItems, Segment.item], h.noCode.isFiller, ?_, by simp⟩
    rw [List.append_assoc]
    refine loose_append hgs (.cons (.inl ⟨hg.declares, hg.nonempty⟩) ?_ (fun _ => ⟨l, List.mem_append_left _ hl, hend⟩) hhs)
    exact List.forall_mem_append.mpr ⟨hg.ends.isFiller, hfill⟩

theorem SameItems.countP_declaresBeside {gs hs : List Segment} (h : SameItems gs hs) (u : Subject) :
    gs.countP (declaresBeside u) = hs.countP (declaresBeside u) := by
  have hmap := congrArg (List.countP id) (h.map (F := declaresBeside u) fun _ _ => rfl)
  rwa [List.countP_map, List.countP_map] at hmap

theorem SameItems.paths {gs hs : List Segment} (h : SameItems gs hs) : gs.flatMap paths = hs.flatMap paths := by
  rw [List.flatMap, List.flatMap, h.map (F := Segment.paths) fun _ _ => rfl]

end Syntax

/-! ## New files -/

/-- A text that begins with a package clause has a name there. -/
theorem Syntax.Outline.isNameText {s name : List Char} {lead y : List Lexeme} {gs : List Segment} (ho : Outline s lead gs)
    (hname : IsWordText name) (hs : stretches s = clauseStretches name ++ y) : IsNameText name := by
  rw [ho.stretches_eq] at hs
  obtain rfl := ho.noCode.eq_nil hs rfl
  rw [List.nil_append] at hs
  cases gs with
  | nil => cases hs
  | cons g gs =>
    have hg := ho.linked.isItem
    obtain ⟨-, -, -, l, r, hcode, -⟩ := hg.opening
    rw [joined_cons] at hs
    have hl : l = ⟨.token (.keyword .packageK), "package".toList⟩ := by
      rw [hcode] at hs
      exact (List.cons.inj hs).1
    have hallows := hg.vocabulary (hcode ▸ List.mem_cons_self) (congrArg Lexeme.cls hl)
    obtain ⟨k, hk, hkinds⟩ := hg.clause_kinds (Label.eq_packageClause hallows)
    have hword := congrArg kindsOf hs
    rw [kindsOf_append, hkinds] at hword
    obtain rfl : k = .ofWord name := (List.cons.inj (List.cons.inj hword).2).1
    exact ⟨hname, hk⟩

/-- A file that is read with a word in its package clause has a name there. -/
theorem Parsed.isNameText {filename : String} {source : Bytes} {f : SourceFile} {name t : List Char}
    (h : Parsed filename source true f (fileText name [.blank] ++ t)) (hname : IsWordText name) : IsNameText name := by
  obtain ⟨lead, gs, ho⟩ := h.exists_outline
  exact ho.isNameText hname (stretches_clause hname t)

/-- A new file has an outline if it is read with something behind it. -/
theorem Parsed.exists_outline_new {filename : String} {source : Bytes} {f : SourceFile} {name t : List Char} {n : Nat}
    (h : Parsed filename source true f (fileText name (List.replicate (n + 1) .blank) ++ t)) (hname : IsWordText name) :
    ∃ lead gs, Outline (fileText name (List.replicate (n + 1) .blank)) lead gs := by
  have hsplit : fileText name (List.replicate (n + 1) .blank) =
      fileText name [.blank] ++ Part.bodyText (List.replicate n .blank) := fileText_append name [.blank] _
  have hn : IsNameText name := by
    rw [hsplit, List.append_assoc] at h
    exact h.isNameText hname
  have hwhole : ∀ b ∈ List.replicate (n + 1) Part.blank, b.IsWhole := fun b hb => by
    rw [List.eq_of_mem_replicate hb]
    trivial
  obtain ⟨s, hs⟩ := parse_eq_ok_iff.mp (parse_fileText hn hwhole filename true)
  obtain rfl := Utf8.encode_injective hs.encode_eq
  exact hs.exists_outline

/-! ## Declarations at the end of a file -/

/-- A file with a text of a declaration at its end covers the file, and declares what the text does. -/
theorem IsItemText.covers {subject : Subject} {s t : List Char} {fill ls lead lead' : List Lexeme} {g : Segment}
    {gs hs : List Segment} (ht : IsItemText subject t fill g) (h : Outline s lead gs)
    (hline : stretches s = ls ++ [⟨.newline, ['\n']⟩])
    (hst : stretches (s ++ (t ++ ['\n'])) = stretches s ++ lexemes (t ++ ['\n']))
    (h' : Outline (s ++ (t ++ ['\n'])) lead' hs) :
    Covers gs hs ∧ (subject.IsNamed → ∃ k ∈ hs, k.declares subject) := by
  have hloose : Loose [g] := .cons (.inl ht.isItem) ht.gap (fun hnil => absurd rfl hnil) .nil
  obtain ⟨lead'', gs', hsame, hlead, hall, heq⟩ := h.exists_behind hline ht.lead hloose
  rw [joined_cons, joined_nil, List.append_nil, ← ht.lexemes_eq, ← hst] at heq
  obtain ⟨-, halike⟩ := h'.eq_of_loose heq hlead hall
  have hcount : ∀ u, hs.countP (Segment.declares u) =
      gs.countP (Segment.declares u) + [g].countP (Segment.declares u) := by
    intro u
    rw [countP_declares h'.linked.items, countP_of_alike halike hall.pieces, List.countP_append,
      hsame.countP_declaresBeside, countP_declares h.linked.items,
      countP_declares (List.forall_mem_singleton.mpr ht.isItem)]
  refine ⟨⟨fun u => by rw [hcount]; exact Nat.le_add_right _ _, fun x hx => ?_⟩, fun hnamed => ?_⟩
  · rw [paths_of_alike halike, List.flatMap_append, hsame.paths]
    exact List.mem_append_left _ hx
  · obtain ⟨d, hd, hsubject⟩ := ht.declared
    have hg : g.declares subject := by
      rw [Segment.declares, ht.isClause, hd]
      exact (Declared.names_of_subject? hsubject hnamed).isDeclaredBy
    refine List.countP_pos_iff.mp ?_
    rw [hcount, List.countP_singleton, if_pos hg]
    exact Nat.succ_pos _

end GoSplice
