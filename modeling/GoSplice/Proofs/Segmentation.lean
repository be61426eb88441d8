import GoSplice.Proofs.ImportParts
import GoSplice.Proofs.OutlineEdits
import GoSplice.Proofs.Tails
import Mathlib.Data.List.Forall2

/-!
# Outlines are unique

A text that is read has one outline only, and it can be told without reading: where the
stretches of the text are those of items and imports, ended by line ends or semicolons, they are
the segments of the outline.

    Outline s lead' hs → stretches s = lead ++ joined gs → Loose gs →
      lead' = lead, and hs are gs in codes and gaps                       (Outline.eq_of_loose)
-/

namespace GoSplice.Syntax

open Segment

/-! ## Where an item ends -/

/-- Whether an item ends before some stretches, whatever it is: their first token is a semicolon,
or begins an item on a line of its own. -/
def Stopped (ls : List Lexeme) : Prop :=
  ∀ x l y k, ls = x ++ l :: y → NoCode x → l.cls = .token k →
    k = .operator .semicolon ∨ k.isOpening ∧ Breaks x

theorem Stopped.stops {ls : List Lexeme} (h : Stopped ls) (pos : Nat) (shift : Nat) (b : Option Nat) :
    (⟨shift, (place pos none ls).tokens, b⟩ : Frame).Stops := by
  intro t r ht
  obtain ⟨x, l, y, hls, hx, hl, -, hbreak, -⟩ := place_eq_cons ht
  refine (h x l y t.kind hls hx hl).imp_right fun ⟨hopening, hline⟩ => ⟨hopening, ?_⟩
  rw [hbreak]
  exact (hx.lastBreak_ne_none pos none).mpr (.inr hline)

namespace Segment.IsItem

variable {g h : Segment} {a b : List Lexeme}

/-- An item is read before whatever stops it. -/
theorem item?_stopped (hg : g.IsItem) (hb : Stopped b) :
    item? ⟨0, (place 0 none (g.code ++ b)).tokens, (place 0 none (g.code ++ b)).lastBreak⟩ =
      some (g.node, ⟨g.node.stop, (place (byteWidth (texts g.code)) none b).tokens,
        (place (byteWidth (texts g.code)) none b).lastBreak⟩) := by
  rw [place_append]
  dsimp only
  rw [hg.lastBreak, Nat.zero_add]
  have hread := hg.declares.read ⟨0, _, (place (byteWidth (texts g.code)) none b).lastBreak⟩
    (hb.stops (byteWidth (texts g.code)) 0 _) 0 none
  rwa [Tree.moved_zero] at hread

theorem exists_last (hg : g.IsItem) : ∃ x l k, g.code = x ++ [l] ∧ l.cls = .token k :=
  hg.declares.last hg.nonempty

/-- Two items at the same place are the same. -/
theorem eq_of_append (hg : g.IsItem) (hh : h.IsItem) (ha : Stopped a) (hb : Stopped b)
    (heq : g.code ++ a = h.code ++ b) : g.code = h.code ∧ g.node = h.node := by
  have hread := hg.item?_stopped ha
  rw [heq, hh.item?_stopped hb, Option.some.injEq, Prod.mk.injEq, Place.mk.injEq] at hread
  obtain ⟨hnode, -, hrest, -⟩ := hread
  obtain ⟨x, l, k, hx, hl⟩ := hg.exists_last
  obtain ⟨y, m, j, hy, hm⟩ := hh.exists_last
  have hkinds : kindsOf b = kindsOf a := by
    rw [← place_kinds (byteWidth (texts h.code)) none, hrest, place_kinds]
  have hlen := congrArg (fun ls => (kindsOf ls).length) heq
  simp only [kindsOf_append, hkinds, List.length_append, Nat.add_right_cancel_iff] at hlen
  rw [hx, hy, List.append_assoc, List.append_assoc] at heq
  rw [hx, hy, kindsOf_append, kindsOf_append, List.length_append, List.length_append, kindsOf, kindsOf, kindsOf, kindsOf,
    List.filterMap_cons_some (Lexeme.kind?_eq_some.mpr hl), List.filterMap_cons_some (Lexeme.kind?_eq_some.mpr hm)] at hlen
  obtain ⟨rfl, rfl⟩ := split_kinds heq hl hm (Nat.add_right_cancel hlen)
  exact ⟨hx.trans hy.symm, hnode.symm⟩

end Segment.IsItem

/-! ## Imports by their tokens -/

theorem text_notMem_nameKinds : Kind.text ∉ nameKinds := by decide

theorem leftParen_notMem_nameKinds : Kind.operator .leftParen ∉ nameKinds := by decide

theorem eq_of_append_cons {α : Type} {a b c d : List α} {x : α} (h : a ++ x :: c = b ++ x :: d) (ha : x ∉ a) (hb : x ∉ b) :
    a = b := by
  rcases append_cons_eq_append_cons h with ⟨e, rfl, -⟩ | ⟨e, rfl, -⟩ | ⟨heq, -, -⟩
  · exact absurd (List.mem_append_right b List.mem_cons_self) ha
  · exact absurd (List.mem_append_right a List.mem_cons_self) hb
  · exact heq

/-- No import goes on as another one. -/
theorem ImportKinds.eq_of_append {ks js a b : List Kind} (hk : ImportKinds ks) (hj : ImportKinds js)
    (h : ks ++ a = js ++ b) : ks = js := by
  cases hk with
  | @single ns hns =>
    have htext : Kind.text ∉ ns := fun hmem => text_notMem_nameKinds (hns _ hmem)
    cases hj with
    | @single ms hms =>
      have heq : ns ++ .text :: a = ms ++ .text :: b := by simpa using h
      rw [eq_of_append_cons heq htext fun hmem => text_notMem_nameKinds (hms _ hmem)]
    | @block ms hms =>
      exfalso
      cases ns with
      | nil => simp at h
      | cons n ns =>
        obtain ⟨-, h⟩ := List.cons.inj h
        obtain ⟨rfl, -⟩ := List.cons.inj h
        exact leftParen_notMem_nameKinds (hns _ List.mem_cons_self)
  | @block ns hns =>
    cases hj with
    | @single ms hms =>
      exfalso
      cases ms with
      | nil => simp at h
      | cons m ms =>
        obtain ⟨-, h⟩ := List.cons.inj h
        obtain ⟨rfl, -⟩ := List.cons.inj h
        exact leftParen_notMem_nameKinds (hms _ List.mem_cons_self)
    | @block ms hms =>
      have heq : ns ++ .operator .rightParen :: a = ms ++ .operator .rightParen :: b := by simpa using h
      rw [eq_of_append_cons heq hns hms]

/-- Whether stretches are those of an import, as their tokens tell. -/
structure IsRegion (code : List Lexeme) : Prop where
  kinds : ImportKinds (kindsOf code)
  first : ∃ l r, code = l :: r ∧ l.cls = .token (.keyword .importK)
  last : ∃ x l k, code = x ++ [l] ∧ l.cls = .token k

/-- The tokens of parts are semicolons, local names and paths. -/
theorem ImportPart.kinds_of_fits {ps : List ImportPart} (h : ∀ p ∈ ps, p.Fits) :
    ∀ k ∈ kindsOf (code ps), k = .operator .semicolon ∨ k ∈ nameKinds ∨ k = .text := by
  intro k hk
  obtain ⟨l, hl, hcls⟩ := mem_kindsOf.mp hk
  obtain ⟨p, hp, hmem⟩ := List.mem_flatMap.mp hl
  cases h p hp with
  | @other m hm =>
    obtain rfl := List.mem_singleton.mp hmem
    exact .inl (hm k hcls)
  | @bare literal ht =>
    obtain rfl := List.mem_singleton.mp hmem
    exact .inr (.inr (LexemeClass.token.inj (hcls.symm.trans ht)))
  | @named n literal j fill hn hj hfill ht =>
    rcases List.mem_append.mp hmem with hmem | hmem
    · rcases List.mem_cons.mp hmem with rfl | hmem
      · obtain rfl := LexemeClass.token.inj (hcls.symm.trans hn)
        exact .inr (.inl hj)
      · exact absurd hcls (hfill l hmem k)
    · obtain rfl := List.mem_singleton.mp hmem
      exact .inr (.inr (LexemeClass.token.inj (hcls.symm.trans ht)))

theorem IsImport.kinds {head close : List Lexeme} {ps : List ImportPart} (h : IsImport head ps close) :
    ImportKinds (kindsOf (head ++ (ImportPart.code ps ++ close))) := by
  cases h with
  | single hhead _ hns hkinds =>
    rw [List.append_nil, kindsOf_append, hhead, hkinds]
    exact .single hns
  | @block head o z ps hhead ho hps hz =>
    rw [kindsOf_append, kindsOf_append, kindsOf_append, hhead, kindsOf_singleton ho, kindsOf_singleton hz]
    refine .block fun hmem => ?_
    have hkind := ImportPart.kinds_of_fits hps _ hmem
    revert hkind
    decide

theorem Segment.IsItem.isRegion {g : Segment} (hg : g.IsItem) (hl : g.node.label = .importDecl) : IsRegion g.code := by
  obtain ⟨head, ps, close, hcode, himport, -⟩ := hg.exists_parts hl
  have hkinds := himport.kinds
  rw [← hcode] at hkinds
  obtain ⟨l, r, k, hlr, hk, -⟩ := hg.declares.head
  refine ⟨hkinds, ⟨l, r, hlr, ?_⟩, hg.exists_last⟩
  have hhead : (kindsOf g.code).head? = some k := by
    rw [hlr, kindsOf, List.filterMap_cons_some (Lexeme.kind?_eq_some.mpr hk)]
    rfl
  generalize kindsOf g.code = ks at hkinds hhead
  rw [hk]
  cases hkinds <;> rw [← Option.some.inj hhead]

theorem IsRegion.eq_of_append {c d a b : List Lexeme} (hc : IsRegion c) (hd : IsRegion d) (h : c ++ a = d ++ b) :
    c = d := by
  have hkinds : kindsOf c ++ kindsOf a = kindsOf d ++ kindsOf b := by rw [← kindsOf_append, h, kindsOf_append]
  have heq := hc.kinds.eq_of_append hd.kinds hkinds
  obtain ⟨x, l, k, rfl, hl⟩ := hc.last
  obtain ⟨y, m, j, rfl, hm⟩ := hd.last
  have hlen := congrArg List.length heq
  rw [kindsOf_append, kindsOf_append, List.length_append, List.length_append, kindsOf, kindsOf, kindsOf, kindsOf,
    List.filterMap_cons_some (Lexeme.kind?_eq_some.mpr hl), List.filterMap_cons_some (Lexeme.kind?_eq_some.mpr hm)] at hlen
  rw [List.append_assoc, List.append_assoc] at h
  obtain ⟨rfl, rfl⟩ := split_kinds h hl hm (Nat.add_right_cancel hlen)
  rfl

/-! ## Segments that may be linked -/

namespace Segment

/-- Whether segments are items and imports, with nothing but fillers between them that end all but
the last one. -/
inductive Loose : List Segment → Prop
  | nil : Loose []
  | cons {g : Segment} {gs : List Segment} : g.IsItem ∨ IsRegion g.code → (∀ l ∈ g.gap, l.cls.isFiller) →
      (gs ≠ [] → ∃ l ∈ g.gap, l.isEnd) → Loose gs → Loose (g :: gs)

/-- Whether segments have the same stretches, and the same item unless they are imports. -/
structure Alike (g h : Segment) : Prop where
  code : g.code = h.code
  gap : g.gap = h.gap
  node : g.IsItem → g.node = h.node

theorem exists_opening_of_piece {g : Segment} (h : g.IsItem ∨ IsRegion g.code) :
    ∃ l r k, g.code = l :: r ∧ l.cls = .token k ∧ k.isOpening := by
  rcases h with h | h
  · exact h.declares.head
  · obtain ⟨l, r, hlr, hl⟩ := h.first
    exact ⟨l, r, _, hlr, hl, rfl⟩

end Segment

theorem EndsItem.exists_isEnd {gap : List Lexeme} (h : EndsItem gap) : ∃ l ∈ gap, l.isEnd := by
  cases h with
  | line _ hbreaks =>
    obtain ⟨l, hl, hcls⟩ := hbreaks
    exact ⟨l, hl, by simp [Lexeme.isEnd, hcls]⟩
  | @semicolon x y l _ _ hl _ => exact ⟨l, by simp, by simp [Lexeme.isEnd, hl]⟩

theorem Segment.Linked.loose {gs : List Segment} (h : Linked gs) : Loose gs := by
  induction h with
  | nil => exact .nil
  | cons hg hgap _ ih => exact .cons (.inl hg) hgap.isFiller (fun _ => hgap.exists_isEnd) ih
  | last hg hgap _ => exact .cons (.inl hg) hgap.isFiller (fun h => absurd rfl h) .nil

/-- Loose segments begin with a token that begins an item. -/
theorem Segment.Loose.head {gs : List Segment} (h : Loose gs) :
    ∀ l ∈ (joined gs).head?, ∃ k, l.cls = .token k ∧ k.isOpening := by
  cases h with
  | nil => exact fun l hl => by cases hl
  | cons hg _ _ _ =>
    obtain ⟨l, r, k, hcode, hk, hopening⟩ := exists_opening_of_piece hg
    rw [joined_cons, hcode]
    rintro _ ⟨⟩
    exact ⟨k, hk, hopening⟩

theorem not_isFiller_of_isOpening {l : Lexeme} {k : Kind} (hl : l.cls = .token k) (hk : k.isOpening) : ¬ l.cls.isFiller := by
  rw [hl]
  intro hfiller
  rw [show k = .operator .semicolon by simpa [LexemeClass.isFiller] using hfiller] at hk
  cases hk

/-- What stands behind an item stops it. -/
theorem Segment.Loose.stopped {gs : List Segment} (h : Loose gs) {gap : List Lexeme} (hgap : ∀ l ∈ gap, l.cls.isFiller)
    (hends : gs ≠ [] → ∃ l ∈ gap, l.isEnd) : Stopped (gap ++ joined gs) := by
  intro x l y k hsplit hx hk
  rcases append_eq_append_cons hsplit with ⟨v, hv, -⟩ | ⟨c, rfl, hc⟩
  · have hfiller := hgap l (by rw [hv]; simp)
    rw [hk] at hfiller
    exact .inl (by simpa [LexemeClass.isFiller] using hfiller)
  · -- the first token is that of the next segment, and a line ends before it
    have hne : gs ≠ [] := by
      rintro rfl
      simp at hc
    obtain ⟨m, hm⟩ := List.exists_mem_of_ne_nil (joined gs).head?.toList (by
      rw [hc]
      cases c <;> simp)
    obtain ⟨j, hj, hopening⟩ := h.head m (Option.mem_toList.mp hm)
    rw [hc] at hm
    cases c with
    | nil =>
      obtain rfl : m = l := by simpa using hm
      rw [hk] at hj
      cases hj
      obtain ⟨e, he, hend⟩ := hends hne
      refine .inr ⟨hopening, e, List.mem_append_left _ he, ?_⟩
      simp only [Lexeme.isEnd, Bool.or_eq_true, beq_iff_eq] at hend
      exact hend.resolve_right fun hcls => hx e (List.mem_append_left _ he) _ hcls
    | cons d c =>
      obtain rfl : m = d := by simpa using hm
      exact absurd hj (hx m (by simp) j)

/-! ## Outlines of loose segments -/

theorem eq_of_fillers {a b x y : List Lexeme} (h : a ++ x = b ++ y) (ha : ∀ l ∈ a, l.cls.isFiller)
    (hb : ∀ l ∈ b, l.cls.isFiller) (hx : ∀ l ∈ x.head?, ¬ l.cls.isFiller) (hy : ∀ l ∈ y.head?, ¬ l.cls.isFiller) :
    a = b ∧ x = y := by
  rcases List.append_eq_append_iff.mp h with ⟨c, rfl, rfl⟩ | ⟨c, rfl, rfl⟩
  · cases c with
    | nil => exact ⟨(List.append_nil a).symm, rfl⟩
    | cons l c => exact absurd (hb l (by simp)) (hx l rfl)
  · cases c with
    | nil => exact ⟨List.append_nil b, rfl⟩
    | cons l c => exact absurd (ha l (by simp)) (hy l rfl)

theorem Segment.Loose.not_isFiller {gs : List Segment} (h : Loose gs) : ∀ l ∈ (joined gs).head?, ¬ l.cls.isFiller := by
  intro l hl
  obtain ⟨k, hk, hopening⟩ := h.head l hl
  exact not_isFiller_of_isOpening hk hopening

theorem Label.eq_importDecl_of_opening {g : Segment} (hg : g.IsItem) {l : Lexeme} {r : List Lexeme}
    (hcode : g.code = l :: r) (hl : l.cls = .token (.keyword .importK)) : g.node.label = .importDecl :=
  Label.eq_importDecl (hg.vocabulary (by rw [hcode]; exact List.mem_cons_self) hl)

/-- Loose segments with the stretches of linked ones are alike. -/
theorem Segment.Loose.alike {gs hs : List Segment} (hgs : Loose gs) (hhs : Linked hs) {a b : List Lexeme}
    (ha : ∀ l ∈ a, l.cls.isFiller) (hb : ∀ l ∈ b, l.cls.isFiller) (h : a ++ joined gs = b ++ joined hs) :
    a = b ∧ List.Forall₂ Alike gs hs := by
  induction hgs generalizing hs a b with
  | nil =>
    have heq := eq_of_fillers h ha hb nofun hhs.loose.not_isFiller
    refine ⟨heq.1, ?_⟩
    cases hhs with
    | nil => exact .nil
    | cons hg _ _ | last hg _ _ =>
      obtain ⟨l, r, k, hcode, -⟩ := hg.declares.head
      rw [joined_cons, hcode] at heq
      cases heq.2
  | @cons g gs hg hgap hends hgs ih =>
    have hloose := Loose.cons hg hgap hends hgs
    obtain ⟨rfl, hjoined⟩ := eq_of_fillers h ha hb hloose.not_isFiller hhs.loose.not_isFiller
    refine ⟨rfl, ?_⟩
    obtain ⟨l, r, k, hcode, hk, hopening⟩ := exists_opening_of_piece hg
    cases hs with
    | nil =>
      rw [joined_cons, hcode] at hjoined
      cases hjoined
    | cons e hs =>
      have hrest : Linked hs := (List.singleton_append ▸ hhs : Linked ([e] ++ hs)).of_append
      have hitem := hhs.isItem
      obtain ⟨hgap', hends'⟩ : (∀ l ∈ e.gap, l.cls.isFiller) ∧ (hs ≠ [] → ∃ l ∈ e.gap, l.isEnd) := by
        cases hhs.loose with
        | cons _ hgap' hends' _ => exact ⟨hgap', hends'⟩
      rw [joined_cons, joined_cons] at hjoined
      have hcodes : g.code = e.code ∧ (g.IsItem → g.node = e.node) := by
        rcases hg with hg | hg
        · obtain ⟨hcode, hnode⟩ := hg.eq_of_append hitem (hgs.stopped hgap hends) (hrest.loose.stopped hgap' hends') hjoined
          exact ⟨hcode, fun _ => hnode⟩
        · obtain ⟨m, s, hms, hm⟩ := hg.first
          obtain ⟨m', s', j, hms', -⟩ := hitem.declares.head
          have hsame := hjoined
          rw [hms, hms', List.cons_append, List.cons_append, List.cons.injEq] at hsame
          obtain ⟨rfl, -⟩ := hsame
          have hcode := hg.eq_of_append (hitem.isRegion (Label.eq_importDecl_of_opening hitem hms' hm)) hjoined
          refine ⟨hcode, fun hg => ?_⟩
          exact (hg.eq_of_append hitem (hgs.stopped hgap hends) (hrest.loose.stopped hgap' hends') hjoined).2
      obtain ⟨hgaps, hall⟩ := ih hrest hgap hgap' (by
        rw [hcodes.1] at hjoined
        exact List.append_cancel_left hjoined)
      exact .cons ⟨hcodes.1, hgaps, hcodes.2⟩ hall

/-- Where the stretches of a text that is read are loose segments, these are its outline. -/
theorem Outline.eq_of_loose {s : List Char} {lead lead' : List Lexeme} {gs hs : List Segment} (h : Outline s lead' hs)
    (heq : stretches s = lead ++ joined gs) (hlead : ∀ l ∈ lead, l.cls.isFiller) (hgs : Loose gs) :
    lead' = lead ∧ List.Forall₂ Alike gs hs := by
  obtain ⟨heq, hall⟩ := hgs.alike h.linked hlead h.noCode.isFiller (heq.symm.trans h.stretches_eq)
  exact ⟨heq.symm, hall⟩

end GoSplice.Syntax
