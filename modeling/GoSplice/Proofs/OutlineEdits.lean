import GoSplice.Proofs.Cuts
import GoSplice.Proofs.Growth
import GoSplice.Proofs.OutlineFiles

/-!
# Edits of outlines

Text behind the last line of an outline adds its segments, and an item that is
cut out with a part of what stands before it takes away its segment.  The other
items stay, with what stands behind one of them changed:

    Outline s lead gs → lexemes t is that of hs →
      Outline (s ++ t) lead' (gs' ++ hs), SameItems gs' gs                (Outline.append)
    Outline s lead (as ++ p :: bs), s' is s without p and what stands right before it →
      Outline s' lead' (as' ++ bs), SameItems as' as                      (CutOut.outline_cut)
-/

namespace GoSplice

open Syntax

namespace Syntax

open Segment

/-! ## Segments with the same items -/

def Segment.item (g : Segment) : List Lexeme × Node := (g.code, g.node)

/-- Whether segments have the same items; what stands behind these may differ. -/
def SameItems (gs hs : List Segment) : Prop := gs.map Segment.item = hs.map Segment.item

section SameItems

variable {gs hs : List Segment}

theorem SameItems.map {β : Type} {F : Segment → β} (h : SameItems gs hs)
    (hF : ∀ (g : Segment) gap, F g = F { g with gap }) : gs.map F = hs.map F := by
  have hitem : ∀ gs : List Segment, gs.map F = (gs.map Segment.item).map fun q => F ⟨q.1, q.2, []⟩ := by
    intro gs
    rw [List.map_map]
    exact List.map_congr_left fun g _ => hF g []
  rw [hitem gs, h, ← hitem]

theorem SameItems.countP (h : SameItems gs hs) (t : Subject) :
    gs.countP (Segment.declares t) = hs.countP (Segment.declares t) := by
  have hmap := congrArg (List.countP id) (h.map (F := Segment.declares t) fun _ _ => rfl)
  rwa [List.countP_map, List.countP_map] at hmap

theorem SameItems.isReadable (h : SameItems gs hs) (hread : ∀ g ∈ hs, g.IsReadable) :
    ∀ g ∈ gs, g.IsReadable := by
  rw [← List.forall_mem_map (P := fun q : Prop => q), h.map (F := IsReadable) fun _ _ => rfl,
    List.forall_mem_map]
  exact hread

/-- The package clause among segments is that among others with the same items. -/
theorem SameItems.find?_clause (h : SameItems gs hs) (ks : List Segment) :
    ((gs ++ ks).find? isClause).map packageName = ((hs ++ ks).find? isClause).map packageName := by
  have hmap := congrArg (fun l => ((l ++ ks.map fun g => (g.isClause, g.packageName)).find? Prod.fst).map Prod.snd)
    (h.map (F := fun g => (g.isClause, g.packageName)) fun _ _ => rfl)
  rw [← List.map_append, ← List.map_append, List.find?_map, List.find?_map, Option.map_map, Option.map_map] at hmap
  exact hmap

end SameItems

/-! ## What stands between items -/

theorem NoCode.append {a b : List Lexeme} (ha : NoCode a) (hb : NoCode b) : NoCode (a ++ b) :=
  List.forall_mem_append.mpr ⟨ha, hb⟩

theorem Breaks.append_left {a : List Lexeme} (h : Breaks a) (b : List Lexeme) : Breaks (a ++ b) := by
  obtain ⟨l, hl, hcls⟩ := h
  exact ⟨l, List.mem_append_left b hl, hcls⟩

theorem Breaks.append_right (a : List Lexeme) {b : List Lexeme} (h : Breaks b) : Breaks (a ++ b) := by
  obtain ⟨l, hl, hcls⟩ := h
  exact ⟨l, List.mem_append_right a hl, hcls⟩

theorem EndsItem.append {gap ls : List Lexeme} (h : EndsItem gap) (hls : NoCode ls) : EndsItem (gap ++ ls) := by
  cases h with
  | line hgap hbreaks => exact .line (hgap.append hls) (hbreaks.append_left ls)
  | semicolon hx hline hl hy =>
    rw [List.append_assoc, List.cons_append]
    exact .semicolon hx hline hl (hy.append hls)

theorem EndsItem.ne_nil {ls : List Lexeme} (h : EndsItem ls) : ls ≠ [] := by
  cases h with
  | line _ hbreaks =>
    obtain ⟨l, hl, -⟩ := hbreaks
    exact List.ne_nil_of_mem hl
  | semicolon => simp

/-- Whether a stretch can end an item. -/
def Lexeme.isEnd (l : Lexeme) : Bool := l.cls == .newline || l.cls == .token (.operator .semicolon)

/-- A part of what ends an item ends it as well, before stretches that end a line, or if the end is
in the part. -/
theorem EndsItem.prefix {a b c : List Lexeme} (h : EndsItem (a ++ b)) (hc : NoCode c)
    (hends : Breaks c ∨ ∃ l ∈ a, l.isEnd) : EndsItem (a ++ c) := by
  generalize hgap : a ++ b = gap at h
  have hline : NoCode a → EndsItem (a ++ c) := by
    intro ha
    refine .line (ha.append hc) ?_
    rcases hends with hbreaks | ⟨l, hl, hend⟩
    · exact hbreaks.append_right a
    · refine Breaks.append_left ⟨l, hl, ?_⟩ c
      rw [Lexeme.isEnd, Bool.or_eq_true, beq_iff_eq, beq_iff_eq] at hend
      exact hend.resolve_right (ha l hl _)
  cases h with
  | line hnone _ =>
    rw [← hgap] at hnone
    exact hline fun l hl => hnone l (List.mem_append_left b hl)
  | @semicolon x y l hx hbreaks hl hy =>
    rcases append_eq_append_cons hgap with ⟨z, rfl, rfl⟩ | ⟨z, rfl, -⟩
    · rw [List.append_assoc, List.cons_append]
      exact .semicolon hx hbreaks hl (NoCode.append (fun k hk => hy k (List.mem_append_left b hk)) hc)
    · exact hline fun l hl => hx l (List.mem_append_left z hl)

theorem Spliced.place {a b ls : List Lexeme} (h : Spliced a b ls) (pos : Nat) (brk : Option Nat) :
    place pos brk ls = place pos brk (a ++ b) := by
  cases h with
  | apart => rfl
  | blanks x y u v =>
    have hblanks : ∀ pos brk, Syntax.place pos brk (⟨.blank, u ++ v⟩ :: y) =
        Syntax.place pos brk (⟨.blank, u⟩ :: ⟨.blank, v⟩ :: y) := by
      intro pos brk
      simp only [Syntax.place, byteWidth_append, Nat.add_assoc]
    rw [List.append_assoc, List.singleton_append, place_append, place_append]
    dsimp only
    rw [hblanks]

theorem NoCode.of_place {a b : List Lexeme} (h : NoCode a) (hs : place 0 none b = place 0 none a) : NoCode b := by
  rw [noCode_iff 0 none] at h ⊢
  rwa [hs]

/-- What ends an item can be told from its tokens and the line ends between them. -/
theorem EndsItem.of_place {a b : List Lexeme} (h : EndsItem a) (hs : Syntax.place 0 none b = Syntax.place 0 none a) :
    EndsItem b := by
  have hplace := h.place 0
  rw [← hs] at hplace
  rcases hplace with ⟨hnil, hbreak⟩ | ⟨t, ht, hkind, hbreak⟩
  · have hls := (noCode_iff 0 none).mpr hnil
    exact .line hls (((hls.lastBreak_ne_none 0 none).mp hbreak).resolve_left fun h => h rfl)
  · obtain ⟨x, l, y, rfl, hx, hl, -, hline, hy⟩ := place_eq_cons ht
    refine .semicolon hx (fun hbreaks => ?_) (hl.trans (congrArg _ hkind)) ((noCode_iff _ none).mpr hy.symm)
    exact (hx.lastBreak_ne_none 0 none).mpr (Or.inr hbreaks) (hline.symm.trans hbreak)

theorem NoCode.spliced {a b ls : List Lexeme} (h : NoCode (a ++ b)) (hs : Spliced a b ls) : NoCode ls :=
  h.of_place (hs.place 0 none)

theorem EndsItem.spliced {a b ls : List Lexeme} (h : EndsItem (a ++ b)) (hs : Spliced a b ls) : EndsItem ls :=
  h.of_place (hs.place 0 none)

/-! ## Joints -/

/-- The place behind some segments: the stretches before it, those that stand there, and what
these have to be.  Before all segments nothing stands before it. -/
inductive Joint (lead : List Lexeme) :
    List Segment → List Lexeme → List Lexeme → (List Lexeme → Prop) → Prop
  | first : Joint lead [] [] lead NoCode
  | behind (as : List Segment) (g : Segment) :
      Joint lead (as ++ [g]) (lead ++ (joined as ++ g.code)) g.gap EndsItem

theorem exists_joint (lead : List Lexeme) (as : List Segment) : ∃ x gap fits, Joint lead as x gap fits := by
  rcases List.eq_nil_or_concat as with rfl | ⟨as, g, rfl⟩
  · exact ⟨_, _, _, .first⟩
  · rw [List.concat_eq_append]
    exact ⟨_, _, _, .behind as g⟩

namespace Joint

variable {lead x gap : List Lexeme} {as bs : List Segment} {fits : List Lexeme → Prop}

theorem eq (h : Joint lead as x gap fits) : lead ++ joined as = x ++ gap := by
  cases h with
  | first => simp
  | behind as g => simp

theorem fits_gap (h : Joint lead as x gap fits) (hlead : NoCode lead) (has : ∀ g ∈ as, g.IsEnded) :
    fits gap := by
  cases h with
  | first => exact hlead
  | behind as g => exact (has g (by simp)).ends

/-- What stands at a joint can be changed. -/
theorem outline (h : Joint lead as x gap fits) (hlead : NoCode lead) (has : ∀ g ∈ as, g.IsEnded)
    {gap' : List Lexeme} (hgap : fits gap') (hbs : Linked bs) {s : List Char}
    (hs : stretches s = x ++ (gap' ++ joined bs)) :
    ∃ lead' as', SameItems as' as ∧ Outline s lead' (as' ++ bs) := by
  cases h with
  | first => exact ⟨gap', [], rfl, hs, hgap, hbs⟩
  | behind as g =>
    obtain ⟨has, hg⟩ := List.forall_mem_append.mp has
    have hg := hg g List.mem_cons_self
    refine ⟨lead, as ++ [{ g with gap := gap' }], by simp [SameItems, Segment.item], ?_, hlead, ?_⟩
    · rw [hs]
      simp
    · refine linked_append (List.forall_mem_append.mpr ⟨has, List.forall_mem_singleton.mpr ?_⟩) hbs
      exact ⟨⟨hg.declares, hg.nonempty⟩, hgap⟩

theorem append (h : Joint lead as x gap fits) (hgap : fits gap) {ls : List Lexeme} (hls : NoCode ls) :
    fits (gap ++ ls) := by
  cases h with
  | first => exact NoCode.append hgap hls
  | behind => exact EndsItem.append hgap hls

theorem spliced (h : Joint lead as x gap fits) {a b ls : List Lexeme} (hgap : fits (a ++ b))
    (hs : Spliced a b ls) : fits ls := by
  cases h with
  | first => exact NoCode.spliced hgap hs
  | behind => exact EndsItem.spliced hgap hs

end Joint

/-! ## Text behind the last line -/

/-- The segments of a text behind the last line of another come behind those of the other. -/
theorem Outline.append {s t : List Char} {lead lead' : List Lexeme} {gs hs : List Segment}
    (h : Outline s lead gs) {ls : List Lexeme} (hline : stretches s = ls ++ [⟨.newline, ['\n']⟩])
    (hst : stretches (s ++ t) = stretches s ++ lexemes t) (ht : lexemes t = lead' ++ joined hs)
    (hlead' : NoCode lead') (hhs : Linked hs) :
    ∃ lead'' gs', SameItems gs' gs ∧ Outline (s ++ t) lead'' (gs' ++ hs) := by
  obtain ⟨x, gap, fits, hj⟩ := exists_joint lead gs
  have hended := h.isEnded hline
  refine hj.outline h.noCode hended (hj.append (hj.fits_gap h.noCode hended) hlead') hhs ?_
  rw [hst, h.stretches_eq, hj.eq, ht]
  simp only [List.append_assoc]

/-! ## Items that are cut out -/

theorem NoCode.isFiller {ls : List Lexeme} (h : NoCode ls) : ∀ l ∈ ls, l.cls.isFiller := by
  intro l hl
  cases hc : l.cls with
  | blank | newline | comment => rfl
  | token k => exact absurd hc (h l hl k)

theorem EndsItem.isFiller {ls : List Lexeme} (h : EndsItem ls) : ∀ l ∈ ls, l.cls.isFiller := by
  cases h with
  | line hls _ => exact hls.isFiller
  | semicolon hx _ hl hy =>
    refine List.forall_mem_append.mpr ⟨hx.isFiller, List.forall_mem_cons.mpr ⟨?_, hy.isFiller⟩⟩
    rw [hl]
    rfl

theorem Joint.isFiller {lead x gap : List Lexeme} {as : List Segment} {fits : List Lexeme → Prop}
    (h : Joint lead as x gap fits) (hgap : fits gap) : ∀ l ∈ gap, l.cls.isFiller := by
  cases h with
  | first => exact NoCode.isFiller hgap
  | behind => exact EndsItem.isFiller hgap

theorem Outline.isSound {s : List Char} {lead : List Lexeme} {gs : List Segment} (h : Outline s lead gs) :
    ∀ l ∈ stretches s, l.cls.isSound := by
  have hread := read_textItems (s := s) (by rw [h.items])
  refine isSound_of_mem_stretches hread fun n hn => ?_
  rw [h.items] at hn
  exact h.linked.isOpened n hn

/-- Segments begin with a token. -/
theorem Segment.Linked.head {gs : List Segment} (h : Linked gs) : ∀ l ∈ (joined gs).head?, ∃ k, l.cls = .token k := by
  cases gs with
  | nil => exact nofun
  | cons g gs =>
    obtain ⟨l, r, k, hcode, hk, -⟩ := h.isItem.declares.head
    rw [joined_cons, hcode]
    rintro _ ⟨⟩
    exact ⟨k, hk⟩

section Cut

variable {s : List Char} {lead x ga m : List Lexeme} {as bs : List Segment} {p : Segment}
  {fits : List Lexeme → Prop}

/-- The text without an item and a part of what stands before it. -/
def withoutItem (s : List Char) (before : List Lexeme) (p : Segment) (bs : List Segment) : List Char :=
  orderMark s ++ (texts before ++ texts (p.gap ++ joined bs))

/-- What is cut out with an item: an end of what stands before it, which begins with a comment, but
not all of it if there are items before it. -/
structure CutOut (s : List Char) (lead x ga m : List Lexeme) (as : List Segment) (p : Segment)
    (bs : List Segment) (fits : List Lexeme → Prop) : Prop where
  outline : Outline s lead (as ++ p :: bs)
  joint : Joint lead as x (ga ++ m) fits
  nonempty : as ≠ [] → ga ≠ []
  comment : ∀ l ∈ m.head?, l.cls = .comment

theorem CutOut.linked (h : CutOut s lead x ga m as p bs fits) : Linked bs := by
  have hlinked := h.outline.linked
  rw [List.append_cons] at hlinked
  exact hlinked.of_append

theorem CutOut.fits_gap (h : CutOut s lead x ga m as p bs fits) : fits (ga ++ m) :=
  h.joint.fits_gap h.outline.noCode h.outline.linked.isEnded

theorem CutOut.isFiller (h : CutOut s lead x ga m as p bs fits) : ∀ l ∈ (x ++ ga).getLast?, l.cls.isFiller := by
  rcases List.eq_nil_or_concat ga with rfl | ⟨ga, l, rfl⟩
  · cases h.joint with
    | first => exact nofun
    | behind as g => exact absurd rfl (h.nonempty (by simp))
  · intro k hk
    rw [List.concat_eq_append, ← List.append_assoc, List.getLast?_concat] at hk
    obtain rfl := Option.some.inj hk
    exact h.joint.isFiller h.fits_gap l (by simp)

/-- The stretches around the item: it begins with a comment or a token. -/
theorem CutOut.stretches_eq (h : CutOut s lead x ga m as p bs fits) : ∃ k r,
    stretches s = (x ++ ga) ++ (k :: r ++ (p.gap ++ joined bs)) ∧ k.cls ≠ .newline := by
  have hs : stretches s = (x ++ ga) ++ ((m ++ p.code) ++ (p.gap ++ joined bs)) := by
    rw [h.outline.stretches_eq, joined_append, ← List.append_assoc, h.joint.eq]
    simp
  obtain ⟨l, r, k, hcode, hk, -⟩ := (h.outline.linked.items p (by simp)).declares.head
  cases m with
  | nil => exact ⟨l, r, by rw [hs, hcode]; rfl, by rw [hk]; nofun⟩
  | cons c m => exact ⟨c, m ++ p.code, hs, by rw [h.comment c rfl]; nofun⟩

/-- What remains between the items around one that is cut out. -/
theorem CutOut.spliced (h : CutOut s lead x ga m as p bs fits) :
    ∃ gap, stretches (withoutItem s (x ++ ga) p bs) = x ++ (gap ++ joined bs) ∧ Spliced ga p.gap gap := by
  obtain ⟨k, r, hs, hk⟩ := h.stretches_eq
  have hspliced := (stretches_cut hs h.outline.isSound h.isFiller hk).1
  change Spliced _ _ (stretches (withoutItem s (x ++ ga) p bs)) at hspliced
  generalize stretches (withoutItem s (x ++ ga) p bs) = ls at hspliced
  generalize ha : x ++ ga = a at hspliced
  generalize hb : p.gap ++ joined bs = b at hspliced
  cases hspliced with
  | apart => exact ⟨ga ++ p.gap, by rw [← ha, ← hb]; simp, .apart _ _⟩
  | blanks a b u v =>
    obtain ⟨ga, rfl⟩ : ∃ ga', ga = ga' ++ [⟨.blank, u⟩] := by
      rcases List.eq_nil_or_concat ga with rfl | ⟨ga, l, rfl⟩
      · cases h.joint with
        | first => simp at ha
        | behind as g => exact absurd rfl (h.nonempty (by simp))
      · rw [List.concat_eq_append, ← List.append_assoc] at ha
        obtain ⟨-, hl⟩ := List.append_inj' ha rfl
        exact ⟨ga, by rw [List.concat_eq_append, (List.cons.inj hl).1]⟩
    obtain ⟨pg, hpg, rfl⟩ : ∃ pg, p.gap = ⟨.blank, v⟩ :: pg ∧ pg ++ joined bs = b := by
      cases hgap : p.gap with
      | nil =>
        rw [hgap, List.nil_append] at hb
        obtain ⟨k, hk⟩ := h.linked.head ⟨.blank, v⟩ (by rw [hb]; rfl)
        cases hk
      | cons l pg =>
        rw [hgap] at hb
        obtain ⟨rfl, hrest⟩ := List.cons.inj hb
        exact ⟨pg, rfl, hrest⟩
    rw [← List.append_assoc] at ha
    obtain ⟨rfl, -⟩ := List.append_inj' ha rfl
    rw [hpg]
    exact ⟨ga ++ ⟨.blank, u ++ v⟩ :: pg, by simp, .blanks ga pg u v⟩

/-- The outline of a text without an item, if the item before that is still ended. -/
theorem CutOut.outline_cut (h : CutOut s lead x ga m as p bs fits) (hp : NoCode p.gap)
    (hends : as ≠ [] → Breaks p.gap ∨ ∃ l ∈ ga, l.isEnd) :
    ∃ lead' as', SameItems as' as ∧ Outline (withoutItem s (x ++ ga) p bs) lead' (as' ++ bs) := by
  obtain ⟨gap, hs, hspliced⟩ := h.spliced
  have hfits : fits (ga ++ p.gap) := by
    have hgap := h.fits_gap
    have hjoint := h.joint
    generalize hgm : ga ++ m = gap at hgap hjoint
    cases hjoint with
    | first => exact NoCode.append (fun l hl => hgap l (hgm ▸ List.mem_append_left m hl)) hp
    | behind as g => exact EndsItem.prefix (hgm ▸ hgap) hp (hends (by simp))
  exact h.joint.outline h.outline.noCode h.outline.linked.isEnded (h.joint.spliced hfits hspliced) h.linked hs

end Cut

end Syntax

end GoSplice
