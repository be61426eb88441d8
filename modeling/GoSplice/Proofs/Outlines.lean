import GoSplice.Proofs.Appending

/-!
# Outlines

A text of declarations is stretches without code, and then segments: the
stretches of an item, and those behind it, which end the item.  A text is read
as some items just if it has such an outline, so a change to the outline is a
change to what is read:

    Read (startOf s) ns → Outline s lead gs, ns the nodes of gs    (exists_outline)
    Outline s lead gs → textItems s = the nodes of gs              (Outline.items)
-/

namespace GoSplice.Syntax

/-! ## Stretches without code -/

/-- Whether stretches hold no token. -/
def NoCode (ls : List Lexeme) : Prop := ∀ l ∈ ls, ∀ k, l.cls ≠ .token k

/-- Whether a line ends in stretches. -/
def Breaks (ls : List Lexeme) : Prop := ∃ l ∈ ls, l.cls = .newline

theorem noCode_iff (pos : Nat) (brk : Option Nat) {ls : List Lexeme} :
    NoCode ls ↔ (place pos brk ls).tokens = [] := by
  induction ls generalizing pos brk with
  | nil => exact iff_of_true (List.forall_mem_nil _) rfl
  | cons l ls ih =>
    unfold NoCode
    rw [List.forall_mem_cons, place]
    cases hc : l.cls with
    | blank | newline | comment =>
      refine Iff.trans (and_iff_right ?_) (ih _ _)
      rintro k ⟨⟩
    | token k => exact iff_of_false (fun h => h.1 k rfl) (List.cons_ne_nil _ _)

theorem NoCode.tokens {ls : List Lexeme} (h : NoCode ls) (pos : Nat) (b : Option Nat) :
    (place pos b ls).tokens = [] :=
  (noCode_iff pos b).mp h

theorem breaks_cons {l : Lexeme} {ls : List Lexeme} : Breaks (l :: ls) ↔ l.cls = .newline ∨ Breaks ls := by
  simp [Breaks]

/-- Behind stretches without code there is a line end if one was before them, or is in them. -/
theorem NoCode.lastBreak_ne_none {ls : List Lexeme} (h : NoCode ls) (pos : Nat) (brk : Option Nat) :
    (place pos brk ls).lastBreak ≠ none ↔ brk ≠ none ∨ Breaks ls := by
  induction ls generalizing pos brk with
  | nil => exact (or_iff_left (by rintro ⟨l, ⟨⟩, -⟩)).symm
  | cons l ls ih =>
    obtain ⟨hl, hls⟩ := List.forall_mem_cons.mp h
    rw [place, breaks_cons]
    cases hc : l.cls with
    | blank | comment =>
      refine (ih hls _ _).trans (or_congr_right (or_iff_right ?_).symm)
      rintro ⟨⟩
    | newline =>
      refine (ih hls _ _).trans (iff_of_true (Or.inl ?_) (Or.inr (Or.inl rfl)))
      cases brk <;> exact Option.some_ne_none _
    | token k => exact absurd hc (hl k)

/-- The stretches up to the first token that they hold, and those behind it. -/
theorem place_eq_cons {pos : Nat} {brk : Option Nat} {ls : List Lexeme} {t : Token} {r : List Token}
    (h : (place pos brk ls).tokens = t :: r) : ∃ x l y, ls = x ++ l :: y ∧ NoCode x ∧
      l.cls = .token t.kind ∧ t.start = pos + byteWidth (texts x) ∧
      t.lineBreak = (place pos brk x).lastBreak ∧
      r = (place (pos + byteWidth (texts (x ++ [l]))) none y).tokens := by
  induction ls generalizing pos brk with
  | nil => cases h
  | cons l ls ih =>
    rw [place] at h
    have hskip : ∀ {brk'}, (∀ k, l.cls ≠ .token k) → (∀ x, (place pos brk (l :: x)).lastBreak =
          (place (pos + byteWidth l.text) brk' x).lastBreak) →
        (place (pos + byteWidth l.text) brk' ls).tokens = t :: r → ∃ x l' y, l :: ls = x ++ l' :: y ∧
          NoCode x ∧ l'.cls = .token t.kind ∧ t.start = pos + byteWidth (texts x) ∧
          t.lineBreak = (place pos brk x).lastBreak ∧
          r = (place (pos + byteWidth (texts (x ++ [l']))) none y).tokens := by
      intro brk' hl hbrk h
      obtain ⟨x, l', y, rfl, hx, hl', hstart, hbreak, hr⟩ := ih h
      refine ⟨l :: x, l', y, rfl, List.forall_mem_cons.mpr ⟨hl, hx⟩, hl', ?_, (hbrk x).symm ▸ hbreak, ?_⟩
      · rw [hstart, texts_cons, byteWidth_append, Nat.add_assoc]
      · rw [hr, List.cons_append, texts_cons, byteWidth_append, ← Nat.add_assoc]
    cases hc : l.cls with
    | blank | newline | comment =>
      rw [hc] at h
      refine hskip (by rw [hc]; rintro k ⟨⟩) (fun x => ?_) h
      rw [place, hc]
    | token k =>
      rw [hc] at h
      obtain ⟨rfl, rfl⟩ := List.cons.inj h
      refine ⟨[], l, ls, rfl, List.forall_mem_nil _, hc, rfl, rfl, ?_⟩
      rw [List.nil_append, texts_cons, texts_nil, List.append_nil]

/-! ## The ends of items -/

/-- Whether stretches behind an item end it: they hold a line end, or one semicolon in its line. -/
inductive EndsItem : List Lexeme → Prop
  | line {ls : List Lexeme} : NoCode ls → Breaks ls → EndsItem ls
  | semicolon {x y : List Lexeme} {l : Lexeme} : NoCode x → ¬ Breaks x →
      l.cls = .token (.operator .semicolon) → NoCode y → EndsItem (x ++ l :: y)

theorem place_cons_of_token {pos : Nat} {b : Option Nat} {l : Lexeme} {k : Kind} (hk : l.cls = .token k)
    (ls : List Lexeme) : place pos b (l :: ls) =
      { place (pos + byteWidth l.text) none ls with
        tokens := ⟨k, pos, pos + byteWidth l.text, b⟩ :: (place (pos + byteWidth l.text) none ls).tokens } := by
  rw [place]
  simp only [hk]

/-- What ends an item is a line end before the next one, or a semicolon. -/
theorem EndsItem.place {ls : List Lexeme} (h : EndsItem ls) (pos : Nat) :
    ((place pos none ls).tokens = [] ∧ (place pos none ls).lastBreak ≠ none) ∨
      ∃ t, (place pos none ls).tokens = [t] ∧ t.kind = .operator .semicolon ∧ t.lineBreak = none := by
  cases h with
  | line hls hbreaks =>
    exact Or.inl ⟨hls.tokens _ _, (hls.lastBreak_ne_none _ _).mpr (Or.inr hbreaks)⟩
  | @semicolon x y l hx hline hl hy =>
    have hnone : (Syntax.place pos none x).lastBreak = none :=
      Classical.not_not.mp fun h => ((hx.lastBreak_ne_none _ _).mp h).elim (absurd rfl) hline
    rw [place_append_tokens, hx.tokens, List.nil_append, hnone, place_cons_of_token hl]
    dsimp only
    rw [hy.tokens]
    exact Or.inr ⟨_, rfl, rfl, rfl⟩

/-- Tokens of placed stretches, and the line ends before them, lie in them. -/
theorem ends_place {pos : Nat} {brk : Option Nat} {ls : List Lexeme} (hbrk : ∀ b ∈ brk, b ≤ pos) :
    ∀ t ∈ (place pos brk ls).tokens, t.stop ≤ pos + byteWidth (texts ls) ∧
      ∀ b ∈ t.lineBreak, b ≤ pos + byteWidth (texts ls) := by
  induction ls generalizing pos brk with
  | nil => exact List.forall_mem_nil _
  | cons l ls ih =>
    have hmore : ∀ b ∈ brk, b ≤ pos + byteWidth l.text := fun b hb => by
      have := hbrk b hb
      omega
    rw [texts_cons, byteWidth_append, ← Nat.add_assoc, place]
    cases hc : l.cls with
    | blank | comment => exact ih hmore
    | newline =>
      refine ih fun b hb => ?_
      cases brk with
      | none => exact Nat.le_of_eq (Option.some.inj hb).symm
      | some x => exact hmore b hb
    | token k =>
      refine List.forall_mem_cons.mpr ⟨⟨Nat.le_add_right _ _, fun b hb => ?_⟩,
        ih fun _ hb => absurd hb (Option.not_mem_none _)⟩
      have := hbrk b hb
      omega

/-- A match ends where it began, or at an end of what it takes. -/
theorem Matches.ends {R L : Type} {g : R → Pattern R L} {p : Pattern R L} {c : Place} {f : Found L}
    {q : Nat → Prop} (h : Matches g p c f)
    (hc : q c.offset ∧ (∀ b ∈ c.lastBreak, q b) ∧ ∀ t ∈ c.tokens, q t.stop ∧ ∀ b ∈ t.lineBreak, q b) :
    q f.place.offset ∧ (∀ b ∈ f.place.lastBreak, q b) ∧
      ∀ t ∈ f.place.tokens, q t.stop ∧ ∀ b ∈ t.lineBreak, q b := by
  induction h with
  | empty | sameLine _ | starNil | ahead _ _ | absent => exact hc
  | token ht _ =>
    obtain ⟨-, hlast, htokens⟩ := hc
    rw [ht, List.forall_mem_cons] at htokens
    exact ⟨htokens.1.1, hlast, htokens.2⟩
  | @lineEnd c b hb =>
    obtain ⟨o, ts, e⟩ := c
    obtain ⟨-, hlast, htokens⟩ := hc
    cases ts with
    | nil => exact ⟨hlast b hb, nofun, List.forall_mem_nil _⟩
    | cons t r =>
      obtain ⟨ht, hr⟩ := List.forall_mem_cons.mp htokens
      exact ⟨ht.2 b hb, hlast, List.forall_mem_cons.mpr ⟨⟨ht.1, nofun⟩, hr⟩⟩
  | seq _ _ ih1 ih2 | starCons _ _ ih1 ih2 => exact ih2 (ih1 hc)
  | altFirst _ ih | altSecond _ ih | rule _ ih | node _ _ _ ih | hidden _ ih => exact ih hc

/-- The last stretch of an item is a token, if every stretch has a text. -/
theorem Declares.last {ls : List Lexeme} {u : Node} (h : Declares ls u) (hls : ∀ l ∈ ls, l.text ≠ []) :
    ∃ x l k, ls = x ++ [l] ∧ l.cls = .token k := by
  rcases List.eq_nil_or_concat ls with rfl | ⟨x, l, heq⟩
  · obtain ⟨_, _, _, hnil, -⟩ := h.head
    cases hnil
  · rw [List.concat_eq_append] at heq
    cases hc : l.cls with
    | token k => exact ⟨x, l, k, heq, hc⟩
    | blank | newline | comment =>
      -- otherwise the item ends before the stretch, where its last token ends
      exfalso
      have hread := h.read ⟨0, [], none⟩ nofun 0 none
      have htokens : (place 0 none ls).tokens = (place 0 none x).tokens := by
        rw [heq, place_append_tokens, NoCode.tokens (List.forall_mem_singleton.mpr (by rw [hc]; rintro k ⟨⟩)),
          List.append_nil]
      rw [htokens, List.append_nil] at hread
      obtain ⟨hoffset, -⟩ := (matches_of_item? hread).ends (q := fun n => n ≤ 0 + byteWidth (texts x))
        ⟨Nat.zero_le _, nofun, ends_place nofun⟩
      change u.stop ≤ 0 + byteWidth (texts x) at hoffset
      have hwidth := byteWidth_pos (hls l (by rw [heq]; simp))
      rw [h.stop, heq, texts_append, byteWidth_append, texts_cons, texts_nil, List.append_nil] at hoffset
      omega

/-! ## Segments -/

/-- The stretches of an item, the item, and the stretches behind it. -/
structure Segment where
  code : List Lexeme
  node : Node
  gap : List Lexeme

namespace Segment

def stretches (g : Segment) : List Lexeme := g.code ++ g.gap

/-- Whether the stretches of a segment are its item. -/
structure IsItem (g : Segment) : Prop where
  declares : Declares g.code g.node
  nonempty : ∀ l ∈ g.code, l.text ≠ []

/-- The stretches of segments, one behind the other. -/
def joined (gs : List Segment) : List Lexeme := gs.flatMap stretches

/-- The items of segments, the first of which begins at an offset. -/
def nodes (o : Nat) : List Segment → List Node
  | [] => []
  | g :: gs => g.node.moved o :: nodes (o + byteWidth (texts g.stretches)) gs

/-- Whether segments can stand one behind the other, each item ended by what stands behind it.
The last one may end with the text. -/
inductive Linked : List Segment → Prop
  | nil : Linked []
  | cons {g : Segment} {gs : List Segment} :
      g.IsItem → EndsItem g.gap → Linked gs → Linked (g :: gs)
  | last {g : Segment} :
      g.IsItem → NoCode g.gap → mayEndFile g.node → Linked [g]

end Segment

open Segment

@[simp] theorem joined_nil : joined [] = [] := rfl

@[simp] theorem joined_cons (g : Segment) (gs : List Segment) : joined (g :: gs) = g.code ++ (g.gap ++ joined gs) :=
  List.append_assoc _ _ _

@[simp] theorem joined_append (gs hs : List Segment) : joined (gs ++ hs) = joined gs ++ joined hs :=
  List.flatMap_append

theorem Segment.Linked.isOpened {gs : List Segment} (h : Linked gs) {o : Nat} :
    ∀ n ∈ nodes o gs, Grammar.IsOpened n.label := by
  induction h generalizing o with
  | nil => exact List.forall_mem_nil _
  | cons hg _ _ ih =>
    refine List.forall_mem_cons.mpr ⟨?_, ih⟩
    rw [Tree.label_moved]
    exact hg.declares.opened
  | last hg _ _ =>
    refine List.forall_mem_singleton.mpr ?_
    rw [Tree.label_moved]
    exact hg.declares.opened

/-- There is no line end at the end of an item. -/
theorem Segment.IsItem.lastBreak {g : Segment} (h : g.IsItem) (pos : Nat) (b : Option Nat) :
    (place pos b g.code).lastBreak = none := by
  obtain ⟨x, l, k, hcode, hk⟩ := h.declares.last h.nonempty
  rw [hcode, place_append]
  dsimp only
  rw [place_cons_of_token hk]
  rfl

/-- What ends with an item ends with a token. -/
theorem Segment.IsItem.last {g : Segment} (h : g.IsItem) {a b : List Lexeme} {l : Lexeme}
    (hl : a ++ g.code = b ++ [l]) : ∃ k, l.cls = .token k := by
  obtain ⟨x, l', k, hcode, hk⟩ := h.declares.last h.nonempty
  rw [hcode, ← List.append_assoc] at hl
  obtain ⟨-, hlast⟩ := List.append_inj' hl rfl
  rw [← (List.cons.inj hlast).1]
  exact ⟨k, hk⟩

theorem Segment.Linked.items {gs : List Segment} (h : Linked gs) : ∀ g ∈ gs, g.IsItem := by
  induction h with
  | nil => exact List.forall_mem_nil _
  | cons hg _ _ ih => exact List.forall_mem_cons.mpr ⟨hg, ih⟩
  | last hg _ _ => exact List.forall_mem_singleton.mpr hg

theorem Segment.Linked.isItem {g : Segment} {gs : List Segment} (h : Linked (g :: gs)) : g.IsItem :=
  h.items g List.mem_cons_self

/-- The tokens of segments are those of the first, then what stands behind it, then those of the others. -/
theorem Segment.IsItem.place_cons {g : Segment} (hg : g.IsItem) (gs : List Segment) (pos : Nat)
    (b : Option Nat) :
    let gap := place (pos + byteWidth (texts g.code)) none g.gap
    let rest := place (pos + byteWidth (texts g.stretches)) gap.lastBreak (joined gs)
    (place pos b (joined (g :: gs))).tokens = (place pos b g.code).tokens ++ (gap.tokens ++ rest.tokens) ∧
      (place pos b (joined (g :: gs))).lastBreak = rest.lastBreak := by
  have hwidth : pos + byteWidth (texts g.code) + byteWidth (texts g.gap) =
      pos + byteWidth (texts g.stretches) := by
    rw [Segment.stretches, texts_append, byteWidth_append, Nat.add_assoc]
  rw [joined_cons, place_append]
  dsimp only
  rw [hg.lastBreak, place_append]
  dsimp only
  rw [hwidth]
  exact ⟨rfl, rfl⟩

section Linked

variable {gs : List Segment} {pos : Nat}

/-- The line end before segments is that behind the stretches before them. -/
theorem Segment.Linked.lineBreak (h : Linked gs) (o pos : Nat) (b : Option Nat) :
    (⟨o, (place pos b (joined gs)).tokens, (place pos b (joined gs)).lastBreak⟩ : Place).lineBreak = b := by
  cases gs with
  | nil => rfl
  | cons g gs =>
    obtain ⟨l, r, k, hcode, hk, -⟩ := h.isItem.declares.head
    rw [joined_cons, hcode, List.cons_append, place_cons_of_token hk]
    rfl

/-- What segments are read as does not depend on the line end before them. -/
theorem Segment.Linked.read_afterBreak (h : Linked gs)
    (hread : ∀ o, Read ⟨o, (place pos none (joined gs)).tokens, (place pos none (joined gs)).lastBreak⟩ (nodes pos gs))
    (o : Nat) (b : Option Nat) (x : Nat) :
    Read (Place.afterBreak ⟨o, (place pos b (joined gs)).tokens, (place pos b (joined gs)).lastBreak⟩ x)
      (nodes pos gs) := by
  cases gs with
  | nil => exact .done rfl
  | cons g gs =>
    obtain ⟨l, r, k, hcode, hk, -⟩ := h.isItem.declares.head
    have hnone := hread x
    rw [joined_cons, hcode, List.cons_append, place_cons_of_token hk] at hnone ⊢
    exact hnone

end Linked

/-! ## From an outline to its items -/

mutual
theorem Tree.hasEnding_moved (l : Label) (n stop : Nat) :
    ∀ t : Node, (t.moved n).hasEnding l (stop + n) = t.hasEnding l stop
  | .node l' s e cs => by
    have hstop : (e + n == stop + n) = (e == stop) := by
      rw [Bool.eq_iff_iff, beq_iff_eq, beq_iff_eq, Nat.add_right_cancel_iff]
    rw [Tree.moved, Tree.hasEnding, Tree.hasEnding, anyEnding_moved l n stop cs, hstop]
theorem anyEnding_moved (l : Label) (n stop : Nat) :
    ∀ ts : List Node, anyEnding l (stop + n) (movedAll n ts) = anyEnding l stop ts
  | [] => rfl
  | t :: ts => by rw [movedAll, anyEnding, anyEnding, Tree.hasEnding_moved l n stop t, anyEnding_moved l n stop ts]
end

theorem mayEndFile_moved (n : Nat) (t : Node) : mayEndFile (t.moved n) = mayEndFile t := by
  unfold mayEndFile
  rw [Tree.label_moved, Tree.stop_moved, Tree.hasEnding_moved]

/-- Linked segments are read as their items, at any place. -/
theorem Segment.Linked.read {gs : List Segment} (h : Linked gs) (o pos : Nat) (b : Option Nat) :
    Read ⟨o, (place pos b (joined gs)).tokens, (place pos b (joined gs)).lastBreak⟩ (nodes pos gs) := by
  induction h generalizing o pos b with
  | nil => exact .done rfl
  | @cons g gs hg hended hgs ih =>
    obtain ⟨htokens, hlast⟩ := hg.place_cons gs pos b
    have hends := hended.place (pos + byteWidth (texts g.code))
    rw [htokens, hlast, nodes]
    generalize pos + byteWidth (texts g.stretches) = q
    generalize hk : (place (pos + byteWidth (texts g.code)) none g.gap).lastBreak = k at hends ⊢
    have hbreak := fun o => hgs.lineBreak o q k
    rcases hends with ⟨hnil, hline⟩ | ⟨t, ht, hkind, hsame⟩
    · obtain ⟨x, rfl⟩ := Option.ne_none_iff_exists'.mp hline
      rw [hnil, List.nil_append]
      have hstops : (⟨pos, (place q (some x) (joined gs)).tokens,
          (place q (some x) (joined gs)).lastBreak⟩ : Frame).Stops := by
        intro u r hu
        dsimp only at hu
        refine Or.inr ⟨(ih q q (some x)).isOpening hgs.isOpened hu, ?_⟩
        have hu' := hbreak 0
        rw [hu] at hu'
        exact Option.ne_none_iff_exists'.mpr ⟨x, hu'⟩
      refine .item (hg.declares.read _ hstops o b) ?_
        (hgs.read_afterBreak (fun o => ih o q none) (g.node.stop + pos) (some x) x)
      unfold afterTerminator?
      rw [hbreak]
    · rw [ht]
      refine .item (hg.declares.read ⟨pos, [t] ++ (place q k (joined gs)).tokens,
        (place q k (joined gs)).lastBreak⟩ ?_ o b) ?_ (ih t.stop q k)
      · rintro u r ⟨⟩
        exact Or.inl hkind
      · simp only [afterTerminator?, Place.lineBreak, List.cons_append, List.nil_append, hsame]
        exact if_pos hkind
  | @last g hg hgap hend =>
    obtain ⟨htokens, hlast⟩ := hg.place_cons [] pos b
    rw [htokens, hlast, hgap.tokens]
    generalize (place (pos + byteWidth (texts g.code)) none g.gap).lastBreak = k
    have hitem := hg.declares.read ⟨pos, [], k⟩ (by rintro u r ⟨⟩) o b
    cases k with
    | none => exact .last hitem rfl rfl ((mayEndFile_moved pos g.node).trans hend)
    | some x => exact .item hitem rfl (.done rfl)

/-! ## From items to their outline -/

theorem trimmed_cons {r : List Token} {w : Token} {ts : List Token} (h : Trimmed r (w :: ts)) :
    ∃ v, r = v :: ts ∧ v.start = w.start := by
  rcases h with h | ⟨v, ts', rfl, h⟩
  · exact ⟨w, h.symm, rfl⟩
  · obtain ⟨rfl, rfl⟩ := List.cons.inj h
    exact ⟨v, rfl, rfl⟩

theorem Place.trimmed_afterBreak (c : Place) (x : Nat) : Trimmed c.tokens (c.afterBreak x).tokens ∧
    ((c.afterBreak x).tokens = [] ∨ (c.afterBreak x).lastBreak = c.lastBreak) := by
  obtain ⟨o, ts, e⟩ := c
  cases ts with
  | nil => exact ⟨Or.inl rfl, Or.inl rfl⟩
  | cons t r => exact ⟨Or.inr ⟨t, r, rfl, rfl⟩, Or.inr rfl⟩

section Split

variable {s : List Char} {a b : List Lexeme} {pos : Nat} {k : Option Nat}

/-- The stretches of an item in a part of a text: before them there is no code. -/
theorem split_item {a' ls b' : List Lexeme} {w v : Token} {ts r : List Token} (hs : stretches s = a ++ b)
    (hs' : stretches s = a' ++ (ls ++ b')) (hhead : ∃ l r k, ls = l :: r ∧ l.cls = .token k)
    (hpos : pos = byteWidth (orderMark s ++ texts a))
    (hstart : v.start = byteWidth (orderMark s ++ texts a')) (htok : (place pos k b).tokens = v :: (ts ++ r))
    (hitem : w :: ts = (place v.start w.lineBreak ls).tokens) :
    ∃ lead, a' = a ++ lead ∧ b = lead ++ (ls ++ b') ∧ NoCode lead ∧
      v.start = pos + byteWidth (texts lead) ∧
      let rest := place (v.start + byteWidth (texts ls))
        (place v.start (place pos k lead).lastBreak ls).lastBreak b'
      r = rest.tokens ∧ (place pos k b).lastBreak = rest.lastBreak := by
  have hne : ∀ l ∈ stretches s, l.text ≠ [] := fun l hl => ne_nil_of_mem_stretches hl
  have hmem : v ∈ (place pos k b).tokens := by
    rw [htok]
    exact List.mem_cons_self
  obtain ⟨hle, hlt, -⟩ := range_of_mem_place hmem fun l hl => hne l (by rw [hs]; simp [hl])
  have hwidth : byteWidth (texts a) ≤ byteWidth (texts a') := by
    rw [byteWidth_append] at hpos hstart
    omega
  obtain ⟨lead, rfl, rfl⟩ := prefix_of_width_le (hs.symm.trans hs') (fun l hl => hne l (by rw [hs]; exact hl)) hwidth
  have hstart' : v.start = pos + byteWidth (texts lead) := by
    rw [hstart, hpos]
    simp [Nat.add_assoc]
  have hlead : NoCode lead := by
    refine (noCode_iff pos k).mpr ?_
    cases hl : (place pos k lead).tokens with
    | nil => rfl
    | cons u us =>
      rw [place_append_tokens, hl, List.cons_append, List.cons.injEq] at htok
      obtain ⟨-, h1, h2⟩ := range_of_mem_place (t := u) (by rw [hl]; exact List.mem_cons_self)
        fun l hl => hne l (by rw [hs]; simp [hl])
      rw [htok.1] at h1 h2
      omega
  refine ⟨lead, rfl, rfl, hlead, hstart', ?_, ?_⟩
  · rw [place_append_tokens, (noCode_iff pos k).mp hlead, List.nil_append, place_append_tokens, ← hstart',
      ← List.cons_append] at htok
    obtain ⟨l, x, k', rfl, hk'⟩ := hhead
    have hlen : (place v.start (place pos k lead).lastBreak (l :: x)).tokens.length = (v :: ts).length := by
      have := congrArg List.length hitem
      rw [place_cons_token hk'] at this ⊢
      exact this.symm
    exact (List.append_inj htok hlen).2.symm
  · rw [place_append]
    dsimp only
    rw [place_append, ← hstart']

/-- The first item of a part of a text, and what is left of the part behind it. -/
theorem exists_segment {c d : Place} {n : Node} (hi : item? c = some (n, d))
    (hopen : Grammar.IsOpened n.label) (hsound : ∀ l ∈ stretches s, l.cls.isSound)
    (hc : c.Orderly (IsBoundary s) (IsWord s)) (hleaves : (startOf s).Leaves c)
    (hstops : ∀ r, Trimmed r d.tokens → ∀ shift b, (⟨shift, r, b⟩ : Frame).Stops) (hs : stretches s = a ++ b)
    (hpos : pos = byteWidth (orderMark s ++ texts a)) (htok : Trimmed (place pos k b).tokens c.tokens)
    (hlast : c.tokens = [] ∨ c.lastBreak = (place pos k b).lastBreak) :
    ∃ lead ls b' u, b = lead ++ (ls ++ b') ∧ NoCode lead ∧ (∀ gap, (⟨ls, u, gap⟩ : Segment).IsItem) ∧
      n = u.moved (pos + byteWidth (texts lead)) ∧
      let rest := place (pos + byteWidth (texts lead) + byteWidth (texts ls)) none b'
      d = ⟨n.stop, rest.tokens, rest.lastBreak⟩ := by
  obtain ⟨w, ts, r, hw, hr⟩ := item?_tokens hi
  obtain ⟨a', ls, b', u, hs', hu, hdecl, hitem, hd⟩ :=
    item_declares hi hopen hsound hc hleaves hw hr (hstops r hr)
  rw [hw] at htok
  obtain ⟨v, hv, hstart⟩ := trimmed_cons htok
  have hfront : w.start = n.start := by
    rw [(item_range (matches_of_item? hi)).1, Place.front, hw]
  have hplace : n.start = byteWidth (orderMark s ++ texts a') := by
    rw [hu, Tree.start_moved, hdecl.start, Nat.zero_add]
  have hhead : ∃ l r k, ls = l :: r ∧ l.cls = .token k := by
    obtain ⟨l, r, k, hls, hk, -⟩ := hdecl.head
    exact ⟨l, r, k, hls, hk⟩
  have hall : ∀ gap, (⟨ls, u, gap⟩ : Segment).IsItem := fun _ =>
    ⟨hdecl, fun l hl => ne_nil_of_mem_stretches (s := s) (by rw [hs']; simp [hl])⟩
  obtain ⟨lead, -, rfl, hlead, hwidth, hrest, hbreak⟩ := split_item hs hs' hhead hpos
    (hstart.trans (hfront.trans hplace)) hv (by rw [hstart, hfront]; exact hitem)
  rw [(hall []).lastBreak, hwidth] at hrest hbreak
  refine ⟨lead, ls, b', u, rfl, hlead, hall, ?_, ?_⟩
  · rw [hu, ← hplace, ← hfront, ← hstart, hwidth]
  · rw [hd, hrest, hlast.resolve_left (by rw [hw]; exact List.cons_ne_nil _ _), hbreak]

/-- What ends an item, in the stretches behind it: a line end before the next item, or a semicolon. -/
theorem afterTerminator?_stretches {o q : Nat} {d e : Place}
    (hd : d = ⟨o, (place q none b).tokens, (place q none b).lastBreak⟩) (h : afterTerminator? d = some e) :
    (d.lineBreak ≠ none ∧ Trimmed (place q none b).tokens e.tokens ∧
        (e.tokens = [] ∨ e.lastBreak = (place q none b).lastBreak)) ∨
      ∃ x l y, b = x ++ l :: y ∧ NoCode x ∧ ¬ Breaks x ∧ l.cls = .token (.operator .semicolon) ∧
        e.tokens = (place (q + byteWidth (texts (x ++ [l]))) none y).tokens ∧
        e.lastBreak = (place (q + byteWidth (texts (x ++ [l]))) none y).lastBreak := by
  subst hd
  unfold afterTerminator? at h
  split at h
  · next n hn =>
    cases h
    exact Or.inl ⟨by rw [hn]; nofun, Place.trimmed_afterBreak _ n⟩
  · next hnone =>
    split at h
    · next t r ht =>
      split at h
      · next hkind =>
        cases h
        obtain ⟨x, l, y, rfl, hx, hl, -, hbreak, rfl⟩ := place_eq_cons ht
        have hline : ¬ Breaks x := fun hline => by
          refine (hx.lastBreak_ne_none q none).mpr (Or.inr hline) ?_
          rw [← hbreak, ← hnone, Place.lineBreak, ht]
        have hl : l.cls = .token (.operator .semicolon) := hl.trans (congrArg _ hkind)
        refine Or.inr ⟨x, l, y, rfl, hx, hline, hl, rfl, ?_⟩
        rw [place_append]
        dsimp only
        rw [place_cons_of_token hl, texts_append, texts_cons, texts_nil, List.append_nil, byteWidth_append,
          Nat.add_assoc]
      · cases h
    · cases h

end Split

/-- The outline of what is read at a place of a text. -/
theorem Read.outline {s : List Char} {c : Place} {ns : List Node} (h : Read c ns)
    (hns : ∀ t ∈ ns, Grammar.IsOpened t.label) (hsound : ∀ l ∈ stretches s, l.cls.isSound)
    (hc : c.Orderly (IsBoundary s) (IsWord s)) (hleaves : (startOf s).Leaves c) {a b : List Lexeme}
    (hs : stretches s = a ++ b) {pos : Nat} (hpos : pos = byteWidth (orderMark s ++ texts a)) {k : Option Nat}
    (htok : Trimmed (place pos k b).tokens c.tokens)
    (hlast : c.tokens = [] ∨ c.lastBreak = (place pos k b).lastBreak) :
    ∃ lead gs, b = lead ++ joined gs ∧ NoCode lead ∧ Linked gs := by
  induction h generalizing a b pos k with
  | @done c hnil =>
    refine ⟨b, [], (List.append_nil b).symm, (noCode_iff pos k).mpr ?_, .nil⟩
    rw [hnil] at htok
    exact List.length_eq_zero_iff.mp (htok.length_eq.symm)
  | @item c d e n ns hi ha hrest ih =>
    have hns' : ∀ t ∈ ns, Grammar.IsOpened t.label := fun t ht => hns t (List.mem_cons_of_mem n ht)
    have hm := matches_of_item? hi
    have hterm := (terminated_of_afterTerminator? ha).forward (hm.forward hc).orderly
    have hleaves' := hleaves.trans (hm.leaves.trans (afterTerminator?_leaves ha))
    obtain ⟨lead, ls, b', u, rfl, hlead, hitem, rfl, rfl⟩ := exists_segment hi
      (hns n List.mem_cons_self) hsound hc hleaves
      (fun r hr _ b => stops_of_terminated (b := b) hr ha hrest hns') hs hpos htok hlast
    refine ⟨lead, ?_⟩
    generalize hq : pos + byteWidth (texts lead) = q at ha ih hm ⊢
    rw [← List.append_assoc, ← List.append_assoc] at hs
    have hpos' : q + byteWidth (texts ls) = byteWidth (orderMark s ++ texts (a ++ lead ++ ls)) := by
      rw [← hq, hpos]
      simp [Nat.add_assoc]
    rcases afterTerminator?_stretches rfl ha with ⟨hx, htrim, hkept⟩ | ⟨x, l, y, rfl, hx, hline, hl, he, hlast'⟩
    · obtain ⟨lead', gs, rfl, hlead', hgs⟩ := ih hns' hterm.orderly hleaves' hs hpos' htrim hkept
      refine ⟨⟨ls, u, lead'⟩ :: gs, by rw [joined_cons], hlead, .cons (hitem lead') (.line hlead' ?_) hgs⟩
      rw [place_append] at hx
      dsimp only at hx
      rw [hlead'.tokens, List.nil_append, hgs.lineBreak] at hx
      exact ((hlead'.lastBreak_ne_none _ none).mp hx).resolve_left fun hne => hne rfl
    · obtain ⟨lead', gs, rfl, hlead', hgs⟩ := ih hns' hterm.orderly hleaves'
        (a := a ++ lead ++ ls ++ (x ++ [l])) (b := y) (by rw [hs]; simp)
        (by rw [hpos']; simp [Nat.add_assoc]) (Or.inl he) (Or.inr hlast')
      exact ⟨⟨ls, u, x ++ l :: lead'⟩ :: gs, by simp, hlead,
        .cons (hitem _) (.semicolon hx hline hl hlead') hgs⟩
  | @last c d n hi ha hnil hend =>
    obtain ⟨lead, ls, b', u, rfl, hlead, hitem, rfl, rfl⟩ := exists_segment hi
      (hns _ List.mem_cons_self) hsound hc hleaves
      (fun r hr _ _ t r' hr' => by
        have hlen := hr.length_eq
        rw [hnil, show r = t :: r' from hr'] at hlen
        cases hlen) hs hpos htok hlast
    refine ⟨lead, [⟨ls, u, b'⟩], by rw [joined_cons, joined_nil, List.append_nil], hlead,
      .last (hitem b') ((noCode_iff _ _).mpr hnil) ?_⟩
    rwa [mayEndFile_moved] at hend

/-! ## Outlines of texts -/

/-- A text that consists of stretches without code, and then of segments. -/
structure Outline (s : List Char) (lead : List Lexeme) (gs : List Segment) : Prop where
  stretches_eq : stretches s = lead ++ joined gs
  noCode : NoCode lead
  linked : Linked gs

/-- A text that is read as declarations has an outline. -/
theorem exists_outline {s : List Char} (href : (textItems s).refusal = none)
    (hns : ∀ t ∈ (textItems s).nodes, Grammar.IsOpened t.label) : ∃ lead gs, Outline s lead gs := by
  have hread := read_textItems href
  obtain ⟨lead, gs, hs, hlead, hgs⟩ := hread.outline hns (isSound_of_mem_stretches hread hns)
    (startOf_orderly s) (.refl _) (a := []) (b := stretches s) rfl rfl (k := none)
    (Or.inl (by rw [startOf, scan_eq, texts_nil, List.append_nil]; rfl))
    (Or.inr (by rw [startOf, scan_eq, texts_nil, List.append_nil]; rfl))
  exact ⟨lead, gs, hs, hlead, hgs⟩

/-- A text with an outline is read as the items of its segments. -/
theorem Outline.items {s : List Char} {lead : List Lexeme} {gs : List Segment} (h : Outline s lead gs) :
    textItems s = ⟨nodes (byteWidth (orderMark s ++ texts lead)) gs, none⟩ := by
  have hscan : scan s = place (byteWidth (orderMark s)) none (lead ++ joined gs) := by
    rw [scan_eq, ← h.stretches_eq]
    rfl
  refine itemsOf_of_read ?_
  rw [hscan, place_append]
  dsimp only
  rw [h.noCode.tokens, List.nil_append, byteWidth_append]
  exact h.linked.read 0 _ _

/-! ## Segments that are ended -/

/-- A segment whose item is ended by what stands behind it. -/
structure Segment.IsEnded (g : Segment) : Prop extends g.IsItem where
  ends : EndsItem g.gap

/-- Segments can follow others if those are ended. -/
theorem Segment.linked_append {gs hs : List Segment} (hgs : ∀ g ∈ gs, g.IsEnded) (hhs : Linked hs) :
    Linked (gs ++ hs) := by
  induction gs with
  | nil => exact hhs
  | cons g gs ih =>
    obtain ⟨hg, hgs⟩ := List.forall_mem_cons.mp hgs
    exact .cons hg.toIsItem hg.ends (ih hgs)

theorem Segment.Linked.of_append {gs hs : List Segment} (h : Linked (gs ++ hs)) : Linked hs := by
  induction gs with
  | nil => exact h
  | cons g gs ih =>
    rw [List.cons_append] at h
    generalize hr : gs ++ hs = rest at h ih
    cases h with
    | cons _ _ h => exact ih h
    | last => exact ih .nil

/-- Segments that others follow are ended. -/
theorem Segment.Linked.isEnded {gs hs : List Segment} {g : Segment} (h : Linked (gs ++ g :: hs)) :
    ∀ k ∈ gs, k.IsEnded := by
  induction gs with
  | nil => exact List.forall_mem_nil _
  | cons k gs ih =>
    rw [List.cons_append] at h
    generalize hr : gs ++ g :: hs = rest at h ih
    cases h with
    | cons hk hends h => exact List.forall_mem_cons.mpr ⟨⟨hk, hends⟩, ih h⟩
    | last => simp at hr

/-- In a text that ends its last line, all segments are ended. -/
theorem Outline.isEnded {s : List Char} {lead : List Lexeme} {gs : List Segment} (h : Outline s lead gs)
    {ls : List Lexeme} (hs : stretches s = ls ++ [⟨.newline, ['\n']⟩]) : ∀ g ∈ gs, g.IsEnded := by
  rcases List.eq_nil_or_concat gs with rfl | ⟨as, g, rfl⟩
  · exact List.forall_mem_nil _
  · have hlinked := h.linked
    rw [List.concat_eq_append] at hlinked ⊢
    refine List.forall_mem_append.mpr ⟨hlinked.isEnded, List.forall_mem_singleton.mpr ?_⟩
    cases hlinked.of_append with
    | cons hg hends _ => exact ⟨hg, hends⟩
    | last hg hgap _ =>
      refine ⟨hg, .line hgap ?_⟩
      have heq := h.stretches_eq
      rw [hs, List.concat_eq_append, joined_append, joined_cons, joined_nil, List.append_nil] at heq
      rcases List.eq_nil_or_concat g.gap with hnil | ⟨y, l, hy⟩
      · -- otherwise the line end would be the last token of the item
        rw [hnil, List.append_nil, ← List.append_assoc] at heq
        obtain ⟨k, hk⟩ := hg.last heq.symm
        cases hk
      · rw [hy, List.concat_eq_append, ← List.append_assoc, ← List.append_assoc, ← List.append_assoc] at heq
        obtain ⟨-, hlast⟩ := List.append_inj' heq rfl
        refine ⟨l, by rw [hy]; simp, ?_⟩
        rw [← (List.cons.inj hlast).1]

end GoSplice.Syntax
