import GoSplice.Proofs.Reading
import GoSplice.Proofs.Relexing

/-!
# Declarations cut out of a text

A declaration of a text consists of some stretches, and these are read as the
same declaration wherever they stand:

    Declares ls u    the stretches ls are the declaration u, at any offset
    Read … ns, n ∈ ns → stretches s = a ++ ls ++ b, Declares ls u,
      n = u behind a                                             (Read.declares)
-/

namespace GoSplice.Syntax

/-! ## Sound tokens -/

theorem isSound_of_item? {c d : Place} {t : Node} (h : item? c = some (t, d))
    (hl : Grammar.IsOpened t.label) : ∃ ks, c.kinds = ks ++ d.kinds ∧ ∀ k ∈ ks, k.isSound := by
  obtain ⟨o, ho, hm⟩ := Grammar.exists_opening (matches_of_item? h) hl
  obtain ⟨ws, hws, -⟩ := (Pattern.leadsTo_iff Grammar.isFirm Grammar.exits).mp
    (Grammar.Opening.leadsTo_complete ho)
  cases hm with
  | node hm _ _ =>
    cases hm with
    | seq hword hrest =>
      cases hword with
      | token hu hk =>
        obtain ⟨-, -, ks, hks, hsound, -⟩ := (hrest.leads Grammar.charted).1 _ ws hws 0 .closed
        rw [List.mem_singleton] at hk
        refine ⟨.keyword o.word :: ks, ?_, ?_⟩
        · rw [Place.kinds, hu, List.map_cons, hk]
          exact congrArg _ hks
        · exact List.forall_mem_cons.mpr ⟨rfl, hsound⟩

/-- The tokens of a file of declarations are what their characters say. -/
theorem Read.isSound {c : Place} {ns : List Node} (h : Read c ns)
    (hns : ∀ t ∈ ns, Grammar.IsOpened t.label) : ∀ k ∈ c.kinds, k.isSound := by
  induction h with
  | done hc => simp [Place.kinds, hc]
  | item hi ht _ ih =>
    obtain ⟨ks, hks, hsound⟩ := isSound_of_item? hi (hns _ List.mem_cons_self)
    have hrest := ih fun t ht => hns t (List.mem_cons_of_mem _ ht)
    rw [hks]
    intro k hk
    rcases List.mem_append.mp hk with hk | hk
    · exact hsound k hk
    · cases terminated_of_afterTerminator? ht with
      | @lineEnd b _ =>
        refine hrest k ?_
        rw [Place.kinds] at hk ⊢
        unfold Place.afterBreak
        split
        · next he => rw [he] at hk; exact hk
        · next he => rw [he] at hk; exact hk
      | semicolon hts hsemi =>
        rw [Place.kinds, hts, List.map_cons, List.mem_cons] at hk
        rcases hk with rfl | hk
        · rw [hsemi]; rfl
        · exact hrest k hk
  | last hi _ hnil _ =>
    obtain ⟨ks, hks, hsound⟩ := isSound_of_item? hi (hns _ List.mem_cons_self)
    rw [hks, Place.kinds, hnil, List.map_nil, List.append_nil]
    exact hsound

/-- The stretches of a file of declarations are what their characters say. -/
theorem isSound_of_mem_stretches {s : List Char} {ns : List Node} (h : Read (startOf s) ns)
    (hns : ∀ t ∈ ns, Grammar.IsOpened t.label) : ∀ l ∈ stretches s, l.cls.isSound := by
  intro l hl
  cases hc : l.cls with
  | blank | newline | comment => rfl
  | token k =>
    obtain ⟨a, b, hab⟩ := List.append_of_mem hl
    have hmem : (byteWidth (orderMark s) + byteWidth (texts a), l) ∈ layout s :=
      mem_located.mpr ⟨a, b, hab, rfl⟩
    obtain ⟨t, ht, hcore⟩ := List.mem_map.mp (mem_tokens_of_layout hmem hc)
    have hk : t.kind = k := congrArg Token.kind hcore
    exact hk ▸ h.isSound hns _ (List.mem_map_of_mem ht)

/-! ## Stretches further on -/

def Comment.moved (n : Nat) (c : Comment) : Comment := ⟨c.start + n, c.stop + n⟩

theorem place_moved (n pos : Nat) (brk : Option Nat) (ls : List Lexeme) :
    place (pos + n) (brk.map (· + n)) ls =
      ⟨(place pos brk ls).tokens.map (Token.moved n), (place pos brk ls).comments.map (Comment.moved n),
        (place pos brk ls).lastBreak.map (· + n)⟩ := by
  induction ls generalizing pos brk with
  | nil => rfl
  | cons l ls ih =>
    have hstop : pos + n + byteWidth l.text = pos + byteWidth l.text + n := Nat.add_right_comm _ _ _
    unfold place
    dsimp only
    rw [hstop]
    cases hc : l.cls with
    | blank => exact ih _ _
    | newline =>
      have hbrk : (brk.map (· + n)).or (some (pos + byteWidth l.text + n)) =
          (brk.or (some (pos + byteWidth l.text))).map (· + n) := by cases brk <;> rfl
      dsimp only
      rw [hbrk]
      exact ih _ _
    | comment =>
      dsimp only
      rw [ih]
      rfl
    | token k =>
      have hnone := ih (pos + byteWidth l.text) none
      rw [Option.map_none] at hnone
      dsimp only
      rw [hnone]
      rfl

theorem place_comments_moved (n : Nat) (ls : List Lexeme) :
    (place n none ls).comments = (place 0 none ls).comments.map (Comment.moved n) := by
  have hmoved := congrArg Scanned.comments (place_moved n 0 none ls)
  rwa [Option.map_none, Nat.zero_add] at hmoved

/-- A token of placed stretches lies at one of them. -/
theorem range_of_mem_place {pos : Nat} {brk : Option Nat} {ls : List Lexeme} {t : Token}
    (h : t ∈ (place pos brk ls).tokens) (hls : ∀ l ∈ ls, l.text ≠ []) :
    pos ≤ t.start ∧ t.start < t.stop ∧ t.stop ≤ pos + byteWidth (texts ls) := by
  have hcore : t.core ∈ (place pos brk ls).tokens.map Token.core := List.mem_map_of_mem h
  rw [place_tokens, List.mem_filterMap] at hcore
  obtain ⟨⟨n, l⟩, hmem, ht⟩ := hcore
  obtain ⟨a, b, rfl, rfl⟩ := mem_located.mp hmem
  have hpos := byteWidth_pos (hls l (by simp))
  unfold tokenOf? at ht
  split at ht
  · simp only [Token.core, Option.some.injEq, Token.mk.injEq] at ht
    obtain ⟨-, hstart, hstop, -⟩ := ht
    rw [texts_append, texts_cons, byteWidth_append, byteWidth_append]
    omega
  · cases ht

/-- A list is split in one way by a property. -/
theorem append_split {α : Type} {p : α → Prop} {xs ys xs' ys' : List α} (h : xs ++ ys = xs' ++ ys')
    (hxs : ∀ x ∈ xs, p x) (hys : ∀ y ∈ ys, ¬ p y) (hxs' : ∀ x ∈ xs', p x) (hys' : ∀ y ∈ ys', ¬ p y) :
    xs = xs' ∧ ys = ys' := by
  rcases List.append_eq_append_iff.mp h with ⟨zs, rfl, rfl⟩ | ⟨zs, rfl, rfl⟩
  · cases zs with
    | nil => exact ⟨(List.append_nil _).symm, rfl⟩
    | cons z zs => exact absurd (hxs' z (by simp)) (hys z (by simp))
  · cases zs with
    | nil => exact ⟨List.append_nil _, rfl⟩
    | cons z zs => exact absurd (hxs z (by simp)) (hys' z (by simp))

/-! ## The place of a declaration -/

theorem Trimmed.map_core {r s : List Token} (h : Trimmed r s) :
    s.map Token.core = r.map Token.core := by
  rcases h with rfl | ⟨t, r', rfl, rfl⟩
  · rfl
  · rfl

theorem afterTerminator?_leaves {c d : Place} (h : afterTerminator? c = some d) : c.Leaves d := by
  cases terminated_of_afterTerminator? h with
  | lineEnd _ => exact Place.leaves_afterBreak _ _
  | @semicolon t r ht _ => exact ⟨[t], r, ht, Or.inl rfl⟩

section Order

variable {cut : Nat → Prop} {word : Kind → Nat → Nat → Prop}

theorem InOrder.append_stop_le {lastBreak : Option Nat} {o : Nat} {us vs : List Token} {v : Token}
    (h : InOrder cut word lastBreak o (us ++ v :: vs)) : ∀ t ∈ us, t.start < v.start := by
  induction us generalizing o with
  | nil => exact List.forall_mem_nil _
  | cons u us ih =>
    obtain ⟨-, -, hlt, -, -, -, hrest⟩ := h
    refine List.forall_mem_cons.mpr ⟨?_, ih hrest⟩
    have := hrest.front_le v (by simp)
    omega

/-- The place at which an item is read, and what ends it. -/
theorem Read.itemAt {c : Place} {ns : List Node} (h : Read c ns)
    (hns : ∀ t ∈ ns, Grammar.IsOpened t.label) (hc : c.Orderly cut word) {n : Node} (hn : n ∈ ns) :
    ∃ (c' d : Place) (w : Token) (ts r : List Token), item? c' = some (n, d) ∧ c.Leaves c' ∧
      c'.Orderly cut word ∧ c'.tokens = w :: (ts ++ r) ∧ Trimmed r d.tokens ∧
      ∀ shift b, (⟨shift, r, b⟩ : Frame).Stops := by
  induction h with
  | done _ => cases hn
  | @item c c' c'' t ns hi ht hrest ih =>
    have hns' : ∀ t ∈ ns, Grammar.IsOpened t.label := fun t ht => hns t (List.mem_cons_of_mem _ ht)
    rcases List.mem_cons.mp hn with rfl | hn
    · obtain ⟨w, ts, r, hw, hr⟩ := item?_tokens hi
      exact ⟨c, c', w, ts, r, hi, .refl c, hc, hw, hr, fun _ b => stops_of_terminated (b := b) hr ht hrest hns'⟩
    · have hm := (matches_of_item? hi).forward hc
      have hterm := (terminated_of_afterTerminator? ht).forward hm.orderly
      obtain ⟨e, d, w, ts, r, he, hleaves, rest⟩ := ih hns' hterm.orderly hn
      refine ⟨e, d, w, ts, r, he, ?_, rest⟩
      exact ((matches_of_item? hi).leaves.trans (afterTerminator?_leaves ht)).trans hleaves
  | @last c c' t hi _ hnil _ =>
    rw [List.mem_singleton] at hn
    subst hn
    obtain ⟨w, ts, r, hw, hr⟩ := item?_tokens hi
    refine ⟨c, c', w, ts, r, hi, .refl c, hc, hw, hr, fun _ _ t r' hr' => ?_⟩
    have hlen := hr.length_eq
    rw [hnil, show r = t :: r' from hr'] at hlen
    cases hlen

end Order

/-! ## Stretches that are a declaration -/

section Nesting

variable {L : Type} {cut : Nat → Prop}

theorem Tree.NestedIn.tight {lo hi : Nat} {t : Tree L} (h : t.NestedIn cut lo hi) :
    t.NestedIn cut t.start t.stop := by
  obtain ⟨l, s, e, cs⟩ := t
  obtain ⟨-, h2, -, h4⟩ := h
  exact ⟨Nat.le_refl s, h2, Nat.le_refl e, h4⟩

mutual
/-- Nodes are nested as they are further on. -/
theorem Tree.nestedIn_of_moved {n lo hi : Nat} :
    ∀ {t : Tree L}, (t.moved n).NestedIn cut (lo + n) (hi + n) → t.NestedIn (fun _ => True) lo hi
  | .node .., h => by
    obtain ⟨h1, h2, h3, -, -, h4⟩ := h
    exact ⟨by omega, by omega, by omega, trivial, trivial, nested_of_moved h4⟩
theorem nested_of_moved {n lo hi : Nat} :
    ∀ {ts : List (Tree L)}, Nested cut (lo + n) (hi + n) (movedAll n ts) →
      Nested (fun _ => True) lo hi ts
  | [], h => Nat.le_of_add_le_add_right h
  | t :: ts, h => by
    obtain ⟨h1, h2⟩ := h
    rw [Tree.stop_moved] at h2
    exact ⟨Tree.nestedIn_of_moved h1, nested_of_moved h2⟩
end

end Nesting

/-- Stretches that are read as a declaration at any offset, whatever is around it. -/
structure Declares (ls : List Lexeme) (u : Node) : Prop where
  opened : Grammar.IsOpened u.label
  isSound : ∀ l ∈ ls, l.cls.isSound
  head : ∃ l r k, ls = l :: r ∧ l.cls = .token k ∧ k.isOpening
  start : u.start = 0
  stop : u.stop = byteWidth (texts ls)
  nested : u.NestedIn (fun _ => True) 0 (byteWidth (texts ls))
  read : ∀ F : Frame, F.Stops → ∀ o b,
    item? ⟨o, (place F.shift b ls).tokens ++ F.rest, F.lastBreak⟩ =
      some (u.moved F.shift, ⟨u.stop + F.shift, F.rest, F.lastBreak⟩)

/-- The stretches between two boundaries, the first before a token. -/
theorem exists_stretches {s : List Char} {k : Kind} {m e n : Nat} (hw : IsWord s k m e)
    (hn : IsBoundary s n) (hlt : m < n) : ∃ a l r b, stretches s = a ++ ((l :: r) ++ b) ∧
      l.cls = .token k ∧ m = byteWidth (orderMark s ++ texts a) ∧
      n = m + byteWidth (texts (l :: r)) := by
  obtain ⟨l, hl, hk, -⟩ := hw
  obtain ⟨a, rest, ha, rfl, -⟩ := mem_layout hl
  rcases hn with rfl | ⟨p, b, hp, rfl⟩
  · cases hlt
  rw [ha] at hp
  rcases append_eq_append_cons hp.symm with ⟨r, rfl, rfl⟩ | ⟨q, rfl, -⟩
  · exact ⟨a, l, r, b, ha, hk, rfl, by rw [texts_append, ← List.append_assoc, byteWidth_append]⟩
  · rw [texts_append, ← List.append_assoc, byteWidth_append] at hlt
    omega

theorem place_cons_token {pos : Nat} {b : Option Nat} {l : Lexeme} {ls : List Lexeme} {k : Kind}
    (hk : l.cls = .token k) : (place pos b (l :: ls)).tokens =
      ⟨k, pos, pos + byteWidth l.text, b⟩ :: (place (pos + byteWidth l.text) none ls).tokens := by
  rw [place]
  simp only [hk]

theorem place_append_tokens (pos : Nat) (brk : Option Nat) (a b : List Lexeme) :
    (place pos brk (a ++ b)).tokens = (place pos brk a).tokens ++
      (place (pos + byteWidth (texts a)) (place pos brk a).lastBreak b).tokens := by
  rw [place_append]

/-- The tokens of an item are those of the stretches between its ends. -/
theorem item_tokens {s : List Char} {c d : Place} {n : Node} {w : Token} {ts r : List Token}
    (hi : item? c = some (n, d)) (hc : c.Orderly (IsBoundary s) (IsWord s))
    (hleaves : (startOf s).Leaves c) (htok : c.tokens = w :: (ts ++ r)) (hr : Trimmed r d.tokens)
    {a b ls : List Lexeme} {l : Lexeme} {k : Kind} (hsplit : stretches s = a ++ ((l :: ls) ++ b))
    (hk : l.cls = .token k) (hstart : n.start = byteWidth (orderMark s ++ texts a))
    (hstop : n.stop = n.start + byteWidth (texts (l :: ls))) :
    w :: ts = (place n.start w.lineBreak (l :: ls)).tokens := by
  obtain ⟨us, r', hus, htrim⟩ := hleaves
  have hm := matches_of_item? hi
  obtain ⟨hnstart, hnstop, -⟩ := item_range hm
  obtain ⟨b', rfl⟩ : ∃ b', r' = { w with lineBreak := b' } :: (ts ++ r) := by
    rcases htrim with htrim | ⟨v, r₁, rfl, htrim⟩
    · exact ⟨w.lineBreak, by rw [← htrim, htok]⟩
    · rw [htok, List.cons.injEq] at htrim
      exact ⟨v.lineBreak, by rw [htrim.1, htrim.2]⟩
  have hfront : n.start = w.start := by
    rw [hnstart]
    unfold Place.front
    rw [htok]
  have htexts : ∀ x ∈ stretches s, x.text ≠ [] := fun x hx => text_ne_nil hx
  have hpos : ∀ t ∈ (startOf s).tokens, t.start < t.stop := by
    intro t ht
    rw [startOf, scan_eq] at ht
    exact (range_of_mem_place ht htexts).2.1
  rw [hsplit, List.forall_mem_append, List.forall_mem_append] at htexts
  obtain ⟨hta, htl, htb⟩ := htexts
  have htls := (List.forall_mem_cons.mp htl).2
  have hscan : us ++ { w with lineBreak := b' } :: (ts ++ r) =
      (place (byteWidth (orderMark s)) none a).tokens ++
        (place n.start (place (byteWidth (orderMark s)) none a).lastBreak ((l :: ls) ++ b)).tokens := by
    rw [← hus, startOf, scan_eq, show lexemes _ = _ from hsplit, place_append_tokens,
      ← byteWidth_append, ← hstart]
  have horder := (startOf_orderly s).2
  rw [hus] at horder hpos
  have hbehind : ∀ t ∈ { w with lineBreak := b' } :: (ts ++ r), n.start ≤ t.start := by
    refine List.forall_mem_cons.mpr ⟨Nat.le_of_eq hfront, fun t ht => ?_⟩
    rw [hnstart]
    exact hc.front_le t.core (List.mem_map_of_mem (by rw [htok]; exact List.mem_cons_of_mem w ht))
  -- the tokens before the item are those before its start
  obtain ⟨-, hitem⟩ := append_split (p := fun t : Token => t.start < n.start) hscan
    (fun t ht => hfront ▸ horder.append_stop_le t ht)
    (fun t ht => Nat.not_lt.mpr (hbehind t ht))
    (fun t ht => by
      obtain ⟨-, h2, h3⟩ := range_of_mem_place ht hta
      rw [hstart, byteWidth_append]
      omega)
    (fun t ht => by
      obtain ⟨h1, -, -⟩ := range_of_mem_place ht (List.forall_mem_append.mpr ⟨htl, htb⟩)
      omega)
  rw [place_append_tokens, ← hstop, place_cons_token hk, List.cons_append, List.cons.injEq] at hitem
  obtain ⟨hword, hitem⟩ := hitem
  rw [Token.mk.injEq] at hword
  rw [place_cons_token hk, List.cons.injEq]
  refine ⟨by rw [← hword.1, ← hword.2.2.1, ← hword.2.1], ?_⟩
  -- those of the item are the ones before its end
  have hf := hm.forward hc
  obtain ⟨vs, hvs, hin⟩ := hf.used
  rw [htok, hr.map_core, ← List.cons_append, List.map_append] at hvs
  obtain rfl := List.append_cancel_right hvs
  have hfront' := hf.orderly.front_le
  have hoffset := hf.orderly.le_front
  rw [hr.map_core] at hfront'
  refine (append_split (p := fun t : Token => t.start < n.stop) hitem ?_ ?_ ?_ ?_).1
  · intro t ht
    have h1 : t.stop ≤ d.offset := (hin t.core (List.mem_map_of_mem (List.mem_cons_of_mem w ht))).2
    have h2 := hpos t (by simp [ht])
    omega
  · intro t ht
    have h1 : d.front ≤ t.start := hfront' t.core (List.mem_map_of_mem ht)
    dsimp only at hoffset
    omega
  · intro t ht
    obtain ⟨-, h2, h3⟩ := range_of_mem_place ht htls
    rw [texts_cons, byteWidth_append] at hstop
    omega
  · intro t ht
    obtain ⟨h1, -, -⟩ := range_of_mem_place ht htb
    omega

/-- Stretches that begin with a token, put in a frame. -/
theorem opened_place (F : Frame) (o : Nat) (b : Option Nat) {l : Lexeme} {k : Kind}
    (hk : l.cls = .token k) (ls : List Lexeme) :
    F.opened o b ⟨k, 0, byteWidth l.text, none⟩ (place (byteWidth l.text) none ls).tokens =
      ⟨o, (place F.shift b (l :: ls)).tokens ++ F.rest, F.lastBreak⟩ := by
  have hmoved := congrArg Scanned.tokens (place_moved F.shift (byteWidth l.text) none ls)
  rw [Option.map_none, Nat.add_comm] at hmoved
  rw [place_cons_token hk, hmoved]
  simp [Frame.opened, Token.moved, Nat.add_comm]

/-- An item of a text is some of its stretches, and these are that item everywhere. -/
theorem item_declares {s : List Char} {c d : Place} {n : Node} {w : Token} {ts r : List Token}
    (hi : item? c = some (n, d)) (hopen : Grammar.IsOpened n.label)
    (hsound : ∀ l ∈ stretches s, l.cls.isSound) (hc : c.Orderly (IsBoundary s) (IsWord s))
    (hleaves : (startOf s).Leaves c) (htok : c.tokens = w :: (ts ++ r)) (hr : Trimmed r d.tokens)
    (hstops : ∀ shift b, (⟨shift, r, b⟩ : Frame).Stops) :
    ∃ a ls b u, stretches s = a ++ (ls ++ b) ∧ n = Tree.moved (byteWidth (orderMark s ++ texts a)) u ∧
      Declares ls u ∧ w :: ts = (place n.start w.lineBreak ls).tokens ∧ d = ⟨n.stop, r, c.lastBreak⟩ := by
  have hm := matches_of_item? hi
  have hlt := (item_range hm).2.2
  obtain ⟨k, e, hw⟩ := item_start hc hm
  have hnested := (hm.nested hc).1
  obtain ⟨a, l, ls, b, hsplit, hk, hpos, hwidth⟩ := exists_stretches hw hnested.range.2.2.2.2.1 hlt
  have htokens := item_tokens hi hc hleaves htok hr hsplit hk hpos hwidth
  -- the item in the frame of its file
  have hopened : (⟨n.start, r, c.lastBreak⟩ : Frame).opened c.offset w.lineBreak
      ⟨k, 0, byteWidth l.text, none⟩ (place (byteWidth l.text) none ls).tokens = c := by
    rw [opened_place _ _ _ hk]
    dsimp only
    rw [← htokens, List.cons_append, ← htok]
  have hopening := isOpening_of_item? hi hopen htok
  rw [← hopened] at hi
  obtain ⟨u, stop, hu, hd, hall⟩ := item?_framed (hstops _ _) hi hr.length_eq hopen
  dsimp only at hu
  have hmoved := hnested.tight
  rw [hu, Tree.start_moved, Tree.stop_moved] at hmoved
  have hstart : u.start = 0 := by
    have := congrArg Tree.start hu
    rw [Tree.start_moved] at this
    omega
  have hstop : u.stop = byteWidth (texts (l :: ls)) := by
    have := congrArg Tree.stop hu
    rw [Tree.stop_moved] at this
    omega
  have hoffset : n.stop = stop + n.start := by
    have h1 : d.offset = stop + n.start := congrArg Place.offset hd
    have h2 : n.stop = d.offset := (item_range hm).2.1
    omega
  have hend : stop = u.stop := by omega
  rw [hsplit] at hsound
  refine ⟨a, l :: ls, b, u, hsplit, by rw [← hpos]; exact hu, ?_, htokens, by rw [hoffset]; exact hd⟩
  refine ⟨?_, fun x hx => hsound x ?_, ⟨l, ls, k, rfl, hk, ?_⟩, hstart, hstop, ?_, ?_⟩
  · rw [hu, Tree.label_moved] at hopen
    exact hopen
  · rw [List.mem_append, List.mem_append]
    exact Or.inr (Or.inl hx)
  · rw [place_cons_token hk, List.cons.injEq] at htokens
    rw [htokens.1] at hopening
    exact hopening
  · rw [← hstop, ← hstart]
    exact Tree.nestedIn_of_moved hmoved
  · intro F hF o b
    rw [← opened_place _ _ _ hk, hall F hF o b, hend]
    rfl

/-- The text of a declaration of a file is read as that declaration everywhere. -/
theorem Read.declares {s : List Char} {ns : List Node} (h : Read (startOf s) ns)
    (hns : ∀ t ∈ ns, Grammar.IsOpened t.label) {n : Node} (hn : n ∈ ns) :
    ∃ a ls b u, stretches s = a ++ (ls ++ b) ∧
      n = Tree.moved (byteWidth (orderMark s ++ texts a)) u ∧ Declares ls u := by
  obtain ⟨c, d, w, ts, r, hi, hleaves, hc, htok, hr, hstops⟩ := h.itemAt hns (startOf_orderly s) hn
  obtain ⟨a, ls, b, u, hsplit, hu, hdeclares, -⟩ :=
    item_declares hi (hns n hn) (isSound_of_mem_stretches h hns) hc hleaves htok hr hstops
  exact ⟨a, ls, b, u, hsplit, hu, hdeclares⟩

end GoSplice.Syntax
