import GoSplice.Proofs.Frames

/-!
# Reading files with more at their end

The items of a file do not change when more declarations are put behind its last
line end:

    Read c ns → itemsWithin n c = ⟨ns, none⟩, if n is enough          (itemsWithin_of_read)
    Read c ns → Read (a declaration d) ms → Read (c, then d) (ns ++ ms)   (Read.append)
-/

namespace GoSplice.Syntax

/-! ## What a match leaves -/

section Trimmed

variable {R L : Type} {g : R → Pattern R L}

/-- The same tokens, or the same but for the line end before the first. -/
def Trimmed (r s : List Token) : Prop :=
  s = r ∨ ∃ t r', r = t :: r' ∧ s = { t with lineBreak := none } :: r'

theorem Trimmed.length_eq {r s : List Token} (h : Trimmed r s) : s.length = r.length := by
  rcases h with rfl | ⟨t, r', rfl, rfl⟩
  · rfl
  · rfl

/-- Whether a place has the last tokens of another, trimmed. -/
def Place.Leaves (c d : Place) : Prop := ∃ us r, c.tokens = us ++ r ∧ Trimmed r d.tokens

theorem Place.Leaves.refl (c : Place) : c.Leaves c := ⟨[], c.tokens, rfl, Or.inl rfl⟩

theorem Place.Leaves.trans {c d e : Place} (h : c.Leaves d) (h' : d.Leaves e) : c.Leaves e := by
  obtain ⟨us, r, hc, hd⟩ := h
  obtain ⟨us', r', hd', he⟩ := h'
  rcases hd with hd | ⟨t, r₁, rfl, hd⟩
  · exact ⟨us ++ us', r', by rw [hc, ← hd, hd', List.append_assoc], he⟩
  · rw [hd] at hd'
    cases us' with
    | nil =>
      rw [List.nil_append] at hd'
      refine ⟨us, t :: r₁, hc, Or.inr ⟨t, r₁, rfl, ?_⟩⟩
      rcases he with he | ⟨t', r₂, hr', he⟩
      · rw [he, ← hd']
      · rw [← hd', List.cons.injEq] at hr'
        rw [he, ← hr'.1, ← hr'.2]
    | cons u us' =>
      rw [List.cons_append, List.cons.injEq] at hd'
      exact ⟨us ++ t :: us', r', by rw [hc, hd'.2]; simp, he⟩

theorem Place.leaves_afterBreak (c : Place) (b : Nat) : c.Leaves (c.afterBreak b) := by
  obtain ⟨offset, tokens, lastBreak⟩ := c
  cases tokens with
  | nil => exact ⟨[], [], rfl, Or.inl rfl⟩
  | cons t r => exact ⟨[], t :: r, rfl, Or.inr ⟨t, r, rfl, rfl⟩⟩

theorem Matches.leaves {p : Pattern R L} {c : Place} {f : Found L} (h : Matches g p c f) :
    c.Leaves f.place := by
  induction h with
  | empty | sameLine _ | starNil | ahead _ _ | absent => exact .refl _
  | @token _ c t r ht _ => exact ⟨[t], r, ht, Or.inl rfl⟩
  | lineEnd _ => exact Place.leaves_afterBreak _ _
  | seq _ _ ih1 ih2 | starCons _ _ ih1 ih2 => exact ih1.trans ih2
  | altFirst _ ih | altSecond _ ih | rule _ ih | node _ _ _ ih | hidden _ ih => exact ih

end Trimmed

/-! ## Items and their number of tokens -/

theorem item?_length_lt {c d : Place} {t : Node} (h : item? c = some (t, d)) :
    d.tokens.length < c.tokens.length := by
  have hskips : Grammar.item.skips Grammar.isLoose = false := by decide +kernel
  exact Grammar.paced.length_lt (matches_of_item? h) hskips

theorem afterTerminator?_length_le {c d : Place} (h : afterTerminator? c = some d) :
    d.tokens.length ≤ c.tokens.length := by
  cases terminated_of_afterTerminator? h with
  | lineEnd _ => exact Nat.le_of_eq (Place.afterBreak_length _ _)
  | semicolon ht _ =>
    rw [ht, List.length_cons]
    exact Nat.le_succ _

theorem itemsWithin_of_read {c : Place} {ns : List Node} (h : Read c ns) {fuel : Nat}
    (hfuel : c.tokens.length < fuel) : itemsWithin fuel c = ⟨ns, none⟩ := by
  have hne : ∀ {c d : Place} {t : Node}, item? c = some (t, d) → ¬ c.tokens.isEmpty := by
    intro c d t hi he
    have hlt := item?_length_lt hi
    rw [List.isEmpty_iff.mp he] at hlt
    exact absurd hlt (Nat.not_lt_zero _)
  induction h generalizing fuel with
  | done hc =>
    obtain ⟨fuel, rfl⟩ : ∃ n, fuel = n + 1 := ⟨fuel - 1, by omega⟩
    rw [itemsWithin, if_pos (List.isEmpty_iff.mpr hc)]
  | @item c c' c'' t ns hi ha _ ih =>
    obtain ⟨fuel, rfl⟩ : ∃ n, fuel = n + 1 := ⟨fuel - 1, by omega⟩
    have hlt := item?_length_lt hi
    have hle := afterTerminator?_length_le ha
    have hrest : itemsWithin fuel c'' = ⟨ns, none⟩ := ih (by omega)
    simp only [itemsWithin, if_neg (hne hi), hi, ha, hrest]
  | last hi ha hnil hend =>
    obtain ⟨fuel, rfl⟩ : ∃ n, fuel = n + 1 := ⟨fuel - 1, by omega⟩
    simp only [itemsWithin, if_neg (hne hi), hi, ha, hnil, List.isEmpty_nil, if_true, if_pos hend]

theorem itemsOf_of_read {ts : List Token} {b : Option Nat} {ns : List Node}
    (h : Read ⟨0, ts, b⟩ ns) : itemsOf ts b = ⟨ns, none⟩ :=
  itemsWithin_of_read h (Nat.lt_succ_self _)

/-! ## Declarations behind others -/

theorem Token.moved_zero (t : Token) : t.moved 0 = t := by
  obtain ⟨k, s, e, b⟩ := t
  cases b <;> rfl

/-- An item takes a token and some behind it, and leaves the rest. -/
theorem item?_tokens {c d : Place} {t : Node} (h : item? c = some (t, d)) :
    ∃ word ts r, c.tokens = word :: (ts ++ r) ∧ Trimmed r d.tokens := by
  obtain ⟨us, r, hc, hd⟩ := (matches_of_item? h).leaves
  have hlt := item?_length_lt h
  rw [hd.length_eq, hc, List.length_append] at hlt
  cases us with
  | nil => simp at hlt
  | cons word ts => exact ⟨word, ts, r, hc, hd⟩

theorem isOpening_of_item? {c d : Place} {t : Node} (h : item? c = some (t, d))
    (hl : Grammar.IsOpened t.label) {u : Token} {r : List Token} (hc : c.tokens = u :: r) :
    u.kind.isOpening := by
  obtain ⟨word, ts, r', hw, hd⟩ := item?_tokens h
  obtain ⟨o, ho, hm⟩ := Grammar.exists_opening (matches_of_item? h) hl
  have hkinds : c.tokens.map Token.kind = word.kind :: (ts.map Token.kind ++ r'.map Token.kind) := by
    rw [hw]
    simp
  obtain ⟨hk, -⟩ := Grammar.reaches_of_matches ho hm hkinds hd.length_eq
  rw [hw, List.cons.injEq] at hc
  have hall : ∀ o ∈ Grammar.openings, (Kind.keyword o.word).isOpening := by decide
  rw [← hc.1, hk]
  exact hall o ho

theorem Read.isOpening {c : Place} {ns : List Node} (h : Read c ns)
    (hns : ∀ t ∈ ns, Grammar.IsOpened t.label) {u : Token} {r : List Token}
    (hc : c.tokens = u :: r) : u.kind.isOpening := by
  cases h with
  | done hnil => rw [hnil] at hc; cases hc
  | item hi _ _ | last hi _ _ _ => exact isOpening_of_item? hi (hns _ List.mem_cons_self) hc

/-- A declaration ends its file, or what stands behind its terminator is another. -/
theorem stops_of_terminated {c d : Place} {r : List Token} {ns : List Node} {b : Option Nat}
    (hr : Trimmed r c.tokens) (hd : afterTerminator? c = some d) (hread : Read d ns)
    (hns : ∀ t ∈ ns, Grammar.IsOpened t.label) : (⟨0, r, b⟩ : Frame).Stops := by
  intro u r' hu
  dsimp only at hu
  subst hu
  cases terminated_of_afterTerminator? hd with
  | @lineEnd x hx =>
    right
    rcases hr with hr | ⟨t, r', ht, hr⟩
    · have hbreak : u.lineBreak = some x := by simpa [Place.lineBreak, hr] using hx
      refine ⟨?_, by rw [hbreak]; exact Option.some_ne_none x⟩
      have htokens : (c.afterBreak x).tokens = { u with lineBreak := none } :: r' := by
        simp [Place.afterBreak, hr]
      have hopening := hread.isOpening hns htokens
      exact hopening
    · simp [Place.lineBreak, hr] at hx
  | semicolon ht hk =>
    left
    rcases hr with hr | ⟨t, r', hu, hr⟩
    · rw [hr, List.cons.injEq] at ht
      rw [ht.1, hk]
    · rw [List.cons.injEq] at hu
      rw [hr, List.cons.injEq] at ht
      rw [hu.1]
      rw [← ht.1] at hk
      exact hk

/-- A declaration is read as it is before other tokens that end it. -/
theorem item?_reframed {c c' : Place} {t : Node} {word : Token} {ts r : List Token} (hi : item? c = some (t, c'))
    (hl : Grammar.IsOpened t.label) (hc : c.tokens = word :: (ts ++ r)) (hr : Trimmed r c'.tokens)
    (hF : (⟨0, r, c.lastBreak⟩ : Frame).Stops) :
    c'.tokens = r ∧ c'.lastBreak = c.lastBreak ∧ ∀ r' b, (⟨0, r', b⟩ : Frame).Stops →
      item? ⟨c.offset, word :: (ts ++ r'), b⟩ = some (t, ⟨c'.offset, r', b⟩) := by
  have hplace : ∀ (r : List Token) (b : Option Nat),
      (⟨0, r, b⟩ : Frame).opened c.offset word.lineBreak word ts = ⟨c.offset, word :: (ts ++ r), b⟩ := by
    intro r b
    have hmap : ts.map (Token.moved 0) = ts := by
      rw [List.map_congr_left (fun t _ => Token.moved_zero t), List.map_id']
    simp only [Frame.opened, Token.moved_zero, hmap]
  have hopened : item? ((⟨0, r, c.lastBreak⟩ : Frame).opened c.offset word.lineBreak word ts) =
      some (t, c') := by
    rw [hplace, ← hc]
    exact hi
  obtain ⟨u, stop, rfl, rfl, hnew⟩ := item?_framed hF hopened hr.length_eq hl
  refine ⟨rfl, rfl, fun r' b hG => ?_⟩
  rw [← hplace]
  exact hnew _ hG c.offset word.lineBreak

/-- A declaration is read as it is before a semicolon, or one that begins in a new line. -/
theorem item?_append {c c' : Place} {t : Node} {word d : Token} {ts r ds : List Token} {b : Option Nat}
    (hd : d.kind = .operator .semicolon ∨ (d.kind.isOpening ∧ d.lineBreak ≠ none))
    (hi : item? c = some (t, c'))
    (hl : Grammar.IsOpened t.label) (hc : c.tokens = word :: (ts ++ r)) (hr : Trimmed r c'.tokens)
    (hF : (⟨0, r, c.lastBreak⟩ : Frame).Stops) :
    c'.tokens = r ∧ c'.lastBreak = c.lastBreak ∧
      item? ⟨c.offset, c.tokens ++ d :: ds, b⟩ = some (t, ⟨c'.offset, r ++ d :: ds, b⟩) := by
  have hG : (⟨0, r ++ d :: ds, b⟩ : Frame).Stops := by
    intro u r' hu
    dsimp only at hu
    cases r with
    | nil =>
      rw [List.nil_append, List.cons.injEq] at hu
      exact hu.1 ▸ hd
    | cons v r =>
      rw [List.cons_append, List.cons.injEq] at hu
      exact hu.1 ▸ hF v r rfl
  obtain ⟨htokens, hlast, hnew⟩ := item?_reframed hi hl hc hr hF
  refine ⟨htokens, hlast, ?_⟩
  rw [hc, List.cons_append, List.append_assoc]
  exact hnew _ _ hG

/-- The last declaration before a line end has a terminator. -/
theorem afterTerminator?_ne_none {c c' : Place} {t : Node} (hi : item? c = some (t, c'))
    (hl : Grammar.IsOpened t.label) (hnil : c'.tokens = []) (hlast : c.tokens = [] ∨ c.lastBreak ≠ none) :
    afterTerminator? c' ≠ none := by
  obtain ⟨word, ts, r, hc, hr⟩ := item?_tokens hi
  have hlast : c.lastBreak ≠ none := by
    refine hlast.resolve_left ?_
    rw [hc]
    exact List.cons_ne_nil _ _
  have hrnil : r = [] := by
    rw [← List.length_eq_zero_iff, ← hr.length_eq, hnil]
    rfl
  subst hrnil
  obtain ⟨-, hlast', -⟩ := @item?_append c c' t word ⟨.operator .semicolon, 0, 0, none⟩ ts [] [] none
    (Or.inl rfl) hi hl hc hr (by rintro _ _ ⟨⟩)
  obtain ⟨x, hx⟩ := Option.ne_none_iff_exists'.mp hlast
  simp [afterTerminator?, Place.lineBreak, hnil, hlast', hx]

/-- A terminator before further tokens is that before the tokens alone. -/
theorem afterTerminator?_append {c c' : Place} {u : Token} {r : List Token} (hc : c.tokens = u :: r)
    (h : afterTerminator? c = some c') (ds : List Token) (b : Option Nat) :
    afterTerminator? ⟨c.offset, c.tokens ++ ds, b⟩ = some ⟨c'.offset, c'.tokens ++ ds, b⟩ ∧
      c'.lastBreak = c.lastBreak := by
  obtain ⟨offset, tokens, lastBreak⟩ := c
  dsimp only at hc
  subst hc
  unfold afterTerminator? at h ⊢
  cases hb : u.lineBreak with
  | some x =>
    simp only [Place.lineBreak, List.cons_append, hb, Option.some.injEq] at h ⊢
    subst h
    exact ⟨rfl, rfl⟩
  | none =>
    simp only [Place.lineBreak, List.cons_append, hb] at h ⊢
    split at h
    · next hk =>
      cases h
      rw [if_pos hk]
      exact ⟨rfl, rfl⟩
    · cases h

/-- An item before others that are declarations is read before further tokens as it is. -/
theorem Read.item_before {c c' c'' : Place} {t : Node} {ns : List Node} (hi : item? c = some (t, c'))
    (ha : afterTerminator? c' = some c'') (hrest : Read c'' ns) (hns : ∀ u ∈ t :: ns, Grammar.IsOpened u.label)
    (hlast : c.tokens = [] ∨ c.lastBreak ≠ none) {d : Token}
    (hd : d.kind = .operator .semicolon ∨ (d.kind.isOpening ∧ d.lineBreak ≠ none)) (ds : List Token)
    (b : Option Nat) : c'.lastBreak ≠ none ∧
      item? ⟨c.offset, c.tokens ++ d :: ds, b⟩ = some (t, ⟨c'.offset, c'.tokens ++ d :: ds, b⟩) := by
  obtain ⟨hl, hns⟩ := List.forall_mem_cons.mp hns
  obtain ⟨word, ts, r, hc, hr⟩ := item?_tokens hi
  have hlast : c.lastBreak ≠ none := by
    refine hlast.resolve_left ?_
    rw [hc]
    exact List.cons_ne_nil _ _
  have hF : (⟨0, r, c.lastBreak⟩ : Frame).Stops := stops_of_terminated hr ha hrest hns
  obtain ⟨hc', hlast', hnew⟩ := @item?_append c c' t word d ts r ds b hd hi hl hc hr hF
  rw [hlast', hc']
  exact ⟨hlast, hnew⟩

/-- Declarations behind the last line end of a file are read behind those of the file. -/
theorem Read.append {c : Place} {ns : List Node} (h : Read c ns)
    (hns : ∀ t ∈ ns, Grammar.IsOpened t.label) (hlast : c.tokens = [] ∨ c.lastBreak ≠ none)
    {d : Token} {ds : List Token} {b : Option Nat} {ms : List Node} (hd : d.kind.isOpening)
    (hbreak : d.lineBreak ≠ none)
    (hread : ∀ o x, Read ⟨o, { d with lineBreak := x } :: ds, b⟩ ms) :
    Read ⟨c.offset, c.tokens ++ d :: ds, b⟩ (ns ++ ms) := by
  induction h with
  | @done c hc =>
    rw [hc]
    exact hread c.offset d.lineBreak
  | @item c c' c'' t ns hi ha hrest ih =>
    obtain ⟨hlast, hnew⟩ := Read.item_before hi ha hrest hns hlast (Or.inr ⟨hd, hbreak⟩) ds b
    have hns' : ∀ t ∈ ns, Grammar.IsOpened t.label := fun t ht => hns t (List.mem_cons_of_mem _ ht)
    obtain ⟨offset, tokens, lastBreak⟩ := c'
    cases tokens with
    | nil =>
      obtain ⟨x, hx⟩ := Option.ne_none_iff_exists'.mp hlast
      obtain ⟨y, hy⟩ := Option.ne_none_iff_exists'.mp hbreak
      dsimp only at hx
      have hdone : ns = [] := by
        simp only [afterTerminator?, Place.lineBreak, hx, Option.some.injEq] at ha
        subst ha
        cases hrest with
        | done _ => rfl
        | item hi _ _ | last hi _ _ _ => exact absurd (item?_length_lt hi) (Nat.not_lt_zero _)
      subst hdone
      refine Read.item hnew ?_ (hread y none)
      simp only [afterTerminator?, Place.lineBreak, List.nil_append, hy]
      rfl
    | cons u r =>
      obtain ⟨hnext, hkept⟩ := afterTerminator?_append rfl ha (d :: ds) b
      exact .item hnew hnext (ih hns' (Or.inr (hkept ▸ hlast)))
  | @last c c' t hi ha hnil hend =>
    exact absurd ha (afterTerminator?_ne_none hi (hns t List.mem_cons_self) hnil hlast)

/-- No declarations are read where a semicolon begins a line behind others. -/
theorem Read.not_semicolon {c : Place} {ns : List Node} (h : Read c ns)
    (hns : ∀ t ∈ ns, Grammar.IsOpened t.label) (hlast : c.tokens = [] ∨ c.lastBreak ≠ none)
    {d : Token} {ds : List Token} {b : Option Nat} {ms : List Node} (hd : d.kind = .operator .semicolon)
    (hbreak : d.lineBreak ≠ none) (hread : Read ⟨c.offset, c.tokens ++ d :: ds, b⟩ ms)
    (hms : ∀ t ∈ ms, Grammar.IsOpened t.label) : False := by
  have hfirst : ∀ {o : Nat} {x : Option Nat} {us : List Node},
      Read ⟨o, { d with lineBreak := x } :: ds, b⟩ us → (∀ t ∈ us, Grammar.IsOpened t.label) → False := by
    intro o x us hread hus
    have hopening := @Read.isOpening _ _ hread hus { d with lineBreak := x } ds rfl
    change d.kind.isOpening = true at hopening
    rw [hd] at hopening
    exact absurd hopening (by decide)
  induction h generalizing ms with
  | done hc =>
    rw [hc] at hread
    exact @hfirst _ d.lineBreak _ hread hms
  | @item c c' c'' t ns hi ha hrest ih =>
    obtain ⟨hlast, hnew⟩ := Read.item_before hi ha hrest hns hlast (Or.inl hd) ds b
    have hns' : ∀ t ∈ ns, Grammar.IsOpened t.label := fun t ht => hns t (List.mem_cons_of_mem _ ht)
    -- the items before the semicolon are those that were read without it
    cases hread with
    | done hnil => exact absurd hnil (by simp)
    | last hi' _ hnil' _ =>
      rw [hnew] at hi'
      cases hi'
      exact absurd hnil' (by simp)
    | item hi' ha' hrest' =>
      rw [hnew] at hi'
      cases hi'
      have hms' := fun t ht => hms t (List.mem_cons_of_mem _ ht)
      obtain ⟨offset, tokens, lastBreak⟩ := c'
      cases tokens with
      | nil =>
        obtain ⟨y, hy⟩ := Option.ne_none_iff_exists'.mp hbreak
        simp only [afterTerminator?, Place.lineBreak, List.nil_append, hy, Option.some.injEq] at ha'
        subst ha'
        exact hfirst hrest' hms'
      | cons u r =>
        obtain ⟨hnext, hkept⟩ := afterTerminator?_append rfl ha (d :: ds) b
        rw [hnext] at ha'
        cases ha'
        exact ih hns' (Or.inr (hkept ▸ hlast)) hrest' hms'
  | @last c c' t hi ha hnil hend =>
    exact absurd ha (afterTerminator?_ne_none hi (hns t List.mem_cons_self) hnil hlast)

end GoSplice.Syntax
