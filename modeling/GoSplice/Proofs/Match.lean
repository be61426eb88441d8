import GoSplice.Proofs.Scan
import GoSplice.Syntax.Pattern

/-!
# What a match covers

A match goes forward through the tokens, and its nodes lie in it, in order and
one inside the other.  `Matches` is the relation behind `find?`, without fuel:

    find? g n p c = some f → Matches g p c f             (matches_of_find?)
    Orderly c → Matches g p c f → c.Forward f.place      (Matches.forward)
    Orderly c → Matches g p c f →
      Nested c.offset f.place.offset f.trees             (Matches.nested)

Offsets are known by two properties: `cut` holds where a line end or a token
ends or begins, and `word k s e` where a token of kind `k` lies from `s` to `e`.
-/

namespace GoSplice.Syntax

variable {R L : Type}

/-! ## The relation -/

/-- A match of a pattern at a place. -/
inductive Matches (g : R → Pattern R L) : Pattern R L → Place → Found L → Prop
  | empty {c : Place} : Matches g .empty c ⟨[], c⟩
  | token {kinds : List Kind} {c : Place} {t : Token} {r : List Token} :
      c.tokens = t :: r → t.kind ∈ kinds → Matches g (.token kinds) c ⟨[], ⟨t.stop, r, c.lastBreak⟩⟩
  | sameLine {c : Place} : c.lineBreak = none → Matches g .sameLine c ⟨[], c⟩
  | lineEnd {c : Place} {b : Nat} :
      c.lineBreak = some b → Matches g .lineEnd c ⟨[], c.afterBreak b⟩
  | seq {p q : Pattern R L} {c : Place} {f h : Found L} :
      Matches g p c f → Matches g q f.place h → Matches g (.seq p q) c ⟨f.trees ++ h.trees, h.place⟩
  | altFirst {p q : Pattern R L} {c : Place} {f : Found L} :
      Matches g p c f → Matches g (.alt p q) c f
  | altSecond {p q : Pattern R L} {c : Place} {f : Found L} :
      Matches g q c f → Matches g (.alt p q) c f
  | starNil {p : Pattern R L} {c : Place} : Matches g (.star p) c ⟨[], c⟩
  | starCons {p : Pattern R L} {c : Place} {f h : Found L} :
      Matches g p c f → Matches g (.star p) f.place h →
      Matches g (.star p) c ⟨f.trees ++ h.trees, h.place⟩
  | rule {r : R} {c : Place} {f : Found L} : Matches g (g r) c f → Matches g (.rule r) c f
  | node {l : L} {p : Pattern R L} {c : Place} {f : Found L} {t : Token} {r : List Token} :
      Matches g p c f → c.tokens = t :: r → t.start < f.place.offset →
      Matches g (.node l p) c ⟨[.node l t.start f.place.offset f.trees], f.place⟩
  | hidden {p : Pattern R L} {c : Place} {f : Found L} :
      Matches g p c f → Matches g (.hidden p) c ⟨[], f.place⟩
  | ahead {p : Pattern R L} {c : Place} {f : Found L} :
      Matches g p c f → Matches g (.ahead p) c ⟨[], c⟩
  | absent {p : Pattern R L} {c : Place} : Matches g (.absent p) c ⟨[], c⟩

theorem matches_of_find? {g : R → Pattern R L} {fuel : Nat} {p : Pattern R L} {c : Place}
    {f : Found L} (h : find? g fuel p c = some f) : Matches g p c f := by
  induction fuel generalizing p c f with
  | zero => cases h
  | succ fuel ih =>
    cases p with
    | empty => simp only [find?, Option.some.injEq] at h; exact h ▸ .empty
    | token kinds =>
      simp only [find?] at h
      split at h
      · next t r ht =>
        split at h
        · next hk =>
          cases h
          exact .token ht (List.contains_iff_mem.mp hk)
        · cases h
      · cases h
    | sameLine =>
      simp only [find?] at h
      split at h
      · next hb => cases h; exact .sameLine (Option.isNone_iff_eq_none.mp hb)
      · cases h
    | lineEnd =>
      simp only [find?, Option.map_eq_some_iff] at h
      obtain ⟨b, hb, rfl⟩ := h
      exact .lineEnd hb
    | seq p q =>
      simp only [find?] at h
      split at h
      · cases h
      · next f1 h1 =>
        split at h
        · cases h
        · next f2 h2 => cases h; exact .seq (ih h1) (ih h2)
    | alt p q =>
      simp only [find?] at h
      split at h
      · next f1 h1 => cases h; exact .altFirst (ih h1)
      · exact .altSecond (ih h)
    | star p =>
      simp only [find?] at h
      split at h
      · cases h; exact .starNil
      · next f1 h1 =>
        split at h
        · cases h
        · next f2 h2 => cases h; exact .starCons (ih h1) (ih h2)
    | rule r => exact .rule (ih h)
    | node l p =>
      simp only [find?, Option.bind_eq_some_iff] at h
      obtain ⟨f1, h1, h⟩ := h
      unfold nodeOver? at h
      split at h
      · cases h
      · next t r ht =>
        split at h
        · next hlt => cases h; exact .node (ih h1) ht hlt
        · cases h
    | hidden p =>
      simp only [find?, Option.map_eq_some_iff] at h
      obtain ⟨f1, h1, rfl⟩ := h
      exact .hidden (ih h1)
    | ahead p =>
      simp only [find?, Option.map_eq_some_iff] at h
      obtain ⟨f1, h1, rfl⟩ := h
      exact .ahead (ih h1)
    | absent p =>
      simp only [find?] at h
      split at h
      · cases h; exact .absent
      · cases h

/-- A match of a choice is a match of one of its patterns. -/
theorem Matches.of_any {g : R → Pattern R L} {ps : List (Pattern R L)} {c : Place} {f : Found L}
    (h : Matches g (Pattern.any ps) c f) : ∃ p ∈ ps, Matches g p c f := by
  fun_induction Pattern.any ps with
  | case1 => cases h with | token _ hk => cases hk
  | case2 p => exact ⟨p, List.mem_cons_self, h⟩
  | case3 p ps _ ih =>
    cases h with
    | altFirst h => exact ⟨p, List.mem_cons_self, h⟩
    | altSecond h =>
      obtain ⟨q, hq, hm⟩ := ih h
      exact ⟨q, List.mem_cons_of_mem _ hq, hm⟩

/-- Whether the nodes that matches of a pattern yield have such labels only. -/
def Pattern.Emits (ls : L → Prop) : Pattern R L → Prop
  | .seq p q | .alt p q => p.Emits ls ∧ q.Emits ls
  | .star p => p.Emits ls
  | .rule _ => False
  | .node l _ => ls l
  | _ => True

theorem Matches.label {ls : L → Prop} {g : R → Pattern R L} {p : Pattern R L} {c : Place}
    {f : Found L} (h : Matches g p c f) (hp : p.Emits ls) : ∀ t ∈ f.trees, ls t.label := by
  induction h with
  | empty | token _ _ | sameLine _ | lineEnd _ | starNil | hidden _ _ | ahead _ _ | absent =>
    intro t ht
    cases ht
  | seq _ _ ih1 ih2 =>
    intro t ht
    rcases List.mem_append.mp ht with ht | ht
    · exact ih1 hp.1 t ht
    · exact ih2 hp.2 t ht
  | starCons _ _ ih1 ih2 =>
    intro t ht
    rcases List.mem_append.mp ht with ht | ht
    · exact ih1 hp t ht
    · exact ih2 hp t ht
  | altFirst _ ih => exact ih hp.1
  | altSecond _ ih => exact ih hp.2
  | rule _ _ => exact hp.elim
  | node _ _ _ _ =>
    intro x hx
    rw [List.mem_singleton] at hx
    subst hx
    exact hp

/-- Whether the nodes that matches of a pattern yield are matches of such patterns only. -/
def Pattern.Yields (qs : Pattern R L → Prop) : Pattern R L → Prop
  | .seq p q | .alt p q => p.Yields qs ∧ q.Yields qs
  | .star p => p.Yields qs
  | .rule _ => False
  | .node l p => qs (.node l p)
  | _ => True

/-! ## Places in order -/

section Order

variable (cut : Nat → Prop) (word : Kind → Nat → Nat → Prop)

/-- Tokens in order from an offset on, each with the line end before it. -/
def InOrder (lastBreak : Option Nat) : Nat → List Token → Prop
  | o, [] => ∀ b ∈ lastBreak, o ≤ b ∧ cut b
  | o, t :: r =>
    (∀ b ∈ t.lineBreak, o ≤ b ∧ b ≤ t.start ∧ cut b) ∧ o ≤ t.start ∧ t.start < t.stop ∧
      word t.kind t.start t.stop ∧ cut t.start ∧ cut t.stop ∧ InOrder lastBreak t.stop r

/-- A place whose tokens are in order. -/
def Place.Orderly (c : Place) : Prop := cut c.offset ∧ InOrder cut word c.lastBreak c.offset c.tokens

/-- The way from one place to another: the tokens between lie between them. -/
structure Place.Forward (c d : Place) : Prop where
  le : c.offset ≤ d.offset
  orderly : d.Orderly cut word
  used : ∃ ts, c.tokens.map Token.core = ts ++ d.tokens.map Token.core ∧
    ∀ t ∈ ts, c.offset ≤ t.start ∧ t.stop ≤ d.offset

variable {cut : Nat → Prop} {word : Kind → Nat → Nat → Prop}

theorem Place.Forward.refl {c : Place} (h : c.Orderly cut word) : c.Forward cut word c :=
  ⟨Nat.le_refl _, h, [], rfl, fun t ht => by cases ht⟩

theorem Place.Forward.trans {c d e : Place} (h : c.Forward cut word d) (h' : d.Forward cut word e) :
    c.Forward cut word e := by
  obtain ⟨ts, hts, hin⟩ := h.used
  obtain ⟨us, hus, hin'⟩ := h'.used
  have hle := h.le
  have hle' := h'.le
  refine ⟨by omega, h'.orderly, ts ++ us, by rw [hts, hus, List.append_assoc], ?_⟩
  intro t ht
  rcases List.mem_append.mp ht with ht | ht
  · have := hin t ht
    omega
  · have := hin' t ht
    omega

/-- Behind a token. -/
theorem Place.Forward.token {c : Place} {t : Token} {r : List Token} (h : c.Orderly cut word)
    (ht : c.tokens = t :: r) : c.Forward cut word ⟨t.stop, r, c.lastBreak⟩ := by
  obtain ⟨hcut, horder⟩ := h
  rw [ht] at horder
  obtain ⟨-, ho, hlt, -, -, hstop, hr⟩ := horder
  refine ⟨by show c.offset ≤ t.stop; omega, ⟨hstop, hr⟩, [t.core], by rw [ht]; rfl, ?_⟩
  intro u hu
  rw [List.mem_singleton] at hu
  subst hu
  exact ⟨ho, Nat.le_refl _⟩

/-- Behind a line end. -/
theorem Place.Forward.lineEnd {c : Place} {b : Nat} (h : c.Orderly cut word)
    (hb : c.lineBreak = some b) : c.Forward cut word (c.afterBreak b) := by
  obtain ⟨offset, tokens, lastBreak⟩ := c
  obtain ⟨hcut, horder⟩ := h
  cases tokens with
  | nil =>
    obtain ⟨ho, hb'⟩ := horder b hb
    exact ⟨ho, ⟨hb', fun b' hb' => by cases hb'⟩, [], rfl, fun t ht => by cases ht⟩
  | cons t r =>
    obtain ⟨hbr, ho, hlt, hw, hs, he, hr⟩ := horder
    obtain ⟨hob, hbs, hcb⟩ := hbr b hb
    refine ⟨hob, ⟨hcb, ?_, hbs, hlt, hw, hs, he, hr⟩, [], rfl, fun t ht => by cases ht⟩
    intro b' hb'
    cases hb'

theorem Matches.forward {g : R → Pattern R L} {p : Pattern R L} {c : Place} {f : Found L}
    (h : Matches g p c f) (hc : c.Orderly cut word) : c.Forward cut word f.place := by
  induction h with
  | empty => exact .refl hc
  | token ht _ => exact .token hc ht
  | sameLine _ => exact .refl hc
  | lineEnd hb => exact .lineEnd hc hb
  | seq _ _ ih1 ih2 => exact (ih1 hc).trans (ih2 (ih1 hc).orderly)
  | altFirst _ ih => exact ih hc
  | altSecond _ ih => exact ih hc
  | starNil => exact .refl hc
  | starCons _ _ ih1 ih2 => exact (ih1 hc).trans (ih2 (ih1 hc).orderly)
  | rule _ ih => exact ih hc
  | node _ _ _ ih => exact ih hc
  | hidden _ ih => exact ih hc
  | ahead _ _ => exact .refl hc
  | absent => exact .refl hc

/-- Each node that a match yields is a match of its own, further on. -/
theorem Matches.yielded {qs : Pattern R L → Prop} {g : R → Pattern R L} {p : Pattern R L}
    {c : Place} {f : Found L} (h : Matches g p c f) (hp : p.Yields qs) (hc : c.Orderly cut word) :
    ∀ t ∈ f.trees, ∃ q d e, qs q ∧ c.Forward cut word d ∧ Matches g q d ⟨[t], e⟩ := by
  induction h with
  | empty | token _ _ | sameLine _ | lineEnd _ | starNil | hidden _ _ | ahead _ _ | absent =>
    intro t ht
    cases ht
  | seq h1 _ ih1 ih2 =>
    intro t ht
    rcases List.mem_append.mp ht with ht | ht
    · exact ih1 hp.1 hc t ht
    · have hfirst := h1.forward hc
      obtain ⟨q, d, e, hq, hd, hm⟩ := ih2 hp.2 hfirst.orderly t ht
      exact ⟨q, d, e, hq, hfirst.trans hd, hm⟩
  | starCons h1 _ ih1 ih2 =>
    intro t ht
    rcases List.mem_append.mp ht with ht | ht
    · exact ih1 hp hc t ht
    · have hfirst := h1.forward hc
      obtain ⟨q, d, e, hq, hd, hm⟩ := ih2 hp hfirst.orderly t ht
      exact ⟨q, d, e, hq, hfirst.trans hd, hm⟩
  | altFirst _ ih => exact ih hp.1 hc
  | altSecond _ ih => exact ih hp.2 hc
  | rule _ _ => exact hp.elim
  | node h ht hlt _ =>
    intro x hx
    rw [List.mem_singleton] at hx
    subst hx
    exact ⟨_, _, _, hp, .refl hc, .node h ht hlt⟩

end Order

/-! ## Nested nodes -/

section Nesting

variable (cut : Nat → Prop)

mutual
/-- A node between two offsets, with nodes inside it that are nested likewise. -/
def Tree.NestedIn (lo hi : Nat) : Tree L → Prop
  | .node _ s e cs => lo ≤ s ∧ s < e ∧ e ≤ hi ∧ cut s ∧ cut e ∧ Nested s e cs
/-- Nodes between two offsets, one after the other. -/
def Nested (lo hi : Nat) : List (Tree L) → Prop
  | [] => lo ≤ hi
  | t :: ts => t.NestedIn lo hi ∧ Nested t.stop hi ts
end

variable {cut : Nat → Prop}

theorem Nested.le {lo hi : Nat} {ts : List (Tree L)} (h : Nested cut lo hi ts) : lo ≤ hi := by
  cases ts with
  | nil => exact h
  | cons t ts =>
    obtain ⟨l, s, e, cs⟩ := t
    obtain ⟨⟨h1, h2, h3, -⟩, -⟩ := h
    omega

theorem Nested.mono {lo hi lo' hi' : Nat} {ts : List (Tree L)} (h : Nested cut lo hi ts)
    (hlo : lo' ≤ lo) (hhi : hi ≤ hi') : Nested cut lo' hi' ts := by
  induction ts generalizing lo lo' with
  | nil => exact Nat.le_trans hlo (Nat.le_trans h hhi)
  | cons t ts ih =>
    obtain ⟨l, s, e, cs⟩ := t
    obtain ⟨⟨h1, h2, h3, h4⟩, h5⟩ := h
    exact ⟨⟨by omega, h2, by omega, h4⟩, ih h5 (Nat.le_refl _)⟩

theorem Nested.append {lo mid hi : Nat} {ts us : List (Tree L)} (h : Nested cut lo mid ts)
    (h' : Nested cut mid hi us) : Nested cut lo hi (ts ++ us) := by
  induction ts generalizing lo with
  | nil => exact h'.mono h (Nat.le_refl _)
  | cons t ts ih =>
    obtain ⟨l, s, e, cs⟩ := t
    obtain ⟨⟨h1, h2, h3, h4⟩, h5⟩ := h
    exact ⟨⟨h1, h2, Nat.le_trans h3 h'.le, h4⟩, ih h5⟩

theorem Nested.of_start_le {lo lo' hi : Nat} {ts : List (Tree L)} (h : Nested cut lo hi ts)
    (hle : lo' ≤ hi) (hts : ∀ t ∈ ts, lo' ≤ t.start) : Nested cut lo' hi ts := by
  cases ts with
  | nil => exact hle
  | cons t ts =>
    have := hts t List.mem_cons_self
    obtain ⟨l, s, e, cs⟩ := t
    obtain ⟨⟨h1, h2, h3, h4⟩, h5⟩ := h
    exact ⟨⟨this, h2, h3, h4⟩, h5⟩

/-- What a node that is nested has, each by itself. -/
theorem Tree.NestedIn.range {lo hi : Nat} {t : Tree L} (h : t.NestedIn cut lo hi) :
    lo ≤ t.start ∧ t.start < t.stop ∧ t.stop ≤ hi ∧ cut t.start ∧ cut t.stop ∧
      Nested cut t.start t.stop t.children := by
  obtain ⟨l, s, e, cs⟩ := t
  exact h

theorem Nested.of_mem {lo hi : Nat} {ts : List (Tree L)} (h : Nested cut lo hi ts) {t : Tree L}
    (ht : t ∈ ts) : t.NestedIn cut lo hi := by
  induction ts generalizing lo with
  | nil => cases ht
  | cons u us ih =>
    obtain ⟨hu, hus⟩ := h
    rcases List.mem_cons.mp ht with rfl | ht
    · exact hu
    · have hlo := hu.range
      have := ih hus ht
      obtain ⟨l, s, e, cs⟩ := t
      exact ⟨by have := this.1; omega, this.2⟩

theorem Nested.pairwise {lo hi : Nat} {ts : List (Tree L)} (h : Nested cut lo hi ts) :
    ts.Pairwise fun a b => a.stop ≤ b.start := by
  induction ts generalizing lo with
  | nil => exact .nil
  | cons u us ih =>
    obtain ⟨-, hus⟩ := h
    exact .cons (fun v hv => (hus.of_mem hv).range.1) (ih hus)

variable {word : Kind → Nat → Nat → Prop}

/-- Where the next token begins, or the place itself at the end. -/
def Place.front (c : Place) : Nat :=
  match c.tokens with
  | t :: _ => t.start
  | [] => c.offset

theorem Place.Orderly.le_front {c : Place} (h : c.Orderly cut word) : c.offset ≤ c.front := by
  unfold Place.front
  obtain ⟨-, ho⟩ := h
  split
  · next t r ht =>
    rw [ht] at ho
    exact ho.2.1
  · exact Nat.le_refl _

theorem Place.Forward.front_le {c d : Place} (hc : c.Orderly cut word) (h : c.Forward cut word d) :
    c.front ≤ d.front := by
  obtain ⟨ts, hts, hin⟩ := h.used
  have hle := h.le
  have hd := h.orderly.le_front
  unfold Place.front at hd ⊢
  split
  · next t r ht =>
    rw [ht] at hts
    cases ts with
    | nil =>
      split
      · next u q hu =>
        rw [hu] at hts
        simp only [List.map_cons, List.nil_append, List.cons.injEq] at hts
        have := congrArg Token.start hts.1
        exact Nat.le_of_eq this
      · next hu => rw [hu] at hts; cases hts
    | cons u us =>
      simp only [List.map_cons, List.cons_append, List.cons.injEq] at hts
      obtain ⟨rfl, -⟩ := hts
      have hu := hin _ List.mem_cons_self
      obtain ⟨-, ho⟩ := hc
      rw [ht] at ho
      have hlt := ho.2.2.1
      have h2 : t.core.stop = t.stop := rfl
      omega
  · omega

/-- The nodes of a match begin at its first token or behind. -/
theorem Matches.front_le {g : R → Pattern R L} {p : Pattern R L} {c : Place} {f : Found L}
    (h : Matches g p c f) (hc : c.Orderly cut word) : ∀ t ∈ f.trees, c.front ≤ t.start := by
  induction h with
  | empty | token _ _ | sameLine _ | lineEnd _ | starNil | hidden _ _ | ahead _ _ | absent =>
    intro t ht
    cases ht
  | seq h1 _ ih1 ih2 | starCons h1 _ ih1 ih2 =>
    intro t ht
    have hf := h1.forward hc
    rcases List.mem_append.mp ht with ht | ht
    · exact ih1 hc t ht
    · exact Nat.le_trans (hf.front_le hc) (ih2 hf.orderly t ht)
  | altFirst _ ih | altSecond _ ih | rule _ ih => exact ih hc
  | node _ ht _ _ =>
    intro x hx
    rw [List.mem_singleton] at hx
    subst hx
    unfold Place.front
    rw [ht]
    exact Nat.le_refl _

theorem Matches.nested {g : R → Pattern R L} {p : Pattern R L} {c : Place} {f : Found L}
    (h : Matches g p c f) (hc : c.Orderly cut word) :
    Nested cut c.offset f.place.offset f.trees := by
  induction h with
  | empty | sameLine _ | starNil | ahead _ _ | absent => exact Nat.le_refl _
  | token ht _ => exact (Place.Forward.token hc ht).le
  | lineEnd hb => exact (Place.Forward.lineEnd hc hb).le
  | seq h1 _ ih1 ih2 | starCons h1 _ ih1 ih2 => exact (ih1 hc).append (ih2 (h1.forward hc).orderly)
  | altFirst _ ih | altSecond _ ih | rule _ ih => exact ih hc
  | hidden h1 _ => exact (h1.forward hc).le
  | @node l p c f t r h1 ht hlt ih =>
    have hf := h1.forward hc
    have hs : c.front = t.start := by unfold Place.front; rw [ht]
    have hin := (ih hc).of_start_le (Nat.le_of_lt hlt) fun x hx => hs ▸ h1.front_le hc x hx
    obtain ⟨-, ho⟩ := hc
    rw [ht] at ho
    obtain ⟨-, hot, -, -, hcs, -, -⟩ := ho
    exact ⟨⟨hot, hlt, Nat.le_refl _, hcs, hf.orderly.1, hin⟩, Nat.le_refl _⟩

end Nesting

end GoSplice.Syntax
