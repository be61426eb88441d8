import GoSplice.Proofs.Match
import GoSplice.Syntax.Items

/-!
# Items in their places

The tokens of a text are in order, and its items lie on them one after the
other.  `Read c ns` is the relation behind `itemsOf` where nothing is refused:

    (itemsWithin n c).refusal = none → Read c (itemsWithin n c).nodes   (read_of_itemsWithin)
    Read c ns → the nodes ns are nested and in order                    (Read.nested)
    Read c ns → a token outside of ns is a semicolon                    (Read.covered)
-/

namespace GoSplice.Syntax

/-! ## Tokens of a text -/

/-- The stretches of a text behind its byte order mark. -/
def stretches (s : List Char) : List Lexeme := lexemes (s.drop (orderMark s).length)

theorem ne_nil_of_mem_stretches {s : List Char} {l : Lexeme} (h : l ∈ stretches s) : l.text ≠ [] :=
  text_ne_nil h

theorem orderMark_append_texts (s : List Char) : orderMark s ++ texts (stretches s) = s := by
  unfold stretches
  rw [texts_lexemes, orderMark_append_drop]

/-- Whether a byte offset lies between two stretches of a text, or before them. -/
def IsBoundary (s : List Char) (n : Nat) : Prop :=
  n = 0 ∨ ∃ a b, stretches s = a ++ b ∧ n = byteWidth (orderMark s ++ texts a)

/-- The text can be cut at a boundary. -/
theorem IsBoundary.cut {s : List Char} {n : Nat} (h : IsBoundary s n) :
    ∃ a b, s = a ++ b ∧ n = byteWidth a := by
  rcases h with rfl | ⟨a, b, hab, rfl⟩
  · exact ⟨[], s, rfl, rfl⟩
  · refine ⟨orderMark s ++ texts a, texts b, ?_, rfl⟩
    rw [List.append_assoc, ← texts_append, ← hab, orderMark_append_texts]

theorem IsBoundary.le {s : List Char} {n : Nat} (h : IsBoundary s n) : n ≤ byteWidth s := by
  obtain ⟨a, b, rfl, rfl⟩ := h.cut
  rw [byteWidth_append]
  exact Nat.le_add_right _ _

/-- The stretches of a text with their byte offsets. -/
def layout (s : List Char) : List (Nat × Lexeme) := located (byteWidth (orderMark s)) (stretches s)

/-- Whether a stretch from one offset to another is a token of the kind. -/
def IsWord (s : List Char) (k : Kind) (start stop : Nat) : Prop :=
  ∃ l, (start, l) ∈ layout s ∧ l.cls = .token k ∧ stop = start + byteWidth l.text

theorem mem_layout {s : List Char} {n : Nat} {l : Lexeme} (h : (n, l) ∈ layout s) :
    ∃ a b, stretches s = a ++ l :: b ∧ n = byteWidth (orderMark s ++ texts a) ∧
      s = orderMark s ++ texts a ++ l.text ++ texts b := by
  obtain ⟨a, b, hab, rfl⟩ := mem_located.mp h
  refine ⟨a, b, hab, by rw [byteWidth_append], ?_⟩
  conv => lhs; rw [← orderMark_append_texts s, hab]
  simp

theorem isBoundary_start {s : List Char} {n : Nat} {l : Lexeme} (h : (n, l) ∈ layout s) :
    IsBoundary s n := by
  obtain ⟨a, b, hab, rfl, -⟩ := mem_layout h
  exact Or.inr ⟨a, l :: b, hab, rfl⟩

theorem isBoundary_stop {s : List Char} {n : Nat} {l : Lexeme} (h : (n, l) ∈ layout s) :
    IsBoundary s (n + byteWidth l.text) := by
  obtain ⟨a, b, hab, rfl, -⟩ := mem_layout h
  exact Or.inr ⟨a ++ [l], b, by simp [hab], by simp [Nat.add_assoc]⟩

theorem width_pos_of_mem_layout {s : List Char} {n : Nat} {l : Lexeme} (h : (n, l) ∈ layout s) :
    0 < byteWidth l.text := by
  obtain ⟨a, b, hab, -, -⟩ := mem_layout h
  exact byteWidth_pos (ne_nil_of_mem_stretches (s := s) (by rw [hab]; simp))

/-- The stretches from an offset on give tokens in order, if a line end before
them lies between the last token and them. -/
theorem place_inOrder {s : List Char} {a b : List Lexeme} {lo : Nat} {brk : Option Nat}
    (hab : stretches s = a ++ b) (hlo : lo ≤ byteWidth (orderMark s ++ texts a))
    (hbrk : ∀ x ∈ brk, lo ≤ x ∧ x ≤ byteWidth (orderMark s ++ texts a) ∧ IsBoundary s x) :
    InOrder (IsBoundary s) (IsWord s) (place (byteWidth (orderMark s ++ texts a)) brk b).lastBreak lo
      (place (byteWidth (orderMark s ++ texts a)) brk b).tokens := by
  induction b generalizing a lo brk with
  | nil => exact fun x hx => ⟨(hbrk x hx).1, (hbrk x hx).2.2⟩
  | cons l b ih =>
    have hmem : (byteWidth (orderMark s ++ texts a), l) ∈ layout s :=
      mem_located.mpr ⟨a, b, hab, by rw [byteWidth_append]⟩
    have hab' : stretches s = (a ++ [l]) ++ b := by rw [hab]; simp
    have hpos : byteWidth (orderMark s ++ texts a) + byteWidth l.text =
        byteWidth (orderMark s ++ texts (a ++ [l])) := by simp [Nat.add_assoc]
    have hstop := isBoundary_stop hmem
    have hw := width_pos_of_mem_layout hmem
    unfold place
    dsimp only
    cases hc : l.cls with
    | blank =>
      rw [hpos]
      exact ih hab' (by omega) fun x hx => ⟨(hbrk x hx).1, by have := (hbrk x hx).2.1; omega,
        (hbrk x hx).2.2⟩
    | newline =>
      rw [hpos] at hstop ⊢
      refine ih hab' (by omega) fun x hx => ?_
      cases brk with
      | none =>
        rw [Option.none_or, Option.mem_some_iff] at hx
        subst hx
        exact ⟨by omega, Nat.le_refl _, hstop⟩
      | some y =>
        rw [Option.some_or] at hx
        exact ⟨(hbrk x hx).1, by have := (hbrk x hx).2.1; omega, (hbrk x hx).2.2⟩
    | comment =>
      rw [hpos]
      exact ih hab' (by omega) fun x hx => ⟨(hbrk x hx).1, by have := (hbrk x hx).2.1; omega,
        (hbrk x hx).2.2⟩
    | token k =>
      refine ⟨hbrk, hlo, Nat.lt_add_of_pos_right hw, ⟨l, hmem, hc, rfl⟩, isBoundary_start hmem, hstop, ?_⟩
      show InOrder _ _ _ (_ + byteWidth l.text) _
      rw [hpos]
      exact ih hab' (Nat.le_refl _) fun x hx => by cases hx

/-- The place before all tokens of a text. -/
def startOf (s : List Char) : Place := ⟨0, (scan s).tokens, (scan s).lastBreak⟩

theorem startOf_orderly (s : List Char) : (startOf s).Orderly (IsBoundary s) (IsWord s) := by
  refine ⟨Or.inl rfl, ?_⟩
  have h := @place_inOrder s [] (stretches s) 0 none rfl (Nat.zero_le _) fun x hx => by cases hx
  rw [texts_nil, List.append_nil] at h
  unfold startOf
  rw [scan_eq]
  exact h

/-! ## One node for an item -/

section Node

variable {R L : Type} {g : R → Pattern R L}

/-- Patterns whose matches are one node each. -/
inductive MakesNode (g : R → Pattern R L) : Pattern R L → Prop
  | node {l : L} {p : Pattern R L} : MakesNode g (.node l p)
  | alt {p q : Pattern R L} : MakesNode g p → MakesNode g q → MakesNode g (.alt p q)
  | rule {r : R} : MakesNode g (g r) → MakesNode g (.rule r)

theorem MakesNode.eq_node {p : Pattern R L} {c : Place} {f : Found L} (hp : MakesNode g p)
    (h : Matches g p c f) : ∃ l cs t r, c.tokens = t :: r ∧ t.start < f.place.offset ∧
      f.trees = [.node l t.start f.place.offset cs] := by
  induction hp generalizing f with
  | node => cases h with | node _ ht hlt => exact ⟨_, _, _, _, ht, hlt, rfl⟩
  | alt _ _ ih1 ih2 =>
    cases h with
    | altFirst h => exact ih1 h
    | altSecond h => exact ih2 h
  | rule _ ih => cases h with | rule h => exact ih h

end Node

theorem statement_makesNode : MakesNode Grammar.rules Grammar.statement := by
  unfold Grammar.statement
  simp only [Pattern.any]
  repeat' constructor

theorem item_makesNode : MakesNode Grammar.rules Grammar.item := by
  unfold Grammar.item
  simp only [Pattern.any]
  exact .alt .node (.alt .node (.alt .node (.alt .node (.rule statement_makesNode))))

theorem matches_of_item? {c d : Place} {t : Node} (h : item? c = some (t, d)) :
    Matches Grammar.rules Grammar.item c ⟨[t], d⟩ := by
  unfold item? at h
  split at h
  · next t' ts c' hf =>
    cases h
    have hm := matches_of_find? hf
    obtain ⟨l, cs, u, r, -, -, ht⟩ := item_makesNode.eq_node hm
    simp only [List.cons.injEq] at ht
    rw [ht.2] at hm
    exact hm
  · cases h

/-- An item reaches from its first token to the end of its match. -/
theorem item_range {c d : Place} {t : Node} (h : Matches Grammar.rules Grammar.item c ⟨[t], d⟩) :
    t.start = c.front ∧ t.stop = d.offset ∧ t.start < t.stop := by
  obtain ⟨l, cs, u, r, hu, hlt, ht⟩ := item_makesNode.eq_node h
  simp only [List.cons.injEq, and_true] at ht
  subst ht
  refine ⟨?_, rfl, hlt⟩
  unfold Place.front
  rw [hu]
  rfl

/-! ## Reading items -/

/-- The place behind a terminator: a line end, or a semicolon on the same line. -/
inductive Terminated (c : Place) : Place → Prop
  | lineEnd {b : Nat} : c.lineBreak = some b → Terminated c (c.afterBreak b)
  | semicolon {t : Token} {r : List Token} :
      c.tokens = t :: r → t.kind = .operator .semicolon → Terminated c ⟨t.stop, r, c.lastBreak⟩

/-- The items from a place to the end of a file. -/
inductive Read : Place → List Node → Prop
  | done {c : Place} : c.tokens = [] → Read c []
  | item {c c' c'' : Place} {t : Node} {ns : List Node} :
      item? c = some (t, c') → afterTerminator? c' = some c'' → Read c'' ns → Read c (t :: ns)
  | last {c c' : Place} {t : Node} :
      item? c = some (t, c') → afterTerminator? c' = none → c'.tokens = [] → mayEndFile t →
      Read c [t]

theorem terminated_of_afterTerminator? {c d : Place} (h : afterTerminator? c = some d) :
    Terminated c d := by
  unfold afterTerminator? at h
  split at h
  · next b hb => cases h; exact .lineEnd hb
  · split at h
    · next t r ht =>
      split at h
      · next hk => cases h; exact .semicolon ht hk
      · cases h
    · cases h

theorem read_of_itemsWithin {fuel : Nat} {c : Place} (h : (itemsWithin fuel c).refusal = none) :
    Read c (itemsWithin fuel c).nodes := by
  induction fuel generalizing c with
  | zero => cases h
  | succ fuel ih =>
    unfold itemsWithin at h ⊢
    split at h
    · next he =>
      rw [if_pos he]
      exact .done (List.isEmpty_iff.mp he)
    · next he =>
      rw [if_neg he]
      cases hi : item? c with
      | none => rw [hi] at h; cases h
      | some x =>
        obtain ⟨t, c'⟩ := x
        rw [hi] at h
        dsimp only at h ⊢
        cases ha : afterTerminator? c' with
        | some c'' =>
          rw [ha] at h
          dsimp only at h ⊢
          exact .item hi ha (ih h)
        | none =>
          rw [ha] at h
          dsimp only at h ⊢
          split at h
          · next he' =>
            rw [if_pos he']
            refine .last hi ha (List.isEmpty_iff.mp he') ?_
            dsimp only at h
            split at h
            · assumption
            · cases h
          · cases h

/-- The items of a text. -/
def textItems (s : List Char) : Items := itemsOf (scan s).tokens (scan s).lastBreak

theorem read_textItems {s : List Char} (h : (textItems s).refusal = none) :
    Read (startOf s) (textItems s).nodes :=
  read_of_itemsWithin h

/-! ## Items in order -/

section Order

variable {cut : Nat → Prop} {word : Kind → Nat → Nat → Prop}

theorem Terminated.forward {c d : Place} (h : Terminated c d) (hc : c.Orderly cut word) :
    c.Forward cut word d := by
  cases h with
  | lineEnd hb => exact .lineEnd hc hb
  | semicolon ht _ => exact .token hc ht

theorem Terminated.used {c d : Place} (h : Terminated c d) {t : Token}
    (ht : t ∈ c.tokens.map Token.core) :
    t.kind = .operator .semicolon ∨ t ∈ d.tokens.map Token.core := by
  cases h with
  | lineEnd hb =>
    right
    obtain ⟨offset, tokens, lastBreak⟩ := c
    cases tokens with
    | nil => exact ht
    | cons u r => exact ht
  | semicolon hu hk =>
    rw [hu, List.map_cons, List.mem_cons] at ht
    rcases ht with rfl | ht
    · exact Or.inl hk
    · exact Or.inr ht

theorem Read.nested {c : Place} {ns : List Node} (h : Read c ns) (hc : c.Orderly cut word) :
    ∃ hi, cut hi ∧ Nested cut c.offset hi ns := by
  induction h with
  | @done c _ => exact ⟨c.offset, hc.1, Nat.le_refl _⟩
  | item hi ht _ ih =>
    have hm := matches_of_item? hi
    have hterm := (terminated_of_afterTerminator? ht).forward (hm.forward hc).orderly
    obtain ⟨hi, hcut, hns⟩ := ih hterm.orderly
    exact ⟨hi, hcut, (hm.nested hc).append (hns.mono hterm.le (Nat.le_refl _))⟩
  | last hi _ _ _ =>
    have hm := matches_of_item? hi
    exact ⟨_, (hm.forward hc).orderly.1, hm.nested hc⟩

theorem InOrder.front_le {lastBreak : Option Nat} {o : Nat} {ts : List Token}
    (h : InOrder cut word lastBreak o ts) : ∀ t ∈ ts, o ≤ t.start := by
  induction ts generalizing o with
  | nil => intro t ht; cases ht
  | cons u r ih =>
    obtain ⟨-, ho, hlt, -, -, -, hr⟩ := h
    intro t ht
    rcases List.mem_cons.mp ht with rfl | ht
    · exact ho
    · have := ih hr t ht
      omega

theorem InOrder.of_mem {lastBreak : Option Nat} {o : Nat} {ts : List Token} (h : InOrder cut word lastBreak o ts) :
    ∀ t ∈ ts, t.start < t.stop ∧ word t.kind t.start t.stop ∧ cut t.start ∧ cut t.stop := by
  induction ts generalizing o with
  | nil => exact List.forall_mem_nil _
  | cons u r ih =>
    obtain ⟨-, -, hlt, hword, hstart, hstop, hr⟩ := h
    exact List.forall_mem_cons.mpr ⟨⟨hlt, hword, hstart, hstop⟩, ih hr⟩

theorem Place.Orderly.front_le {c : Place} (h : c.Orderly cut word) :
    ∀ t ∈ c.tokens.map Token.core, c.front ≤ t.start := by
  intro t ht
  obtain ⟨u, hu, rfl⟩ := List.mem_map.mp ht
  obtain ⟨-, ho⟩ := h
  unfold Place.front
  cases hts : c.tokens with
  | nil => rw [hts] at hu; cases hu
  | cons v r =>
    rw [hts] at ho hu
    obtain ⟨-, -, hlt, -, -, -, hr⟩ := ho
    rcases List.mem_cons.mp hu with rfl | hu
    · exact Nat.le_refl _
    · have := hr.front_le u hu
      show v.start ≤ u.start
      omega

/-- A token is part of the item that is matched there, or left by it. -/
theorem Matches.covers_or_leaves {c d : Place} {n : Node} (h : Matches Grammar.rules Grammar.item c ⟨[n], d⟩)
    (hc : c.Orderly cut word) : ∀ t ∈ c.tokens.map Token.core,
      (n.start ≤ t.start ∧ t.stop ≤ n.stop) ∨ t ∈ d.tokens.map Token.core := by
  intro t ht
  have hfront := hc.front_le t ht
  obtain ⟨us, hus, hin⟩ := (h.forward hc).used
  obtain ⟨hstart, hstop, -⟩ := item_range h
  rw [hus, List.mem_append] at ht
  rcases ht with ht | ht
  · left
    rw [hstart, hstop]
    exact ⟨hfront, (hin t ht).2⟩
  · exact Or.inr ht

/-- A token is part of an item or ends one. -/
theorem Read.covered {c : Place} {ns : List Node} (h : Read c ns) (hc : c.Orderly cut word) :
    ∀ t ∈ c.tokens.map Token.core, t.kind = .operator .semicolon ∨
      ∃ n ∈ ns, n.start ≤ t.start ∧ t.stop ≤ n.stop := by
  induction h with
  | done hnil => intro t ht; rw [hnil] at ht; cases ht
  | item hi hterm _ ih =>
    intro t ht
    have hm := matches_of_item? hi
    have hterm := terminated_of_afterTerminator? hterm
    have hf := hm.forward hc
    rcases hm.covers_or_leaves hc t ht with hin | hrest
    · exact Or.inr ⟨_, List.mem_cons_self, hin⟩
    · rcases hterm.used hrest with hk | hrest
      · exact Or.inl hk
      · rcases ih (hterm.forward hf.orderly).orderly t hrest with hk | ⟨n, hn, hin⟩
        · exact Or.inl hk
        · exact Or.inr ⟨n, List.mem_cons_of_mem _ hn, hin⟩
  | last hi _ hnil _ =>
    intro t ht
    rcases (matches_of_item? hi).covers_or_leaves hc t ht with hin | hrest
    · exact Or.inr ⟨_, List.mem_cons_self, hin⟩
    · rw [hnil] at hrest; cases hrest

/-- Every item is matched at a place of the file. -/
theorem Read.matched {c : Place} {ns : List Node} (h : Read c ns) (hc : c.Orderly cut word) :
    ∀ n ∈ ns, ∃ c' d, c.Forward cut word c' ∧ Matches Grammar.rules Grammar.item c' ⟨[n], d⟩ := by
  induction h with
  | done _ => intro n hn; cases hn
  | item hi hterm _ ih =>
    have hm := matches_of_item? hi
    have hterm := terminated_of_afterTerminator? hterm
    have hbehind := (hm.forward hc).trans (hterm.forward (hm.forward hc).orderly)
    intro n hn
    rcases List.mem_cons.mp hn with rfl | hn
    · exact ⟨_, _, .refl hc, hm⟩
    · obtain ⟨c', d, hc', hm'⟩ := ih hbehind.orderly n hn
      exact ⟨c', d, hbehind.trans hc', hm'⟩
  | last hi _ _ _ =>
    intro n hn
    rw [List.mem_singleton] at hn
    subst hn
    exact ⟨_, _, .refl hc, matches_of_item? hi⟩

/-- An item begins with a token. -/
theorem item_start {c d : Place} {n : Node} (hc : c.Orderly cut word)
    (h : Matches Grammar.rules Grammar.item c ⟨[n], d⟩) : ∃ k e, word k n.start e := by
  obtain ⟨l, cs, u, r, hu, -, ht⟩ := item_makesNode.eq_node h
  simp only [List.cons.injEq, and_true] at ht
  subst ht
  obtain ⟨-, ho⟩ := hc
  rw [hu] at ho
  exact ⟨_, _, ho.2.2.2.1⟩

end Order

/-! ## Import declarations -/

section Imports

variable {cut : Nat → Prop} {word : Kind → Nat → Nat → Prop}

/-- An import declaration holds specs, and behind them its parenthesis if it has one. -/
theorem importDeclaration_trees {c : Place} {f : Found Label} (hc : c.Orderly cut word)
    (h : Matches Grammar.rules Grammar.importDeclaration c f) :
    ∃ specs close, f.trees = specs ++ close ∧ (∀ x ∈ specs, x.label = .importSpec) ∧
      (close = [] ∨ ∃ p e, close = [p] ∧ p.label = .closeParen ∧
        word (.operator .rightParen) p.start e) := by
  unfold Grammar.importDeclaration at h
  cases h with
  | @seq _ _ _ f1 f2 hk hrest =>
    have h1 : f1.trees = [] := by cases hk; rfl
    have hc1 := (hk.forward hc).orderly
    cases hrest with
    | altSecond hs =>
      refine ⟨f2.trees, [], by simp [h1], ?_, Or.inl rfl⟩
      exact hs.label (show Grammar.importSpec.Emits (· = .importSpec) from rfl)
    | altFirst hg =>
      cases hg with
      | @seq _ _ _ g1 g2 hl hrest =>
        have hg1 : g1.trees = [] := by cases hl; rfl
        have hc2 := (hl.forward hc1).orderly
        cases hrest with
        | @seq _ _ _ k1 k2 hb hp =>
          have hc3 := (hb.forward hc2).orderly
          cases hp with
          | @node _ _ _ q t r hq ht hlt =>
            refine ⟨k1.trees, [.node .closeParen t.start q.place.offset q.trees], by simp [h1, hg1], ?_,
              Or.inr ⟨_, t.stop, rfl, rfl, ?_⟩⟩
            · have he : (Grammar.body Grammar.importSpec).Emits (· = Label.importSpec) := by
                simp [Grammar.body, Pattern.optional, Pattern.all, Pattern.Emits, Grammar.terminator,
                  Pattern.any, Grammar.semicolon, Pattern.operator, Grammar.importSpec]
              exact hb.label he
            · obtain ⟨-, ho⟩ := hc3
              rw [ht] at ho
              cases hq with
              | token ht' hk' =>
                rw [ht] at ht'
                obtain ⟨rfl, rfl⟩ := List.cons.inj ht'
                rw [List.mem_singleton] at hk'
                have hw := ho.2.2.2.1
                rw [hk'] at hw
                exact hw

/-- The children of an item that is an import declaration. -/
theorem import_children {c d : Place} {n : Node} (hc : c.Orderly cut word)
    (h : Matches Grammar.rules Grammar.item c ⟨[n], d⟩) (hl : n.label = .importDecl) :
    ∃ specs close, n.children = specs ++ close ∧ (∀ x ∈ specs, x.label = .importSpec) ∧
      (close = [] ∨ ∃ p e, close = [p] ∧ p.label = .closeParen ∧
        word (.operator .rightParen) p.start e) := by
  obtain ⟨p, hp, hm⟩ := Matches.of_any h
  simp only [List.mem_cons, List.not_mem_nil, or_false] at hp
  rcases hp with rfl | rfl | rfl | rfl | rfl
  · cases hm; cases hl
  · cases hm with
    | node hm _ _ => exact importDeclaration_trees hc hm
  · cases hm; cases hl
  · cases hm; cases hl
  · cases hm with
    | rule hm =>
      have hs : Grammar.statement.Emits (· ≠ .importDecl) := by
        simp [Grammar.statement, Pattern.any, Pattern.Emits, Grammar.simple]
      exact absurd hl (hm.label hs n List.mem_cons_self)

/-- The specs of an item that is an import declaration are matched one by one. -/
theorem importSpec_matched {c d : Place} {n x : Node} (hc : c.Orderly cut word)
    (h : Matches Grammar.rules Grammar.item c ⟨[n], d⟩) (hx : x ∈ n.children)
    (hl : n.label = .importDecl) (hspec : x.label = .importSpec) :
    ∃ c' d', c'.Orderly cut word ∧ Matches Grammar.rules Grammar.importSpec c' ⟨[x], d'⟩ := by
  have hyields : Grammar.importDeclaration.Yields fun q =>
      q = Grammar.importSpec ∨ q = .node .closeParen Grammar.rightParen := by
    simp [Grammar.importDeclaration, Grammar.body, Grammar.terminator, Grammar.semicolon,
      Grammar.leftParen, Grammar.importSpec, Pattern.any, Pattern.all, Pattern.optional,
      Pattern.operator, Pattern.keyword, Pattern.Yields]
  obtain ⟨p, hp, hm⟩ := Matches.of_any h
  simp only [List.mem_cons, List.not_mem_nil, or_false] at hp
  rcases hp with rfl | rfl | rfl | rfl | rfl
  · cases hm; cases hl
  · cases hm with
    | node hm _ _ =>
      obtain ⟨q, c', d', hq | hq, hc', hm'⟩ := hm.yielded hyields hc x hx
      · exact ⟨c', d', hc'.orderly, hq ▸ hm'⟩
      · subst hq
        cases hm'
        cases hspec
  · cases hm; cases hl
  · cases hm; cases hl
  · cases hm with
    | rule hm =>
      have hs : Grammar.statement.Emits (· ≠ .importDecl) := by
        simp [Grammar.statement, Pattern.any, Pattern.Emits, Grammar.simple]
      exact absurd hl (hm.label hs n List.mem_cons_self)

/-- The local name of an import is one token: a dot or a name. -/
theorem importName_word {c d : Place} {x y : Node} (hc : c.Orderly cut word)
    (h : Matches Grammar.rules Grammar.importSpec c ⟨[x], d⟩) (hy : y ∈ x.children)
    (hl : y.label = .importName) :
    ∃ k ∈ [Kind.operator .dot, .name, .constant, .allocator], word k y.start y.stop := by
  have hyields : Pattern.Yields (fun q => q = .node .importName (.any [.operator .dot, Grammar.name]) ∨
      q = .node .importPath (.token [.text])) (.any [
        .seq (.node .importName (.any [.operator .dot, Grammar.name]))
          (.node .importPath (.token [.text])),
        .node .importPath (.token [.text])]) := by
    simp [Pattern.any, Pattern.Yields]
  cases h with
  | node hm _ _ =>
    obtain ⟨q, c', d', hq | hq, hc', hm'⟩ := hm.yielded hyields hc y hy
    · subst hq
      cases hm' with
      | node hm' ht _ =>
        obtain ⟨-, ho⟩ := hc'.orderly
        rw [ht] at ho
        obtain ⟨p, hp, hm'⟩ := Matches.of_any hm'
        have hkinds : ∃ kinds, p = .token kinds ∧
            ∀ k ∈ kinds, k ∈ [Kind.operator .dot, .name, .constant, .allocator] := by
          simp only [List.mem_cons, List.not_mem_nil, or_false] at hp
          rcases hp with rfl | rfl
          · exact ⟨_, rfl, by decide⟩
          · exact ⟨_, rfl, by decide⟩
        obtain ⟨kinds, rfl, hkinds⟩ := hkinds
        cases hm' with
        | token ht' hk =>
          rw [ht] at ht'
          obtain ⟨rfl, -⟩ := List.cons.inj ht'
          exact ⟨_, hkinds _ hk, ho.2.2.2.1⟩
    · subst hq
      cases hm'
      cases hl

end Imports

/-! ## Between items -/

theorem mem_comments {s : List Char} {c : Comment} (h : c ∈ (scan s).comments) :
    ∃ l, (c.start, l) ∈ layout s ∧ l.cls = .comment ∧ c.stop = c.start + byteWidth l.text := by
  rw [scan_eq, place_comments, List.mem_filterMap] at h
  obtain ⟨⟨n, l⟩, hmem, hl⟩ := h
  unfold commentOf? at hl
  split at hl
  · next hc =>
    cases hl
    exact ⟨l, hmem, hc, rfl⟩
  · cases hl

theorem comments_pairwise (s : List Char) :
    (scan s).comments.Pairwise fun a b => a.stop ≤ b.start := by
  rw [scan_eq, place_comments]
  refine List.Pairwise.filterMap _ ?_ (located_pairwise _ _)
  intro x y hxy a ha b hb
  unfold commentOf? at ha hb
  split at ha
  · split at hb
    · cases ha; cases hb; exact hxy
    · cases hb
  · cases ha

/-- A comment before the start of a token ends before it. -/
theorem comment_before_word {s : List Char} {c : Comment} {k : Kind} {n e : Nat}
    (hc : c ∈ (scan s).comments) (hw : IsWord s k n e) (hlt : c.start < n) : c.stop ≤ n := by
  obtain ⟨l, hl, -, hstop⟩ := mem_comments hc
  obtain ⟨l', hl', -, -⟩ := hw
  rcases located_trichotomy hl hl' with h | h | h
  · rw [Prod.mk.injEq] at h; omega
  · dsimp only at h; omega
  · dsimp only at h; omega

theorem mem_tokens_of_layout {s : List Char} {n : Nat} {l : Lexeme} {k : Kind}
    (h : (n, l) ∈ layout s) (hk : l.cls = .token k) :
    (⟨k, n, n + byteWidth l.text, none⟩ : Token) ∈ (scan s).tokens.map Token.core := by
  rw [scan_eq, place_tokens, List.mem_filterMap]
  exact ⟨(n, l), h, by simp [tokenOf?, hk]⟩

/-- Between two stretches, the second a token, there is no code but that of items. -/
theorem isFiller_between {s : List Char} {ns : List Node} (hns : Read (startOf s) ns) {n m e : Nat}
    {l : Lexeme} {k : Kind} (hl : (n, l) ∈ layout s) (hw : IsWord s k m e) (hle : n ≤ m)
    (hgap : ∀ x ∈ ns, x.stop ≤ n ∨ m ≤ x.start) :
    ∃ a u b, s = a ++ u ++ b ∧ byteWidth a = n ∧ byteWidth (a ++ u) = m ∧ IsFiller u := by
  obtain ⟨l', hl', hk, -⟩ := hw
  obtain ⟨a, b, hab, rfl, hs⟩ := mem_layout hl
  obtain ⟨a', b', hab', rfl, hs'⟩ := mem_layout hl'
  have hne : ∀ x ∈ a ++ l :: b, x.text ≠ [] := fun x hx => ne_nil_of_mem_stretches (s := s) (by rw [hab]; exact hx)
  obtain ⟨mid, rfl, -⟩ := prefix_of_width_le (hab.symm.trans hab') hne (by simpa using hle)
  refine ⟨orderMark s ++ texts a, texts mid, l'.text ++ texts b', ?_, rfl, ?_, ?_⟩
  · conv => lhs; rw [hs']
    simp
  · simp
  · have hsuf : lexemes (texts (mid ++ l' :: b')) = mid ++ l' :: b' :=
      lexemes_suffix (s := s.drop (orderMark s).length) (a := a) (by
        rw [← List.append_assoc]; exact hab')
    refine isFiller_texts hsuf hk fun x hx => ?_
    cases hc : x.cls with
    | blank => rfl
    | newline => rfl
    | comment => rfl
    | token k' =>
      obtain ⟨m1, m2, rfl⟩ := List.append_of_mem hx
      have hxl : (byteWidth (orderMark s ++ texts (a ++ m1)), x) ∈ layout s :=
        mem_located.mpr ⟨a ++ m1, m2 ++ l' :: b', by
          rw [show stretches s = _ from hab']; simp, by rw [byteWidth_append]⟩
      have hpos := width_pos_of_mem_layout hxl
      simp only [texts_append, texts_cons, byteWidth_append] at hgap hpos hle
      rcases hns.covered (startOf_orderly s) _ (mem_tokens_of_layout hxl hc) with hk' | ⟨y, hy, h1, h2⟩
      · simpa [LexemeClass.isFiller] using hk'
      · simp only [texts_append, byteWidth_append] at h1 h2
        rcases hgap y hy with h | h <;> omega

end GoSplice.Syntax
