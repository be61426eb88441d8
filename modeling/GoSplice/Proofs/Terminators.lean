import GoSplice.Proofs.Outlines

/-!
# Semicolons between items

A token that stands between items is a semicolon that ends the item before it, and stands in the line in
which that ends:

    Read c ns, ts ends with the tokens of c →
      a token of c is in one of ns, or a token of ts with no line end before it          (Read.terminators)
    a token is behind a line end, no code between → it is in an item           (exists_item_behind_newline)

A line end before a token of the text is gone from the place where a match took it, so it is to be known
that no item ends with a line end.  `endsWhole` says which patterns end so that all of the text is left.
-/

namespace GoSplice.Syntax

/-! ## Matches that leave line ends alone -/

section Whole

variable {R L : Type} {g : R → Pattern R L} {keeps : R → Bool} {ts : List Token}

/-- Whether a match takes no line end behind its last token, given the rules that take none and whether
none is taken before it. -/
def Pattern.endsWhole (keeps : R → Bool) : Pattern R L → Bool → Bool
  | .token _, _ => true
  | .lineEnd, _ => false
  | .seq p q, whole => q.endsWhole keeps (p.endsWhole keeps whole)
  | .alt p q, whole => p.endsWhole keeps whole && q.endsWhole keeps whole
  | .star p, whole => whole && p.endsWhole keeps whole
  | .rule r, _ => keeps r
  | .node _ p, whole | .hidden p, whole => p.endsWhole keeps whole
  | .empty, whole | .sameLine, whole | .ahead _, whole | .absent _, whole => whole

/-- Whether a place has the last of some tokens.  If it is not whole, the line end before the first of
them may be taken. -/
structure Place.EndOf (ts : List Token) (whole : Bool) (c : Place) : Prop where
  tail : c.tokens.tail <:+ ts
  tokens : whole → c.tokens <:+ ts

theorem Place.EndOf.mono {c : Place} {whole whole' : Bool} (h : c.EndOf ts whole) (hle : whole' → whole) :
    c.EndOf ts whole' :=
  ⟨h.tail, fun hw => h.tokens (hle hw)⟩

theorem Place.EndOf.weaken {c : Place} {whole : Bool} (h : c.EndOf ts whole) : c.EndOf ts false :=
  ⟨h.tail, nofun⟩

theorem Place.EndOf.afterBreak {c : Place} (h : c.tokens.tail <:+ ts) (b : Nat) : (c.afterBreak b).EndOf ts false := by
  obtain ⟨offset, tokens, lastBreak⟩ := c
  cases tokens with
  | nil => exact ⟨h, nofun⟩
  | cons t r => exact ⟨h, nofun⟩

theorem Place.EndOf.token {c : Place} {t : Token} {r : List Token} (h : c.tokens.tail <:+ ts) (ht : c.tokens = t :: r) :
    (⟨t.stop, r, c.lastBreak⟩ : Place).EndOf ts true := by
  rw [ht] at h
  exact ⟨(List.tail_suffix r).trans h, fun _ => h⟩

theorem Matches.endOf (hkeeps : ∀ r, keeps r → (g r).endsWhole keeps false) {p : Pattern R L} {c : Place}
    {f : Found L} (h : Matches g p c f) {whole : Bool} (hc : c.EndOf ts whole) :
    f.place.EndOf ts (p.endsWhole keeps whole) := by
  induction h generalizing whole with
  | empty | sameLine _ | ahead _ _ | absent => exact hc
  | token ht _ => exact .token hc.tail ht
  | lineEnd _ => exact .afterBreak hc.tail _
  | seq _ _ ih1 ih2 => exact ih2 (ih1 hc)
  | altFirst _ ih => exact (ih hc).mono fun h => (Bool.and_eq_true_iff.mp h).1
  | altSecond _ ih => exact (ih hc).mono fun h => (Bool.and_eq_true_iff.mp h).2
  | starNil => exact hc.mono fun h => (Bool.and_eq_true_iff.mp h).1
  | @starCons p _ _ _ _ _ ih1 ih2 =>
    have hfirst := ih1 hc
    -- what is repeated ends whole from a whole place, or nothing is known
    by_cases hw : (p.star.endsWhole keeps whole) = true
    · obtain ⟨rfl, hp⟩ := Bool.and_eq_true_iff.mp hw
      exact ih2 (hfirst.mono fun _ => hp)
    · exact ⟨(ih2 hfirst.weaken).tail, fun h => absurd h hw⟩
  | rule _ ih => exact (ih hc.weaken).mono (hkeeps _)
  | node _ _ _ ih | hidden _ ih => exact ih hc

end Whole

namespace Grammar

/-- A list of statements may end with a line end. -/
def keepsBreaks : Rule → Bool
  | .statements => false
  | _ => true

theorem endsWhole_rules (r : Rule) : keepsBreaks r → (rules r).endsWhole keepsBreaks false := by
  have hall : ∀ r ∈ Rule.all, keepsBreaks r → (rules r).endsWhole keepsBreaks false := by decide +kernel
  exact hall r r.mem_all

/-- An item ends with a token. -/
theorem endsWhole_item : item.endsWhole keepsBreaks false := by decide +kernel

end Grammar

/-! ## Terminators -/

section Order

variable {cut : Nat → Prop} {word : Kind → Nat → Nat → Prop} {ts : List Token}

/-- Behind an item is a line end, a semicolon with no line end before it, or nothing. -/
theorem Place.EndOf.afterTerminator? {c d : Place} (h : c.EndOf ts true) (hd : afterTerminator? c = some d) :
    d.tokens.tail <:+ ts ∧ ∀ t ∈ c.tokens.map Token.core, t ∈ d.tokens.map Token.core ∨
      ∃ u ∈ ts, u.core = t ∧ u.lineBreak = none := by
  unfold Syntax.afterTerminator? at hd
  obtain ⟨offset, tokens, lastBreak⟩ := c
  cases hb : (⟨offset, tokens, lastBreak⟩ : Place).lineBreak with
  | some b =>
    rw [hb] at hd
    cases hd
    refine ⟨(Place.EndOf.afterBreak h.tail b).tail, fun t ht => .inl ?_⟩
    cases tokens with
    | nil => exact ht
    | cons u r => exact ht
  | none =>
    rw [hb] at hd
    dsimp only at hd
    split at hd
    · next u r =>
      split at hd
      · cases hd
        have hmem : u ∈ ts := (h.tokens rfl).subset List.mem_cons_self
        refine ⟨(Place.EndOf.token h.tail rfl).tail, ?_⟩
        exact List.forall_mem_cons.mpr ⟨.inr ⟨u, hmem, rfl, hb⟩, fun t => .inl⟩
      · cases hd
    · cases hd

/-- A token is part of an item, or ends one in its line. -/
theorem Read.terminators {c : Place} {ns : List Node} (h : Read c ns) (hc : c.Orderly cut word)
    (hend : c.tokens.tail <:+ ts) : ∀ t ∈ c.tokens.map Token.core,
      (∃ n ∈ ns, n.start ≤ t.start ∧ t.stop ≤ n.stop) ∨ ∃ u ∈ ts, u.core = t ∧ u.lineBreak = none := by
  induction h with
  | done hnil =>
    rw [hnil]
    exact List.forall_mem_nil _
  | item hi hterm _ ih =>
    intro t ht
    have hm := matches_of_item? hi
    have hf := hm.forward hc
    have hplace : Place.EndOf ts false _ := ⟨hend, nofun⟩
    have hwhole := hm.endOf Grammar.endsWhole_rules hplace
    obtain ⟨hrest, hterms⟩ := (hwhole.mono fun _ => Grammar.endsWhole_item).afterTerminator? hterm
    rcases hm.covers_or_leaves hc t ht with hin | hleft
    · exact .inl ⟨_, List.mem_cons_self, hin⟩
    · rcases hterms t hleft with hleft | hu
      · have hforward := (terminated_of_afterTerminator? hterm).forward hf.orderly
        refine (ih hforward.orderly hrest t hleft).imp_left ?_
        rintro ⟨n, hn, hin⟩
        exact ⟨n, List.mem_cons_of_mem _ hn, hin⟩
      · exact .inr hu
  | last hi _ hnil _ =>
    intro t ht
    rcases (matches_of_item? hi).covers_or_leaves hc t ht with hin | hleft
    · exact .inl ⟨_, List.mem_cons_self, hin⟩
    · rw [hnil] at hleft
      cases hleft

/-- Tokens in order differ in their places. -/
theorem InOrder.eq_of_core {lastBreak : Option Nat} {o : Nat} (h : InOrder cut word lastBreak o ts) {t u : Token}
    (ht : t ∈ ts) (hu : u ∈ ts) (hcore : t.core = u.core) : t = u := by
  have hstart : t.core.start = u.core.start := congrArg Token.start hcore
  change t.start = u.start at hstart
  induction ts generalizing o with
  | nil => cases ht
  | cons v r ih =>
    obtain ⟨-, -, hlt, -, -, -, hr⟩ := h
    rw [List.mem_cons] at ht hu
    rcases ht with rfl | ht
    · refine (hu.resolve_right fun hu => ?_).symm
      have := hr.front_le u hu
      omega
    · rcases hu with rfl | hu
      · have := hr.front_le t ht
        omega
      · exact ih hr ht hu

end Order

/-! ## Line ends between items -/

section Stretches

variable {s : List Char} {a x b : List Lexeme} {l : Lexeme} {k : Kind}

/-- The first token behind a line end is in an item. -/
theorem exists_item_behind_newline (hread : Read (startOf s) (textItems s).nodes)
    (hs : stretches s = a ++ ⟨.newline, ['\n']⟩ :: x ++ l :: b) (hx : NoCode x) (hk : l.cls = .token k) :
    ∃ n ∈ (textItems s).nodes, n.start ≤ byteWidth (orderMark s ++ texts (a ++ ⟨.newline, ['\n']⟩ :: x)) ∧
      byteWidth (orderMark s ++ texts (a ++ ⟨.newline, ['\n']⟩ :: x)) + byteWidth l.text ≤ n.stop := by
  have hbreak : (place (byteWidth (orderMark s)) none (a ++ ⟨.newline, ['\n']⟩ :: x)).lastBreak ≠ none := by
    have hcode : NoCode (⟨.newline, ['\n']⟩ :: x) := List.forall_mem_cons.mpr ⟨nofun, hx⟩
    rw [place_append]
    exact (hcode.lastBreak_ne_none _ _).mpr (.inr (breaks_cons.mpr (.inl rfl)))
  generalize a ++ ⟨.newline, ['\n']⟩ :: x = y at hs hbreak ⊢
  have hmem : (⟨k, byteWidth (orderMark s ++ texts y), byteWidth (orderMark s ++ texts y) + byteWidth l.text,
      (place (byteWidth (orderMark s)) none y).lastBreak⟩ : Token) ∈ (startOf s).tokens := by
    unfold startOf
    rw [scan_eq, ← stretches_eq, hs, place_append_tokens, ← byteWidth_append, place_cons_of_token hk]
    exact List.mem_append_right _ List.mem_cons_self
  have hends := hread.terminators (startOf_orderly s) (List.tail_suffix _) _ (List.mem_map_of_mem hmem)
  refine hends.resolve_right ?_
  rintro ⟨u, hu, hcore, hnone⟩
  rw [(startOf_orderly s).2.eq_of_core hu hmem hcore] at hnone
  exact hbreak hnone

end Stretches

end GoSplice.Syntax
