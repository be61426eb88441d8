import GoSplice.Proofs.Outlines

/-!
# The tokens of items

Of the words that begin items, `package` and `import` stand nowhere else, and no other
one stands in an import or a package clause.  So the words of a text tell where its
imports are:

    g.IsItem → the tokens of g are those that its label allows     (Segment.IsItem.vocabulary)
    g.IsItem → g begins with the word of its label                 (Segment.IsItem.opening)
-/

namespace GoSplice.Syntax

variable {R L : Type}

/-! ## Tokens that a pattern takes -/

namespace Pattern

section Tables

variable (ok : Kind → Bool)

/-- Whether a pattern takes tokens of some kinds only; `rules` says so of the rules. -/
def spells (rules : Bool) : Pattern R L → Bool
  | .token kinds => kinds.all ok
  | .seq p q | .alt p q => p.spells rules && q.spells rules
  | .star p | .node _ p | .hidden p => p.spells rules
  | .rule _ => rules
  | _ => true

/-- Whether a pattern takes a token, and the last it takes is of some kinds. -/
def closesWith : Pattern R L → Bool
  | .token kinds => kinds.all ok
  | .seq _ q => q.closesWith
  | .alt p q => p.closesWith && q.closesWith
  | .node _ p | .hidden p => p.closesWith
  | _ => false

end Tables

theorem spells_all (p : Pattern R L) : p.spells (fun _ => true) true := by
  induction p with
  | token kinds => exact List.all_eq_true.mpr fun _ _ => rfl
  | seq p q hp hq | alt p q hp hq => exact Bool.and_eq_true_iff.mpr ⟨hp, hq⟩
  | star p hp | node _ p hp | hidden p hp => exact hp
  | empty | sameLine | lineEnd | rule _ | ahead _ _ | absent _ _ => rfl

end Pattern

theorem Place.kinds_afterBreak (c : Place) (b : Nat) : (c.afterBreak b).kinds = c.kinds := by
  obtain ⟨o, ts, e⟩ := c
  cases ts <;> rfl

section Taken

variable {g : R → Pattern R L} {ok : Kind → Bool} {p : Pattern R L} {c : Place} {f : Found L}

theorem Matches.spells {rules : Bool} (hg : rules = true → ∀ r, (g r).spells ok rules) (h : Matches g p c f)
    (hp : p.spells ok rules) : ∃ ks, c.kinds = ks ++ f.place.kinds ∧ ∀ k ∈ ks, ok k := by
  have hnone : ∀ d : Place, ∃ ks, d.kinds = ks ++ d.kinds ∧ ∀ k ∈ ks, ok k :=
    fun d => ⟨[], rfl, List.forall_mem_nil _⟩
  have hboth : ∀ {d e x : Place}, (∃ ks, d.kinds = ks ++ e.kinds ∧ ∀ k ∈ ks, ok k) →
      (∃ ks, e.kinds = ks ++ x.kinds ∧ ∀ k ∈ ks, ok k) → ∃ ks, d.kinds = ks ++ x.kinds ∧ ∀ k ∈ ks, ok k := by
    rintro d e x ⟨ks, hks, hok⟩ ⟨ls, hls, hok'⟩
    exact ⟨ks ++ ls, by rw [hks, hls, List.append_assoc], List.forall_mem_append.mpr ⟨hok, hok'⟩⟩
  induction h with
  | empty | sameLine _ | starNil | ahead _ _ | absent => exact hnone _
  | @token kinds c t r ht hk =>
    refine ⟨[t.kind], ?_, List.forall_mem_singleton.mpr (List.all_eq_true.mp hp _ hk)⟩
    rw [Place.kinds, ht]
    rfl
  | lineEnd _ =>
    rw [Place.kinds_afterBreak]
    exact hnone _
  | seq _ _ ih1 ih2 =>
    rw [Pattern.spells, Bool.and_eq_true] at hp
    exact hboth (ih1 hp.1) (ih2 hp.2)
  | starCons _ _ ih1 ih2 => exact hboth (ih1 hp) (ih2 hp)
  | altFirst _ ih =>
    rw [Pattern.spells, Bool.and_eq_true] at hp
    exact ih hp.1
  | altSecond _ ih =>
    rw [Pattern.spells, Bool.and_eq_true] at hp
    exact ih hp.2
  | rule _ ih => exact ih (hg hp _)
  | node _ _ _ ih | hidden _ ih => exact ih hp

theorem Matches.closesWith (h : Matches g p c f) (hp : p.closesWith ok) :
    ∃ ks k, c.kinds = ks ++ k :: f.place.kinds ∧ ok k := by
  induction h with
  | empty | sameLine _ | starNil | ahead _ _ | absent | lineEnd _ | starCons _ _ _ _ | rule _ _ => cases hp
  | @token kinds c t r ht hk =>
    refine ⟨[], t.kind, ?_, List.all_eq_true.mp hp _ hk⟩
    rw [Place.kinds, ht]
    rfl
  | seq hfirst _ _ ih2 =>
    obtain ⟨ls, hls, -⟩ := hfirst.spells (fun _ r => (g r).spells_all) (Pattern.spells_all _)
    obtain ⟨ks, k, hks, hok⟩ := ih2 hp
    exact ⟨ls ++ ks, k, by rw [hls, hks, List.append_assoc], hok⟩
  | altFirst _ ih =>
    rw [Pattern.closesWith, Bool.and_eq_true] at hp
    exact ih hp.1
  | altSecond _ ih =>
    rw [Pattern.closesWith, Bool.and_eq_true] at hp
    exact ih hp.2
  | node _ _ _ ih | hidden _ ih => exact ih hp

end Taken

/-! ## The vocabulary of items -/

/-- Whether a token may stand in an item with a label. -/
def Label.allows : Label → Kind → Bool
  | .importDecl, k => [Kind.keyword .importK, .operator .leftParen, .operator .rightParen, .operator .dot,
      .operator .semicolon, .name, .constant, .allocator, .text].contains k
  | .packageClause, k => [Kind.keyword .packageK, .name, .constant, .allocator].contains k
  | _, k => k ≠ .keyword .importK && k ≠ .keyword .packageK

namespace Grammar

/-- Whether items with a label are made of rules. -/
def hasRules (l : Label) : Bool := l ≠ .importDecl && l ≠ .packageClause

theorem rules_spells {l : Label} (hl : hasRules l) (r : Rule) : (rules r).spells l.allows (hasRules l) := by
  have hall : ∀ r ∈ Rule.all, (rules r).spells (fun k => k ≠ .keyword .importK && k ≠ .keyword .packageK) true := by
    decide +kernel
  have hallows : l.allows = fun k => k ≠ .keyword .importK && k ≠ .keyword .packageK := by
    cases l <;> first | rfl | cases hl
  rw [hallows, hl]
  exact hall r r.mem_all

theorem openings_spell : ∀ o ∈ openings, o.pattern.spells o.label.allows (hasRules o.label) := by
  decide +kernel

/-- An import ends with a path or a parenthesis. -/
theorem import_closes : ∀ o ∈ openings, o.label = .importDecl →
    o.pattern.closesWith fun k => k = .text || k = .operator .rightParen := by
  decide +kernel

end Grammar

/-! ## Stretches of items -/

/-- The kind of a stretch that is a token. -/
def Lexeme.kind? (l : Lexeme) : Option Kind :=
  match l.cls with
  | .token k => some k
  | _ => none

theorem Lexeme.kind?_eq_some {l : Lexeme} {k : Kind} : l.kind? = some k ↔ l.cls = .token k := by
  unfold Lexeme.kind?
  cases l.cls <;> simp

/-- The kinds of the tokens among some stretches. -/
def kindsOf (ls : List Lexeme) : List Kind := ls.filterMap Lexeme.kind?

theorem kindsOf_append (a b : List Lexeme) : kindsOf (a ++ b) = kindsOf a ++ kindsOf b := List.filterMap_append

theorem kindsOf_line (ls : List Lexeme) : kindsOf (⟨.newline, ['\n']⟩ :: ls) = kindsOf ls := rfl

theorem mem_kindsOf {ls : List Lexeme} {k : Kind} : k ∈ kindsOf ls ↔ ∃ l ∈ ls, l.cls = .token k := by
  simp only [kindsOf, List.mem_filterMap, Lexeme.kind?_eq_some]

theorem noCode_iff_kindsOf {ls : List Lexeme} : NoCode ls ↔ kindsOf ls = [] := by
  simp only [kindsOf, List.filterMap_eq_nil_iff, Option.eq_none_iff_forall_ne_some, ne_eq, Lexeme.kind?_eq_some,
    NoCode]

/-- Whether a semicolon is the first token of stretches. -/
def LeadsSemicolon (ls : List Lexeme) : Prop := (kindsOf ls).head? = some (.operator .semicolon)

theorem leadsSemicolon_cons {l : Lexeme} {k : Kind} (hl : l.cls = .token k) (ls : List Lexeme) :
    LeadsSemicolon (l :: ls) ↔ k = .operator .semicolon := by
  rw [LeadsSemicolon, kindsOf, List.filterMap_cons_some (Lexeme.kind?_eq_some.mpr hl), List.head?_cons, Option.some_inj]

theorem leadsSemicolon_append {x : List Lexeme} (hx : NoCode x) (ls : List Lexeme) :
    LeadsSemicolon (x ++ ls) ↔ LeadsSemicolon ls := by
  rw [LeadsSemicolon, kindsOf_append, noCode_iff_kindsOf.mp hx, List.nil_append, LeadsSemicolon]

theorem place_kinds (pos : Nat) (b : Option Nat) (ls : List Lexeme) :
    (place pos b ls).tokens.map Token.kind = kindsOf ls := by
  induction ls generalizing pos b with
  | nil => rfl
  | cons l ls ih =>
    have hkind : kindsOf (l :: ls) = (l.kind?.toList ++ kindsOf ls) := by
      cases hk : l.kind? <;> simp [kindsOf, hk]
    rw [place, hkind]
    unfold Lexeme.kind?
    cases l.cls <;> simp [ih]

theorem item?_opening {c d : Place} {t : Node} (h : item? c = some (t, d)) (hl : Grammar.IsOpened t.label) :
    ∃ o ∈ Grammar.openings, o.label = t.label ∧ Matches Grammar.rules o.pattern c ⟨[t], d⟩ := by
  obtain ⟨o, ho, hm⟩ := Grammar.exists_opening (matches_of_item? h) hl
  refine ⟨o, ho, ?_, hm⟩
  cases hm
  rfl

namespace Segment.IsItem

open Grammar

variable {g : Segment}

/-- The stretches of an item match what its label opens with. -/
theorem exists_opening (h : g.IsItem) : ∃ o ∈ openings, o.label = g.node.label ∧
    ∃ c t d, Matches rules o.pattern c ⟨[t], d⟩ ∧ c.kinds = kindsOf g.code ∧ d.kinds = [] := by
  have hread := h.declares.read ⟨0, [], none⟩ nofun 0 none
  have hopened := h.declares.opened
  rw [← Tree.label_moved] at hopened
  obtain ⟨o, ho, hlabel, hm⟩ := item?_opening hread hopened
  rw [Tree.label_moved] at hlabel
  refine ⟨o, ho, hlabel, _, _, _, hm, ?_, rfl⟩
  rw [List.append_nil]
  exact place_kinds 0 none g.code

/-- The tokens of an item are those that its label allows. -/
theorem vocabulary (h : g.IsItem) {l : Lexeme} (hl : l ∈ g.code) {k : Kind} (hk : l.cls = .token k) :
    g.node.label.allows k := by
  obtain ⟨o, ho, hlabel, c, t, d, hm, hc, hd⟩ := h.exists_opening
  obtain ⟨ks, hks, hok⟩ := hm.spells (fun hrules r => rules_spells hrules r) (openings_spell o ho)
  rw [hc, hd, List.append_nil] at hks
  rw [← hlabel]
  exact hok k (hks ▸ mem_kindsOf.mpr ⟨l, hl, hk⟩)

/-- An item begins with the word of its label. -/
theorem opening (h : g.IsItem) : ∃ o ∈ openings, o.label = g.node.label ∧
    ∃ l r, g.code = l :: r ∧ l.cls = .token (.keyword o.word) := by
  obtain ⟨o, ho, hlabel, c, t, d, hm, hc, -⟩ := h.exists_opening
  obtain ⟨l, r, k, hcode, hk, -⟩ := h.declares.head
  refine ⟨o, ho, hlabel, l, r, hcode, ?_⟩
  cases hm with
  | node hm _ _ =>
    cases hm with
    | seq hword _ =>
      cases hword with
      | token hu hmem =>
        have hkinds : kindsOf g.code = k :: kindsOf r := by
          rw [hcode, kindsOf, List.filterMap_cons_some (Lexeme.kind?_eq_some.mpr hk)]
          rfl
        rw [Place.kinds, hu, List.map_cons, hkinds, List.cons.injEq, List.mem_singleton.mp hmem] at hc
        rw [hk, ← hc.1]

/-- An import ends with a path or a parenthesis. -/
theorem import_last (h : g.IsItem) (hl : g.node.label = .importDecl) : ∃ x l, g.code = x ++ [l] ∧
    (l.cls = .token .text ∨ l.cls = .token (.operator .rightParen)) := by
  obtain ⟨o, ho, hlabel, c, t, d, hm, hc, hd⟩ := h.exists_opening
  obtain ⟨ks, k, hks, hok⟩ := hm.closesWith (import_closes o ho (hlabel.trans hl))
  obtain ⟨x, l, k', hcode, hk'⟩ := h.declares.last h.nonempty
  refine ⟨x, l, hcode, ?_⟩
  have hlast : kindsOf [l] = [k'] := by
    rw [kindsOf, List.filterMap_cons_some (Lexeme.kind?_eq_some.mpr hk')]
    rfl
  rw [hc, hd, hcode, kindsOf_append, hlast] at hks
  obtain ⟨-, hkk⟩ := List.append_inj' hks rfl
  rw [hk', (List.cons.inj hkk).1]
  simpa using hok

/-- A package clause is its word and a name. -/
theorem clause_kinds (h : g.IsItem) (hl : g.node.label = .packageClause) :
    ∃ k ∈ [Kind.name, .constant, .allocator], kindsOf g.code = [.keyword .packageK, k] := by
  obtain ⟨o, ho, hlabel, c, t, d, hm, hc, hd⟩ := h.exists_opening
  have hall : ∀ o ∈ openings, o.label = .packageClause →
      o.word = .packageK ∧ o.rest = .node .name name := by
    unfold openings outerOpenings innerOpenings
    rw [List.cons_append, List.cons_append, List.cons_append, List.cons_append, List.nil_append]
    repeat rw [List.forall_mem_cons]
    exact ⟨fun _ => ⟨rfl, rfl⟩, nofun, nofun, nofun, nofun, nofun, nofun, List.forall_mem_nil _⟩
  obtain ⟨hword, hrest⟩ := hall o ho (hlabel.trans hl)
  cases hm with
  | node hm _ _ =>
    rw [hword, hrest] at hm
    cases hm with
    | seq hpackage hname =>
      cases hpackage with
      | token hu hk =>
        cases hname with
        | node hname _ _ =>
          cases hname with
          | @token _ _ v _ hv hkind =>
            refine ⟨v.kind, hkind, ?_⟩
            dsimp only at hv
            rw [← hc, Place.kinds, hu, List.map_cons, hv, List.map_cons, List.mem_singleton.mp hk]
            exact congrArg _ (congrArg _ hd)

end Segment.IsItem

end GoSplice.Syntax
