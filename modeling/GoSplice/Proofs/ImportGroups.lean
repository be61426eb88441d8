import GoSplice.Proofs.ImportEdits

/-!
# Imports in parentheses

The specs between parentheses stand behind line ends or semicolons.  A group is read just if its
tokens are such specs:

    item? ⟨o, import ( ts ) r, x⟩ = the import of ns, then r ↔ IsGroup ts ns
                                                               (item?_group, isGroup_of_item?)
-/

namespace GoSplice

open Syntax

namespace Syntax

open Grammar Pattern

/-! ## Specs and what stands between them -/

/-- Whether a spec begins a line. -/
def BeginsLine (name : Option Token) (path : Token) : Prop := (name.getD path).lineBreak ≠ none

/-- The specs behind another one: each begins a line, or stands behind a semicolon in the line. -/
inductive MoreSpecs : List Token → List Node → Prop
  | nil : MoreSpecs [] []
  | line {name : Option Token} {path : Token} {ts : List Token} {ns : List Node} : IsSpec name path →
      BeginsLine name path → MoreSpecs ts ns →
      MoreSpecs (name.toList ++ path :: ts) (specNodeOf name path :: ns)
  | semicolon {name : Option Token} {s path : Token} {ts : List Token} {ns : List Node} :
      s.kind = .operator .semicolon → s.lineBreak = none → IsSpec name path → MoreSpecs ts ns →
      MoreSpecs (s :: (name.toList ++ path :: ts)) (specNodeOf name path :: ns)

/-- The tokens between the parentheses of an import. -/
inductive IsGroup : List Token → List Node → Prop
  | nil : IsGroup [] []
  | specs {name : Option Token} {path : Token} {ts : List Token} {ns : List Node} : IsSpec name path →
      MoreSpecs ts ns → IsGroup (name.toList ++ path :: ts) (specNodeOf name path :: ns)
  | semicolon {name : Option Token} {s path : Token} {ts : List Token} {ns : List Node} : IsSpec name path →
      MoreSpecs ts ns → s.kind = .operator .semicolon → s.lineBreak = none →
      IsGroup (name.toList ++ path :: (ts ++ [s])) (specNodeOf name path :: ns)

/-! ## Groups that are read -/

section Forward

variable {o n : Nat} {x : Option Nat} {r ts : List Token} {ns : List Node} {name : Option Token} {path z : Token}

theorem find?_spec (h : IsSpec name path) : find? rules (n + 6) importSpec ⟨o, name.toList ++ path :: r, x⟩ =
    some ⟨[specNodeOf name path], ⟨path.stop, r, x⟩⟩ := by
  obtain ⟨k, m, e, b⟩ := path
  obtain ⟨hname, ⟨hkind, hpath⟩, hrange⟩ := h
  obtain rfl : k = .text := hkind
  cases name with
  | none => exact find?_importSpec n o m e b x r hpath
  | some t =>
    obtain ⟨hk, ht⟩ := hname t rfl
    exact find?_namedSpec hk n o t.start t.stop m e t.lineBreak b x r ht hpath hrange

/-- No spec begins with a parenthesis or a semicolon. -/
theorem find?_spec_none (hz : z.kind = .operator .rightParen ∨ z.kind = .operator .semicolon) :
    find? rules (n + 6) importSpec ⟨o, z :: r, x⟩ = none := by
  have hnot : ∀ {kinds : List Kind}, .operator .rightParen ∉ kinds → .operator .semicolon ∉ kinds → z.kind ∉ kinds := by
    intro kinds hparen hsemicolon
    rcases hz with h | h <;> rwa [h]
  have hname : find? rules (n + 2) (any [operator .dot, Grammar.name]) ⟨o, z :: r, x⟩ = none :=
    (find?_alt_of_none (find?_token_of_not_mem (hnot (by decide) (by decide)))).trans
      (find?_token_of_not_mem (hnot (by decide) (by decide)))
  have hnamed : find? rules (n + 4) (.seq (.node .importName (any [operator .dot, Grammar.name]))
      (.node .importPath (.token [.text]))) ⟨o, z :: r, x⟩ = none :=
    find?_seq_of_none (find?_node_of_none hname)
  have hpath : find? rules (n + 4) (.node .importPath (.token [.text])) ⟨o, z :: r, x⟩ = none :=
    find?_node_of_none (find?_token_of_not_mem (hnot (by decide) (by decide)))
  exact find?_node_of_none ((find?_alt_of_none hnamed).trans hpath)

theorem find?_terminator_line {t : Token} {b : Nat} (ht : t.lineBreak = some b) :
    find? rules (n + 2) terminator ⟨o, t :: r, x⟩ = some ⟨[], ⟨b, { t with lineBreak := none } :: r, x⟩⟩ := by
  simp [terminator, any, find?, Place.lineBreak, Place.afterBreak, ht]

theorem find?_terminator_semicolon {s : Token} (hs : s.kind = .operator .semicolon) (hbreak : s.lineBreak = none) :
    find? rules (n + 2) terminator ⟨o, s :: r, x⟩ = some ⟨[], ⟨s.stop, r, x⟩⟩ := by
  simp [terminator, any, semicolon, operator, find?, Place.lineBreak, hbreak, hs]

theorem find?_terminator_none {t : Token} (ht : t.kind ≠ .operator .semicolon) (hbreak : t.lineBreak = none) :
    find? rules (n + 2) terminator ⟨o, t :: r, x⟩ = none := by
  simp [terminator, any, semicolon, operator, find?, Place.lineBreak, hbreak, ht]

/-- What closes a group, before a line end or behind it, is no further spec. -/
theorem find?_more_none (hz : z.kind = .operator .rightParen ∨ z.kind = .operator .semicolon ∧ z.lineBreak = none ∧
      ∃ p r', r = p :: r' ∧ p.kind = .operator .rightParen) :
    find? rules (n + 7) (.seq terminator importSpec) ⟨o, z :: r, x⟩ = none := by
  rcases hz with hz | ⟨hz, hbreak, p, r', rfl, hp⟩
  · cases hb : z.lineBreak with
    | none => exact find?_seq_of_none (find?_terminator_none (by rw [hz]; decide) hb)
    | some b =>
      exact (find?_seq_of_silent (find?_terminator_line hb)).trans
        (find?_spec_none (z := { z with lineBreak := none }) (.inl hz))
  · exact (find?_seq_of_silent (find?_terminator_semicolon hz hbreak)).trans (find?_spec_none (.inl hp))

theorem find?_star_of_none {p : P} {c : Place} (h : find? rules n p c = none) :
    find? rules (n + 1) (.star p) c = some ⟨[], c⟩ := by
  simp only [find?, h]

theorem find?_star_of_some {p : P} {c : Place} {f g : Found Label} (h : find? rules n p c = some f)
    (hrest : find? rules n (.star p) f.place = some g) :
    find? rules (n + 1) (.star p) c = some ⟨f.trees ++ g.trees, g.place⟩ := by
  simp only [find?, h, hrest]

/-- Further specs are read up to where no spec follows. -/
theorem find?_more (h : MoreSpecs ts ns)
    (hnone : ∀ n o, find? rules (n + 7) (.seq terminator importSpec) ⟨o, r, x⟩ = none) (hn : ts.length + 8 ≤ n) :
    ∃ e, find? rules n (.star (.seq terminator importSpec)) ⟨o, ts ++ r, x⟩ = some ⟨ns, ⟨e, r, x⟩⟩ := by
  induction h generalizing o n with
  | nil =>
    obtain ⟨n, rfl⟩ : ∃ m, n = m + 8 := ⟨n - 8, by simp at hn; omega⟩
    exact ⟨o, find?_star_of_none (hnone n o)⟩
  | @line name path ts ns hspec hline hmore ih =>
    rw [List.length_append, List.length_cons] at hn
    obtain ⟨n, rfl⟩ : ∃ m, n = m + 8 := ⟨n - 8, by omega⟩
    obtain ⟨e, hrest⟩ := @ih path.stop (n + 7) (by omega)
    obtain ⟨b, hb⟩ := Option.ne_none_iff_exists'.mp hline
    refine ⟨e, ?_⟩
    -- the line end goes, and the spec is read without it
    cases name with
    | none =>
      have hread : find? rules (n + 6) importSpec ⟨b, { path with lineBreak := none } :: (ts ++ r), x⟩ =
          some ⟨[specNodeOf none path], ⟨path.stop, ts ++ r, x⟩⟩ :=
        @find?_spec b n x (ts ++ r) none { path with lineBreak := none } ⟨nofun, hspec.isPath, hspec.range⟩
      exact find?_star_of_some (find?_seq_of_some (find?_terminator_line hb) hread) hrest
    | some t =>
      have hread : find? rules (n + 6) importSpec ⟨b, { t with lineBreak := none } :: path :: (ts ++ r), x⟩ =
          some ⟨[specNodeOf (some t) path], ⟨path.stop, ts ++ r, x⟩⟩ :=
        @find?_spec b n x (ts ++ r) (some { t with lineBreak := none }) path
          ⟨by rintro _ ⟨⟩; exact hspec.isName t rfl, hspec.isPath, hspec.range⟩
      exact find?_star_of_some (find?_seq_of_some (find?_terminator_line hb) hread) hrest
  | @semicolon name s path ts ns hs hbreak hspec hmore ih =>
    rw [List.length_cons, List.length_append, List.length_cons] at hn
    obtain ⟨n, rfl⟩ : ∃ m, n = m + 8 := ⟨n - 8, by omega⟩
    obtain ⟨e, hrest⟩ := @ih path.stop (n + 7) (by omega)
    have hterminator := @find?_terminator_semicolon o (n + 4) x (name.toList ++ path :: (ts ++ r)) s hs hbreak
    have hseq := find?_seq_of_some hterminator (find?_spec hspec)
    refine ⟨e, ?_⟩
    rw [List.cons_append, List.append_assoc, List.cons_append]
    exact find?_star_of_some hseq hrest

/-- The optional terminator of a group leaves the parenthesis that closes it. -/
theorem find?_lastTerminator (hz : z.kind = .operator .rightParen) : ∃ e b,
    find? rules (n + 3) (optional terminator) ⟨o, z :: r, x⟩ = some ⟨[], ⟨e, { z with lineBreak := b } :: r, x⟩⟩ := by
  cases hb : z.lineBreak with
  | none =>
    refine ⟨o, none, (find?_alt_of_none (find?_terminator_none (by rw [hz]; decide) hb)).trans ?_⟩
    rw [← hb]
    rfl
  | some b => exact ⟨b, none, find?_alt_of_some (find?_terminator_line hb)⟩

/-- The members of a group and the parenthesis that closes it are read. -/
theorem find?_members (h : IsGroup ts ns) (hz : z.kind = .operator .rightParen) (hrange : z.start < z.stop)
    (hn : ts.length + 12 ≤ n) :
    find? rules n (.seq (body importSpec) (.node .closeParen rightParen)) ⟨o, ts ++ z :: r, x⟩ =
      some ⟨ns ++ [.node .closeParen z.start z.stop []], ⟨z.stop, r, x⟩⟩ := by
  have hclose : ∀ {m e b}, find? rules (m + 2) (.node .closeParen rightParen)
      ⟨e, { z with lineBreak := b } :: r, x⟩ = some ⟨[.node .closeParen z.start z.stop []], ⟨z.stop, r, x⟩⟩ :=
    fun {m e b} => find?_token_node (t := { z with lineBreak := b }) (List.mem_singleton.mpr hz) hrange
  cases h with
  | nil =>
    obtain ⟨n, rfl⟩ : ∃ m, n = m + 12 := ⟨n - 12, by simp at hn; omega⟩
    have hbody : find? rules (n + 11) (body importSpec) ⟨o, z :: r, x⟩ = some ⟨[], ⟨o, z :: r, x⟩⟩ :=
      (find?_alt_of_none (find?_seq_of_none (find?_spec_none (.inl hz)))).trans rfl
    exact find?_seq_of_some hbody (@hclose (n + 9) o z.lineBreak)
  | @specs name path us ms hspec hmore =>
    rw [List.length_append, List.length_cons] at hn
    obtain ⟨n, rfl⟩ : ∃ m, n = m + 12 := ⟨n - 12, by omega⟩
    obtain ⟨e, hstar⟩ := @find?_more path.stop (n + 8) x (z :: r) us ms hmore (fun m o => find?_more_none (.inl hz)) (by omega)
    obtain ⟨e', b, hlast⟩ := @find?_lastTerminator e (n + 5) x r z hz
    have hbody : find? rules (n + 11) (body importSpec) ⟨o, name.toList ++ path :: (us ++ z :: r), x⟩ =
        some ⟨[specNodeOf name path] ++ (ms ++ []), ⟨e', { z with lineBreak := b } :: r, x⟩⟩ :=
      find?_alt_of_some (find?_seq_of_some (find?_spec hspec) (find?_seq_of_some hstar hlast))
    rw [List.append_nil] at hbody
    rw [List.append_assoc, List.cons_append]
    exact find?_seq_of_some hbody (@hclose (n + 9) e' b)
  | @semicolon name s path us ms hspec hmore hs hbreak =>
    simp only [List.length_append, List.length_cons, List.length_nil] at hn
    obtain ⟨n, rfl⟩ : ∃ m, n = m + 12 := ⟨n - 12, by omega⟩
    obtain ⟨e, hstar⟩ := @find?_more path.stop (n + 8) x (s :: z :: r) us ms hmore
      (fun m o => find?_more_none (.inr ⟨hs, hbreak, z, r, rfl, hz⟩)) (by omega)
    have hlast := @find?_terminator_semicolon e (n + 5) x (z :: r) s hs hbreak
    have hbody : find? rules (n + 11) (body importSpec) ⟨o, name.toList ++ path :: (us ++ s :: z :: r), x⟩ =
        some ⟨[specNodeOf name path] ++ (ms ++ []), ⟨s.stop, z :: r, x⟩⟩ :=
      find?_alt_of_some (find?_seq_of_some (find?_spec hspec)
        (find?_seq_of_some hstar (find?_alt_of_some (q := Pattern.empty) hlast)))
    rw [List.append_nil] at hbody
    rw [List.append_assoc, List.cons_append, List.append_assoc, List.singleton_append]
    exact find?_seq_of_some hbody (@hclose (n + 9) s.stop z.lineBreak)

/-- Tokens of a group between parentheses are read as an import. -/
theorem item?_group {w p : Token} (hw : w.kind = .keyword .importK) (hp : p.kind = .operator .leftParen)
    (h : IsGroup ts ns) (hz : z.kind = .operator .rightParen) (hrange : z.start < z.stop) (hlt : w.start < z.stop) :
    item? ⟨o, w :: p :: (ts ++ z :: r), x⟩ =
      some (.node .importDecl w.start z.stop (ns ++ [.node .closeParen z.start z.stop []]), ⟨z.stop, r, x⟩) := by
  obtain ⟨_, s, e, b⟩ := w
  obtain ⟨_, s', e', b'⟩ := p
  obtain rfl := hw
  obtain rfl := hp
  rw [item?_eq_some_iff, ← find?_item (Nat.le_add_right _ 20)]
  have hbound : ts.length + 12 ≤ stepBound (⟨.keyword .importK, s, e, b⟩ :: ⟨.operator .leftParen, s', e', b'⟩ ::
      (ts ++ z :: r)) := by
    simp only [stepBound, List.length_cons, List.length_append]
    omega
  generalize stepBound _ = f at hbound
  have hclause : find? rules (f + 19) (.node .packageClause (.seq (keyword .packageK) (.node .name Grammar.name)))
      ⟨o, ⟨.keyword .importK, s, e, b⟩ :: ⟨.operator .leftParen, s', e', b'⟩ :: (ts ++ z :: r), x⟩ = none :=
    find?_node_of_none (find?_seq_of_none (find?_token_of_not_mem (by simp)))
  have hmembers := @find?_members e' (f + 14) x r ts ns z h hz hrange (by omega)
  have hgroup : find? rules (f + 15) (all [leftParen, body importSpec, .node .closeParen rightParen])
      ⟨e, ⟨.operator .leftParen, s', e', b'⟩ :: (ts ++ z :: r), x⟩ =
      some ⟨ns ++ [.node .closeParen z.start z.stop []], ⟨z.stop, r, x⟩⟩ :=
    (find?_seq_of_silent (d := ⟨e', ts ++ z :: r, x⟩) rfl).trans hmembers
  have hrest : find? rules (f + 17) importDeclaration
      ⟨o, ⟨.keyword .importK, s, e, b⟩ :: ⟨.operator .leftParen, s', e', b'⟩ :: (ts ++ z :: r), x⟩ =
      some ⟨ns ++ [.node .closeParen z.start z.stop []], ⟨z.stop, r, x⟩⟩ :=
    (find?_seq_of_silent rfl).trans (find?_alt_of_some hgroup)
  have hitem := find?_node_of_some (l := Label.importDecl) (t := ⟨.keyword .importK, s, e, b⟩) rfl hrest hlt
  exact (find?_alt_of_none hclause).trans (find?_alt_of_some hitem)

end Forward

/-! ## What is read as a group -/

section Backward

variable {n : Nat} {c : Place} {f : Found Label}

theorem find?_seq_eq_some {p q : P} (h : find? rules n (.seq p q) c = some f) : ∃ m g k, n = m + 1 ∧
    find? rules m p c = some g ∧ find? rules m q g.place = some k ∧ f = ⟨g.trees ++ k.trees, k.place⟩ := by
  cases n with
  | zero => cases h
  | succ n =>
    rw [find?] at h
    split at h
    · cases h
    · next g hg =>
      split at h
      · cases h
      · next k hk => exact ⟨n, g, k, rfl, hg, hk, (Option.some.inj h).symm⟩

theorem find?_alt_eq_some {p q : P} (h : find? rules n (.alt p q) c = some f) : ∃ m, n = m + 1 ∧
    (find? rules m p c = some f ∨ find? rules m p c = none ∧ find? rules m q c = some f) := by
  cases n with
  | zero => cases h
  | succ n =>
    rw [find?] at h
    refine ⟨n, rfl, ?_⟩
    split at h
    · next g hg => exact .inl (hg.trans h)
    · next hg => exact .inr ⟨hg, h⟩

/-- A terminator is a line end before the next token, or a semicolon in the line. -/
theorem find?_terminator_eq_some (h : find? rules n terminator c = some f) : f.trees = [] ∧
    ((∃ b, c.lineBreak = some b ∧ f.place = c.afterBreak b) ∨
      ∃ s r, c.tokens = s :: r ∧ s.kind = .operator .semicolon ∧ s.lineBreak = none ∧
        f.place = ⟨s.stop, r, c.lastBreak⟩) := by
  obtain ⟨m, rfl, h | ⟨hline, h⟩⟩ := find?_alt_eq_some h
  · cases m with
    | zero => cases h
    | succ m =>
      obtain ⟨b, hb, rfl⟩ := Option.map_eq_some_iff.mp h
      exact ⟨rfl, .inl ⟨b, hb, rfl⟩⟩
  · cases m with
    | zero => cases h
    | succ m =>
      have hbreak : c.lineBreak = none := Option.map_eq_none_iff.mp hline
      cases matches_of_find? h with
      | @token _ _ s r hs hk =>
        refine ⟨rfl, .inr ⟨s, r, hs, List.mem_singleton.mp hk, ?_, rfl⟩⟩
        rwa [Place.lineBreak, hs] at hbreak

/-- A spec that is read behind a line end begins a line. -/
theorem exists_spec_afterBreak {b : Nat} {name : Option Token} {path : Token} {r : List Token}
    (hb : c.lineBreak = some b) (hr : (c.afterBreak b).tokens = name.toList ++ path :: r) (h : IsSpec name path) :
    ∃ name' path', c.tokens = Option.toList name' ++ path' :: r ∧ IsSpec name' path' ∧ BeginsLine name' path' ∧
      specNodeOf name' path' = specNodeOf name path := by
  obtain ⟨o, ts, x⟩ := c
  cases ts with
  | nil => cases name <;> cases hr
  | cons t ts =>
    have hline : t.lineBreak ≠ none := by
      rw [show t.lineBreak = some b from hb]
      exact Option.some_ne_none b
    cases name with
    | none =>
      obtain ⟨rfl, rfl⟩ := List.cons.inj hr
      exact ⟨none, t, rfl, ⟨nofun, h.isPath, h.range⟩, hline, rfl⟩
    | some n =>
      obtain ⟨rfl, rfl⟩ := List.cons.inj hr
      refine ⟨some t, path, rfl, ⟨?_, h.isPath, h.range⟩, hline, rfl⟩
      rintro _ ⟨⟩
      exact h.isName { t with lineBreak := none } rfl

/-- What is read behind a spec are further specs. -/
theorem moreSpecs_of_find? (h : find? rules n (.star (.seq terminator importSpec)) c = some f) :
    ∃ ts, c.tokens = ts ++ f.place.tokens ∧ MoreSpecs ts f.trees := by
  induction n generalizing c f with
  | zero => cases h
  | succ n ih =>
    rw [find?] at h
    split at h
    · cases h
      exact ⟨[], rfl, .nil⟩
    · next g hg =>
      split at h
      · cases h
      · next k hk =>
        cases h
        obtain ⟨ts, hts, hmore⟩ := ih hk
        obtain ⟨m, t, s, -, hterminator, hspec, rfl⟩ := find?_seq_eq_some hg
        obtain ⟨name, path, r, hr, hread, rfl⟩ := isSpec_of_matches (matches_of_find? hspec)
        dsimp only at hts
        subst hts
        obtain ⟨htrees, ⟨b, hb, ht⟩ | ⟨s, r', hs, hsemicolon, hbreak, ht⟩⟩ := find?_terminator_eq_some hterminator
        · rw [ht] at hr
          obtain ⟨name', path', hc, hread, hline, hsame⟩ := exists_spec_afterBreak hb hr hread
          refine ⟨name'.toList ++ path' :: ts, by rw [hc]; simp, ?_⟩
          rw [htrees, ← hsame]
          exact .line hread hline hmore
        · rw [ht] at hr
          refine ⟨s :: (name.toList ++ path :: ts), hs.trans (congrArg (s :: ·) (hr.trans ?_)), ?_⟩
          · rw [← List.cons_append, ← List.append_assoc]
            rfl
          · rw [htrees]
            exact .semicolon hsemicolon hbreak hread hmore

/-- What stands behind the last spec is a line end before the next token, a semicolon or nothing. -/
theorem find?_lastTerminator_eq_some {z : Token} {r : List Token} (h : find? rules n (optional terminator) c = some f)
    (hz : f.place.tokens = z :: r) : f.trees = [] ∧ ∃ sep z', c.tokens = sep ++ z' :: r ∧ z'.core = z.core ∧
      (sep = [] ∨ ∃ s : Token, sep = [s] ∧ s.kind = .operator .semicolon ∧ s.lineBreak = none) := by
  obtain ⟨_, -, hterminator | ⟨-, hempty⟩⟩ := find?_alt_eq_some h
  · obtain ⟨htrees, ⟨b, hb, he⟩ | ⟨s, r', hs, hsemicolon, hbreak, he⟩⟩ := find?_terminator_eq_some hterminator
    · refine ⟨htrees, [], ?_⟩
      obtain ⟨o, ts, x⟩ := c
      rw [he] at hz
      cases ts with
      | nil => cases hz
      | cons t ts =>
        obtain ⟨rfl, rfl⟩ := List.cons.inj hz
        exact ⟨t, rfl, rfl, .inl rfl⟩
    · rw [he] at hz
      obtain rfl : r' = z :: r := hz
      exact ⟨htrees, [s], z, hs, rfl, .inr ⟨s, rfl, hsemicolon, hbreak⟩⟩
  · cases matches_of_find? hempty with
    | empty => exact ⟨rfl, [], z, hz, rfl, .inl rfl⟩

/-- What stands between a parenthesis and the next one that is read is a group. -/
theorem isGroup_of_find? (h : find? rules n (.seq (body importSpec) (.node .closeParen rightParen)) c = some f) :
    ∃ ts z ns, c.tokens = ts ++ z :: f.place.tokens ∧ IsGroup ts ns ∧ z.kind = .operator .rightParen ∧
      z.start < z.stop ∧ f.trees = ns ++ [.node .closeParen z.start z.stop []] := by
  obtain ⟨m, g, k, -, hbody, hclose, rfl⟩ := find?_seq_eq_some h
  obtain ⟨z, hz, hkind, hlt, htrees⟩ : ∃ z, g.place.tokens = z :: k.place.tokens ∧ z.kind = .operator .rightParen ∧
      z.start < z.stop ∧ k.trees = [.node .closeParen z.start z.stop []] := by
    cases matches_of_find? hclose with
    | node hparen hz hlt =>
      cases hparen with
      | @token _ _ z r hz' hk =>
        rw [hz'] at hz
        obtain ⟨rfl, -⟩ := List.cons.inj hz
        exact ⟨z, hz', List.mem_singleton.mp hk, hlt, rfl⟩
  obtain ⟨m', -, hspecs | ⟨-, hnone⟩⟩ := find?_alt_eq_some hbody
  · obtain ⟨_, s, l, -, hspec, hrest, rfl⟩ := find?_seq_eq_some hspecs
    obtain ⟨_, t, e, -, hstar, hlast, rfl⟩ := find?_seq_eq_some hrest
    obtain ⟨name, path, r, hr, hread, rfl⟩ := isSpec_of_matches (matches_of_find? hspec)
    obtain ⟨ts, hts, hmore⟩ := moreSpecs_of_find? hstar
    dsimp only at hts hz
    subst hts
    obtain ⟨he, sep, z', ht, hcore, hsep⟩ := find?_lastTerminator_eq_some hlast hz
    obtain ⟨hk, hstart, hstop⟩ : z'.kind = z.kind ∧ z'.start = z.start ∧ z'.stop = z.stop := by
      simpa [Token.core] using hcore
    refine ⟨name.toList ++ path :: (ts ++ sep), z', specNodeOf name path :: t.trees, ?_, ?_, hk.trans hkind, ?_, ?_⟩
    · rw [hr, ht]
      simp
    · rcases hsep with rfl | ⟨s, rfl, hs, hbreak⟩
      · rw [List.append_nil]
        exact .specs hread hmore
      · exact .semicolon hread hmore hs hbreak
    · rwa [hstart, hstop]
    · rw [htrees, he, hstart, hstop]
      simp
  · cases matches_of_find? hnone with
    | empty => exact ⟨[], z, [], hz, .nil, hkind, hlt, htrees⟩

/-- An import that is read, with a parenthesis behind its word, is a group. -/
theorem isGroup_of_item? {o : Nat} {x : Option Nat} {w p : Token} {us : List Token} {t : Node} {d : Place}
    (h : item? ⟨o, w :: p :: us, x⟩ = some (t, d)) (hl : t.label = .importDecl) (hp : p.kind = .operator .leftParen) :
    ∃ ts z ns, us = ts ++ z :: d.tokens ∧ IsGroup ts ns ∧ z.kind = .operator .rightParen ∧ z.start < z.stop ∧
      t.children = ns ++ [.node .closeParen z.start z.stop []] := by
  rw [item?_eq_some_iff] at h
  generalize stepBound _ = n at h
  -- no other item is labelled as an import
  obtain ⟨_, -, hclause | ⟨-, h⟩⟩ := find?_alt_eq_some h
  · cases matches_of_find? hclause
    cases hl
  obtain ⟨m, -, himport | ⟨-, h⟩⟩ := find?_alt_eq_some h
  · cases m with
    | zero => cases himport
    | succ m =>
      rw [find?] at himport
      obtain ⟨f, hf, hnode⟩ := Option.bind_eq_some_iff.mp himport
      obtain ⟨_, g, k, -, hword, hrest, rfl⟩ := find?_seq_eq_some hf
      have hchildren : t.children = k.trees ∧ d = k.place := by
        unfold nodeOver? at hnode
        dsimp only at hnode
        split at hnode
        · cases hnode
          cases matches_of_find? hword
          exact ⟨rfl, rfl⟩
        · cases hnode
      obtain ⟨hchildren, rfl⟩ := hchildren
      cases matches_of_find? hword with
      | @token _ _ _ r hr _ =>
        obtain ⟨rfl, rfl⟩ := List.cons.inj hr
        obtain ⟨_, -, hgroup | ⟨-, hspec⟩⟩ := find?_alt_eq_some hrest
        · obtain ⟨_, g, l, -, hparen, hmembers, rfl⟩ := find?_seq_eq_some hgroup
          cases matches_of_find? hparen with
          | @token _ _ _ r hr _ =>
            obtain ⟨rfl, rfl⟩ := List.cons.inj hr
            obtain ⟨ts, z, ns, hus, hall, hz, hlt, htrees⟩ := isGroup_of_find? hmembers
            exact ⟨ts, z, ns, hus, hall, hz, hlt, by rw [hchildren, ← htrees]; rfl⟩
        · -- a spec does not begin with a parenthesis
          obtain ⟨name, path, r, hr, hread, -⟩ := isSpec_of_matches (matches_of_find? hspec)
          cases name with
          | none =>
            obtain ⟨rfl, -⟩ := List.cons.inj hr
            have := hread.isPath.1
            rw [hp] at this
            cases this
          | some n =>
            obtain ⟨rfl, -⟩ := List.cons.inj hr
            have := (hread.isName p rfl).1
            rw [hp] at this
            exact absurd this (by decide)
  · obtain ⟨q, hq, hm⟩ := @Matches.of_any _ _ _ [_, _, _] _ _ (matches_of_find? h)
    simp only [List.mem_cons, List.not_mem_nil, or_false] at hq
    obtain rfl | rfl | rfl := hq
    · cases hm
      cases hl
    · cases hm
      cases hl
    · cases hm with
      | rule hm =>
        have hs : Grammar.statement.Emits (· ≠ .importDecl) := by
          simp [Grammar.statement, Pattern.any, Pattern.Emits, Grammar.simple]
        exact absurd hl (hm.label hs t List.mem_cons_self)

end Backward

end Syntax

end GoSplice
