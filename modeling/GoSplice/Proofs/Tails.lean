import GoSplice.Proofs.ImportPlaces

/-!
# Texts at the end of a file

Declarations that are put behind the last line of a file stay there as they are,
whatever is put in before them: imports go behind an import or the package
clause, and neither stands among what was put behind.

    Tailed s a b → Tailed (s ++ t ++ "\n") a (b ++ the stretches of t)     (Tailed.append)
    Tailed s a b → a line with an import among a → Tailed s' a' b          (Tailed.insert)
-/

namespace GoSplice

open Syntax

namespace Syntax

open Segment

/-! ## Stretches and their tokens -/

theorem noCode_of_length {x m : List Lexeme} (h : (kindsOf (x ++ m)).length = (kindsOf x).length) : NoCode m := by
  rw [kindsOf_append, List.length_append] at h
  exact noCode_iff_kindsOf.mpr (List.eq_nil_of_length_eq_zero (by omega))

/-- A token is told by the number of tokens before it. -/
theorem split_kinds {x y r s : List Lexeme} {l m : Lexeme} {k j : Kind} (h : x ++ l :: r = y ++ m :: s)
    (hl : l.cls = .token k) (hm : m.cls = .token j) (hlen : (kindsOf x).length = (kindsOf y).length) :
    x = y ∧ l = m := by
  rcases append_cons_eq_append_cons h with ⟨c, rfl, -⟩ | ⟨c, rfl, -⟩ | ⟨heq, hlm, -⟩
  · exact absurd hm (noCode_of_length hlen m List.mem_cons_self j)
  · exact absurd hl (noCode_of_length hlen.symm l List.mem_cons_self k)
  · exact ⟨heq, hlm⟩

/-- The tokens of segments are semicolons and those of items. -/
theorem Segment.Linked.kinds {gs : List Segment} (h : Linked gs) {k : Kind} (hk : k ∈ kindsOf (joined gs)) :
    k = .operator .semicolon ∨ ∃ g ∈ gs, k ∈ kindsOf g.code := by
  have hfiller : ∀ gap : List Lexeme, (∀ l ∈ gap, l.cls.isFiller) → k ∈ kindsOf gap → k = .operator .semicolon := by
    intro gap hgap hk
    obtain ⟨l, hl, hcls⟩ := mem_kindsOf.mp hk
    have := hgap l hl
    rw [hcls] at this
    simpa [LexemeClass.isFiller] using this
  induction h with
  | nil => cases hk
  | @cons g gs hg hgap _ ih =>
    rw [joined_cons, kindsOf_append, kindsOf_append, List.mem_append, List.mem_append] at hk
    rcases hk with hk | hk | hk
    · exact Or.inr ⟨g, List.mem_cons_self, hk⟩
    · exact Or.inl (hfiller _ hgap.isFiller hk)
    · refine (ih hk).imp_right ?_
      rintro ⟨h, hh, hk⟩
      exact ⟨h, List.mem_cons_of_mem _ hh, hk⟩
  | @last g hg hgap _ =>
    rw [joined_cons, joined_nil, List.append_nil, kindsOf_append, List.mem_append] at hk
    rcases hk with hk | hk
    · exact Or.inr ⟨g, List.mem_cons_self, hk⟩
    · exact Or.inl (hfiller _ hgap.isFiller hk)

/-- The segments before another one are linked. -/
theorem Segment.Linked.before {as bs : List Segment} {g : Segment} (h : Linked (as ++ g :: bs)) : Linked as := by
  have hended := linked_append h.isEnded .nil
  rwa [List.append_nil] at hended

/-- A word that begins the items of one label only is among the tokens of such an item. -/
theorem Outline.exists_item {s : List Char} {lead : List Lexeme} {gs : List Segment} (ho : Outline s lead gs) {k : Kind}
    (hk : k ∈ kindsOf (stretches s)) (hsemicolon : k ≠ .operator .semicolon) : ∃ g ∈ gs, g.node.label.allows k := by
  rw [ho.stretches_eq, kindsOf_append, noCode_iff_kindsOf.mp ho.noCode, List.nil_append] at hk
  obtain ⟨g, hg, hk⟩ := (ho.linked.kinds hk).resolve_left hsemicolon
  obtain ⟨l, hl, hcls⟩ := mem_kindsOf.mp hk
  exact ⟨g, hg, (ho.linked.items g hg).vocabulary hl hcls⟩

theorem Label.eq_importDecl {l : Label} (h : l.allows (.keyword .importK)) : l = .importDecl := by
  cases l <;> first | rfl | exact absurd h (by decide)

theorem Label.eq_packageClause {l : Label} (h : l.allows (.keyword .packageK)) : l = .packageClause := by
  cases l <;> first | rfl | exact absurd h (by decide)

/-! ## Stretches at the end -/

/-- Whether stretches hold declarations other than imports: the first token that is no semicolon
begins a declaration, and there is no import and no package clause. -/
structure IsTail (b : List Lexeme) : Prop where
  kinds : ∀ k ∈ kindsOf b, k ≠ .keyword .importK ∧ k ≠ .keyword .packageK
  heads : ∀ c d, b = c ++ d → (∀ k ∈ kindsOf c, k = .operator .semicolon) ∨ ∃ k ∈ kindsOf c, k.isOpening

theorem IsTail.nil : IsTail [] := by
  refine ⟨List.forall_mem_nil _, fun c d h => ?_⟩
  rw [(List.append_eq_nil_iff.mp h.symm).1]
  exact Or.inl (List.forall_mem_nil _)

theorem IsTail.append {a b : List Lexeme} (ha : IsTail a) (hb : IsTail b) : IsTail (a ++ b) := by
  refine ⟨?_, fun c d h => ?_⟩
  · rw [kindsOf_append]
    exact List.forall_mem_append.mpr ⟨ha.kinds, hb.kinds⟩
  · rcases List.append_eq_append_iff.mp h with ⟨m, rfl, hm⟩ | ⟨m, rfl, -⟩
    · simp only [kindsOf_append, List.mem_append]
      rcases ha.heads a [] (List.append_nil a).symm with hall | ⟨k, hk, ho⟩
      · rcases hb.heads m d hm with hall' | ⟨k, hk, ho⟩
        · exact Or.inl fun k hk => hk.elim (hall k) (hall' k)
        · exact Or.inr ⟨k, Or.inr hk, ho⟩
      · exact Or.inr ⟨k, Or.inl hk, ho⟩
    · exact ha.heads c m rfl

/-- Stretches that begin with semicolons and go on with a declaration. -/
theorem isTail_of_item {doc gap : List Lexeme} {g : Segment} (hdoc : ∀ k ∈ kindsOf doc, k = .operator .semicolon)
    (hg : g.IsItem) (hl : g.node.label ≠ .importDecl ∧ g.node.label ≠ .packageClause) (hgap : NoCode gap) :
    IsTail (doc ++ (g.code ++ gap)) := by
  obtain ⟨o, ho, hlabel, l, r, hcode, hcls⟩ := hg.opening
  have hopening : (Kind.keyword o.word).isOpening := by
    have hall : ∀ o ∈ Grammar.openings, (Kind.keyword o.word).isOpening := by decide
    exact hall o ho
  constructor
  · intro k hk
    rw [kindsOf_append, kindsOf_append, noCode_iff_kindsOf.mp hgap, List.append_nil, List.mem_append] at hk
    rcases hk with hk | hk
    · rw [hdoc k hk]
      exact ⟨nofun, nofun⟩
    · obtain ⟨l, hmem, hk⟩ := mem_kindsOf.mp hk
      have hallows := hg.vocabulary hmem hk
      exact ⟨fun h => hl.1 (Label.eq_importDecl (h ▸ hallows)), fun h => hl.2 (Label.eq_packageClause (h ▸ hallows))⟩
  · intro c d h
    rcases List.append_eq_append_iff.mp h with ⟨m, rfl, hm⟩ | ⟨m, rfl, -⟩
    · cases m with
      | nil => exact Or.inl (by simpa using hdoc)
      | cons n m =>
        rw [hcode, List.cons_append, List.cons_append, List.cons.injEq] at hm
        obtain ⟨rfl, -⟩ := hm
        exact Or.inr ⟨_, mem_kindsOf.mpr ⟨l, by simp, hcls⟩, hopening⟩
    · rw [kindsOf_append, List.forall_mem_append] at hdoc
      exact Or.inl hdoc.1

/-! ## The line of the package clause -/

/-- Whether the line of the first package clause among stretches ends between two of them. -/
def EndsClauseLine (ls : List Lexeme) : Prop :=
  ∃ x l line y ks k, ls = x ++ l :: (line ++ ⟨.newline, ['\n']⟩ :: y) ∧ kindsOf x = ks ++ [.keyword .packageK] ∧
    .keyword .packageK ∉ ks ∧ l.cls = .token k ∧ '\n' ∉ texts line

end Syntax

open Segment

section Clause

variable {filename : String} {source : Bytes} {strict : Bool} {f : SourceFile} {s : List Char} {lead : List Lexeme}
  {gs : List Segment}

/-- The clause of a file is the first `package` and the token behind it. -/
theorem Parsed.clauseEnd_eq (h : Parsed filename source strict f s) (ho : Outline s lead gs) {x r : List Lexeme}
    {l : Lexeme} {ks : List Kind} {k : Kind} (hs : stretches s = x ++ l :: r)
    (hx : kindsOf x = ks ++ [.keyword .packageK]) (hks : .keyword .packageK ∉ ks) (hl : l.cls = .token k) :
    f.clauseEnd = byteWidth (orderMark s ++ texts (x ++ [l])) := by
  obtain ⟨as, p, bs, rfl, hlabel, has, hend⟩ := h.exists_clauseItem ho
  have hp : p.IsItem := ho.linked.items p (by simp)
  obtain ⟨k', -, hkinds⟩ := hp.clause_kinds hlabel
  obtain ⟨z, m, j, hcode, hm⟩ := hp.declares.last hp.nonempty
  have hz : kindsOf z = [.keyword .packageK] := by
    have hone : kindsOf [m] = [j] := by
      rw [kindsOf, List.filterMap_cons_some (Lexeme.kind?_eq_some.mpr hm)]
      rfl
    rw [hcode, kindsOf_append, hone] at hkinds
    exact (List.append_inj' (show kindsOf z ++ [j] = [.keyword .packageK] ++ [k'] from hkinds) rfl).1
  -- no item before the clause has its word
  have hbefore : .keyword .packageK ∉ kindsOf (lead ++ joined as) := by
    rw [kindsOf_append, noCode_iff_kindsOf.mp ho.noCode, List.nil_append]
    intro hk
    obtain ⟨g, hg, hk⟩ := (ho.linked.before.kinds hk).resolve_left (by simp)
    obtain ⟨n, hn, hcls⟩ := mem_kindsOf.mp hk
    have hitem := ho.linked.before.items g hg
    exact has g hg (Label.eq_packageClause (hitem.vocabulary hn hcls))
  have hs' : stretches s = (lead ++ (joined as ++ z)) ++ m :: (p.gap ++ joined bs) := by
    rw [ho.stretches_eq, joined_append, joined_cons, hcode]
    simp only [List.append_assoc, List.singleton_append]
  have hx' : kindsOf (lead ++ (joined as ++ z)) = kindsOf (lead ++ joined as) ++ [.keyword .packageK] := by
    rw [← List.append_assoc, kindsOf_append, hz]
  have hfirst : ∀ {us vs : List Kind}, .keyword .packageK ∉ us →
      (us ++ .keyword .packageK :: vs).takeWhile (· ≠ .keyword .packageK) = us := by
    intro us vs hus
    have hall : ∀ k ∈ us, decide (k ≠ .keyword .packageK) := fun k hk => decide_eq_true (by rintro rfl; exact hus hk)
    rw [List.takeWhile_append_of_pos hall, List.takeWhile_cons_of_neg (by simp), List.append_nil]
  have heq : ks = kindsOf (lead ++ joined as) := by
    have hall := congrArg kindsOf (hs.symm.trans hs')
    rw [kindsOf_append, hx, kindsOf_append, hx', List.append_assoc, List.append_assoc, List.singleton_append,
      List.singleton_append] at hall
    rw [← hfirst hks, hall, hfirst hbefore]
  obtain ⟨rfl, rfl⟩ := split_kinds (hs.symm.trans hs') hl hm (by rw [hx, hx', heq])
  rw [hend, hcode]
  simp only [List.append_assoc]

/-- A line end that stands behind other characters of its line is the end of that line. -/
theorem lineEnd_eq {x y : List Char} (hy : '\n' ∉ y) (z : List Char) :
    Splice.lineEnd (Utf8.encode (x ++ (y ++ '\n' :: z))) (byteWidth x) = byteWidth (x ++ y) := by
  have hend : (Utf8.encode (y ++ '\n' :: z)).takeWhile (· ≠ LineIndex.lineFeed) = Utf8.encode y := by
    rw [Utf8.encode_append, encode_lineEnd,
      List.takeWhile_append_of_pos fun b hb => decide_eq_true (LineIndex.lineFeed_not_mem_encode hy b hb),
      List.takeWhile_cons_of_neg (by decide), List.append_nil]
  rw [Splice.lineEnd, Utf8.encode_append, byteWidth_eq, List.drop_left, hend, byteWidth_eq, Utf8.encode_append,
    List.length_append]

/-- A file without imports has no word for one. -/
theorem Parsed.notMem_of_lastImport? (h : Parsed filename source strict f s) (ho : Outline s lead gs)
    (hlast : Splice.lastImport? f = none) : .keyword .importK ∉ kindsOf (stretches s) := by
  intro hk
  obtain ⟨g, hg, hallows⟩ := ho.exists_item hk (by simp)
  have hlabel := Label.eq_importDecl hallows
  obtain ⟨as, bs, rfl⟩ := List.append_of_mem hg
  have hnode : itemBehind s lead as g ∈ (textItems s).nodes := ho.mem_nodes_iff.mpr ⟨as, g, bs, rfl, rfl⟩
  have hitem : (itemBehind s lead as g).label = .importDecl := by rw [itemBehind, Tree.label_moved, hlabel]
  obtain ⟨d, hd, hread⟩ := Declaration.declaredBy_of_mem h.declarations (Declaration.item_mem_siblings.mpr hnode)
    (by rw [hitem]; simp)
  have himports : ∃ specs close, d.declared = .imports specs close := by
    unfold Declaration.declaredBy at hread
    rw [hitem] at hread
    cases hspecs : (Declaration.withLabel .importSpec (itemBehind s lead as g)).mapM
        (Declaration.importSpecOf source) with
    | error e =>
      dsimp only at hread
      rw [hspecs] at hread
      cases hread
    | ok specs =>
      dsimp only at hread
      rw [hspecs] at hread
      exact ⟨_, _, (Except.ok.inj hread).symm⟩
  obtain ⟨specs, close, hdecl⟩ := himports
  have := List.findSome?_eq_none_iff.mp hlast d (List.mem_reverse.mpr hd)
  rw [hdecl] at this
  cases this

end Clause

namespace Syntax

/-! ## Files with stretches at their end -/

/-- A file of some stretches, which end its last line, and others behind them. -/
structure Tailed (s : List Char) (a b : List Lexeme) : Prop where
  stretches_eq : stretches s = a ++ b
  isSound : ∀ l ∈ a ++ b, l.cls.isSound
  closed : opensComment a = false
  line : ∃ x, a = x ++ [⟨.newline, ['\n']⟩]
  tailLine : b = [] ∨ ∃ x, b = x ++ [⟨.newline, ['\n']⟩]
  tail : IsTail b
  clause : .keyword .importK ∈ kindsOf a ∨ EndsClauseLine a

section Tailed

variable {s : List Char} {a b : List Lexeme}

/-- A file that ends its last line and the line of its package clause, if there is nothing behind it. -/
theorem tailed_nil (hline : s.getLast? = some '\n') (hsound : ∀ l ∈ stretches s, l.cls.isSound)
    (hclosed : opensComment (stretches s) = false)
    (hclause : .keyword .importK ∈ kindsOf (stretches s) ∨ EndsClauseLine (stretches s)) :
    Tailed s (stretches s) [] :=
  ⟨(List.append_nil _).symm, by rwa [List.append_nil], hclosed, stretches_lineEnd hline hsound,
    .inl rfl, .nil, hclause⟩

theorem Tailed.lineEnd (h : Tailed s a b) : s.getLast? = some '\n' := by
  have hend : ∃ x, a ++ b = x ++ [⟨.newline, ['\n']⟩] := by
    rcases h.tailLine with rfl | ⟨x, rfl⟩
    · rw [List.append_nil]
      exact h.line
    · exact ⟨a ++ x, (List.append_assoc _ _ _).symm⟩
  obtain ⟨x, hx⟩ := hend
  rw [← orderMark_append_texts s, h.stretches_eq, hx, texts_append, ← List.append_assoc]
  exact List.getLast?_concat

/-- A text of declarations, cut into stretches. -/
structure TailText (t : List Char) : Prop where
  isSound : ∀ l ∈ lexemes (t ++ ['\n']), l.cls.isSound
  line : ∃ x, lexemes (t ++ ['\n']) = x ++ [⟨.newline, ['\n']⟩]
  tail : IsTail (lexemes (t ++ ['\n']))

/-- No comment begins among the lines before the last stretches. -/
theorem Tailed.opensComment (h : Tailed s a b) (ho : Syntax.opensComment (a ++ b)) : Syntax.opensComment b := by
  obtain ⟨x, hx⟩ := h.line
  cases hb : Syntax.opensComment b with
  | true => rfl
  | false =>
    have hclosed : Syntax.opensComment x = false := Bool.eq_false_iff.mpr fun hxo =>
      Bool.eq_false_iff.mp h.closed (by rw [hx]; exact opensComment_append _ hxo)
    rw [hx, List.append_assoc, List.singleton_append, opensComment_line hclosed hb] at ho
    cases ho

/-- Declarations are put behind a file. -/
theorem Tailed.append (h : Tailed s a b) {t : List Char} (ht : TailText t)
    (hopen : Syntax.opensComment b → blockCommentLength? (t ++ ['\n']) = none) :
    Tailed (s ++ (t ++ ['\n'])) a (b ++ lexemes (t ++ ['\n'])) := by
  have hst := stretches_append (t := t ++ ['\n']) h.lineEnd (by rw [h.stretches_eq]; exact h.isSound) fun ho =>
    hopen (h.opensComment (by rwa [h.stretches_eq] at ho))
  rw [h.stretches_eq] at hst
  refine ⟨by rw [hst, List.append_assoc], ?_, h.closed, h.line, ?_, h.tail.append ht.tail, h.clause⟩
  · rw [← List.append_assoc]
    exact List.forall_mem_append.mpr ⟨h.isSound, ht.isSound⟩
  · obtain ⟨x, hx⟩ := ht.line
    exact Or.inr ⟨b ++ x, by rw [hx, List.append_assoc]⟩

/-- An import that is put before the end of the lines before the last stretches. -/
theorem Tailed.insert (h : Tailed s a b) {x e z ws : List Lexeme} (ha : a = x ++ (e ++ z))
    (he : e = [] ∨ e = [⟨.newline, ['\n']⟩]) (hws : Compact ws)
    (himport : .keyword .importK ∈ kindsOf a ∨ .keyword .importK ∈ kindsOf ws) :
    Tailed (orderMark s ++ texts (x ++ ⟨.newline, ['\n']⟩ :: (ws ++ ⟨.newline, ['\n']⟩ :: (z ++ b))))
      (x ++ ⟨.newline, ['\n']⟩ :: (ws ++ ⟨.newline, ['\n']⟩ :: z)) b := by
  have hs : stretches s = x ++ (e ++ (z ++ b)) := by
    rw [h.stretches_eq, ha]
    simp only [List.append_assoc]
  have hclosed := h.closed
  rw [ha] at hclosed
  have hx : Syntax.opensComment x = false := opensComment_part (a := []) hclosed
  have hz : Syntax.opensComment z = false :=
    opensComment_part (a := x ++ e) (c := []) (by rwa [List.append_nil, List.append_assoc])
  obtain ⟨hst, hsound⟩ := stretches_inserted hs (by rw [h.stretches_eq]; exact h.isSound)
    (fun hopen => absurd hopen (Bool.eq_false_iff.mp hx)) hws
  have hassoc : x ++ ⟨.newline, ['\n']⟩ :: (ws ++ ⟨.newline, ['\n']⟩ :: (z ++ b)) =
      (x ++ ⟨.newline, ['\n']⟩ :: (ws ++ ⟨.newline, ['\n']⟩ :: z)) ++ b := by simp
  refine ⟨hst.trans hassoc, hassoc ▸ hsound, opensComment_line hx (opensComment_line hws.closed hz), ?_, h.tailLine,
    h.tail, .inl ?_⟩
  · rcases List.eq_nil_or_concat z with rfl | ⟨z', l, rfl⟩
    · exact ⟨x ++ ⟨.newline, ['\n']⟩ :: ws, by simp⟩
    · obtain ⟨y, hy⟩ := h.line
      rw [ha, List.concat_eq_append, ← List.append_assoc, ← List.append_assoc] at hy
      obtain ⟨-, hl⟩ := List.append_inj' hy rfl
      exact ⟨x ++ ⟨.newline, ['\n']⟩ :: (ws ++ ⟨.newline, ['\n']⟩ :: z'), by
        rw [List.concat_eq_append, hl]
        simp⟩
  · have hnone : kindsOf e = [] := by
      rcases he with rfl | rfl <;> rfl
    rw [ha] at himport
    simp only [kindsOf_append, kindsOf_line, hnone, List.nil_append, List.mem_append] at himport ⊢
    rcases himport with (hx | hz) | hw
    · exact Or.inl hx
    · exact Or.inr (Or.inr hz)
    · exact Or.inr (Or.inl hw)

/-- No import ends among the first of the last stretches. -/
theorem IsTail.not_import {c d m : List Lexeme} (h : IsTail (c ++ d)) {p : Segment} (hp : p.IsItem)
    (hl : p.node.label = .importDecl) (hcode : p.code = m ++ c) : c = [] := by
  rcases List.eq_nil_or_concat c with rfl | ⟨c', l, rfl⟩
  · rfl
  rw [List.concat_eq_append] at h hcode ⊢
  obtain ⟨x, l', hlast, hcls⟩ := hp.import_last hl
  rw [hcode, ← List.append_assoc] at hlast
  obtain ⟨-, hll⟩ := List.append_inj' hlast rfl
  obtain rfl := List.head_eq_of_cons_eq hll
  rcases h.heads _ _ rfl with hall | ⟨k, hk, hopening⟩
  · rcases hcls with hcls | hcls <;> exact absurd (hall _ (mem_kindsOf.mpr ⟨l, by simp, hcls⟩)) nofun
  · obtain ⟨n, hn, hnk⟩ := mem_kindsOf.mp hk
    have hallows := hp.vocabulary (by rw [hcode]; exact List.mem_append_right _ hn) hnk
    have hword : k = .keyword .importK := by
      rw [hl] at hallows
      simp only [Label.allows, List.contains_iff_mem, List.mem_cons, List.not_mem_nil, or_false] at hallows
      rcases hallows with rfl | rfl | rfl | rfl | rfl | rfl | rfl | rfl | rfl <;> first | rfl | cases hopening
    exact absurd hword (h.kinds k (by rw [kindsOf_append]; exact List.mem_append_left _ hk)).1

/-- An import stands before the last stretches of a file. -/
theorem Tailed.import_before (h : Tailed s a b) {lead : List Lexeme} {as bs : List Segment} {p : Segment}
    (ho : Outline s lead (as ++ p :: bs)) (hl : p.node.label = .importDecl) :
    .keyword .importK ∈ kindsOf a ∧ ∃ c, a = lead ++ (joined as ++ p.code) ++ c := by
  have hp : p.IsItem := ho.linked.items p (by simp)
  obtain ⟨o, ho', hlabel, w, r, hcode, hw⟩ := hp.opening
  have hword : w.cls = .token (.keyword .importK) := by
    have hall : ∀ o ∈ Grammar.openings, o.label = .importDecl → o.word = .importK := by decide
    rw [hw, hall o ho' (hlabel.trans hl)]
  have hs : lead ++ joined as ++ p.code ++ (p.gap ++ joined bs) = a ++ b := by
    rw [← h.stretches_eq, ho.stretches_eq, joined_append, joined_cons]
    simp only [List.append_assoc]
  have hbefore : ∃ c, a = lead ++ joined as ++ p.code ++ c := by
    rcases List.append_eq_append_iff.mp hs with ⟨c, hc, -⟩ | ⟨c, hc, rfl⟩
    · exact ⟨c, hc⟩
    rcases List.append_eq_append_iff.mp hc with ⟨m, -, hm⟩ | ⟨m, -, hm⟩
    · rw [h.tail.not_import hp hl hm, List.append_nil] at hc
      exact ⟨[], by rw [hc, List.append_nil]⟩
    · -- the word would be among the last stretches
      have hk : .keyword .importK ∈ kindsOf (c ++ (p.gap ++ joined bs)) :=
        mem_kindsOf.mpr ⟨w, by rw [hm, hcode]; simp, hword⟩
      exact absurd rfl (h.tail.kinds _ hk).1
  obtain ⟨c, rfl⟩ := hbefore
  exact ⟨mem_kindsOf.mpr ⟨w, by rw [hcode]; simp, hword⟩, c, by rw [List.append_assoc lead]⟩

end Tailed

end Syntax

section WithImport

variable {filename : String} {source : Bytes} {strict : Bool} {f : SourceFile} {s : List Char} {a b lead : List Lexeme}
  {gs : List Segment} {name path : List Char}

/-- An import inside the parentheses of the last import, on a line below what stands before it. -/
theorem Syntax.Tailed.importInside (h : Tailed s a b) (hname : IsImportName name) (hpath : IsPlainText path)
    {x y : List Lexeme} (ha : a = x ++ y) (himport : .keyword .importK ∈ kindsOf a) :
    ∃ z e, x = z ++ e ∧ (e = [] ∨ e = [⟨.newline, ['\n']⟩]) ∧
      let a' := z ++ ⟨.newline, ['\n']⟩ :: (⟨.blank, ['\t']⟩ :: specStretches name path ++ ⟨.newline, ['\n']⟩ :: y)
      Splice.importInside (Utf8.encode s) (byteWidth (orderMark s ++ texts x))
        (Utf8.encode (texts (specStretches name path))) = Utf8.encode (orderMark s ++ texts (a' ++ b)) ∧
      Tailed (orderMark s ++ texts (a' ++ b)) a' b := by
  have hs : stretches s = x ++ (y ++ b) := by rw [h.stretches_eq, ha, List.append_assoc]
  obtain ⟨z, e, rfl, he, heq⟩ := @importInside_stretches s _ _ name path hs
    (by rw [h.stretches_eq]; exact h.isSound)
  have hput := h.insert (by rw [ha, List.append_assoc]) he (compact_spec hname hpath) (.inl himport)
  refine ⟨z, e, rfl, he, ?_⟩
  simpa only [List.append_assoc, List.cons_append] using And.intro heq hput

/-- An import below the last import. -/
theorem Syntax.Tailed.importBelow (h : Tailed s a b) (hname : IsImportName name) (hpath : IsPlainText path)
    {x y : List Lexeme} {l : Lexeme} {k : Kind} (ha : a = x ++ l :: y) (hl : l.cls = .token k) :
    ∃ e z, y = e ++ z ∧ (e = [] ∨ e = [⟨.newline, ['\n']⟩]) ∧
      let a' := x ++ l :: ⟨.newline, ['\n']⟩ :: (importStretches name path ++ ⟨.newline, ['\n']⟩ :: z)
      Splice.importBelow (Utf8.encode s) (byteWidth (orderMark s ++ texts (x ++ [l])))
        (Utf8.encode (texts (specStretches name path))) = Utf8.encode (orderMark s ++ texts (a' ++ b)) ∧
      Tailed (orderMark s ++ texts (a' ++ b)) a' b := by
  have hs : stretches s = x ++ l :: (y ++ b) := by rw [h.stretches_eq, ha, List.append_assoc]; rfl
  obtain ⟨e, z, hyb, he, heq⟩ := @importBelow_stretches s _ _ name path _ _ hs
    (by rw [h.stretches_eq]; exact h.isSound) hl
  -- the line end behind the import is not behind all lines before the last stretches
  obtain ⟨z', rfl, rfl⟩ : ∃ z', y = e ++ z' ∧ z = z' ++ b := by
    rcases he with rfl | rfl
    · exact ⟨y, rfl, hyb.symm⟩
    · cases y with
      | nil =>
        obtain ⟨w, hw⟩ := h.line
        obtain ⟨-, hll⟩ := List.append_inj' (ha.symm.trans hw) rfl
        rw [List.head_eq_of_cons_eq hll] at hl
        cases hl
      | cons m y =>
        obtain ⟨rfl, rfl⟩ := List.cons.inj hyb
        exact ⟨y, rfl, rfl⟩
  have hput := h.insert (x := x ++ [l]) (e := e) (z := z') (by rw [ha]; simp) he (compact_import hname hpath)
    (.inr (mem_kindsOf.mpr ⟨_, List.mem_cons_self, rfl⟩))
  refine ⟨e, z', rfl, he, ?_⟩
  simpa only [List.append_assoc, List.cons_append, List.nil_append] using And.intro heq hput

/-- An import below the package clause. -/
theorem Syntax.Tailed.importAfterClause (h : Tailed s a b) (hname : IsImportName name) (hpath : IsPlainText path)
    {x y : List Lexeme} (ha : a = x ++ ⟨.newline, ['\n']⟩ :: y) :
    let a' := x ++ ⟨.newline, ['\n']⟩ ::
      (⟨.newline, ['\n']⟩ :: importStretches name path ++ ⟨.newline, ['\n']⟩ :: ⟨.newline, ['\n']⟩ :: y)
    Splice.importAfterClause (Utf8.encode s) (byteWidth (orderMark s ++ texts x))
      (Utf8.encode (texts (specStretches name path))) = Utf8.encode (orderMark s ++ texts (a' ++ b)) ∧
    Tailed (orderMark s ++ texts (a' ++ b)) a' b := by
  have hs : stretches s = x ++ ⟨.newline, ['\n']⟩ :: (y ++ b) := by rw [h.stretches_eq, ha, List.append_assoc]; rfl
  have hput := h.insert (x := x) (e := []) ha (.inl rfl) (compact_import hname hpath).line
    (.inr (mem_kindsOf.mpr ⟨_, List.mem_cons_of_mem _ List.mem_cons_self, rfl⟩))
  simpa only [List.append_assoc, List.cons_append] using And.intro (importAfterClause_stretches hs) hput

/-- The line of the package clause ends between two stretches of a file without imports. -/
theorem Syntax.Tailed.exists_clauseLine (h : Tailed s a b) (hparsed : Parsed filename (Utf8.encode s) strict f s)
    (ho : Outline s lead gs) (hlast : Splice.lastImport? f = none) :
    ∃ x y, a = x ++ ⟨.newline, ['\n']⟩ :: y ∧ .keyword .packageK ∈ kindsOf x ∧
      min (Splice.lineEnd (Utf8.encode s) f.clauseEnd) (Utf8.encode s).length =
        byteWidth (orderMark s ++ texts x) := by
  obtain ⟨x, l, line, y, ks, k, ha, hx, hks, hl, hline⟩ := h.clause.resolve_left fun hk =>
    hparsed.notMem_of_lastImport? ho hlast (by rw [h.stretches_eq, kindsOf_append]; exact List.mem_append_left _ hk)
  have hs : stretches s = x ++ l :: (line ++ ⟨.newline, ['\n']⟩ :: (y ++ b)) := by
    rw [h.stretches_eq, ha]
    simp
  have htext : s = orderMark s ++ texts (x ++ [l]) ++ (texts line ++ '\n' :: texts (y ++ b)) := by
    conv => lhs; rw [← orderMark_append_texts s, hs]
    simp
  have hend : Splice.lineEnd (Utf8.encode s) f.clauseEnd = byteWidth (orderMark s ++ texts (x ++ l :: line)) := by
    rw [hparsed.clauseEnd_eq ho hs hx hks hl]
    conv => lhs; arg 1; rw [htext]
    rw [lineEnd_eq hline]
    simp
  have hle : byteWidth (orderMark s ++ texts (x ++ l :: line)) ≤ (Utf8.encode s).length := by
    rw [← byteWidth_eq]
    conv => rhs; rw [htext]
    simp only [texts_append, texts_cons, texts_nil, byteWidth_append, byteWidth_nil]
    omega
  refine ⟨x ++ l :: line, y, by rw [ha]; simp, ?_, by rw [hend, Nat.min_eq_left hle]⟩
  rw [kindsOf_append, hx]
  simp

end WithImport

end GoSplice
