import GoSplice.Proofs.OutlineEdits
import GoSplice.Source.Splice

/-!
# Files that are cut and added to

A file with a text behind its last line declares what it did, and what the text
declares.  A file with a declaration cut out declares what it did, but for that
one, if the line of the declaration ends right behind it:

    Takes s t → parse name (encode s ++ encode (t ++ "\n")) true = ok f' →
      f'.count u = f.count u + (the file of t).count u                  (parse_appended)
    d ∈ f.declarations → Detached s d → parse name (cut source d) true = ok f' →
      f'.count u + (1 if d declares u) = f.count u                      (parse_cut)
-/

namespace GoSplice

open Syntax

namespace Syntax

open Segment

/-! ## Text behind a package clause -/

section Clause

variable {name t : List Char} {lead : List Lexeme} {g : Segment} {gs : List Segment}

theorem stretches_clause (hn : IsWordText name) (t : List Char) :
    stretches (fileText name [.blank] ++ t) =
      clauseStretches name ++ ⟨.newline, ['\n']⟩ :: ⟨.newline, ['\n']⟩ :: lexemes t := by
  have htext : fileText name [.blank] ++ t = texts (clauseStretches name) ++ '\n' :: '\n' :: t := by
    simp [fileText, clauseLine, Part.bodyText, Part.text]
  have hmark : orderMark (texts (clauseStretches name) ++ '\n' :: '\n' :: t) = [] := rfl
  have hline : ∀ x, lexemes ('\n' :: x) = ⟨.newline, ['\n']⟩ :: lexemes x := fun x => lexemes_cons _ _
  rw [htext, stretches_eq, hmark, ← hline, ← hline]
  refine lexemes_clause hn ?_
  rintro c ⟨⟩
  decide

/-- The first item of a text behind a package clause is the clause. -/
theorem item?_behindClause (hn : IsNameText name) (t : List Char) :
    ∃ d, item? (startOf (fileText name [.blank] ++ t)) = some (clauseNode name, d) := by
  have hpos := byteWidth_pos hn.ne_nil
  have hscan : scan (fileText name [.blank] ++ t) =
      place 0 none (clauseStretches name ++ ⟨.newline, ['\n']⟩ :: ⟨.newline, ['\n']⟩ :: lexemes t) := by
    rw [scan_eq, ← stretches_eq, stretches_clause hn.toIsWordText]
    rfl
  rw [startOf, hscan]
  exact ⟨_, item?_clause (s := 0) (e := 7) (m := 8) (n := 8 + byteWidth name) hn.kind (by omega) (by omega)⟩

theorem Read.head {c : Place} {n : Node} {ns : List Node} (h : Read c (n :: ns)) : ∃ d, item? c = some (n, d) := by
  cases h with
  | item hi _ _ => exact ⟨_, hi⟩
  | last hi _ _ _ => exact ⟨_, hi⟩

/-- A line end before segments lies before the first of them. -/
theorem Segment.Linked.line_before {a x : List Lexeme} (hgs : Linked gs)
    (h : a ++ joined gs = ⟨.newline, ['\n']⟩ :: x) : ∃ b, a = ⟨.newline, ['\n']⟩ :: b ∧ b ++ joined gs = x := by
  cases a with
  | nil =>
    obtain ⟨k, hk⟩ := hgs.head ⟨.newline, ['\n']⟩ (by rw [show joined gs = _ from h]; rfl)
    cases hk
  | cons l b =>
    obtain ⟨rfl, hb⟩ := List.cons.inj h
    exact ⟨b, rfl, hb⟩

/-- What ends an item holds no code if a line ends in it before any. -/
theorem EndsItem.noCode_of_line {x y : List Lexeme} {l : Lexeme} (h : EndsItem (x ++ l :: y)) (hx : NoCode x)
    (hl : l.cls = .newline) : NoCode (x ++ l :: y) := by
  generalize heq : x ++ l :: y = ls at h
  cases h with
  | line hls _ => exact hls
  | @semicolon z w k _ hline hk _ =>
    exfalso
    rcases append_cons_eq_append_cons heq with ⟨u, rfl, -⟩ | ⟨u, rfl, -⟩ | ⟨-, rfl, -⟩
    · exact hx k (by simp) _ hk
    · exact hline ⟨l, by simp, hl⟩
    · rw [hl] at hk
      cases hk

/-- Nothing stands before code that begins with a token. -/
theorem NoCode.eq_nil {a b c : List Lexeme} {l : Lexeme} {k : Kind} (h : NoCode a) (hs : a ++ b = l :: c)
    (hl : l.cls = .token k) : a = [] := by
  cases a with
  | nil => rfl
  | cons x a =>
    obtain ⟨rfl, -⟩ := List.cons.inj hs
    exact absurd hl (h _ List.mem_cons_self k)

/-- What is read behind a package clause, without it. -/
theorem Outline.behindClause (hn : IsNameText name) (h : Outline (fileText name [.blank] ++ t) lead gs) :
    ∃ g lead' hs, gs = g :: hs ∧ g.isClause ∧ lexemes t = lead' ++ joined hs ∧ NoCode lead' ∧ Linked hs := by
  have hs := stretches_clause hn.toIsWordText t
  have hne : ∀ l ∈ stretches (fileText name [.blank] ++ t), l.text ≠ [] := fun _ hl => ne_nil_of_mem_stretches hl
  rw [h.stretches_eq] at hs hne
  obtain rfl := h.noCode.eq_nil hs rfl
  cases gs with
  | nil => cases hs
  | cons g gs =>
    have hread := read_textItems (s := fileText name [.blank] ++ t) (by rw [h.items])
    rw [h.items] at hread
    obtain ⟨d, hd⟩ := item?_behindClause hn t
    obtain ⟨d', hd'⟩ := hread.head
    rw [hd', Option.some.injEq, Prod.mk.injEq] at hd
    have hclause : g.isClause := by
      rw [isClause, ← g.node.label_moved, hd.1]
      rfl
    have hwidth : byteWidth (texts g.code) = byteWidth (texts (clauseStretches name)) := by
      rw [← h.linked.isItem.declares.stop, ← (declares_clause hn).stop, ← hd.1, Tree.stop_moved]
      rfl
    rw [List.nil_append, joined_cons] at hs hne
    obtain ⟨-, hgap⟩ := append_inj_width hs hne hwidth
    have hlinked : Linked gs := Linked.of_append (show Linked ([g] ++ gs) from h.linked)
    obtain ⟨a, ha, hline⟩ := hlinked.line_before hgap
    obtain ⟨b, rfl, hrest⟩ := hlinked.line_before hline
    refine ⟨g, b, gs, rfl, hclause, hrest.symm, ?_, hlinked⟩
    have hnone : NoCode g.gap := by
      cases h.linked with
      | cons _ hends _ => exact ha ▸ EndsItem.noCode_of_line (x := []) (ha ▸ hends) (List.forall_mem_nil _) rfl
      | last _ hnone _ => exact hnone
    rw [ha] at hnone
    exact fun l hl => hnone l (by simp [hl])

end Clause

/-- A text whose segments can be read, with a package clause among them, is read as a file. -/
theorem Outline.file {s : List Char} {lead : List Lexeme} {gs : List Segment} (h : Outline s lead gs)
    (hread : ∀ g ∈ gs, g.IsReadable) {n : String} (hclause : (gs.find? isClause).map packageName = some n)
    (filename : String) : ∃ f, SourceFile.parse filename (Utf8.encode s) true = .ok f ∧ f.packageName = n ∧
      ∀ u, f.count u = gs.countP (Segment.declares u) := by
  obtain ⟨c, hc, -⟩ := Option.map_eq_some_iff.mp hclause
  obtain ⟨f, hparse, hparsed⟩ := h.parse hread hc filename
  have hname := h.packageName_eq hparsed
  rw [hclause, Option.some.injEq] at hname
  exact ⟨f, hparse, hname.symm, h.count_eq hparsed⟩

end Syntax

/-! ## Files with text behind them -/

section Appended

variable {filename filename' : String} {source : Bytes} {f ft : SourceFile} {s t name : List Char}

/-- A file with a text behind it declares what it did, and what the text declares behind a
package clause of its own. -/
theorem parse_appended (h : Parsed filename source true f s) (hn : IsNameText name)
    (ht : SourceFile.parse filename' (Utf8.encode (fileText name [.blank] ++ (t ++ ['\n']))) true = .ok ft)
    (htakes : Takes s t) : ∃ f', SourceFile.parse filename (source ++ Utf8.encode (t ++ ['\n'])) true = .ok f' ∧
      f'.packageName = f.packageName ∧ ∀ u, f'.count u = f.count u + ft.count u := by
  obtain ⟨st, hst⟩ := parse_eq_ok_iff.mp ht
  obtain rfl := Utf8.encode_injective hst.encode_eq
  obtain ⟨lead, gs, hs⟩ := h.exists_outline
  obtain ⟨_, _, hks⟩ := hst.exists_outline
  obtain ⟨c, lead', hs', rfl, hc, htext, hlead', hlinked⟩ := hks.behindClause hn
  have hsound := isSound_of_mem_stretches (read_textItems h.refusal) h.isOpened
  obtain ⟨ls, hline⟩ := stretches_lineEnd htakes.lineEnd hsound
  have hst' := stretches_append htakes.lineEnd hsound (t := t ++ ['\n']) fun ho =>
    blockCommentLength?_append (htakes.comment ho) rfl fun _ hd => (Option.some.inj hd).symm
  obtain ⟨lead'', gs', hsame, hout⟩ := hs.append hline hst' htext hlead' hlinked
  have hread := List.forall_mem_append.mpr ⟨hsame.isReadable (hs.isReadable h),
    (List.forall_mem_cons.mp (hks.isReadable hst)).2⟩
  have hclause : ((gs' ++ hs').find? Segment.isClause).map Segment.packageName = some f.packageName := by
    rw [hsame.find?_clause, List.find?_append]
    obtain ⟨g, hg, hname⟩ := Option.map_eq_some_iff.mp (hs.packageName_eq h)
    rw [hg, Option.some_or, Option.map_some, hname]
  obtain ⟨f', hparse, hname, hcount⟩ := hout.file hread hclause filename
  refine ⟨f', by rw [h.encode_eq, ← Utf8.encode_append]; exact hparse, hname, fun u => ?_⟩
  -- the clause before the text declares nothing
  have hnone : Segment.declares u c = false := by simp [Segment.declares, hc]
  rw [hcount, hs.count_eq h, hks.count_eq hst, List.countP_append, hsame.countP, List.countP_cons,
    if_neg (by simp [hnone]), Nat.add_zero]

end Appended

/-! ## Declarations of outlines -/

namespace Syntax

open Segment

theorem mem_nodes {o : Nat} {gs : List Segment} {t : Node} : t ∈ nodes o gs ↔
    ∃ as p bs, gs = as ++ p :: bs ∧ t = p.node.moved (o + byteWidth (texts (joined as))) := by
  induction gs generalizing o with
  | nil => simp [nodes]
  | cons g gs ih =>
    rw [nodes, List.mem_cons, ih]
    constructor
    · rintro (rfl | ⟨as, p, bs, rfl, rfl⟩)
      · exact ⟨[], g, gs, rfl, rfl⟩
      · refine ⟨g :: as, p, bs, rfl, ?_⟩
        simp [Segment.stretches, texts_append, byteWidth_append, Nat.add_assoc]
    · rintro ⟨as, p, bs, hgs, rfl⟩
      cases as with
      | nil =>
        obtain ⟨rfl, rfl⟩ := List.cons.inj hgs
        exact Or.inl rfl
      | cons a as =>
        obtain ⟨rfl, rfl⟩ := List.cons.inj hgs
        refine Or.inr ⟨as, p, bs, rfl, ?_⟩
        simp [Segment.stretches, texts_append, byteWidth_append, Nat.add_assoc]

section Placed

variable (s : List Char) (lead : List Lexeme) (as : List Segment)

/-- The item of a segment of an outline, at its place. -/
def itemBehind (p : Segment) : Node :=
  p.node.moved (byteWidth (orderMark s ++ texts (lead ++ joined as)))

variable {s lead} in
theorem Outline.mem_nodes_iff {gs : List Segment} (h : Outline s lead gs) {t : Node} :
    t ∈ (textItems s).nodes ↔ ∃ as p bs, gs = as ++ p :: bs ∧ t = itemBehind s lead as p := by
  rw [h.items, mem_nodes]
  simp only [itemBehind, texts_append, byteWidth_append, Nat.add_assoc]

theorem Segment.IsItem.range {p : Segment} (hp : p.IsItem) :
    (itemBehind s lead as p).start = byteWidth (orderMark s ++ texts (lead ++ joined as)) ∧
    (itemBehind s lead as p).stop = byteWidth (orderMark s ++ texts (lead ++ (joined as ++ p.code))) := by
  rw [itemBehind, Tree.start_moved, Tree.stop_moved, hp.declares.start, hp.declares.stop]
  simp only [texts_append, byteWidth_append]
  omega

end Placed

end Syntax

section Cut

open Segment

variable {filename : String} {source : Bytes} {f : SourceFile} {s : List Char} {d : Declaration}
  {lead x ga m : List Lexeme} {as bs gs : List Segment} {p : Segment} {fits : List Lexeme → Prop}

/-- What is cut out with a declaration: the segment that it is read off, and its doc comment. -/
structure CutOf (d : Declaration) (s : List Char) (lead x ga m : List Lexeme) (as : List Segment) (p : Segment)
    (bs : List Segment) (fits : List Lexeme → Prop) : Prop extends CutOut s lead x ga m as p bs fits where
  spliceStart : d.spliceStart = byteWidth (orderMark s ++ texts (x ++ ga))
  stop : d.stop = byteWidth (orderMark s ++ texts (lead ++ (joined as ++ p.code)))
  declares : ∀ u : Subject, p.declares u = u.isDeclaredBy d.declared
  notClause : p.isClause = false

/-- The stretches before an item from where its declaration is cut out. -/
theorem exists_doc {pre post : List Declaration.Sibling} (href : (textItems s).refusal = none)
    (hsib : siblingsOf s = pre ++ .item (itemBehind s lead as p) :: post) {lines : LineIndex}
    (hat : Declaration.ReadInOrder source (scan s).comments lines pre.reverse (itemBehind s lead as p) d)
    (ho : Outline s lead (as ++ p :: bs)) : ∃ a m, lead ++ joined as = a ++ m ∧
      d.spliceStart = byteWidth (orderMark s ++ texts a) ∧ (∀ l ∈ m.head?, l.cls = .comment) ∧
      (d.doc = none → m = []) := by
  obtain ⟨hstart, -⟩ := (ho.linked.items p (by simp)).range s lead as
  cases hdoc : d.doc with
  | none =>
    refine ⟨lead ++ joined as, [], (List.append_nil _).symm, ?_, nofun, fun _ => rfl⟩
    rw [Declaration.spliceStart, hdoc, ← hstart]
    exact hat.start
  | some r =>
    obtain ⟨group, first, last, hgroup, rfl, -⟩ := docOf_of_readInOrder href hsib hat hdoc
    have hs : stretches s = (lead ++ joined as) ++ joined (p :: bs) := by
      rw [ho.stretches_eq, joined_append, List.append_assoc]
    obtain ⟨a, c, w, hsplit, hfirst, -, ⟨l, c, rfl, hl⟩, -⟩ := hgroup.split hs hstart
    refine ⟨a, l :: c ++ w, hsplit, ?_, ?_, nofun⟩
    · rw [Declaration.spliceStart, hdoc]
      exact hfirst
    · rintro _ ⟨⟩
      exact hl

/-- An item that ends before another is a sibling before it. -/
theorem item_mem_before {pre post : List Declaration.Sibling} {t u : Node} (href : (textItems s).refusal = none)
    (hsib : siblingsOf s = pre ++ .item t :: post) (hu : u ∈ (textItems s).nodes) (hle : u.stop ≤ t.start) :
    .item u ∈ pre := by
  obtain ⟨horder, hrange⟩ := siblingsOf_pairwise href
  have hmem : .item u ∈ siblingsOf s := Declaration.item_mem_siblings.mpr hu
  have hupos : u.start < u.stop := hrange _ hmem
  have htpos : t.start < t.stop := hrange (.item t) (by rw [hsib]; simp)
  rw [hsib] at hmem horder
  rcases List.mem_append.mp hmem with hmem | hmem
  · exact hmem
  · rcases List.mem_cons.mp hmem with he | hmem
    · cases he
      omega
    · rw [List.pairwise_append, List.pairwise_cons] at horder
      have hafter : t.stop ≤ u.start := horder.2.1.1 (.item u) hmem
      omega

/-- A declaration is cut out behind the item before it, and not all that stands between them is. -/
theorem exists_kept {pre post : List Declaration.Sibling} (href : (textItems s).refusal = none)
    (hsib : siblingsOf s = pre ++ .item (itemBehind s lead as p) :: post) {lines : LineIndex}
    (hat : Declaration.ReadInOrder source (scan s).comments lines pre.reverse (itemBehind s lead as p) d)
    (ho : Outline s lead (as ++ p :: bs)) {gap a : List Lexeme} (hjoint : Joint lead as x gap fits)
    (hsplit : lead ++ joined as = a ++ m) (hsplice : d.spliceStart = byteWidth (orderMark s ++ texts a))
    (hbare : d.doc = none → m = []) : ∃ ga, a = x ++ ga ∧ gap = ga ++ m ∧ (as ≠ [] → ga ≠ []) := by
  have heq := hjoint.eq.symm.trans hsplit
  cases hjoint with
  | first => exact ⟨a, rfl, heq, fun hne => absurd rfl hne⟩
  | behind as g =>
    have hg := ho.linked.isEnded g (by simp)
    obtain ⟨hstart, -⟩ := (ho.linked.items p (by simp)).range s lead (as ++ [g])
    obtain ⟨-, hgstop⟩ := hg.range s lead as
    have hgmem : itemBehind s lead as g ∈ (textItems s).nodes :=
      ho.mem_nodes_iff.mpr ⟨as, g, p :: bs, by simp, rfl⟩
    have hbefore : .item (itemBehind s lead as g) ∈ pre.reverse := by
      refine List.mem_reverse.mpr (item_mem_before href hsib hgmem ?_)
      rw [hgstop, hstart]
      simp only [joined_append, joined_cons, texts_append, byteWidth_append]
      omega
    have hle := hat.before_splice hbefore
    rw [hgstop, hsplice, byteWidth_append, byteWidth_append] at hle
    have hne : ∀ l ∈ lead ++ (joined as ++ g.code) ++ g.gap, l.text ≠ [] := fun l hl =>
      ne_nil_of_mem_stretches (s := s) (by
        rw [ho.stretches_eq, joined_append, ← List.append_assoc,
          show lead ++ joined (as ++ [g]) = _ from (Joint.behind as g).eq]
        exact List.mem_append_left _ hl)
    obtain ⟨ga, rfl, hgap⟩ := prefix_of_width_le heq hne (by omega)
    refine ⟨ga, rfl, hgap, ?_⟩
    rintro - rfl
    cases hdoc : d.doc with
    | none =>
      rw [hbare hdoc] at hgap
      exact hg.ends.ne_nil hgap
    | some r =>
      refine hat.stop_ne_doc hdoc hbefore ?_
      rw [hgstop, ← show d.spliceStart = r.start by rw [Declaration.spliceStart, hdoc], hsplice, List.append_nil]

/-- A declaration of a file is read off a segment of its outline, and cut out with it. -/
theorem Parsed.exists_cutOf (h : Parsed filename source true f s) (ho : Outline s lead gs)
    (hd : d ∈ f.declarations) : ∃ x ga m as p bs fits, gs = as ++ p :: bs ∧ CutOf d s lead x ga m as p bs fits := by
  obtain ⟨pre, t, post, hsib, ht, hat⟩ := h.readInOrder hd
  obtain ⟨as, p, bs, rfl, rfl⟩ := ho.mem_nodes_iff.mp ht
  obtain ⟨a, m, hsplit, hsplice, hcomment, hbare⟩ := exists_doc h.refusal hsib hat ho
  obtain ⟨x, gap, fits, hjoint⟩ := exists_joint lead as
  have hp := ho.linked.items p (by simp)
  obtain ⟨-, hstop⟩ := hp.range s lead as
  have hs : stretches s = (lead ++ joined as) ++ (p.code ++ (p.gap ++ joined bs)) := by
    rw [ho.stretches_eq, joined_append, List.append_assoc, joined_cons]
  obtain ⟨ga, rfl, rfl, hnonempty⟩ := exists_kept h.refusal hsib hat ho hjoint hsplit hsplice hbare
  have hlabel := hat.label
  rw [itemBehind, Tree.label_moved] at hlabel
  refine ⟨x, ga, m, as, p, bs, fits, rfl, ⟨ho, hjoint, hnonempty, hcomment⟩, hsplice, hat.stop.trans hstop,
    fun u => ?_, beq_false_of_ne hlabel⟩
  have hdeclared := hat.declared
  rw [itemBehind, h.encode_eq] at hdeclared
  rw [← itemDeclares_segment hp hs u, Declaration.itemDeclares, hdeclared, Tree.label_moved,
    bne_iff_ne.mpr hlabel]
  rfl

/-! ## Cutting declarations out -/

theorem CutOf.stretches_eq (h : CutOf d s lead x ga m as p bs fits) :
    lead ++ (joined as ++ p.code) = (x ++ ga) ++ (m ++ p.code) ∧
      stretches s = (lead ++ (joined as ++ p.code)) ++ (p.gap ++ joined bs) := by
  constructor
  · rw [← List.append_assoc, h.joint.eq]
    simp only [List.append_assoc]
  · rw [h.outline.stretches_eq, joined_append, joined_cons]
    simp only [List.append_assoc]

/-- The source without a declaration is the text without its segment. -/
theorem CutOf.cut_eq (h : CutOf d s lead x ga m as p bs fits) :
    Splice.cut (Utf8.encode s) d = Utf8.encode (withoutItem s (x ++ ga) p bs) := by
  obtain ⟨hcode, hs⟩ := h.stretches_eq
  have hstop := h.stop
  rw [hcode, texts_append, ← List.append_assoc] at hstop
  have htext : Utf8.encode s = Utf8.encode (orderMark s ++ texts (x ++ ga)) ++ Utf8.encode (texts (m ++ p.code)) ++
      Utf8.encode (texts (p.gap ++ joined bs)) := by
    conv => lhs; rw [← orderMark_append_texts s, hs, hcode]
    simp only [texts_append, Utf8.encode_append, List.append_assoc]
  rw [Splice.cut, htext, List.drop_left' (by rw [hstop, byteWidth_eq, ← Utf8.encode_append]),
    List.append_assoc, List.take_left' (by rw [h.spliceStart, byteWidth_eq]), ← Utf8.encode_append, withoutItem,
    List.append_assoc]

/-- Whether a declaration stands apart in a text: behind it its line ends before any code.  If
there is no such line end the text ends without code, and then a line end or a semicolon stands
between the declaration and any item before it. -/
inductive Detached (s : List Char) (d : Declaration) : Prop
  | line {a x b : List Lexeme} {l : Lexeme} : stretches s = a ++ (x ++ l :: b) →
      d.stop = byteWidth (orderMark s ++ texts a) → NoCode x → l.cls = .newline → Detached s d
  | last {a x : List Lexeme} : stretches s = a ++ x → d.stop = byteWidth (orderMark s ++ texts a) → NoCode x →
      (∀ t ∈ (textItems s).nodes, t.stop ≤ d.spliceStart → ∃ b l c, stretches s = b ++ l :: c ∧ l.isEnd ∧
        t.stop ≤ byteWidth (orderMark s ++ texts b) ∧ byteWidth (orderMark s ++ texts b) < d.spliceStart) →
      Detached s d

theorem CutOf.ne_nil (h : CutOf d s lead x ga m as p bs fits) :
    ∀ l ∈ (lead ++ (joined as ++ p.code)) ++ (p.gap ++ joined bs), l.text ≠ [] := fun l hl =>
  ne_nil_of_mem_stretches (s := s) (by rw [h.stretches_eq.2]; exact hl)

/-- The line of a declaration that stands apart ends behind its segment. -/
theorem CutOf.breaks (h : CutOf d s lead x ga m as p bs fits) {a y b : List Lexeme} {l : Lexeme}
    (hs : stretches s = a ++ (y ++ l :: b)) (hstop : d.stop = byteWidth (orderMark s ++ texts a)) (hy : NoCode y)
    (hl : l.cls = .newline) : NoCode p.gap ∧ Breaks p.gap := by
  rw [h.stretches_eq.2] at hs
  rw [h.stop, byteWidth_append, byteWidth_append, Nat.add_left_cancel_iff] at hstop
  obtain ⟨-, hrest⟩ := append_inj_width hs h.ne_nil hstop
  have hhead : ∀ z, NoCode z → joined bs ≠ z ++ l :: b := by
    intro z hz heq
    cases z with
    | nil =>
      obtain ⟨k, hk⟩ := h.linked.head l (by rw [heq]; rfl)
      rw [hl] at hk
      cases hk
    | cons j z =>
      obtain ⟨k, hk⟩ := h.linked.head j (by rw [heq]; rfl)
      exact hz j List.mem_cons_self k hk
  rcases append_eq_append_cons hrest with ⟨z, hgap, -⟩ | ⟨z, rfl, hz⟩
  · refine ⟨?_, ⟨l, by rw [hgap]; simp, hl⟩⟩
    have hlinked := h.outline.linked.of_append
    rw [hgap]
    cases hlinked with
    | cons _ hends _ => exact (hgap ▸ hends).noCode_of_line hy hl
    | last _ hnone _ => exact hgap ▸ hnone
  · exact absurd hz (hhead z fun k hk => hy k (List.mem_append_right _ hk))

/-- What ends the item before a declaration is not cut out, if it stands before the place. -/
theorem CutOf.exists_end (h : CutOf d s lead x ga m as p bs fits) (has : as ≠ [])
    (hends : ∀ t ∈ (textItems s).nodes, t.stop ≤ d.spliceStart → ∃ b l c, stretches s = b ++ l :: c ∧ l.isEnd ∧
        t.stop ≤ byteWidth (orderMark s ++ texts b) ∧ byteWidth (orderMark s ++ texts b) < d.spliceStart) :
    ∃ l ∈ ga, l.isEnd := by
  obtain ⟨hcode, hs⟩ := h.stretches_eq
  have hsplice := h.spliceStart
  have hne := h.ne_nil
  have ho := h.outline
  have hjoint := h.joint
  generalize ga ++ m = gap at hjoint
  cases hjoint with
  | first => exact absurd rfl has
  | behind as g =>
    obtain ⟨-, hgstop⟩ := (ho.linked.items g (by simp)).range s lead as
    have hgmem : itemBehind s lead as g ∈ (textItems s).nodes := ho.mem_nodes_iff.mpr ⟨as, g, p :: bs, by simp, rfl⟩
    obtain ⟨b, l, c, hsplit, hend, hle, hlt⟩ := hends _ hgmem (by
      rw [hgstop, hsplice]
      simp only [texts_append, byteWidth_append]
      omega)
    rw [hgstop, byteWidth_append, byteWidth_append (orderMark s)] at hle
    rw [hsplice, byteWidth_append, byteWidth_append (orderMark s)] at hlt
    rw [hs, hcode, List.append_assoc] at hsplit
    rw [hcode, List.append_assoc] at hne
    obtain ⟨e, he, -⟩ := split_before hsplit.symm (by omega)
    obtain ⟨y, -, hy⟩ := prefix_of_width_le he (fun l hl => hne l (List.mem_append_left _ hl)) (by omega)
    exact ⟨l, by rw [hy]; simp, hend⟩

/-- What is left without a declaration that stands apart can be read. -/
theorem CutOf.outline_of_detached (h : CutOf d s lead x ga m as p bs fits) (hd : Detached s d) :
    ∃ lead' as', SameItems as' as ∧ Outline (withoutItem s (x ++ ga) p bs) lead' (as' ++ bs) := by
  cases hd with
  | line hs hstop hy hl =>
    obtain ⟨hgap, hbreaks⟩ := h.breaks hs hstop hy hl
    exact h.outline_cut hgap fun _ => Or.inl hbreaks
  | last hs hstop hy hends =>
    rw [h.stretches_eq.2] at hs
    rw [h.stop, byteWidth_append, byteWidth_append, Nat.add_left_cancel_iff] at hstop
    obtain ⟨-, rfl⟩ := append_inj_width hs h.ne_nil hstop
    exact h.outline_cut (fun l hl => hy l (List.mem_append_left _ hl)) fun has => Or.inr (h.exists_end has hends)

/-- A text can be added to a file without one of its declarations if the file takes it. -/
theorem CutOf.takes (h : CutOf d s lead x ga m as p bs fits) {t : List Char} (ht : Takes s t) :
    Takes (withoutItem s (x ++ ga) p bs) t := by
  refine ⟨?_, fun ho => ht.comment ?_⟩
  · obtain ⟨ls, hls⟩ := stretches_lineEnd ht.lineEnd h.outline.isSound
    rw [h.stretches_eq.2] at hls
    rcases List.eq_nil_or_concat (p.gap ++ joined bs) with hnil | ⟨y, l, hy⟩
    · -- the file does not end with the item, since that ends with a token
      rw [hnil, List.append_nil, ← List.append_assoc] at hls
      obtain ⟨k, hk⟩ := (h.outline.linked.items p (by simp)).last hls
      cases hk
    · rw [hy, List.concat_eq_append, ← List.append_assoc] at hls
      obtain ⟨-, hl⟩ := List.append_inj' hls rfl
      rw [withoutItem, hy, (List.cons.inj hl).1, List.concat_eq_append, texts_append y, texts_cons, texts_nil,
        List.append_nil, ← List.append_assoc, ← List.append_assoc]
      exact List.getLast?_concat
  · obtain ⟨k, r, hs, hk⟩ := h.toCutOut.stretches_eq
    rw [hs]
    rcases opensComment_cut hs h.outline.isSound h.isFiller hk ho with ho | ho
    · exact opensComment_append _ ho
    · exact opensComment_suffix _ (opensComment_suffix _ ho)

/-- A file without a declaration that stands apart declares what it did, but for that. -/
theorem parse_cut (h : Parsed filename source true f s) (hd : d ∈ f.declarations) (hdetached : Detached s d) :
    ∃ f' s', SourceFile.parse filename (Splice.cut source d) true = .ok f' ∧ f'.source = Utf8.encode s' ∧
      f'.packageName = f.packageName ∧ (∀ u, f'.count u + (u.isDeclaredBy d.declared).toNat = f.count u) ∧
      ∀ t, Takes s t → Takes s' t := by
  obtain ⟨lead, gs, ho⟩ := h.exists_outline
  obtain ⟨x, ga, m, as, p, bs, fits, rfl, hcut⟩ := h.exists_cutOf ho hd
  obtain ⟨lead', as', hsame, hout⟩ := hcut.outline_of_detached hdetached
  obtain ⟨hreadAs, hreadBs⟩ := List.forall_mem_append.mp (ho.isReadable h)
  have hread := List.forall_mem_append.mpr ⟨hsame.isReadable hreadAs, (List.forall_mem_cons.mp hreadBs).2⟩
  have hclause : ((as' ++ bs).find? isClause).map packageName = some f.packageName := by
    have hname := ho.packageName_eq h
    rw [List.find?_append, List.find?_cons, hcut.notClause] at hname
    rw [hsame.find?_clause, List.find?_append]
    exact hname
  obtain ⟨f', hparse, hname, hcount⟩ := hout.file hread hclause filename
  refine ⟨f', _, by rw [h.encode_eq, hcut.cut_eq]; exact hparse, (parse_eq_ok_iff.mp hparse).choose_spec.source_eq,
    hname, fun u => ?_, fun t ht => hcut.takes ht⟩
  rw [hcount, ho.count_eq h, List.countP_append, List.countP_append, hsame.countP, List.countP_cons, hcut.declares]
  split
  · next hu =>
    rw [hu, Bool.toNat_true]
    omega
  · next hu =>
    rw [Bool.eq_false_iff.mpr hu, Bool.toNat_false]
    omega

end Cut

end GoSplice
