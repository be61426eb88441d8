import GoSplice.Proofs.Siblings
import GoSplice.Proofs.Utf8
import GoSplice.Source.File

/-!
# The ranges of declarations

The ranges of a parsed file can be cut out of its bytes one by one: declarations
come in source order with their doc comments between them, and all offsets lie
between characters.

    parse name source strict = ok f → WellPlaced source d for each declaration d,
      and each d ends before the doc comment of the next   (parse_wellPlaced)
-/

namespace GoSplice

open Syntax

/-! ## Items of a source -/

/-- The items of a source that is text. -/
def itemsIn (source : Bytes) : List Node :=
  match Utf8.decode? source with
  | some s => (textItems s).nodes
  | none => []

/-- Whether the bytes up to an offset are a text, and those behind it too. -/
def IsCharBoundary (source : Bytes) (n : Nat) : Prop :=
  ∃ a b, source = Utf8.encode (a ++ b) ∧ n = (Utf8.encode a).length

/-- The specs of an import declaration, and its closing parenthesis. -/
structure SpecsPlaced (source : Bytes) (start stop : Nat) (specs : List ImportSpec)
    (close : Option Nat) : Prop where
  ordered : specs.Pairwise fun a b => a.stop ≤ b.start
  inside : ∀ s ∈ specs, start ≤ s.start ∧ s.start < s.stop ∧ s.stop ≤ stop
  boundary : ∀ s ∈ specs, IsCharBoundary source s.start ∧ IsCharBoundary source s.stop
  paren : ∀ c ∈ close, source[c]? = some 41 ∧ start ≤ c ∧ c < stop ∧ IsCharBoundary source c ∧
    ∀ s ∈ specs, s.stop ≤ c

/-- A declaration whose ranges lie in the source as they should.  41 is the
closing parenthesis. -/
structure WellPlaced (source : Bytes) (d : Declaration) : Prop where
  start_lt : d.start < d.stop
  stop_le : d.stop ≤ source.length
  doc : ∀ r ∈ d.doc, r.start < r.stop ∧ r.stop ≤ d.start
  splice_le : d.spliceStart ≤ d.start
  filler : ∃ s, slice source d.spliceStart d.start = Utf8.encode s ∧ IsFiller s
  clause : ∀ n ∈ itemsIn source, n.label = .packageClause → n.stop ≤ d.spliceStart ∨ d.stop ≤ n.start
  boundary : IsCharBoundary source d.start ∧ IsCharBoundary source d.stop ∧
    ∀ r ∈ d.doc, IsCharBoundary source r.start ∧ IsCharBoundary source r.stop
  specs : ∀ specs close, d.declared = .imports specs close →
    SpecsPlaced source d.start d.stop specs close

theorem isCharBoundary_of {s : List Char} {n : Nat} (h : IsBoundary s n) :
    IsCharBoundary (Utf8.encode s) n := by
  obtain ⟨a, b, rfl, rfl⟩ := h.cut
  exact ⟨a, b, rfl, byteWidth_eq a⟩

/-- The bytes between two places of a text. -/
theorem slice_encode (a u b : List Char) :
    slice (Utf8.encode (a ++ u ++ b)) (byteWidth a) (byteWidth (a ++ u)) = Utf8.encode u := by
  unfold slice
  rw [byteWidth_eq, byteWidth_eq, Utf8.encode_append (a ++ u) b, List.take_left, Utf8.encode_append,
    List.drop_left]

/-! ## Parsed files -/

/-- What a file that was read holds, where `s` is its text. -/
structure Parsed (filename : String) (source : Bytes) (strict : Bool) (f : SourceFile)
    (s : List Char) : Prop where
  filename_eq : f.filename = filename
  source_eq : f.source = source
  encode_eq : source = Utf8.encode s
  lines_eq : f.lines = LineIndex.ofBytes source
  refusal : (textItems s).refusal = none
  clause : ∃ t, (textItems s).nodes.find? (·.label == .packageClause) = some t ∧
    f.packageName = Declaration.childText source .name t ∧ f.clauseEnd = t.stop
  clauseCount : f.clauseCount = (textItems s).nodes.countP (·.label == .packageClause)
  isDeclaration : strict = true → ∀ t ∈ (textItems s).nodes, Fault.isDeclaration t
  declarations : Declaration.ofNodes source (LineIndex.ofBytes source) (textItems s).nodes
    (scan s).comments = .ok f.declarations

/-- The first statement of a text that is to hold declarations only. -/
def stray? (strict : Bool) (s : List Char) : Option Node :=
  if strict then (textItems s).nodes.find? (!Fault.isDeclaration ·) else none

theorem stray?_eq_none {strict : Bool} {s : List Char} :
    stray? strict s = none ↔ (strict = true → ∀ t ∈ (textItems s).nodes, Fault.isDeclaration t) := by
  cases strict <;> simp [stray?]

theorem textItems_def (s : List Char) :
    textItems s = itemsOf (scan s).tokens (scan s).lastBreak := rfl

/-- A file is read if nothing of it is refused. -/
theorem parse_eq_ok_iff {filename : String} {source : Bytes} {strict : Bool} {f : SourceFile} :
    SourceFile.parse filename source strict = .ok f ↔ ∃ s, Parsed filename source strict f s := by
  cases hs : Utf8.decode? source with
  | none =>
    constructor
    · intro h
      simp only [SourceFile.parse, hs] at h
      cases h
    · rintro ⟨s, hp⟩
      rw [hp.encode_eq, Utf8.decode?_encode] at hs
      cases hs
  | some s =>
    have hsource := Utf8.eq_encode_of_decode? hs
    constructor
    · intro h
      unfold SourceFile.parse at h
      rw [hs] at h
      dsimp only at h
      split at h
      · cases h
      next hr =>
      split at h
      · cases h
      next t ht =>
      split at h
      · cases h
      next hstray =>
      rw [← textItems_def] at hr ht hstray h
      cases hd : Declaration.ofNodes source (LineIndex.ofBytes source) (textItems s).nodes
          (scan s).comments with
      | error e => rw [hd] at h; cases h
      | ok ds =>
        rw [hd] at h
        cases h
        exact ⟨s, rfl, rfl, hsource, rfl, hr, ⟨t, ht, rfl, rfl⟩, rfl, stray?_eq_none.mp hstray, hd⟩
    · rintro ⟨s', hp⟩
      obtain rfl : s' = s := Utf8.encode_injective (hp.encode_eq.symm.trans hsource)
      obtain ⟨t, ht, hname, hend⟩ := hp.clause
      have hstray := stray?_eq_none.mpr hp.isDeclaration
      unfold stray? at hstray
      unfold SourceFile.parse
      rw [hs]
      dsimp only
      rw [← textItems_def]
      simp only [hp.refusal, ht, hstray, hp.declarations]
      obtain ⟨filename', source', packageName, clauseEnd, clauseCount, lines, declarations⟩ := f
      obtain ⟨h1, h2, -, h3, -, -, h4, -, -⟩ := hp
      dsimp only at h1 h2 h3 h4 hname hend
      rw [h1, h2, h3, h4, hname, hend]
      rfl

theorem Parsed.itemsIn_eq {filename : String} {source : Bytes} {strict : Bool} {f : SourceFile}
    {s : List Char} (h : Parsed filename source strict f s) : itemsIn source = (textItems s).nodes := by
  unfold itemsIn
  rw [h.encode_eq, Utf8.decode?_encode]

/-! ## Import specs -/

theorem exists_of_map_ok {ε α β : Type} {f : α → β} {x : Except ε α} {b : β} (h : x.map f = .ok b) :
    ∃ a, x = .ok a ∧ f a = b := by
  cases x with
  | error e => cases h
  | ok a => exact ⟨a, rfl, Except.ok.inj h⟩

theorem mapM_cons_eq_ok {α β ε : Type} {f : α → Except ε β} {x : α} {xs : List α} {ys : List β}
    (h : (x :: xs).mapM f = .ok ys) : ∃ z zs, f x = .ok z ∧ xs.mapM f = .ok zs ∧ ys = z :: zs := by
  rw [List.mapM_cons] at h
  cases hx : f x with
  | error e => rw [hx] at h; cases h
  | ok z =>
    cases hxs : xs.mapM f with
    | error e => rw [hx, hxs] at h; cases h
    | ok zs =>
      rw [hx, hxs] at h
      cases h
      exact ⟨z, zs, rfl, rfl, rfl⟩

/-- Import specs lie where their nodes do. -/
theorem importSpecs_ranges {source : Bytes} {ts : List Node} {specs : List ImportSpec}
    (h : ts.mapM (Declaration.importSpecOf source) = .ok specs) :
    specs.map (fun x => (x.start, x.stop)) = ts.map fun t => (t.start, t.stop) := by
  induction ts generalizing specs with
  | nil => cases h; rfl
  | cons t ts ih =>
    obtain ⟨x, xs, hx, hxs, rfl⟩ := mapM_cons_eq_ok h
    unfold Declaration.importSpecOf at hx
    split at hx
    · cases hx
      rw [List.map_cons, List.map_cons, ih hxs]
    · cases hx

theorem imports_of_declaredBy {source : Bytes} {comments : List Comment} {t : Node}
    {specs : List ImportSpec} {close : Option Nat}
    (h : Declaration.declaredBy source comments t = .ok (.imports specs close)) :
    t.label = .importDecl ∧
      (Declaration.withLabel .importSpec t).mapM (Declaration.importSpecOf source) = .ok specs ∧
      close = (Declaration.withLabel .closeParen t).head?.map (·.start) := by
  unfold Declaration.declaredBy at h
  split at h
  case h_6 hl =>
    cases hm : (Declaration.withLabel .importSpec t).mapM (Declaration.importSpecOf source) with
    | error e => rw [hm] at h; cases h
    | ok specs' =>
      rw [hm] at h
      cases h
      exact ⟨hl, rfl, rfl⟩
  all_goals cases h

/-- A token of an operator has its spelling. -/
theorem getElem?_of_isWord {s : List Char} {o : Operator} {n e : Nat} {b : UInt8}
    (h : IsWord s (.operator o) n e)
    (hb : ∀ x ∈ operators, x.2 = o → (Utf8.encode x.1.toList).head? = some b) :
    (Utf8.encode s)[n]? = some b := by
  obtain ⟨l, hl, hk, -⟩ := h
  obtain ⟨u, v, huv, rfl, hs⟩ := mem_layout hl
  obtain ⟨w, hw, htext⟩ := operator_stretch (show lexemes (s.drop (orderMark s).length) = _ from huv) hk
  have hhead := hb _ hw rfl
  generalize orderMark s ++ texts u = a at hs ⊢
  rw [hs, List.append_assoc, Utf8.encode_append, Utf8.encode_append, htext, byteWidth_eq,
    List.getElem?_append_right (Nat.le_refl _), Nat.sub_self]
  cases hw' : Utf8.encode w.toList with
  | nil => rw [hw'] at hhead; cases hhead
  | cons x xs =>
    rw [hw'] at hhead
    exact hhead

/-- The specs of an import declaration lie in it one after the other, and the parenthesis
behind them. -/
theorem specsPlaced_of_node {s : List Char} {c e : Place} {t : Node} {comments : List Comment}
    {specs : List ImportSpec} {close : Option Nat} (hc : c.Orderly (IsBoundary s) (IsWord s))
    (hm : Matches Grammar.rules Grammar.item c ⟨[t], e⟩)
    (h : Declaration.declaredBy (Utf8.encode s) comments t = .ok (.imports specs close)) :
    SpecsPlaced (Utf8.encode s) t.start t.stop specs close := by
  obtain ⟨hl, hspecs, rfl⟩ := imports_of_declaredBy h
  have hnest := (hm.nested hc).1.range.2.2.2.2.2
  obtain ⟨ts, ps, hcs, hts, hps⟩ := import_children hc hm hl
  rw [hcs] at hnest
  have hfilter : Declaration.withLabel .importSpec t = ts := by
    unfold Declaration.withLabel
    rw [hcs, List.filter_append, List.filter_eq_self.mpr (fun x hx => by simpa using hts x hx)]
    rcases hps with rfl | ⟨p, _, rfl, hp, -⟩
    · simp
    · simp [hp]
  rw [hfilter] at hspecs
  have hmap := importSpecs_ranges hspecs
  have hpair := hnest.pairwise
  have hspec : ∀ x ∈ specs, ∃ y ∈ ts, x.start = y.start ∧ x.stop = y.stop := by
    intro x hx
    have hmem : (x.start, x.stop) ∈ ts.map fun t => (t.start, t.stop) :=
      hmap ▸ List.mem_map_of_mem hx
    obtain ⟨y, hy, he⟩ := List.mem_map.mp hmem
    rw [Prod.mk.injEq] at he
    exact ⟨y, hy, he.1.symm, he.2.symm⟩
  have hrange : ∀ y ∈ ts, _ := fun y hy => (hnest.of_mem (List.mem_append_left _ hy)).range
  refine ⟨?_, ?_, ?_, ?_⟩
  · have hts' : (ts.map fun t => (t.start, t.stop)).Pairwise fun a b => a.2 ≤ b.1 :=
      List.pairwise_map.mpr (List.pairwise_append.mp hpair).1
    rw [← hmap] at hts'
    exact List.pairwise_map.mp hts'
  · intro x hx
    obtain ⟨y, hy, hs, he⟩ := hspec x hx
    obtain ⟨h1, h2, h3, -⟩ := hrange y hy
    rw [hs, he]
    exact ⟨h1, h2, h3⟩
  · intro x hx
    obtain ⟨y, hy, hs, he⟩ := hspec x hx
    obtain ⟨-, -, -, h4, h5, -⟩ := hrange y hy
    rw [hs, he]
    exact ⟨isCharBoundary_of h4, isCharBoundary_of h5⟩
  · intro n hn
    obtain ⟨p, hp, rfl⟩ := Option.map_eq_some_iff.mp hn
    have hp := List.mem_of_head? hp
    unfold Declaration.withLabel at hp
    rw [List.mem_filter, hcs, List.mem_append] at hp
    obtain ⟨hp, hlabel⟩ := hp
    have hlabel : p.label = .closeParen := by simpa using hlabel
    have hmem : p ∈ ps := by
      refine hp.resolve_left fun hp => ?_
      rw [hts p hp] at hlabel
      cases hlabel
    obtain ⟨h1, h2, h3, h4, -⟩ := (hnest.of_mem (List.mem_append_right _ hmem)).range
    refine ⟨?_, h1, by omega, isCharBoundary_of h4, ?_⟩
    · rcases hps with rfl | ⟨q, stop, rfl, -, hw⟩
      · cases hmem
      · rw [List.mem_singleton] at hmem
        subst hmem
        exact getElem?_of_isWord hw (by decide)
    · intro x hx
      obtain ⟨y, hy, -, he⟩ := hspec x hx
      rw [he]
      exact (List.pairwise_append.mp hpair).2.2 y hy p hmem

/-! ## Declarations in their places -/

section Placed

variable {filename : String} {source : Bytes} {strict : Bool} {f : SourceFile} {s : List Char}

/-- The items and comments of a file that was read, in order. -/
def siblingsOf (s : List Char) : List Declaration.Sibling :=
  Declaration.siblings (textItems s).nodes (scan s).comments

theorem siblingsOf_pairwise (h : (textItems s).refusal = none) :
    (siblingsOf s).Pairwise Declaration.Before ∧ ∀ x ∈ siblingsOf s, x.start < x.stop := by
  have hread := read_textItems h
  have horderly := startOf_orderly s
  obtain ⟨hi, -, hnest⟩ := hread.nested horderly
  have hpos : ∀ c ∈ (scan s).comments, c.start < c.stop := by
    intro c hc
    obtain ⟨l, hl, -, hstop⟩ := mem_comments hc
    have := width_pos_of_mem_layout hl
    omega
  have hsep : ∀ n ∈ (textItems s).nodes, ∀ c ∈ (scan s).comments, c.start < n.start →
      c.stop ≤ n.start := by
    intro n hn c hc hlt
    obtain ⟨c', d, hc', hm⟩ := hread.matched horderly n hn
    obtain ⟨k, e, hw⟩ := item_start hc'.orderly hm
    exact comment_before_word hc hw hlt
  refine ⟨(Declaration.siblings_pairwise hnest (comments_pairwise s) hpos (fun c _ => Nat.zero_le _)
    hsep).1, ?_⟩
  intro x hx
  cases x with
  | comment c => exact hpos c (Declaration.comment_mem_siblings hx)
  | item t => exact (hnest.of_mem (Declaration.item_mem_siblings.mp hx)).range.2.1

theorem Parsed.pairwise (h : Parsed filename source strict f s) :
    f.declarations.Pairwise fun d e => d.stop ≤ e.spliceStart := by
  obtain ⟨horder, hrange⟩ := siblingsOf_pairwise h.refusal
  exact Declaration.ofSiblings_pairwise h.declarations horder hrange

theorem Parsed.wellPlaced (h : Parsed filename source strict f s) {d : Declaration}
    (hd : d ∈ f.declarations) : WellPlaced source d := by
  have hread := read_textItems h.refusal
  have horderly := startOf_orderly s
  obtain ⟨hi, hcut, hnest⟩ := hread.nested horderly
  obtain ⟨horder, hrange⟩ := siblingsOf_pairwise h.refusal
  obtain ⟨pre, t, post, hsib, hat⟩ := Declaration.readInOrder_of_mem h.declarations hd horder hrange
  rw [List.append_nil] at hat
  change siblingsOf s = _ at hsib
  have ht : t ∈ (textItems s).nodes :=
    Declaration.item_mem_siblings.mp (show .item t ∈ siblingsOf s by rw [hsib]; simp)
  obtain ⟨-, hlt, hthi, hts, hte, -⟩ := (hnest.of_mem ht).range
  obtain ⟨c, e, hc, hm⟩ := hread.matched horderly t ht
  obtain ⟨k, e', hw⟩ := item_start hc.orderly hm
  have hcomment : ∀ c, .comment c ∈ pre.reverse → c ∈ (scan s).comments := by
    intro c hc
    exact Declaration.comment_mem_siblings (show .comment c ∈ siblingsOf s by
      rw [hsib, List.mem_append]; exact Or.inl (List.mem_reverse.mp hc))
  have hcb : ∀ c ∈ (scan s).comments, IsBoundary s c.start ∧ IsBoundary s c.stop := by
    intro c hc
    obtain ⟨l, hl, -, hstop⟩ := mem_comments hc
    rw [hstop]
    exact ⟨isBoundary_start hl, isBoundary_stop hl⟩
  -- an item other than that of the declaration lies on either side of it
  have hgap : ∀ x ∈ (textItems s).nodes, x = t ∨ x.stop ≤ d.spliceStart ∨ t.stop ≤ x.start := by
    intro x hx
    have hx : .item x ∈ siblingsOf s := Declaration.item_mem_siblings.mpr hx
    rw [hsib, List.mem_append, List.mem_cons] at hx
    rcases hx with hx | hx | hx
    · exact Or.inr (Or.inl (hat.before_splice (List.mem_reverse.mpr hx)))
    · cases hx; exact Or.inl rfl
    · rw [hsib, List.pairwise_append, List.pairwise_cons] at horder
      exact Or.inr (Or.inr (horder.2.1.1 _ hx))
  have hfirst : ∃ l, (d.spliceStart, l) ∈ layout s := by
    unfold Declaration.spliceStart
    cases hdoc : d.doc with
    | none =>
      obtain ⟨l, hl, -⟩ := hw
      exact ⟨l, hat.start ▸ hl⟩
    | some r =>
      obtain ⟨group, first, last, rest, hb, hf, -, rfl, -⟩ := hat.docRange hdoc
      obtain ⟨l, hl, -⟩ := mem_comments (hcomment first (by rw [hb]; simp [hf]))
      exact ⟨l, hl⟩
  rw [h.encode_eq]
  refine ⟨?_, ?_, ?_, hat.splice_le, ?_, ?_, ?_, ?_⟩
  · rw [hat.start, hat.stop]
    exact hlt
  · rw [hat.stop, ← byteWidth_eq]
    exact hte.le
  · intro r hr
    obtain ⟨-, -, -, -, -, -, -, -, h1, h2, -⟩ := hat.docRange hr
    exact ⟨h1, h2⟩
  · obtain ⟨l, hl⟩ := hfirst
    have hle := hat.splice_le
    rw [hat.start] at hle ⊢
    obtain ⟨a, u, b, rfl, ha, hu, hfill⟩ := isFiller_between hread hl hw hle fun x hx => by
      rcases hgap x hx with rfl | h | h <;> omega
    refine ⟨u, ?_, hfill⟩
    rw [← ha, ← hu]
    exact slice_encode a u b
  · intro n hn hlabel
    rw [← h.encode_eq, h.itemsIn_eq] at hn
    rcases hgap n hn with rfl | h | h
    · exact absurd hlabel hat.label
    · exact Or.inl h
    · rw [hat.stop]
      exact Or.inr h
  · rw [hat.start, hat.stop]
    refine ⟨isCharBoundary_of hts, isCharBoundary_of hte, ?_⟩
    intro r hr
    obtain ⟨group, first, last, rest, hb, hf, hl, rfl, -⟩ := hat.docRange hr
    exact ⟨isCharBoundary_of (hcb first (hcomment first (by rw [hb]; simp [hf]))).1,
      isCharBoundary_of (hcb last (hcomment last (by rw [hb]; simp [hl]))).2⟩
  · intro specs close hdecl
    have hby := hat.declared
    rw [hdecl, h.encode_eq] at hby
    rw [hat.start, hat.stop]
    exact specsPlaced_of_node hc.orderly hm hby

end Placed

/-- The declarations of a file that was read are in order, each in its place. -/
theorem parse_wellPlaced {filename : String} {source : Bytes} {strict : Bool} {f : SourceFile}
    (h : SourceFile.parse filename source strict = .ok f) :
    f.declarations.Pairwise (fun d e => d.stop ≤ e.spliceStart) ∧
      ∀ d ∈ f.declarations, WellPlaced source d := by
  obtain ⟨s, hs⟩ := parse_eq_ok_iff.mp h
  exact ⟨hs.pairwise, fun d hd => hs.wellPlaced hd⟩

/-- A file with an import group and a function with a doc comment. -/
def groupAndFunction : Bytes :=
  bytesOf "package a\n\nimport (\n\t\"fmt\"\n)\n\n// F does nothing.\nfunc F() \x7b\x7d\n"

theorem groupAndFunction_wellPlaced : ∃ f, SourceFile.parse "a.go" groupAndFunction true = .ok f ∧
    f.declarations.length = 2 ∧ f.declarations.Pairwise (fun d e => d.stop ≤ e.spliceStart) ∧
    ∀ d ∈ f.declarations, WellPlaced groupAndFunction d := by
  obtain ⟨f, hf, hlength⟩ : ∃ f, SourceFile.parse "a.go" groupAndFunction true = .ok f ∧
      f.declarations.length = 2 := ⟨_, rfl, rfl⟩
  exact ⟨f, hf, hlength, parse_wellPlaced hf⟩

end GoSplice
