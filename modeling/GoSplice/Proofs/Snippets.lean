import GoSplice.Proofs.Extracts
import GoSplice.Proofs.PartSteps
import GoSplice.Proofs.Vocabulary

/-!
# The transforms of a snippet

A snippet whose items end with their lines stands for whole transforms: each adds
one whole declaration, or a single import.

    parse f text = ok ts → t ∈ ts → t.IsWhole              (isWhole_of_parse)

However the items end, what a snippet adds is a paragraph, but for semicolons between the comments above its code:

    parse f text = ok ts → .add a ∈ ts → ∃ g, g.IsTaken, a.text = the text of g     (exists_taken_of_parse)
-/

namespace GoSplice

open Syntax GoSplice.Part

theorem mem_of_mapM {α β ε : Type} {f : α → Except ε β} {xs : List α} {ys : List β}
    (h : xs.mapM f = .ok ys) :
    (∀ x ∈ xs, ∃ y ∈ ys, f x = .ok y) ∧ ∀ y ∈ ys, ∃ x ∈ xs, f x = .ok y := by
  induction xs generalizing ys with
  | nil =>
    cases h
    exact ⟨List.forall_mem_nil _, List.forall_mem_nil _⟩
  | cons x xs ih =>
    obtain ⟨z, zs, hx, hxs, rfl⟩ := mapM_cons_eq_ok h
    obtain ⟨hgiven, hmade⟩ := ih hxs
    constructor
    · refine List.forall_mem_cons.mpr ⟨⟨z, List.mem_cons_self, hx⟩, fun y hy => ?_⟩
      obtain ⟨w, hw, hf⟩ := hgiven y hy
      exact ⟨w, List.mem_cons_of_mem z hw, hf⟩
    · refine List.forall_mem_cons.mpr ⟨⟨x, List.mem_cons_self, hx⟩, fun y hy => ?_⟩
      obtain ⟨w, hw, hf⟩ := hmade y hy
      exact ⟨w, List.mem_cons_of_mem x hw, hf⟩

/-! ## Local names of imports -/

/-- The text of a token is that of its stretch. -/
theorem nodeText_of_isWord {s : List Char} {k : Kind} {y : Node} (h : IsWord s k y.start y.stop) :
    ∃ a l b, stretches s = a ++ l :: b ∧ l.cls = .token k ∧
      Declaration.nodeText (Utf8.encode s) y = String.ofList l.text := by
  obtain ⟨l, hl, hk, hstop⟩ := h
  obtain ⟨a, b, hab, hstart, hs⟩ := mem_layout hl
  refine ⟨a, l, b, hab, hk, ?_⟩
  unfold Declaration.nodeText
  rw [hstop, hstart, ← byteWidth_append]
  conv => lhs; arg 1; arg 1; rw [hs]
  rw [slice_encode, textOf_encode]

/-- A token that is a name has the text of one. -/
theorem isNameText_of_stretch {s : List Char} {a b : List Lexeme} {l : Lexeme} {k : Kind}
    (h : stretches s = a ++ l :: b) (hl : l.cls = .token k) (hk : k ∈ [Kind.name, .constant, .allocator]) :
    IsNameText l.text := by
  obtain ⟨⟨c, r, htext, hc, hr⟩, hkind⟩ := name_stretch (s := s.drop (orderMark s).length) h hl hk
  refine ⟨⟨⟨c, r, htext, hc⟩, ?_⟩, hkind ▸ hk⟩
  rw [htext]
  exact List.forall_mem_cons.mpr ⟨by simp [Text.isWordChar, hc], hr⟩

/-- A token that can be the local name of an import is one. -/
theorem isImportName_of_stretch {s : List Char} {a b : List Lexeme} {l : Lexeme} {k : Kind}
    (h : stretches s = a ++ l :: b) (hl : l.cls = .token k)
    (hk : k ∈ [Kind.operator .dot, .name, .constant, .allocator]) : IsImportName l.text := by
  rcases List.mem_cons.mp hk with rfl | hk
  · obtain ⟨w, hw, htext⟩ := operator_stretch (s := s.drop (orderMark s).length) h hl
    have hdot : ∀ x ∈ operators, x.2 = .dot → x.1.toList = ['.'] := by decide
    exact Or.inr (Or.inl (htext.trans (hdot _ hw rfl)))
  · exact Or.inr (Or.inr (isNameText_of_stretch h hl hk))

/-- The local names that a file gives to imports. -/
theorem isImportName_of_declaredBy {s : List Char} {c d : Place} {t : Node} {comments : List Comment}
    {specs : List ImportSpec} {close : Option Nat} (hc : c.Orderly (IsBoundary s) (IsWord s))
    (hm : Matches Grammar.rules Grammar.item c ⟨[t], d⟩)
    (h : Declaration.declaredBy (Utf8.encode s) comments t = .ok (.imports specs close)) :
    ∀ x ∈ specs, IsImportName x.name.toList := by
  obtain ⟨hl, hspecs, -⟩ := imports_of_declaredBy h
  intro x hx
  obtain ⟨y, hy, hread⟩ := (mem_of_mapM hspecs).2 x hx
  obtain ⟨hy, hlabel⟩ := List.mem_filter.mp hy
  obtain ⟨c', d', hc', hm'⟩ := importSpec_matched hc hm hy hl (by simpa using hlabel)
  unfold Declaration.importSpecOf at hread
  split at hread
  · cases hread
    show IsImportName (Declaration.childText _ _ y).toList
    unfold Declaration.childText Declaration.childTexts
    cases hnames : y.children.filter ([Label.importName].contains ·.label) with
    | nil => exact Or.inl rfl
    | cons z zs =>
      have hz : z ∈ y.children ∧ _ := List.mem_filter.mp (hnames ▸ List.mem_cons_self)
      obtain ⟨k, hk, hw⟩ := importName_word hc' hm' hz.1 (by simpa using hz.2)
      obtain ⟨a, l, b, hab, hcls, htext⟩ := nodeText_of_isWord hw
      show IsImportName (Declaration.nodeText _ z).toList
      rw [htext, String.toList_ofList]
      exact isImportName_of_stretch hab hcls hk
  · cases hread

/-! ## Paragraphs that are taken out -/

/-- A paragraph that is taken out is read as its declaration, unless a semicolon is its first token. -/
theorem Paragraph.IsTaken.isRead_of_not_leadsSemicolon {g : Paragraph} (hg : g.IsTaken)
    (h : ¬ LeadsSemicolon (lexemes g.text)) : g.IsRead := by
  rw [hg.lexemes_eq, LeadsSemicolon, kindsOf_append] at h
  refine hg.isRead (noCode_iff_kindsOf.mpr ?_)
  cases hkinds : kindsOf g.doc with
  | nil => rfl
  | cons k ks =>
    -- a token above the code is a semicolon
    obtain ⟨l, hl, hcls⟩ := mem_kindsOf.mp (show k ∈ kindsOf g.doc by rw [hkinds]; exact List.mem_cons_self)
    have hfiller := hg.filler l hl
    rw [hcls] at hfiller
    rw [hkinds, show k = .operator .semicolon from of_decide_eq_true hfiller] at h
    exact absurd rfl h

/-! ## Whole transforms -/

/-- A transform that adds a whole declaration or a single import to a source file, or
passes over repeated imports. -/
inductive Transform.IsWhole : Transform → Prop
  | add {a : Addition} {g : Paragraph} : Package.isSourceName a.filename → g.IsSingle →
      a.text = String.ofList g.text → g.declared.subject? = some a.subject → IsWhole (.add a)
  | addImport {a : ImportAddition} : Package.isSourceName a.filename →
      IsImportName a.name.toList → IsPlainText a.path.toList → IsWhole (.addImport a)
  | dedupImports (filenames : Option (List String)) : IsWhole (.dedupImports filenames)

/-- Whether the path of an added import can stand between quotes as it is. -/
def Transform.HasPlainPath : Transform → Prop
  | .addImport a => IsPlainText a.path.toList
  | _ => True

theorem Transform.IsWhole.replacing {t : Transform} (h : t.IsWhole) : t.replacing.IsWhole := by
  cases h with
  | add hn hg htext hsubject => exact .add hn hg htext hsubject
  | addImport hn hname hpath => exact .addImport hn hname hpath
  | dedupImports filenames => exact .dedupImports filenames

namespace Snippet

/-- A snippet is read if the file behind its header is, has one package clause, and each declaration of it
stands for transforms. -/
theorem parse_iff {filename text : String} {ts : List Transform} : parse filename text = .ok ts ↔
    ∃ f groups, SourceFile.parse filename (bytesOf (header ++ text)) false = .ok f ∧ f.clauseCount ≤ 1 ∧
      f.declarations.mapM (transformsOf filename (bytesOf (header ++ text))) = .ok groups ∧
      ts = groups.flatten := by
  unfold parse
  dsimp only
  cases hf : SourceFile.parse filename (bytesOf (header ++ text)) false with
  | error e => exact iff_of_false nofun (by rintro ⟨f, groups, ⟨⟩, -⟩)
  | ok f =>
    change (if 1 < f.clauseCount then _ else _) = _ ↔ _
    split
    · next hmany =>
      refine iff_of_false nofun ?_
      rintro ⟨f', groups, ⟨rfl⟩, hone, -⟩
      omega
    · next hone =>
      cases hg : f.declarations.mapM (transformsOf filename (bytesOf (header ++ text))) with
      | error e => exact iff_of_false nofun (by rintro ⟨f', groups, ⟨rfl⟩, -, hg', -⟩; rw [hg] at hg'; cases hg')
      | ok groups =>
        refine ⟨fun h => ⟨f, groups, rfl, Nat.le_of_not_lt hone, hg, (Except.ok.inj h).symm⟩, ?_⟩
        rintro ⟨f', groups', ⟨rfl⟩, -, hg', rfl⟩
        rw [hg] at hg'
        cases hg'
        rfl

theorem parse_eq_ok {filename text : String} {ts : List Transform} (h : parse filename text = .ok ts) :
    ∃ f groups, SourceFile.parse filename (bytesOf (header ++ text)) false = .ok f ∧
      f.declarations.mapM (transformsOf filename (bytesOf (header ++ text))) = .ok groups ∧
      ts = groups.flatten := by
  obtain ⟨f, groups, hf, -, hg, hts⟩ := parse_iff.mp h
  exact ⟨f, groups, hf, hg, hts⟩

/-! ## What declarations stand for -/

/-- The transforms that a declaration stands for: one for each of its imports, or a single one
that adds it. -/
inductive StandsFor (filename : String) (source : Bytes) (d : Declaration) : List Transform → Prop
  | imports (specs : List ImportSpec) (close : Option Nat) : d.declared = .imports specs close →
      StandsFor filename source d (specs.map fun s => .addImport ⟨filename, s.name, s.path⟩)
  | add (subject : Subject) : d.declared.subject? = some subject →
      StandsFor filename source d [.add ⟨filename, subject, declarationText source d, false⟩]

theorem standsFor_of_transformsOf {filename : String} {source : Bytes} {d : Declaration}
    {group : List Transform} (h : transformsOf filename source d = .ok group) :
    StandsFor filename source d group := by
  unfold transformsOf at h
  split at h
  · next specs close hd =>
    cases h
    exact .imports specs close hd
  · next name receiver simple hd =>
    split at h
    · cases h
      exact .add _ (by rw [hd]; rfl)
    · cases h
  · next kind names hd =>
    cases h
    exact .add _ (by rw [hd]; rfl)
  · next names hd =>
    split at h
    · cases h
      exact .add _ (by rw [hd]; rfl)
    · cases h
  · cases h

section Parsed

variable {filename : String} {source : Bytes} {strict : Bool} {f : SourceFile} {s : List Char}

/-- A snippet with a statement among its items stands for nothing. -/
theorem isOpened_of_transforms {groups : List (List Transform)} (h : Parsed filename source strict f s)
    (hg : f.declarations.mapM (transformsOf filename source) = .ok groups) :
    ∀ n ∈ (textItems s).nodes, Grammar.IsOpened n.label := by
  intro n hn
  by_cases hopened : n.label ∈ Grammar.openings.map Grammar.Opening.label
  · exact hopened
  have hnot : ∀ l ∈ Grammar.openings.map Grammar.Opening.label, n.label ≠ l :=
    fun l hl he => hopened (he ▸ hl)
  obtain ⟨d, hd, hread⟩ := Declaration.declaredBy_of_mem h.declarations
    (Declaration.item_mem_siblings.mpr hn) (hnot _ (by decide))
  obtain ⟨group, -, hgroup⟩ := (mem_of_mapM hg).1 d hd
  have hother : ∃ kind, d.declared = .other kind := by
    unfold Declaration.declaredBy at hread
    split at hread
    case h_7 => exact ⟨_, (Except.ok.inj hread).symm⟩
    all_goals
      next hl => exact absurd hl (hnot _ (by decide))
  obtain ⟨kind, hkind⟩ := hother
  unfold transformsOf at hgroup
  rw [hkind] at hgroup
  cases hgroup

/-- The local names that a file gives to imports stay names where they are put. -/
theorem isImportName_of_mem (h : Parsed filename source strict f s) {d : Declaration} (hd : d ∈ f.declarations)
    {specs : List ImportSpec} {close : Option Nat} (hdecl : d.declared = .imports specs close) :
    ∀ x ∈ specs, IsImportName x.name.toList := by
  have hread := read_textItems h.refusal
  obtain ⟨horder, hrange⟩ := siblingsOf_pairwise h.refusal
  obtain ⟨pre, u, post, hsib, hat⟩ := Declaration.readInOrder_of_mem h.declarations hd horder hrange
  change siblingsOf s = _ at hsib
  have hu : u ∈ (textItems s).nodes :=
    Declaration.item_mem_siblings.mp (show .item u ∈ siblingsOf s by rw [hsib]; simp)
  obtain ⟨c, e, hc, hm⟩ := hread.matched (startOf_orderly s) u hu
  have hby := hat.declared
  rw [hdecl, h.encode_eq] at hby
  exact isImportName_of_declaredBy hc.orderly hm hby

/-- Each transform that a declaration stands for adds that declaration, or an import of it. -/
theorem isWhole_of_transformsOf (h : Parsed filename source strict f s) (hsep : Separate s)
    (hns : ∀ n ∈ (textItems s).nodes, Grammar.IsOpened n.label) (hname : Package.isSourceName filename)
    {d : Declaration} (hd : d ∈ f.declarations) {group : List Transform}
    (hg : transformsOf filename source d = .ok group) {t : Transform} (ht : t ∈ group)
    (hpath : t.HasPlainPath) : t.IsWhole := by
  obtain ⟨g, hread, -, hclosed, ⟨n, hdeclared⟩, htext⟩ := exists_paragraph h hsep.semicolons hns hd
  cases standsFor_of_transformsOf hg with
  | imports specs close hdecl =>
    obtain ⟨x, hx, rfl⟩ := List.mem_map.mp ht
    exact .addImport hname (isImportName_of_mem h hd hdecl x hx) hpath
  | add subject hsubject =>
    rw [List.mem_singleton.mp ht]
    rw [hdeclared, Declared.subject?_moved] at hsubject
    refine .add hname ⟨⟨hread, hclosed hsep.closed⟩, fun specs close himports => ?_⟩ htext hsubject
    rw [himports] at hsubject
    cases hsubject

end Parsed

/-- The transforms of a snippet whose items end with their lines are whole. -/
theorem isWhole_of_parse {filename text : String} {ts : List Transform} (h : parse filename text = .ok ts)
    (hname : Package.isSourceName filename) (hsep : Separate (header ++ text).toList) {t : Transform}
    (ht : t ∈ ts) (hpath : t.HasPlainPath) : t.IsWhole := by
  obtain ⟨f, groups, hf, hgroups, rfl⟩ := parse_eq_ok h
  obtain ⟨s, hs⟩ := parse_eq_ok_iff.mp hf
  obtain rfl : (header ++ text).toList = s := Utf8.encode_injective hs.encode_eq
  obtain ⟨group, hgroup, ht⟩ := List.mem_flatten.mp ht
  obtain ⟨d, hd, hg⟩ := (mem_of_mapM hgroups).2 group hgroup
  exact isWhole_of_transformsOf hs hsep (isOpened_of_transforms hs hgroups) hname hd hg ht hpath

/-- What a snippet adds is taken out of it as a paragraph. -/
theorem exists_taken_of_parse {filename text : String} {ts : List Transform} {a : Addition}
    (h : parse filename text = .ok ts) (ha : .add a ∈ ts) : a.filename = filename ∧ a.replace = false ∧
      ∃ g : Paragraph, g.IsTaken ∧ (EndsByLine (header ++ text).toList → g.IsRead) ∧
        a.text = String.ofList g.text ∧ g.declared.subject? = some a.subject := by
  obtain ⟨f, groups, hf, hgroups, rfl⟩ := parse_eq_ok h
  obtain ⟨s, hs⟩ := parse_eq_ok_iff.mp hf
  obtain rfl : (header ++ text).toList = s := Utf8.encode_injective hs.encode_eq
  obtain ⟨group, hgroup, ha⟩ := List.mem_flatten.mp ha
  obtain ⟨d, hd, hg⟩ := (mem_of_mapM hgroups).2 group hgroup
  obtain ⟨g, htaken, hread, -, -, ⟨n, hdeclared⟩, htext⟩ := exists_taken hs (isOpened_of_transforms hs hgroups) hd
  cases standsFor_of_transformsOf hg with
  | imports specs close hspecs =>
    obtain ⟨x, -, hx⟩ := List.mem_map.mp ha
    cases hx
  | add subject hsubject =>
    rw [List.mem_singleton, Transform.add.injEq] at ha
    subst ha
    rw [hdeclared, Declared.subject?_moved] at hsubject
    exact ⟨rfl, rfl, g, htaken, hread, htext, hsubject⟩

end Snippet

end GoSplice
