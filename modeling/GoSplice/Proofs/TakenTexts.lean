import GoSplice.Proofs.SnippetTexts
import GoSplice.Proofs.Tails

/-!
# Texts that are taken out of snippets

The text that a snippet adds for a declaration is its doc comment and its code, cut
as they are in the snippet.  At the end of a file it holds that declaration and no
import, and no text that stands behind it ends a comment that it begins:

    parse f text = ok ts → t ∈ ts → t.PutsInto f          (Snippet.putsInto_of_parse)
    parse f text = ok ts → add a ∈ ts → a.text is read as a declaration of a.subject
                                                          (Snippet.exists_isItemText)
    parse f text = ok ts → ts.Pairwise StandsBefore       (Snippet.pairwise_of_parse)
-/

namespace GoSplice

open Syntax

/-! ## Texts of declarations -/

/-- The stretches of a text that are taken out for a declaration: its doc comment and its code, and
a line end in place of what is between them. -/
structure TakenOut (s : List Char) (d : Declaration) (t : List Char) (a doc gap glue code b : List Lexeme) : Prop where
  stretches_eq : stretches s = a ++ (doc ++ (gap ++ (code ++ b)))
  start : d.spliceStart = byteWidth (orderMark s ++ texts a)
  stop : d.stop = byteWidth (orderMark s ++ texts (a ++ (doc ++ (gap ++ code))))
  semicolons : ∀ l ∈ doc, ∀ k, l.cls = .token k → k = .operator .semicolon
  glued : doc = [] ∧ glue = [] ∨ glue = [⟨.newline, ['\n']⟩]
  lexemes_eq : lexemes t = doc ++ (glue ++ code)

section Texts

variable {filename : String} {source : Bytes} {strict : Bool} {f : SourceFile} {s : List Char} {d : Declaration}

/-- What adds a declaration is no import and no package clause. -/
theorem label_of_subject {comments : List Comment} {t : Node} {d : Declared} {subject : Subject}
    (h : Declaration.declaredBy source comments t = .ok d) (hd : d.subject? = some subject) :
    t.label ≠ .importDecl := by
  intro hl
  unfold Declaration.declaredBy at h
  rw [hl] at h
  dsimp only at h
  cases hspecs : (Declaration.withLabel .importSpec t).mapM (Declaration.importSpecOf source) with
  | error e =>
    rw [hspecs] at h
    cases h
  | ok specs =>
    rw [hspecs] at h
    cases h
    cases hd

/-- The text that a snippet takes out for a declaration. -/
theorem Parsed.exists_takenOut (h : Parsed filename source strict f s)
    (hns : ∀ n ∈ (textItems s).nodes, Grammar.IsOpened n.label) (hd : d ∈ f.declarations) :
    ∃ a doc gap glue code b u, TakenOut s d (Snippet.declarationText source d).toList a doc gap glue code b ∧
      Declares code u ∧ u.label ≠ .packageClause ∧
      (∀ subject, d.declared.subject? = some subject → u.label ≠ .importDecl) ∧
      ∃ o, (Segment.declared ⟨code, u, []⟩).map (Declared.moved o) = .ok d.declared := by
  have hread := read_textItems h.refusal
  obtain ⟨pre, t, post, hsib, ht, hat⟩ := h.readInOrder hd
  obtain ⟨a, ls, b, u, hs, htu, hu⟩ := hread.declares hns ht
  have hsound := isSound_of_mem_stretches hread hns
  have hlabel : t.label = u.label := by rw [htu, Tree.label_moved]
  have hstart : t.start = byteWidth (orderMark s ++ texts a) := by
    rw [htu, Tree.start_moved, hu.start, Nat.zero_add]
  have hstop : t.stop = byteWidth (orderMark s ++ texts a ++ texts ls) := by
    rw [htu, Tree.stop_moved, hu.stop, Nat.add_comm, ← byteWidth_append]
  have hcode : slice source d.start d.stop = Utf8.encode (texts ls) := by
    rw [hat.start, hat.stop, hstart, hstop, h.encode_eq]
    exact slice_stretches hs
  have hdeclared := hat.declared
  rw [h.encode_eq, htu, declaredBy_stretches hs hu] at hdeclared
  suffices hout : ∃ a' doc gap glue,
      TakenOut s d (Snippet.declarationText source d).toList a' doc gap glue ls b from by
    obtain ⟨a', doc, gap, glue, hout⟩ := hout
    exact ⟨a', doc, gap, glue, ls, b, u, hout, hu, hlabel ▸ hat.label,
      fun subject hsubject => hlabel ▸ label_of_subject hat.declared hsubject, _, hdeclared⟩
  cases hdoc : d.doc with
  | none =>
    have htext : (Snippet.declarationText source d).toList = texts ls := by
      unfold Snippet.declarationText
      rw [hcode, hdoc]
      show (textOf (Utf8.encode (texts ls))).toList = _
      rw [textOf_encode, String.toList_ofList]
    refine ⟨a, [], [], [], hs, ?_, ?_, List.forall_mem_nil _, .inl ⟨rfl, rfl⟩, ?_⟩
    · rw [Declaration.spliceStart, hdoc, ← hstart, ← hat.start]
    · rw [hat.stop, hstop]
      simp only [texts_append, List.append_assoc, List.nil_append]
    · rw [htext]
      exact lexemes_alone hs hsound
  | some r =>
    obtain ⟨group, first, last, hgroup, rfl, -⟩ := docOf_of_readInOrder h.refusal hsib hat hdoc
    obtain ⟨p, doc, w, rfl, hfirst, hlast, -, d', l, rfl, hl⟩ := hgroup.split hs hstart
    have hs' : stretches s = p ++ (d' ++ [l] ++ (w ++ (ls ++ b))) := by
      rw [hs]
      simp only [List.append_assoc]
    have hsemicolons : ∀ m ∈ d' ++ [l], ∀ k, m.cls = .token k → k = .operator .semicolon := by
      intro m hm k hk
      refine semicolon_between (a := p) (m := d' ++ [l] ++ w) (b := ls ++ b) hread
        (by rw [hs']; simp only [List.append_assoc]) (fun n hn => ?_) (List.mem_append_left _ hm) hk
      rw [← hstart, ← hfirst]
      exact hgroup.gap n hn
    have hmem : l ∈ lexemes (s.drop (orderMark s).length) := by
      rw [show lexemes _ = stretches s from rfl, hs']
      simp
    have htext := declarationText_eq hmem hl hdoc
      (by rw [h.encode_eq, hfirst, hlast, ← byteWidth_append]; exact slice_stretches hs') hcode
    have hclosed := opensComment_between (s := s.drop (orderMark s).length) hs' hsemicolons
    refine ⟨p, d' ++ [l], w, [⟨.newline, ['\n']⟩], hs', ?_, ?_, hsemicolons, .inr rfl, ?_⟩
    · rw [Declaration.spliceStart, hdoc, ← hfirst]
    · rw [hat.stop, hstop]
      simp only [texts_append, List.append_assoc]
    · rw [htext, String.toList_ofList]
      have hlexemes := lexemes_extract hs' hsound hclosed
      simp only [List.append_assoc, List.cons_append, List.nil_append] at hlexemes ⊢
      exact hlexemes

section TakenOut

variable {t : List Char} {a doc gap glue code b : List Lexeme}

theorem TakenOut.text (h : TakenOut s d t a doc gap glue code b) : t = texts (doc ++ (glue ++ code)) := by
  rw [← h.lexemes_eq, texts_lexemes]

/-- A text that was taken out is at the end of a file what it is alone. -/
theorem TakenOut.lexemes_line (h : TakenOut s d t a doc gap glue code b) (hsound : ∀ l ∈ stretches s, l.cls.isSound) :
    (∀ l ∈ lexemes t, l.cls.isSound) ∧ lexemes (t ++ ['\n']) = lexemes t ++ [⟨.newline, ['\n']⟩] := by
  rw [h.stretches_eq] at hsound
  simp only [List.forall_mem_append] at hsound
  have hall : ∀ l ∈ lexemes t, l.cls.isSound := by
    rw [h.lexemes_eq]
    simp only [List.forall_mem_append]
    refine ⟨hsound.2.1, ?_, hsound.2.2.2.1⟩
    rcases h.glued with ⟨-, rfl⟩ | rfl
    · exact List.forall_mem_nil _
    · exact List.forall_mem_singleton.mpr rfl
  have hkeeps := @lexemes_keepsLine (lexemes t) [] [] ['\n']
    (by rw [texts_lexemes, List.append_nil, List.append_nil]) hall (.inl (by rintro _ ⟨⟩; rfl)) fun _ => rfl
  rw [texts_lexemes] at hkeeps
  exact ⟨hall, hkeeps⟩

/-- A text that was taken out for a declaration other than an import is one of declarations. -/
theorem TakenOut.tailText (h : TakenOut s d t a doc gap glue code b) (hsound : ∀ l ∈ stretches s, l.cls.isSound)
    {u : Node} (hu : Declares code u) (hl : u.label ≠ .importDecl ∧ u.label ≠ .packageClause) : TailText t := by
  obtain ⟨hall, hline⟩ := h.lexemes_line hsound
  have hitem : (⟨code, u, []⟩ : Segment).IsItem :=
    ⟨hu, fun l hl => ne_nil_of_mem_stretches (s := s) (by rw [h.stretches_eq]; simp [hl])⟩
  have hdoc : ∀ k ∈ kindsOf (doc ++ glue), k = .operator .semicolon := by
    intro k hk
    obtain ⟨l, hl, hcls⟩ := mem_kindsOf.mp hk
    rcases List.mem_append.mp hl with hl | hl
    · exact h.semicolons l hl k hcls
    · rcases h.glued with ⟨-, rfl⟩ | rfl
      · cases hl
      · rw [List.mem_singleton.mp hl] at hcls
        cases hcls
  refine ⟨?_, ⟨_, hline⟩, ?_⟩
  · rw [hline]
    exact List.forall_mem_append.mpr ⟨hall, List.forall_mem_singleton.mpr rfl⟩
  · rw [hline, h.lexemes_eq, ← List.append_assoc doc, List.append_assoc]
    exact isTail_of_item hdoc hitem hl (List.forall_mem_singleton.mpr nofun)

/-- A text that is read as one declaration of a subject: comments and semicolons, its segment, and
the line end. -/
structure IsItemText (subject : Subject) (t : List Char) (lead : List Lexeme) (g : Segment) : Prop where
  lexemes_eq : lexemes (t ++ ['\n']) = lead ++ (g.code ++ g.gap)
  lead : ∀ l ∈ lead, l.cls.isFiller
  gap : ∀ l ∈ g.gap, l.cls.isFiller
  isItem : g.IsItem
  isClause : g.isClause = false
  declared : ∃ d, g.declared = .ok d ∧ d.subject? = some subject

/-- A text that was taken out is read as the declaration that it was taken out for. -/
theorem TakenOut.isItemText (h : TakenOut s d t a doc gap glue code b) (hsound : ∀ l ∈ stretches s, l.cls.isSound)
    {u : Node} (hu : Declares code u) (hl : u.label ≠ .packageClause) {subject : Subject}
    (hsubject : d.declared.subject? = some subject) {o : Nat}
    (hdeclared : (Segment.declared ⟨code, u, []⟩).map (Declared.moved o) = .ok d.declared) :
    IsItemText subject t (doc ++ glue) ⟨code, u, [⟨.newline, ['\n']⟩]⟩ := by
  obtain ⟨e, he, hmoved⟩ := exists_of_map_ok hdeclared
  refine ⟨?_, List.forall_mem_append.mpr ⟨fun l hl => ?_, ?_⟩, List.forall_mem_singleton.mpr rfl,
    ⟨hu, fun l hl => ne_nil_of_mem_stretches (s := s) (by rw [h.stretches_eq]; simp [hl])⟩, beq_eq_false_iff_ne.mpr hl, e, he, ?_⟩
  · rw [(h.lexemes_line hsound).2, h.lexemes_eq]
    simp
  · cases hcls : l.cls with
    | blank | newline | comment => rfl
    | token k =>
      rw [h.semicolons l hl k hcls]
      rfl
  · rcases h.glued with ⟨-, rfl⟩ | rfl
    · exact List.forall_mem_nil _
    · exact List.forall_mem_singleton.mpr rfl
  · rw [← Declared.subject?_moved o, hmoved, hsubject]

/-- Where a text that was taken out begins a comment, no comment ends behind it. -/
theorem TakenOut.rest (h : TakenOut s d t a doc gap glue code b) (hsound : ∀ l ∈ stretches s, l.cls.isSound)
    (ho : opensComment (lexemes (t ++ ['\n']))) : blockCommentLength? (texts b) = none := by
  have hs : lexemes (s.drop (orderMark s).length) = a ++ (doc ++ (gap ++ (code ++ b))) := h.stretches_eq
  have hcode : opensComment code := by
    by_contra hcode
    have hclosed := opensComment_line (Bool.eq_false_iff.mpr hcode) (b := []) rfl
    rw [(h.lexemes_line hsound).2, h.lexemes_eq, List.append_assoc, List.append_assoc] at ho
    rcases h.glued with ⟨rfl, rfl⟩ | rfl
    · rw [List.nil_append, List.nil_append, hclosed] at ho
      cases ho
    · rw [List.singleton_append, opensComment_line (opensComment_between hs h.semicolons) hclosed] at ho
      cases ho
  have hall : lexemes (s.drop (orderMark s).length) = (a ++ (doc ++ gap)) ++ code ++ b := by
    rw [hs]
    simp only [List.append_assoc]
  exact opensComment_rest hall (opensComment_suffix _ hcode)

/-- A text that is taken out behind another one ends no comment that the other begins. -/
theorem TakenOut.before {e : Declaration} {t' : List Char} {a' doc' gap' glue' code' b' : List Lexeme}
    (h : TakenOut s d t a doc gap glue code b) (h' : TakenOut s e t' a' doc' gap' glue' code' b')
    (hsound : ∀ l ∈ stretches s, l.cls.isSound) (hle : d.stop ≤ e.spliceStart)
    (ho : opensComment (lexemes (t ++ ['\n']))) : blockCommentLength? (t' ++ ['\n']) = none := by
  have hrest := h.rest hsound ho
  have hs : a ++ (doc ++ (gap ++ code)) ++ b = a' ++ (doc' ++ (gap' ++ (code' ++ b'))) := by
    rw [← h'.stretches_eq, h.stretches_eq]
    simp only [List.append_assoc]
  obtain ⟨m, -, rfl⟩ := prefix_of_width_le hs
    (fun l hl => ne_nil_of_mem_stretches (s := s) (by rwa [h'.stretches_eq, ← hs])) (by
      rw [h.stop, h'.start, byteWidth_append, byteWidth_append] at hle
      omega)
  rw [texts_append] at hrest
  have hbehind := blockCommentLength?_suffix _ hrest
  rw [texts_append] at hbehind
  have hdoc := blockCommentLength?_of_append hbehind
  have hcode := blockCommentLength?_suffix _ hbehind
  rw [texts_append, texts_append] at hcode
  have hline := blockCommentLength?_append (blockCommentLength?_of_append (blockCommentLength?_suffix _ hcode))
    (b := ['\n']) rfl fun c hc => (Option.some.inj hc).symm
  rw [h'.text, texts_append, texts_append, List.append_assoc, List.append_assoc]
  rcases h'.glued with ⟨rfl, rfl⟩ | rfl
  · exact hline
  · refine blockCommentLength?_append hdoc ?_ fun c hc => (Option.some.inj hc).symm
    exact blockCommentLength?_cons_eq_none.mpr ⟨nofun, hline⟩

end TakenOut

end Texts

/-! ## Transforms of snippets -/

namespace Transform

/-- The text that a transform puts at the end of its file. -/
def addedText : Transform → List Char
  | .add a => a.text.toList ++ ['\n']
  | _ => []

/-- Whether no text of a transform ends a comment that the text of another before it begins. -/
def StandsBefore (t u : Transform) : Prop := opensComment (lexemes t.addedText) → blockCommentLength? u.addedText = none

/-- A transform that adds a declaration, without replacing any, or an import to a file. -/
inductive PutsInto (filename : String) : Transform → Prop
  | add {a : Addition} : a.filename = filename → a.replace = false → TailText a.text.toList →
      PutsInto filename (.add a)
  | addImport {i : ImportAddition} : i.filename = filename → IsImportName i.name.toList →
      IsPlainText i.path.toList → PutsInto filename (.addImport i)

end Transform

/-- What is read off some things in order is in order. -/
theorem pairwise_of_mapM {α β ε : Type} {f : α → Except ε β} {R : α → α → Prop} {S : β → β → Prop}
    (hS : ∀ x x' y y', R x x' → f x = .ok y → f x' = .ok y' → S y y') {xs : List α} {ys : List β}
    (h : xs.mapM f = .ok ys) (hxs : xs.Pairwise R) : ys.Pairwise S := by
  induction xs generalizing ys with
  | nil =>
    cases h
    exact .nil
  | cons x xs ih =>
    rw [List.pairwise_cons] at hxs
    obtain ⟨y, zs, hx, hrest, rfl⟩ := mapM_cons_eq_ok h
    refine List.pairwise_cons.mpr ⟨fun z hz => ?_, ih hrest hxs.2⟩
    obtain ⟨x', hx', hz⟩ := (mem_of_mapM hrest).2 z hz
    exact hS x x' y z (hxs.1 x' hx') hx hz

namespace Snippet

section Parse

variable {filename text : String} {ts : List Transform}

theorem putsInto_of_parse (h : parse filename text = .ok ts) {t : Transform} (ht : t ∈ ts) (hpath : t.HasPlainPath) :
    t.PutsInto filename := by
  obtain ⟨f, groups, hf, hgroups, rfl⟩ := parse_eq_ok h
  obtain ⟨s, hs⟩ := parse_eq_ok_iff.mp hf
  have hns := isOpened_of_transforms hs hgroups
  obtain ⟨group, hgroup, ht⟩ := List.mem_flatten.mp ht
  obtain ⟨d, hd, hg⟩ := (mem_of_mapM hgroups).2 group hgroup
  cases standsFor_of_transformsOf hg with
  | imports specs close hdecl =>
    obtain ⟨x, hx, rfl⟩ := List.mem_map.mp ht
    exact .addImport rfl (isImportName_of_mem hs hd hdecl x hx) hpath
  | add subject hsubject =>
    rw [List.mem_singleton.mp ht]
    obtain ⟨a, doc, gap, glue, code, b, u, hout, hu, hpackage, himport, -⟩ := hs.exists_takenOut hns hd
    exact .add rfl rfl (hout.tailText (isSound_of_mem_stretches (read_textItems hs.refusal) hns) hu
      ⟨himport subject hsubject, hpackage⟩)

/-- The text that a snippet adds for a declaration is read as that declaration. -/
theorem exists_isItemText (h : parse filename text = .ok ts) {a : Addition} (ha : .add a ∈ ts) :
    ∃ lead g, IsItemText a.subject a.text.toList lead g := by
  obtain ⟨f, groups, hf, hgroups, rfl⟩ := parse_eq_ok h
  obtain ⟨s, hs⟩ := parse_eq_ok_iff.mp hf
  have hns := isOpened_of_transforms hs hgroups
  obtain ⟨group, hgroup, ha⟩ := List.mem_flatten.mp ha
  obtain ⟨d, hd, hg⟩ := (mem_of_mapM hgroups).2 group hgroup
  cases standsFor_of_transformsOf hg with
  | imports specs close hdecl =>
    obtain ⟨x, -, hx⟩ := List.mem_map.mp ha
    cases hx
  | add subject hsubject =>
    cases List.mem_singleton.mp ha
    obtain ⟨a, doc, gap, glue, code, b, u, hout, hu, hpackage, -, o, hdeclared⟩ := hs.exists_takenOut hns hd
    exact ⟨_, _, hout.isItemText (isSound_of_mem_stretches (read_textItems hs.refusal) hns) hu hpackage hsubject
      hdeclared⟩

/-- The transforms of a snippet are in the order of their texts. -/
theorem pairwise_of_parse (h : parse filename text = .ok ts) : ts.Pairwise Transform.StandsBefore := by
  obtain ⟨f, groups, hf, hgroups, rfl⟩ := parse_eq_ok h
  obtain ⟨s, hs⟩ := parse_eq_ok_iff.mp hf
  have hns := isOpened_of_transforms hs hgroups
  have hsound := isSound_of_mem_stretches (read_textItems hs.refusal) hns
  refine List.pairwise_flatten.mpr ⟨fun group hgroup => ?_, ?_⟩
  · obtain ⟨d, -, hg⟩ := (mem_of_mapM hgroups).2 group hgroup
    cases standsFor_of_transformsOf hg with
    | imports specs close hdecl =>
      exact List.pairwise_map.mpr (List.pairwise_of_forall fun _ _ _ => rfl)
    | add subject hsubject => exact List.pairwise_singleton _ _
  · refine pairwise_of_mapM (fun d e group group' hde hg hg' => ?_) hgroups (List.Pairwise.and_mem.mp hs.pairwise)
    obtain ⟨hd, he, hle⟩ := hde
    intro t ht u hu
    cases standsFor_of_transformsOf hg with
    | imports specs close hdecl =>
      obtain ⟨x, -, rfl⟩ := List.mem_map.mp ht
      exact fun ho => by cases ho
    | add subject hsubject =>
      cases standsFor_of_transformsOf hg' with
      | imports specs close hdecl =>
        obtain ⟨x, -, rfl⟩ := List.mem_map.mp hu
        exact fun _ => rfl
      | add subject' hsubject' =>
        rw [List.mem_singleton.mp ht, List.mem_singleton.mp hu]
        obtain ⟨_, _, _, _, _, _, _, hout, -⟩ := hs.exists_takenOut hns hd
        obtain ⟨_, _, _, _, _, _, _, hout', -⟩ := hs.exists_takenOut hns he
        exact hout.before hout' hsound hle

end Parse

end Snippet

end GoSplice
