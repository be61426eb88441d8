import GoSplice.Proofs.Appending

/-!
# Package clauses and imports

The text of a package clause or of a single import, as it is written for a new
file, is read as what it says:

    Declares (clauseStretches name) (clauseNode name)          (declares_clause)
    Declares (importStretches name path) (importNode …)        (declares_import)

Its words are letters and digits, and nothing in its path ends the string.
-/

namespace GoSplice.Syntax

open Grammar Pattern

/-! ## Words, blanks and strings -/

/-- A letter, and letters and digits behind it. -/
structure IsWordText (s : List Char) : Prop where
  head : ∃ c r, s = c :: r ∧ Text.isLetter c
  all : ∀ c ∈ s, Text.isWordChar c

theorem letter_plain {c : Char} (h : Text.isLetter c) : c ≠ '\n' ∧ ¬ isInlineBlank c := by
  constructor
  · rintro rfl
    exact absurd h (by decide)
  · intro hb
    simp only [isInlineBlank, Bool.or_eq_true, decide_eq_true_eq, or_assoc] at hb
    rcases hb with rfl | rfl | rfl | rfl | rfl <;> exact absurd h (by decide)

/-- A word is one stretch. -/
theorem lexemes_word {s y : List Char} (hs : IsWordText s)
    (hy : ∀ c ∈ y.head?, Text.isWordChar c = false) :
    lexemes (s ++ y) = ⟨.token (.ofWord s), s⟩ :: lexemes y := by
  obtain ⟨⟨c, r, rfl, hc⟩, hall⟩ := hs
  obtain ⟨hline, hblank⟩ := letter_plain hc
  have hend : y.takeWhile Text.isWordChar = [] := by
    cases y with
    | nil => rfl
    | cons d y => exact List.takeWhile_cons_of_neg (by rw [hy d rfl]; exact Bool.false_ne_true)
  have hrest : (r ++ y).takeWhile Text.isWordChar = r := by
    rw [List.takeWhile_append_of_pos fun d hd => hall d (List.mem_cons_of_mem c hd), hend,
      List.append_nil]
  rw [List.cons_append, lexemes_cons, measure_word hline hblank hc, hrest]
  dsimp only
  rw [List.take_left, List.drop_left]

theorem lexemes_space {b c : Char} {r : List Char} (hb : isInlineBlank b) (h : isInlineBlank c = false) :
    lexemes (b :: c :: r) = ⟨.blank, [b]⟩ :: lexemes (c :: r) := by
  have hone : (c :: r).takeWhile isInlineBlank = [] :=
    List.takeWhile_cons_of_neg (by rw [h]; exact Bool.false_ne_true)
  rw [lexemes_cons, measure_blank hb, hone]
  rfl

/-- A path that can stand between quotes as it is. -/
def IsPlainText (s : List Char) : Prop := ∀ c ∈ s, c ≠ '"' ∧ c ≠ '\n' ∧ c ≠ '\\'

theorem interpretedEnd_plain {s : List Char} (hs : IsPlainText s) (y : List Char) :
    interpretedEnd (s ++ '"' :: y) = .closed (s.length + 1) := by
  induction s with
  | nil => rfl
  | cons c s ih =>
    rw [List.cons_append, interpretedEnd_cons (hs c List.mem_cons_self),
      ih fun d hd => hs d (List.mem_cons_of_mem c hd)]
    rfl

theorem lexemes_text {s : List Char} (hs : IsPlainText s) (y : List Char) :
    lexemes ('"' :: (s ++ '"' :: y)) = ⟨.token .text, '"' :: (s ++ ['"'])⟩ :: lexemes y := by
  rw [lexemes_cons, measure_string, interpretedEnd_plain hs]
  dsimp only [ofEnding]
  have hsplit : s ++ '"' :: y = (s ++ ['"']) ++ y := by simp
  rw [hsplit, List.take_left' (by simp), List.drop_left' (by simp)]

theorem lexemes_dot (y : List Char) :
    lexemes ('.' :: ' ' :: y) = ⟨.token (.operator .dot), ['.']⟩ :: lexemes (' ' :: y) := by
  have hop : operatorLexeme '.' (' ' :: y) = (.token (.operator .dot), 0) := by
    rfl
  rw [lexemes_cons, measure_dot (by simp), hop]
  rfl

/-! ## Matching step by step -/

section Steps

variable {R L : Type} {g : R → Pattern R L} {n : Nat} {p q : Pattern R L} {c : Place}

theorem find?_alt_of_some {f : Found L} (h : find? g n p c = some f) :
    find? g (n + 1) (.alt p q) c = some f := by
  simp only [find?, h]

theorem find?_alt_of_none (h : find? g n p c = none) :
    find? g (n + 1) (.alt p q) c = find? g n q c := by
  simp only [find?, h]

theorem find?_seq_of_some {f h : Found L} (hp : find? g n p c = some f)
    (hq : find? g n q f.place = some h) :
    find? g (n + 1) (.seq p q) c = some ⟨f.trees ++ h.trees, h.place⟩ := by
  simp only [find?, hp, hq]

/-- A node is found if what it is over is. -/
theorem find?_node_of_some {l : L} {f : Found L} {t : Token} {r : List Token} (hc : c.tokens = t :: r)
    (h : find? g n p c = some f) (hlt : t.start < f.place.offset) :
    find? g (n + 1) (.node l p) c = some ⟨[.node l t.start f.place.offset f.trees], f.place⟩ := by
  simp only [find?, h, Option.bind_some, nodeOver?, hc, if_pos hlt]

theorem find?_node_of_none {l : L} (h : find? g n p c = none) :
    find? g (n + 1) (.node l p) c = none := by
  simp only [find?, h, Option.bind_none]

section Token

variable {l : L} {kinds : List Kind} {o : Nat} {t : Token} {r : List Token} {x : Option Nat}

theorem find?_token_of_not_mem (h : t.kind ∉ kinds) :
    find? g (n + 1) (.token kinds) ⟨o, t :: r, x⟩ = none := by
  simp [find?, h]

theorem find?_token_node (hk : t.kind ∈ kinds) (ht : t.start < t.stop) :
    find? g (n + 2) (.node l (.token kinds)) ⟨o, t :: r, x⟩ =
      some ⟨[.node l t.start t.stop []], ⟨t.stop, r, x⟩⟩ := by
  simp only [find?, List.contains_iff_mem.mpr hk, if_true, Option.bind_some, nodeOver?, ht]

end Token

end Steps

theorem item?_clause {k : Kind} {o s e m n : Nat} {b d x : Option Nat} {r : List Token}
    (hk : k ∈ [Kind.name, .constant, .allocator]) (hse : s < n) (hmn : m < n) :
    item? ⟨o, ⟨.keyword .packageK, s, e, b⟩ :: ⟨k, m, n, d⟩ :: r, x⟩ =
      some (.node .packageClause s n [.node .name m n []], ⟨n, r, x⟩) := by
  rw [item?_eq_some_iff, ← find?_item (Nat.le_add_right _ 10)]
  generalize stepBound _ = f
  have hname := find?_token_node (g := rules) (n := f + 5) (l := Label.name) (t := ⟨k, m, n, d⟩) (o := e)
    (x := x) (r := r) hk hmn
  have hclause := (find?_seq_of_silent (p := keyword .packageK) (d := ⟨e, ⟨k, m, n, d⟩ :: r, x⟩)
    (c := ⟨o, ⟨.keyword .packageK, s, e, b⟩ :: ⟨k, m, n, d⟩ :: r, x⟩) rfl).trans hname
  exact find?_alt_of_some (find?_node_of_some (t := ⟨.keyword .packageK, s, e, b⟩) rfl hclause hse)

theorem find?_importSpec (n o m e : Nat) (b x : Option Nat) (r : List Token) (hme : m < e) :
    find? rules (n + 6) importSpec ⟨o, ⟨.text, m, e, b⟩ :: r, x⟩ =
      some ⟨[.node .importSpec m e [.node .importPath m e []]], ⟨e, r, x⟩⟩ := by
  have hname : find? rules (n + 2) (any [operator .dot, name]) ⟨o, ⟨.text, m, e, b⟩ :: r, x⟩ = none :=
    (find?_alt_of_none (find?_token_of_not_mem (by simp))).trans (find?_token_of_not_mem (by simp))
  have hnamed : find? rules (n + 4) (.seq (.node .importName (any [operator .dot, name]))
      (.node .importPath (.token [.text]))) ⟨o, ⟨.text, m, e, b⟩ :: r, x⟩ = none :=
    find?_seq_of_none (find?_node_of_none hname)
  have hpath := find?_token_node (g := rules) (n := n + 2) (l := Label.importPath)
    (t := ⟨.text, m, e, b⟩) (o := o) (x := x) (r := r) (List.mem_singleton.mpr rfl) hme
  exact find?_node_of_some (t := ⟨.text, m, e, b⟩) rfl ((find?_alt_of_none hnamed).trans hpath) hme

theorem find?_namedSpec {k : Kind} (hk : k ∈ [Kind.operator .dot, .name, .constant, .allocator])
    (n o i j m e : Nat) (b b' x : Option Nat) (r : List Token) (hij : i < j) (hme : m < e)
    (hie : i < e) : find? rules (n + 6) importSpec ⟨o, ⟨k, i, j, b⟩ :: ⟨.text, m, e, b'⟩ :: r, x⟩ =
      some ⟨[.node .importSpec i e [.node .importName i j [], .node .importPath m e []]],
        ⟨e, r, x⟩⟩ := by
  have hword : find? rules (n + 2) (any [operator .dot, name])
      ⟨o, ⟨k, i, j, b⟩ :: ⟨.text, m, e, b'⟩ :: r, x⟩ =
      some ⟨[], ⟨j, ⟨.text, m, e, b'⟩ :: r, x⟩⟩ := by
    rcases List.mem_cons.mp hk with rfl | hk
    · rfl
    · by_cases hdot : k = .operator .dot
      · subst hdot
        rfl
      · refine (find?_alt_of_none (find?_token_of_not_mem (by simpa using hdot))).trans ?_
        simp only [name, any, find?, List.contains_iff_mem.mpr hk, if_true]
  have hname := find?_node_of_some (l := Label.importName) (t := ⟨k, i, j, b⟩) rfl hword hij
  have hpath := find?_token_node (g := rules) (n := n + 1) (l := Label.importPath)
    (t := ⟨.text, m, e, b'⟩) (o := j) (x := x) (r := r) (List.mem_singleton.mpr rfl) hme
  exact find?_node_of_some (t := ⟨k, i, j, b⟩) rfl (find?_alt_of_some (find?_seq_of_some hname hpath)) hie

theorem item?_import {o s e : Nat} {b x : Option Nat} {t : Token} {ts : List Token} {d : Place}
    {spec : Node} (hparen : t.kind ≠ .operator .leftParen) (hs : s < d.offset)
    (hspec : ∀ n, find? rules (n + 6) importSpec ⟨e, t :: ts, x⟩ = some ⟨[spec], d⟩) :
    item? ⟨o, ⟨.keyword .importK, s, e, b⟩ :: t :: ts, x⟩ =
      some (.node .importDecl s d.offset [spec], d) := by
  rw [item?_eq_some_iff, ← find?_item (Nat.le_add_right _ 20)]
  generalize stepBound _ = f
  have hclause : find? rules (f + 19)
      (.node .packageClause (.seq (keyword .packageK) (.node .name name)))
      ⟨o, ⟨.keyword .importK, s, e, b⟩ :: t :: ts, x⟩ = none :=
    find?_node_of_none (find?_seq_of_none (find?_token_of_not_mem (by simp)))
  have hgroup : find? rules (f + 15)
      (all [leftParen, body importSpec, .node .closeParen rightParen]) ⟨e, t :: ts, x⟩ = none :=
    find?_seq_of_none (find?_token_of_not_mem (by simpa using hparen))
  have hrest : find? rules (f + 17) importDeclaration ⟨o, ⟨.keyword .importK, s, e, b⟩ :: t :: ts, x⟩ =
      some ⟨[spec], d⟩ :=
    (find?_seq_of_silent (d := ⟨e, t :: ts, x⟩) rfl).trans ((find?_alt_of_none hgroup).trans (hspec (f + 9)))
  have hitem := find?_node_of_some (l := Label.importDecl) (t := ⟨.keyword .importK, s, e, b⟩) rfl hrest hs
  exact (find?_alt_of_none hclause).trans (find?_alt_of_some hitem)
/-! ## Package clauses -/

def space : Lexeme := ⟨.blank, [' ']⟩

def clauseStretches (name : List Char) : List Lexeme :=
  [⟨.token (.keyword .packageK), "package".toList⟩, space, ⟨.token (.ofWord name), name⟩]

def clauseNode (name : List Char) : Node :=
  .node .packageClause 0 (8 + byteWidth name) [.node .name 8 (8 + byteWidth name) []]

/-- Whether a text is a word that can be a name. -/
structure IsNameText (s : List Char) : Prop extends IsWordText s where
  kind : Kind.ofWord s ∈ [Kind.name, .constant, .allocator]

theorem IsWordText.ne_nil {s : List Char} (h : IsWordText s) : s ≠ [] := by
  obtain ⟨⟨c, r, rfl, -⟩, -⟩ := h
  exact List.cons_ne_nil c r

theorem IsWordText.head_plain {s : List Char} (h : IsWordText s) (y : List Char) :
    ∃ c r, s ++ y = c :: r ∧ isInlineBlank c = false := by
  obtain ⟨⟨c, r, rfl, hc⟩, -⟩ := h
  exact ⟨c, r ++ y, rfl, Bool.eq_false_iff.mpr (letter_plain hc).2⟩

theorem lexemes_clause {name y : List Char} (h : IsWordText name)
    (hy : ∀ c ∈ y.head?, Text.isWordChar c = false) :
    lexemes (texts (clauseStretches name) ++ y) = clauseStretches name ++ lexemes y := by
  obtain ⟨c, r, hc, hblank⟩ := h.head_plain y
  have hkeyword : IsWordText "package".toList :=
    ⟨⟨'p', "ackage".toList, rfl, by decide⟩, List.all_eq_true.mp (by decide)⟩
  have htext : texts (clauseStretches name) ++ y = "package".toList ++ (' ' :: (name ++ y)) := by
    simp [clauseStretches, space]
  have hspace : ∀ c ∈ (' ' :: (name ++ y)).head?, Text.isWordChar c = false := by
    rintro c ⟨⟩
    decide
  rw [htext, lexemes_word hkeyword hspace, hc, lexemes_space (by decide) hblank, ← hc, lexemes_word h hy]
  rfl

/-- A package clause is read as one. -/
theorem declares_clause {name : List Char} (h : IsNameText name) :
    Declares (clauseStretches name) (clauseNode name) := by
  have hpos := byteWidth_pos h.ne_nil
  have hwidth : byteWidth (texts (clauseStretches name)) = 8 + byteWidth name := by
    simp only [clauseStretches, space, texts_cons, texts_nil, byteWidth_append, byteWidth_nil]
    rw [show byteWidth "package".toList = 7 from rfl, show byteWidth [' '] = 1 from rfl]
    omega
  have hsound : ∀ k ∈ [Kind.name, .constant, .allocator], k.isSound := by decide
  have hopened : Label.packageClause ∈ openings.map Opening.label := by decide
  refine ⟨hopened, ?_, ⟨_, _, _, rfl, rfl, rfl⟩, rfl, hwidth.symm, ?_, ?_⟩
  · intro l hl
    simp only [clauseStretches, List.mem_cons, List.not_mem_nil, or_false] at hl
    rcases hl with rfl | rfl | rfl
    · rfl
    · rfl
    · exact hsound _ h.kind
  · simp only [clauseNode, Tree.NestedIn, Nested, Tree.stop, hwidth, true_and]
    omega
  · intro F hF o b
    have htokens : (place F.shift b (clauseStretches name)).tokens =
        [⟨.keyword .packageK, F.shift, F.shift + 7, b⟩,
          ⟨.ofWord name, 8 + F.shift, 8 + byteWidth name + F.shift, none⟩] := by
      simp only [clauseStretches, space, place, List.cons.injEq, Token.mk.injEq, and_true, true_and]
      rw [show byteWidth "package".toList = 7 from rfl, show byteWidth [' '] = 1 from rfl]
      omega
    have hitem := item?_clause (o := o) (s := F.shift) (e := F.shift + 7) (m := 8 + F.shift)
      (n := 8 + byteWidth name + F.shift) (b := b) (d := none) (r := F.rest) (x := F.lastBreak) h.kind (by omega)
      (by omega)
    rw [htokens]
    simpa [clauseNode, Tree.moved_node, Tree.stop] using hitem

/-! ## Imports -/

/-- Whether a text can be the local name of an import, none if it is empty. -/
def IsImportName (s : List Char) : Prop := s = [] ∨ s = ['.'] ∨ IsNameText s

/-- The kind of the local name of an import. -/
def importNameKind (s : List Char) : Kind := if s = ['.'] then .operator .dot else .ofWord s

def quotedStretch (path : List Char) : Lexeme := ⟨.token .text, '"' :: (path ++ ['"'])⟩

/-- The local name and the path of an import. -/
def specStretches (name path : List Char) : List Lexeme :=
  if name = [] then [quotedStretch path]
  else [⟨.token (importNameKind name), name⟩, space, quotedStretch path]

def importStretches (name path : List Char) : List Lexeme :=
  ⟨.token (.keyword .importK), "import".toList⟩ :: space :: specStretches name path

/-- The node of the spec of an import that reaches to an offset. -/
def specNode (name path : List Char) : Node :=
  let width := byteWidth name
  let stop := 7 + byteWidth (texts (specStretches name path))
  .node .importSpec 7 stop
    (if name = [] then [.node .importPath 7 stop []]
    else [.node .importName 7 (7 + width) [], .node .importPath (8 + width) stop []])

def importNode (name path : List Char) : Node :=
  .node .importDecl 0 (specNode name path).stop [specNode name path]

section Import

variable {name path : List Char}

theorem importNameKind_mem (h : IsImportName name) (hne : name ≠ []) :
    importNameKind name ∈ [Kind.operator .dot, .name, .constant, .allocator] := by
  unfold importNameKind
  split
  · exact List.mem_cons_self
  · next hdot => exact List.mem_cons_of_mem _ ((h.resolve_left hne).resolve_left hdot).kind

theorem lexemes_spec (h : IsImportName name) (hp : IsPlainText path) (y : List Char) :
    lexemes (texts (specStretches name path) ++ y) = specStretches name path ++ lexemes y := by
  have htext : ∀ y, (quotedStretch path).text ++ y = '"' :: (path ++ '"' :: y) := by
    intro y
    simp [quotedStretch]
  unfold specStretches
  split
  · rw [texts_cons, texts_nil, List.append_nil, htext, lexemes_text hp]
    rfl
  · next hne =>
    have hall : texts [⟨.token (importNameKind name), name⟩, space, quotedStretch path] ++ y =
        name ++ ' ' :: '"' :: (path ++ '"' :: y) := by
      rw [← htext]
      simp [space]
    have hspace : lexemes (' ' :: '"' :: (path ++ '"' :: y)) =
        space :: quotedStretch path :: lexemes y := by
      rw [lexemes_space (by decide) (by decide), lexemes_text hp]
      rfl
    have hname : lexemes (name ++ ' ' :: '"' :: (path ++ '"' :: y)) =
        ⟨.token (importNameKind name), name⟩ :: lexemes (' ' :: '"' :: (path ++ '"' :: y)) := by
      rcases h.resolve_left hne with rfl | h
      · exact lexemes_dot _
      · have hdot : name ≠ ['.'] := by
          rintro rfl
          exact absurd (h.all '.' List.mem_cons_self) (by decide)
        rw [importNameKind, if_neg hdot]
        refine lexemes_word h.toIsWordText ?_
        rintro c ⟨⟩
        decide
    rw [hall, hname, hspace]
    rfl

/-- An import spec begins with no blank. -/
theorem spec_head_plain (h : IsImportName name) (path y : List Char) :
    ∃ c r, texts (specStretches name path) ++ y = c :: r ∧ isInlineBlank c = false := by
  unfold specStretches
  split
  · exact ⟨_, _, rfl, by decide⟩
  · next hne =>
    rcases h.resolve_left hne with rfl | h
    · exact ⟨_, _, rfl, by decide⟩
    · rw [texts_cons, List.append_assoc]
      exact h.head_plain _

theorem lexemes_import (h : IsImportName name) (hp : IsPlainText path) (y : List Char) :
    lexemes (texts (importStretches name path) ++ y) = importStretches name path ++ lexemes y := by
  have hkeyword : IsWordText "import".toList :=
    ⟨⟨'i', "mport".toList, rfl, by decide⟩, List.all_eq_true.mp (by decide)⟩
  have htext : texts (importStretches name path) ++ y =
      "import".toList ++ (' ' :: (texts (specStretches name path) ++ y)) := by
    simp [importStretches, space]
  have hspace : ∀ c ∈ (' ' :: (texts (specStretches name path) ++ y)).head?,
      Text.isWordChar c = false := by
    rintro c ⟨⟩
    decide
  obtain ⟨c, r, hc, hblank⟩ := spec_head_plain h path y
  rw [htext, lexemes_word hkeyword hspace, hc, lexemes_space (by decide) hblank, ← hc, lexemes_spec h hp]
  rfl

theorem byteWidth_importStretches (name path : List Char) :
    byteWidth (texts (importStretches name path)) = (importNode name path).stop := by
  rw [importStretches, texts_cons, texts_cons, byteWidth_append, byteWidth_append]
  rw [show byteWidth "import".toList = 6 from rfl, show byteWidth space.text = 1 from rfl]
  simp only [importNode, specNode, Tree.stop]
  omega

theorem byteWidth_specStretches (hne : name ≠ []) :
    byteWidth (texts (specStretches name path)) =
      byteWidth name + 1 + byteWidth (quotedStretch path).text := by
  rw [specStretches, if_neg hne, texts_cons, texts_cons, texts_cons, texts_nil, List.append_nil,
    byteWidth_append, byteWidth_append, show byteWidth space.text = 1 from rfl]
  dsimp only
  omega

/-- The tokens of an import are read as its node. -/
theorem item?_importStretches (h : IsImportName name) (F : Frame) (o : Nat) (b : Option Nat) :
    item? ⟨o, (place F.shift b (importStretches name path)).tokens ++ F.rest, F.lastBreak⟩ =
      some ((importNode name path).moved F.shift,
        ⟨(importNode name path).stop + F.shift, F.rest, F.lastBreak⟩) := by
  have hquoted : 0 < byteWidth (quotedStretch path).text := byteWidth_pos (List.cons_ne_nil _ _)
  have hplace : (place F.shift b (importStretches name path)).tokens =
      ⟨.keyword .importK, F.shift, F.shift + 6, b⟩ ::
        (place (F.shift + 7) none (specStretches name path)).tokens := rfl
  rw [hplace, importNode, specNode]
  generalize hq : byteWidth (quotedStretch path).text = q at hquoted
  by_cases hne : name = []
  · have hspec : specStretches name path = [quotedStretch path] := if_pos hne
    have htokens : (place (F.shift + 7) none (specStretches name path)).tokens =
        [⟨.text, 7 + F.shift, 7 + q + F.shift, none⟩] := by
      rw [hspec]
      simp only [place, quotedStretch, List.cons.injEq, Token.mk.injEq, and_true, true_and, ← hq]
      omega
    have hwidth : byteWidth (texts (specStretches name path)) = q := by
      rw [hspec, texts_cons, texts_nil, List.append_nil, hq]
    have hitem := item?_import (o := o) (s := F.shift) (e := F.shift + 6) (b := b) (x := F.lastBreak)
      (d := ⟨7 + q + F.shift, F.rest, F.lastBreak⟩) (t := ⟨.text, 7 + F.shift, 7 + q + F.shift, none⟩)
      (by simp) (by dsimp only; omega) fun n => find?_importSpec n _ _ _ _ _ F.rest (by omega)
    rw [htokens, hwidth]
    simpa [Tree.moved_node, Tree.stop, hne] using hitem
  · have hspec : specStretches name path =
      [⟨.token (importNameKind name), name⟩, space, quotedStretch path] := if_neg hne
    have hname := byteWidth_pos hne
    have htokens : (place (F.shift + 7) none (specStretches name path)).tokens =
        [⟨importNameKind name, 7 + F.shift, 7 + byteWidth name + F.shift, none⟩,
          ⟨.text, 8 + byteWidth name + F.shift, 7 + (byteWidth name + 1 + q) + F.shift, none⟩] := by
      rw [hspec]
      simp only [place, space, quotedStretch, List.cons.injEq, Token.mk.injEq, and_true, true_and, ← hq]
      rw [show byteWidth [' '] = 1 from rfl]
      omega
    have hparen : importNameKind name ≠ .operator .leftParen := by
      intro hparen
      have hmem := importNameKind_mem h hne
      rw [hparen] at hmem
      exact absurd hmem (by decide)
    have hitem := item?_import (o := o) (s := F.shift) (e := F.shift + 6) (b := b) (x := F.lastBreak)
      (d := ⟨7 + (byteWidth name + 1 + q) + F.shift, F.rest, F.lastBreak⟩)
      (t := ⟨importNameKind name, 7 + F.shift, 7 + byteWidth name + F.shift, none⟩) hparen
      (by dsimp only; omega) fun n => find?_namedSpec (importNameKind_mem h hne) n _ _ _
        (8 + byteWidth name + F.shift) _ _ none _ F.rest (by omega) (by omega) (by omega)
    rw [htokens, byteWidth_specStretches hne, hq]
    simpa [Tree.moved_node, Tree.stop, hne] using hitem

/-- A single import is read as one. -/
theorem declares_import (h : IsImportName name) :
    Declares (importStretches name path) (importNode name path) := by
  have hopened : Label.importDecl ∈ openings.map Opening.label := by decide
  refine ⟨hopened, ?_, ⟨_, _, _, rfl, rfl, rfl⟩, rfl, (byteWidth_importStretches name path).symm,
    ?_, ?_⟩
  · have hquoted : ∀ l ∈ specStretches name path, l.cls.isSound := by
      have hnames : ∀ k ∈ [Kind.operator .dot, .name, .constant, .allocator], k.isSound := by decide
      unfold specStretches
      split
      · exact List.forall_mem_singleton.mpr rfl
      · next hne =>
        have hname : (LexemeClass.token (importNameKind name)).isSound :=
          hnames _ (importNameKind_mem h hne)
        exact List.forall_mem_cons.mpr ⟨hname, List.forall_mem_cons.mpr
          ⟨rfl, List.forall_mem_singleton.mpr rfl⟩⟩
    exact List.forall_mem_cons.mpr ⟨rfl, List.forall_mem_cons.mpr ⟨rfl, hquoted⟩⟩
  · have hquoted : 0 < byteWidth (quotedStretch path).text := byteWidth_pos (List.cons_ne_nil _ _)
    rw [byteWidth_importStretches]
    by_cases hne : name = []
    · subst hne
      have hwidth : byteWidth (texts (specStretches [] path)) =
          byteWidth (quotedStretch path).text := by
        rw [specStretches, if_pos rfl, texts_cons, texts_nil, List.append_nil]
      simp only [importNode, specNode, Tree.NestedIn, Nested, Tree.stop, hwidth, if_true, true_and]
      omega
    · have hname := byteWidth_pos hne
      simp only [importNode, specNode, Tree.NestedIn, Nested, Tree.stop,
        byteWidth_specStretches hne, if_neg hne, true_and]
      omega
  · intro F _ o b
    exact item?_importStretches h F o b

end Import

end GoSplice.Syntax
