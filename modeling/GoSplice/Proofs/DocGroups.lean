import GoSplice.Proofs.CommentLines
import GoSplice.Proofs.Terminators
import Mathlib.Data.List.Chain

/-!
# Groups of comments above declarations

The comments in the doc comment of a declaration are a group right above it, without a blank line between
two of them or below the last:

    parse name source strict = ok f, d in f.declarations →
      f.DocComment d (f.docComments d)                                    (parse_docComments)

A comment that is right behind an item, in the line in which that ends, is in no doc comment, and the group
is the longest without such a comment.  Of a second comment in that line nothing is asked, so it is in the
doc comment of the declaration below if the group reaches up to it.  Where behind no item two comments
begin in its line, the group is the longest one without any comment in the line of an end before it.
-/

namespace GoSplice

open Syntax Declaration

/-! ## Groups without a blank line -/

/-- Whether an empty line, or one of white space, stands between two offsets. -/
def BlankLine (source : Bytes) (i j : Nat) : Prop :=
  ∃ x w y : List Char, slice source i j = Utf8.encode (x ++ '\n' :: (w ++ '\n' :: y)) ∧ ∀ c ∈ w, isInlineBlank c

/-- Whether no blank line stands between two siblings in a row. -/
def Close (source : Bytes) (xs : List Sibling) : Prop :=
  xs.IsChain fun a b => ¬ BlankLine source a.stop b.start

namespace SourceFile

/-- The items of a file and the comments outside of them, in source order. -/
def siblings (f : SourceFile) : List Sibling := Declaration.siblings (itemsIn f.source) f.comments

/-- Whether comments are a group right above a declaration: nothing but comments stands between them and it,
and there is no blank line. -/
def IsGroup (f : SourceFile) (d : Declaration) (group : List Comment) : Prop :=
  ∃ pre t post, f.siblings = pre ++ (group.map .comment ++ .item t :: post) ∧ t.start = d.start ∧
    Close f.source (group.map .comment ++ [.item t])

/-- Whether a comment begins in the line in which an item before it ends. -/
def SharesLine (f : SourceFile) (t : Node) (c : Comment) : Prop :=
  t.stop ≤ c.start ∧ f.lines.row t.stop = f.lines.row c.start

instance (f : SourceFile) (t : Node) (c : Comment) : Decidable (f.SharesLine t c) :=
  inferInstanceAs (Decidable (_ ∧ _))

/-- Whether a comment is right behind an item, and begins in the line in which that ends. -/
def Trails (f : SourceFile) (t : Node) (c : Comment) : Prop :=
  f.lines.row t.stop = f.lines.row c.start ∧ ∃ pre post, f.siblings = pre ++ .item t :: .comment c :: post

/-- Whether behind no item two comments outside of items begin in the line in which it ends. -/
def TrailsOnce (f : SourceFile) : Prop :=
  ∀ t ∈ itemsIn f.source, ∀ c e, .comment c ∈ f.siblings → .comment e ∈ f.siblings →
    f.SharesLine t c → f.SharesLine t e → c = e

/-- Whether no comment of a group begins in the line in which an item before it ends. -/
def IsApart (f : SourceFile) (group : List Comment) : Prop :=
  ∀ c ∈ group, ∀ t ∈ itemsIn f.source, ¬ f.SharesLine t c

/-- Whether no comment of a group trails an item. -/
def IsDetached (f : SourceFile) (group : List Comment) : Prop :=
  ∀ c ∈ group, ∀ t, ¬ f.Trails t c

/-- Whether comments are the doc comment of a declaration, the longest group right above it that is detached. -/
structure DocComment (f : SourceFile) (d : Declaration) (group : List Comment) : Prop where
  range : d.doc = group.head?.bind fun first => group.getLast?.map fun last => ⟨first.start, last.stop⟩
  isGroup : f.IsGroup d group
  isDetached : f.IsDetached group
  maximal : ∀ g, f.IsGroup d g → f.IsDetached g → g <:+ group

end SourceFile

/-! ## Rows and blank lines -/

section Rows

variable {source : Bytes} {i j : Nat}

/-- The row of an offset is that of one before it, and the line ends between. -/
theorem LineIndex.row_slice (hle : i ≤ j) : (LineIndex.ofBytes source).row j =
    (LineIndex.ofBytes source).row i + (slice source i j).count LineIndex.lineFeed := by
  have htake : source.take j = source.take i ++ slice source i j := by
    have hsplit := List.take_append_drop i (source.take j)
    rw [List.take_take, Nat.min_eq_left hle] at hsplit
    exact hsplit.symm
  rw [row_ofBytes, row_ofBytes, htake, List.count_append]

theorem count_lineFeed_newline (x y : List Char) : (Utf8.encode (x ++ '\n' :: y)).count LineIndex.lineFeed =
    (Utf8.encode x).count LineIndex.lineFeed + (Utf8.encode y).count LineIndex.lineFeed + 1 := by
  rw [Utf8.encode_append, List.count_append]
  have hline : Utf8.encode ('\n' :: y) = LineIndex.lineFeed :: Utf8.encode y := rfl
  rw [hline, List.count_cons_self, Nat.add_assoc]

/-- What stands below a blank line is two rows further down. -/
theorem BlankLine.row_le (h : BlankLine source i j) (hle : i ≤ j) :
    (LineIndex.ofBytes source).row i + 2 ≤ (LineIndex.ofBytes source).row j := by
  obtain ⟨x, w, y, hslice, -⟩ := h
  rw [LineIndex.row_slice hle, hslice, count_lineFeed_newline, count_lineFeed_newline]
  omega

end Rows

/-! ## Between two siblings -/

section Between

variable {s : List Char} {pre post : List Sibling} {a b : Sibling}

/-- Nothing stands between two siblings in a row. -/
theorem sibling_split (href : (textItems s).refusal = none) (hsib : siblingsOf s = pre ++ a :: b :: post) {z : Sibling}
    (hz : z ∈ siblingsOf s) : z.stop ≤ a.stop ∨ b.start ≤ z.start := by
  obtain ⟨horder, hrange⟩ := siblingsOf_pairwise href
  have ha := hrange a (by rw [hsib]; simp)
  have hb := hrange b (by rw [hsib]; simp)
  rw [hsib, List.pairwise_append, List.pairwise_cons, List.pairwise_cons] at horder
  obtain ⟨-, ⟨-, hpost, -⟩, hpre⟩ := horder
  rw [hsib, List.mem_append, List.mem_cons, List.mem_cons] at hz
  rcases hz with hz | rfl | rfl | hz
  · have : z.stop ≤ a.start := hpre z hz a List.mem_cons_self
    exact .inl (by omega)
  · exact .inl (Nat.le_refl _)
  · exact .inr (Nat.le_refl _)
  · have : b.stop ≤ z.start := hpost z hz
    exact .inr (by omega)

theorem item_split (href : (textItems s).refusal = none) (hsib : siblingsOf s = pre ++ a :: b :: post) {n : Node}
    (hn : n ∈ (textItems s).nodes) : n.stop ≤ a.stop ∨ b.start ≤ n.start :=
  sibling_split href hsib (z := .item n) (item_mem_siblings.mpr hn)

/-- A comment stands on either side of the gap between two siblings in a row, even inside an item. -/
theorem comment_split (href : (textItems s).refusal = none) (hsib : siblingsOf s = pre ++ a :: b :: post) {c : Comment}
    (hc : c ∈ (scan s).comments) : c.start < a.stop ∨ b.start ≤ c.start := by
  have hpos : ∀ c ∈ (scan s).comments, c.start < c.stop := fun c hc => (stop_le_of_mem_comments hc).1
  rcases mem_siblings_of_comment hc (comments_pairwise s) hpos with h | ⟨n, hn, hle, hlt⟩
  · have hw := hpos c hc
    have hsplit : c.stop ≤ a.stop ∨ b.start ≤ c.start := sibling_split href hsib h
    omega
  · have hsplit := item_split href hsib hn
    omega

theorem isBoundary_sibling (href : (textItems s).refusal = none) {z : Sibling} (hz : z ∈ siblingsOf s) :
    IsBoundary s z.start ∧ IsBoundary s z.stop := by
  cases z with
  | comment c =>
    obtain ⟨l, hl, -, hstop⟩ := mem_comments (comment_mem_siblings hz)
    exact ⟨isBoundary_start hl, show IsBoundary s c.stop by rw [hstop]; exact isBoundary_stop hl⟩
  | item t =>
    obtain ⟨_, -, hnest⟩ := (read_textItems href).nested (startOf_orderly s)
    obtain ⟨-, -, -, hstart, hstop, -⟩ := (hnest.of_mem (item_mem_siblings.mp hz)).range
    exact ⟨hstart, hstop⟩

theorem Syntax.IsBoundary.split {n : Nat} (h : IsBoundary s n) (hpos : 0 < n) :
    ∃ x y, stretches s = x ++ y ∧ n = byteWidth (orderMark s ++ texts x) :=
  h.resolve_left (Nat.ne_of_gt hpos)

/-- The stretches between two siblings in a row. -/
theorem exists_between (href : (textItems s).refusal = none) (hsib : siblingsOf s = pre ++ a :: b :: post) :
    ∃ x m y, stretches s = x ++ (m ++ y) ∧ a.stop = byteWidth (orderMark s ++ texts x) ∧
      b.start = byteWidth (orderMark s ++ texts (x ++ m)) := by
  obtain ⟨horder, hrange⟩ := siblingsOf_pairwise href
  have ha : a ∈ siblingsOf s := by rw [hsib]; simp
  have hb : b ∈ siblingsOf s := by rw [hsib]; simp
  have hpos := hrange a ha
  rw [hsib, List.pairwise_append, List.pairwise_cons] at horder
  have hle : a.stop ≤ b.start := horder.2.1.1 b List.mem_cons_self
  obtain ⟨x, u, hxu, hstop⟩ := (isBoundary_sibling href ha).2.split (by omega)
  obtain ⟨z, y, hzy, hstart⟩ := (isBoundary_sibling href hb).1.split (by omega)
  have hne : ∀ l ∈ x ++ u, l.text ≠ [] := fun l hl => ne_nil_of_mem_stretches (s := s) (by rw [hxu]; exact hl)
  rw [hstop, hstart, byteWidth_append, byteWidth_append] at hle
  obtain ⟨m, rfl, rfl⟩ := prefix_of_width_le (hxu.symm.trans hzy) hne (by omega)
  exact ⟨x, m, y, hxu, hstop, hstart⟩

end Between

/-! ## Stretches between two siblings -/

section Gap

variable {s : List Char} {x m y : List Lexeme}

/-- Whether some stretches of a text are outside of its items and comments. -/
structure IsGap (s : List Char) (x m y : List Lexeme) : Prop where
  text : stretches s = x ++ (m ++ y)
  read : Read (startOf s) (textItems s).nodes
  items : ∀ n ∈ (textItems s).nodes, n.stop ≤ byteWidth (orderMark s ++ texts x) ∨
    byteWidth (orderMark s ++ texts (x ++ m)) ≤ n.start
  comments : ∀ c ∈ (scan s).comments, c.start < byteWidth (orderMark s ++ texts x) ∨
    byteWidth (orderMark s ++ texts (x ++ m)) ≤ c.start

theorem IsGap.split (h : IsGap s x m y) {l : Lexeme} (hl : l ∈ m) :
    ∃ u v, m = u ++ l :: v ∧ stretches s = x ++ u ++ l :: (v ++ y) ∧ 0 < byteWidth l.text := by
  obtain ⟨u, v, rfl⟩ := List.append_of_mem hl
  have hs : stretches s = x ++ u ++ l :: (v ++ y) := by
    rw [h.text]
    simp
  exact ⟨u, v, rfl, hs, byteWidth_pos (ne_nil_of_mem_stretches (s := s) (by rw [hs]; simp))⟩

/-- There is no comment in a gap, and no code but semicolons. -/
theorem IsGap.isFiller (h : IsGap s x m y) : ∀ l ∈ m, l.cls.isFiller ∧ l.cls ≠ .comment := by
  intro l hl
  refine ⟨?_, fun hcomment => ?_⟩
  · cases hc : l.cls with
    | blank | newline | comment => rfl
    | token k => simp [LexemeClass.isFiller, semicolon_between h.read h.text h.items hl hc]
  · obtain ⟨u, v, rfl, hs, hwidth⟩ := h.split hl
    have hside := h.comments _ (mem_comments_of_stretch hs hcomment)
    simp only [texts_append, texts_cons, byteWidth_append] at hside
    omega

/-- There is no code in a gap behind a line end. -/
theorem IsGap.noCode_behind (h : IsGap s x m y) {u v : List Lexeme} (hm : m = u ++ ⟨.newline, ['\n']⟩ :: v) :
    NoCode v := by
  rw [noCode_iff 0 none]
  refine Classical.byContradiction fun hne => ?_
  obtain ⟨t, r, ht⟩ := List.exists_cons_of_ne_nil hne
  obtain ⟨w, l, z, rfl, hw, hl, -⟩ := place_eq_cons ht
  have hs : stretches s = x ++ u ++ ⟨.newline, ['\n']⟩ :: w ++ l :: (z ++ y) := by
    rw [h.text, hm]
    simp
  obtain ⟨n, hn, hstart, hstop⟩ := exists_item_behind_newline h.read hs hw hl
  have hwidth := byteWidth_pos (ne_nil_of_mem_stretches (s := s) (l := l) (by rw [hs]; simp))
  have hside := h.items n hn
  rw [hm] at hside
  simp only [texts_append, texts_cons, byteWidth_append] at hside hstart hstop
  omega

theorem IsGap.newline_of_mem (h : IsGap s x m y) : ∀ l ∈ m, '\n' ∈ l.text → l = ⟨.newline, ['\n']⟩ := by
  intro l hl hfeed
  obtain ⟨hfiller, hcomment⟩ := h.isFiller l hl
  obtain ⟨u, v, -, hs, -⟩ := h.split hl
  exact newline_of_filler hs hfiller hcomment hfeed

/-- Where a line end is missing, there are no line feeds. -/
theorem count_lineFeed_of_not_mem {ls : List Lexeme} (h : ∀ l ∈ ls, '\n' ∈ l.text → l = ⟨.newline, ['\n']⟩)
    (hnot : ⟨.newline, ['\n']⟩ ∉ ls) : (Utf8.encode (texts ls)).count LineIndex.lineFeed = 0 := by
  refine List.count_eq_zero.mpr fun hmem => LineIndex.lineFeed_not_mem_encode ?_ _ hmem rfl
  intro hfeed
  obtain ⟨l, hl, hmem⟩ := List.mem_flatMap.mp hfeed
  exact hnot (h l hl hmem ▸ hl)

/-- A gap of two line ends has a blank line. -/
theorem IsGap.exists_blankLine (h : IsGap s x m y) (hcount : 2 ≤ (Utf8.encode (texts m)).count LineIndex.lineFeed) :
    ∃ p w z : List Char, texts m = p ++ '\n' :: (w ++ '\n' :: z) ∧ ∀ c ∈ w, isInlineBlank c := by
  have hnewline := h.newline_of_mem
  have hfirst : ⟨.newline, ['\n']⟩ ∈ m := by
    refine Classical.byContradiction fun hnot => ?_
    rw [count_lineFeed_of_not_mem hnewline hnot] at hcount
    omega
  obtain ⟨p, q, hm, hp⟩ := List.eq_append_cons_of_mem hfirst
  have hcode := h.noCode_behind hm
  have htexts : texts m = texts p ++ '\n' :: texts q := by rw [hm]; simp
  rw [hm, List.forall_mem_append, List.forall_mem_cons] at hnewline
  have hsecond : ⟨.newline, ['\n']⟩ ∈ q := by
    refine Classical.byContradiction fun hnot => ?_
    rw [htexts, count_lineFeed_newline, count_lineFeed_of_not_mem hnewline.1 hp,
      count_lineFeed_of_not_mem hnewline.2.2 hnot] at hcount
    omega
  obtain ⟨w, z, rfl, hw⟩ := List.eq_append_cons_of_mem hsecond
  refine ⟨texts p, texts w, texts z, by rw [htexts]; simp, fun c hc => ?_⟩
  obtain ⟨l, hl, hcl⟩ := List.mem_flatMap.mp hc
  have hlm : l ∈ m := by rw [hm]; simp [hl]
  obtain ⟨u, v, -, hs, -⟩ := h.split hlm
  rw [stretches_eq] at hs
  cases hcls : l.cls with
  | blank => exact (blank_text (lexemes_suffix hs) hcls).1 c hcl
  | newline => exact absurd (newline_stretch (show l ∈ lexemes _ by rw [hs]; simp) hcls ▸ hl) hw
  | comment => exact absurd hcls (h.isFiller l hlm).2
  | token k => exact absurd hcls (hcode l (by simp [hl]) k)

end Gap

/-! ## Comments without a gap -/

section Close

variable {s : List Char} {pre post : List Sibling} {a b : Sibling}

/-- A blank line between two siblings in a row is what puts them two rows apart. -/
theorem blankLine_iff (href : (textItems s).refusal = none) (hsib : siblingsOf s = pre ++ a :: b :: post) :
    BlankLine (Utf8.encode s) a.stop b.start ↔
      (LineIndex.ofBytes (Utf8.encode s)).row a.stop + 2 ≤ (LineIndex.ofBytes (Utf8.encode s)).row b.start := by
  have horder := (siblingsOf_pairwise href).1
  rw [hsib, List.pairwise_append, List.pairwise_cons] at horder
  have hle : a.stop ≤ b.start := horder.2.1.1 b List.mem_cons_self
  refine ⟨fun h => h.row_le hle, fun hrow => ?_⟩
  obtain ⟨x, m, y, hs, hstop, hstart⟩ := exists_between href hsib
  have hgap : IsGap s x m y := by
    refine ⟨hs, read_textItems href, fun n hn => ?_, fun c hc => ?_⟩
    · rw [← hstop, ← hstart]
      exact item_split href hsib hn
    · rw [← hstop, ← hstart]
      exact comment_split href hsib hc
  have hslice : slice (Utf8.encode s) a.stop b.start = Utf8.encode (texts m) := by
    rw [hstop, hstart, texts_append, ← List.append_assoc]
    exact slice_stretches hs
  rw [LineIndex.row_slice hle, hslice] at hrow
  obtain ⟨p, w, z, htexts, hw⟩ := hgap.exists_blankLine (by omega)
  exact ⟨p, w, z, by rw [hslice, htexts], hw⟩

/-- Comments above a row without a gap have no blank line between them. -/
theorem above_iff (href : (textItems s).refusal = none) {group : List Comment}
    (hsib : siblingsOf s = pre ++ (group.reverse.map .comment ++ b :: post)) :
    let lines := LineIndex.ofBytes (Utf8.encode s)
    Above lines.row (lines.row b.start) group ↔ Close (Utf8.encode s) (group.reverse.map .comment ++ [b]) := by
  dsimp only
  induction group generalizing b post with
  | nil => exact iff_of_true trivial (List.isChain_singleton _)
  | cons c group ih =>
    rw [List.reverse_cons, List.map_append, List.append_assoc] at hsib ⊢
    have hpair : siblingsOf s = (pre ++ group.reverse.map .comment) ++ .comment c :: b :: post := by
      rw [hsib, List.append_assoc]
      rfl
    have hrows := (not_congr (blankLine_iff href hpair)).trans (Nat.not_le.trans Nat.lt_succ_iff)
    have ih := @ih (b :: post) (.comment c) hsib
    unfold Close at ih ⊢
    rw [List.map_singleton, List.singleton_append, List.isChain_append_cons_cons, hrows, ← ih]
    constructor
    · rintro ⟨hrow, habove⟩
      exact ⟨habove, hrow, List.isChain_singleton b⟩
    · rintro ⟨habove, hrow, -⟩
      exact ⟨hrow, habove⟩

end Close

/-! ## The group that is taken -/

namespace Declaration

/-- The comments above a row that are the doc comment there, nearest first. -/
def docGroup (lines : LineIndex) : Nat → List Sibling → List Comment
  | row, .comment c :: before =>
    if (docStart? lines row (.comment c :: before)).isSome then c :: docGroup lines (lines.row c.start) before else []
  | _, _ => []

section DocGroup

variable {lines : LineIndex} {row : Nat} {before : List Sibling} {c : Comment}

/-- A comment above a row, without a gap, that trails no item is of the doc comment there. -/
theorem docStart?_comment (hrow : row ≤ lines.row c.stop + 1)
    (htrailing : NotTrailing lines.row (lines.row c.start) before) : docStart? lines row (.comment c :: before) =
      (docStart? lines (lines.row c.start) before).or (some c.start) := by
  unfold docStart?
  rw [if_neg (Nat.not_lt.mpr hrow)]
  cases before with
  | nil => rfl
  | cons x before =>
    cases x with
    | comment d => rfl
    | item t => exact if_neg fun h => htrailing t before rfl (beq_iff_eq.mp h)

theorem docGroup_comment (hrow : row ≤ lines.row c.stop + 1)
    (htrailing : NotTrailing lines.row (lines.row c.start) before) :
    docGroup lines row (.comment c :: before) = c :: docGroup lines (lines.row c.start) before := by
  rw [docGroup, docStart?_comment hrow htrailing, if_pos]
  cases docStart? lines (lines.row c.start) before <;> rfl

theorem docStart?_eq_docGroup : docStart? lines row before = (docGroup lines row before).getLast?.map (·.start) := by
  induction before generalizing row with
  | nil => rfl
  | cons x before ih =>
    cases x with
    | item t => rfl
    | comment c =>
      cases h : docStart? lines row (.comment c :: before) with
      | none => rw [docGroup, h, if_neg nofun]; rfl
      | some n =>
        obtain ⟨hrow, htrailing, hn⟩ := docStart?_cons h
        rw [docGroup_comment hrow htrailing, ← hn, ih, List.getLast?_cons]
        cases (docGroup lines (lines.row c.start) before).getLast? <;> rfl

/-- The group stands above the row without a gap, and its first comment is not right behind an item in its
line. -/
theorem exists_docGroup (lines : LineIndex) (row : Nat) (before : List Sibling) : ∃ rest,
    before = (docGroup lines row before).map .comment ++ rest ∧ Above lines.row row (docGroup lines row before) ∧
      ∀ c ∈ (docGroup lines row before).getLast?, NotTrailing lines.row (lines.row c.start) rest := by
  induction before generalizing row with
  | nil => exact ⟨[], rfl, trivial, nofun⟩
  | cons x before ih =>
    cases x with
    | item t => exact ⟨.item t :: before, rfl, trivial, nofun⟩
    | comment c =>
      cases h : docStart? lines row (.comment c :: before) with
      | none =>
        rw [docGroup, h, if_neg nofun]
        exact ⟨.comment c :: before, rfl, trivial, nofun⟩
      | some n =>
        obtain ⟨hrow, htrailing, -⟩ := docStart?_cons h
        obtain ⟨rest, hbefore, habove, hrest⟩ := ih (lines.row c.start)
        rw [docGroup_comment hrow htrailing]
        refine ⟨rest, congrArg _ hbefore, ⟨hrow, habove⟩, fun d hd => ?_⟩
        generalize docGroup lines (lines.row c.start) before = group at hbefore hrest hd
        cases group with
        | nil =>
          obtain rfl : c = d := Option.some.inj hd
          rwa [hbefore] at htrailing
        | cons e group =>
          rw [List.getLast?_cons_cons] at hd
          exact hrest d hd

/-- A doc comment reaches from the first comment of its group to the last. -/
theorem docRange?_eq_docGroup {start : Nat} : docRange? lines start before =
    (docGroup lines (lines.row start) before).getLast?.bind fun first =>
      (docGroup lines (lines.row start) before).head?.map fun last => ⟨first.start, last.stop⟩ := by
  unfold docRange?
  rw [docStart?_eq_docGroup]
  obtain ⟨rest, hbefore, -⟩ := exists_docGroup lines (lines.row start) before
  generalize docGroup lines (lines.row start) before = group at hbefore ⊢
  cases group with
  | nil => rfl
  | cons last group =>
    rw [hbefore, List.getLast?_cons]
    rfl

/-- It is the longest such group. -/
theorem prefix_docGroup {group : List Comment} {rest : List Sibling} (h : Above lines.row row group)
    (hrest : ∀ c ∈ group.getLast?, NotTrailing lines.row (lines.row c.start) rest) :
    group <+: docGroup lines row (group.map .comment ++ rest) := by
  induction group generalizing row with
  | nil => exact List.nil_prefix
  | cons c group ih =>
    obtain ⟨hrow, habove⟩ := h
    have htrailing : NotTrailing lines.row (lines.row c.start) (group.map .comment ++ rest) := by
      cases group with
      | nil => exact hrest c rfl
      | cons d group => rintro t r ⟨⟩
    rw [List.map_cons, List.cons_append, docGroup_comment hrow htrailing, List.prefix_cons_inj]
    refine ih habove fun d hd => hrest d ?_
    rw [List.getLast?_cons, hd]
    rfl

end DocGroup

end Declaration

/-! ## Doc comments of a file -/

section Files

variable {filename : String} {source : Bytes} {strict : Bool} {f : SourceFile} {s : List Char} {d : Declaration}
  {pre post : List Sibling} {group : List Comment} {t : Node}

theorem Parsed.siblings_eq (h : Parsed filename source strict f s) : f.siblings = siblingsOf s := by
  rw [SourceFile.siblings, h.source_eq, h.itemsIn_eq, h.comments_eq]
  rfl

/-- The siblings before one are known by where it begins. -/
theorem siblings_before (href : (textItems s).refusal = none) {pre' post' : List Sibling} {a b : Sibling}
    (hsib : siblingsOf s = pre ++ a :: post) (hsib' : siblingsOf s = pre' ++ b :: post') (hstart : a.start = b.start) :
    pre = pre' ∧ a = b := by
  have hlt : ∀ {xs ys : List Sibling} {x : Sibling}, siblingsOf s = xs ++ x :: ys →
      ∀ z ∈ xs, z.start < x.start := by
    intro xs ys x h z hz
    obtain ⟨horder, hrange⟩ := siblingsOf_pairwise href
    have hw := hrange z (by rw [h]; simp [hz])
    rw [h, List.pairwise_append] at horder
    have hle : z.stop ≤ x.start := horder.2.2 z hz x List.mem_cons_self
    omega
  rcases append_eq_append_cons (hsib.symm.trans hsib') with ⟨v, rfl, -⟩ | ⟨u, rfl, hu⟩
  · have := hlt hsib b (by simp)
    omega
  · cases u with
    | nil =>
      obtain ⟨rfl, -⟩ := List.cons.inj hu
      exact ⟨(List.append_nil _).symm, rfl⟩
    | cons x u =>
      obtain ⟨rfl, -⟩ := List.cons.inj hu
      have := hlt hsib' a (by simp)
      omega

/-- A comment that trails an item begins in its line. -/
theorem Parsed.sharesLine_of_trails (h : Parsed filename source strict f s) {c : Comment} (htrails : f.Trails t c) :
    t ∈ itemsIn f.source ∧ f.SharesLine t c := by
  obtain ⟨hrow, pre, post, hsib⟩ := htrails
  rw [h.siblings_eq] at hsib
  have horder := (siblingsOf_pairwise h.refusal).1
  rw [hsib, List.pairwise_append, List.pairwise_cons] at horder
  refine ⟨?_, horder.2.1.1 (.comment c) List.mem_cons_self, hrow⟩
  rw [h.source_eq, h.itemsIn_eq]
  exact item_mem_siblings.mp (show .item t ∈ siblingsOf s by rw [hsib]; simp)

/-- Right before a sibling is the one before it, or another behind that. -/
theorem exists_sibling_before (href : (textItems s).refusal = none) {b z : Sibling}
    (hsib : siblingsOf s = pre ++ b :: post) (hz : z ∈ siblingsOf s) (hlt : z.start < b.start) :
    ∃ xs x, pre = xs ++ [x] ∧ x.stop ≤ b.start ∧ (z = x ∨ z.stop ≤ x.start) := by
  obtain ⟨horder, hrange⟩ := siblingsOf_pairwise href
  have hpos := hrange b (by rw [hsib]; simp)
  rw [hsib, List.pairwise_append, List.pairwise_cons] at horder
  obtain ⟨hpre, ⟨hpost, -⟩, hbefore⟩ := horder
  have hmem : z ∈ pre := by
    rw [hsib, List.mem_append, List.mem_cons] at hz
    rcases hz with hz | rfl | hz
    · exact hz
    · omega
    · have hbehind : b.stop ≤ z.start := hpost z hz
      omega
  rcases List.eq_nil_or_concat pre with rfl | ⟨xs, x, rfl⟩
  · cases hmem
  · rw [List.concat_eq_append] at *
    refine ⟨xs, x, rfl, hbefore x (by simp) b List.mem_cons_self, ?_⟩
    rw [List.mem_append, List.mem_singleton] at hmem
    rw [List.pairwise_append] at hpre
    exact hmem.symm.imp_right fun hmem => hpre.2.2 z hmem x (List.mem_singleton.mpr rfl)

/-- The only comment behind an item in its line is right behind one that ends in that line. -/
theorem Parsed.exists_trails (h : Parsed filename source strict f s) (honce : f.TrailsOnce) {c : Comment} {u : Node}
    (hc : .comment c ∈ f.siblings) (hu : u ∈ itemsIn f.source) (hline : f.SharesLine u c) :
    ∃ t, f.Trails t c := by
  have hsame : ∀ e, .comment e ∈ f.siblings → f.SharesLine u e → e = c :=
    fun e he hue => honce u hu e c he hc hue hline
  obtain ⟨hle, hrow⟩ := hline
  rw [h.source_eq, h.itemsIn_eq] at hu
  have hrange := (siblingsOf_pairwise h.refusal).2
  rw [← h.siblings_eq] at hrange
  have hpos : c.start < c.stop := hrange (.comment c) hc
  have hmem : .item u ∈ siblingsOf s := item_mem_siblings.mpr hu
  have hupos : u.start < u.stop := hrange (.item u) (h.siblings_eq ▸ hmem)
  obtain ⟨pre, post, hsib⟩ := List.append_of_mem hc
  obtain ⟨xs, x, rfl, hxc, hux⟩ := exists_sibling_before h.refusal (h.siblings_eq ▸ hsib) hmem
    (show Sibling.start (.item u) < Sibling.start (.comment c) from Nat.lt_of_lt_of_le hupos hle)
  change x.stop ≤ c.start at hxc
  have hx : x ∈ f.siblings := by
    rw [hsib]
    simp
  have hxpos := hrange x hx
  -- what is right before the comment stands between the item and it, so in the same row
  have hbetween : ∀ o, u.stop ≤ o → o ≤ c.start → f.lines.row u.stop = f.lines.row o ∧
      f.lines.row o = f.lines.row c.start := by
    intro o hlow hhigh
    rw [h.lines_eq] at hrow ⊢
    have hrowlow := LineIndex.row_mono source hlow
    have hrowhigh := LineIndex.row_mono source hhigh
    omega
  cases x with
  | item t =>
    refine ⟨t, ?_, xs, post, by rw [hsib, List.append_assoc]; rfl⟩
    rcases hux with hux | hux
    · cases hux
      exact hrow
    · exact (hbetween t.stop (Nat.le_of_lt (Nat.lt_of_le_of_lt hux hxpos)) hxc).2
  | comment e =>
    have hue : u.stop ≤ e.start := hux.resolve_left nofun
    obtain rfl := hsame e hx ⟨hue, (hbetween e.start hue (Nat.le_of_lt (Nat.lt_of_lt_of_le hxpos hxc))).1⟩
    exact absurd hxc (Nat.not_le.mpr hpos)

/-- The comments of a doc comment are the group that is taken. -/
theorem Parsed.docComments_eq (h : Parsed filename source strict f s) (hsib : siblingsOf s = pre ++ .item t :: post)
    (hat : ReadInOrder source (scan s).comments (.ofBytes source) pre.reverse t d) :
    f.docComments d = (docGroup (.ofBytes source) ((LineIndex.ofBytes source).row t.start) pre.reverse).reverse := by
  obtain ⟨rest, hbefore, -⟩ :=
    exists_docGroup (.ofBytes source) ((LineIndex.ofBytes source).row t.start) pre.reverse
  unfold SourceFile.docComments
  rw [hat.doc, docRange?_eq_docGroup, h.comments_eq]
  generalize docGroup (.ofBytes source) ((LineIndex.ofBytes source).row t.start) pre.reverse = group at hbefore ⊢
  cases hlast : group.head? with
  | none =>
    obtain rfl := List.head?_eq_none_iff.mp hlast
    rfl
  | some last =>
    obtain ⟨first, hfirst⟩ : ∃ first, group.getLast? = some first := by
      obtain ⟨tail, rfl⟩ := List.head?_eq_some_iff.mp hlast
      exact ⟨_, List.getLast?_cons⟩
    have hpre : pre = rest.reverse ++ group.reverse.map .comment := by
      rw [← List.reverse_reverse pre, hbefore, List.reverse_append, List.map_reverse]
    have hdoc : DocOf s t group first last := by
      refine ⟨h.refusal, ⟨rest, post, by rw [hsib, hpre], fun x hx => ?_⟩, hfirst, hlast⟩
      have horder := (siblingsOf_pairwise h.refusal).1
      rw [hsib, hpre, List.pairwise_append, List.pairwise_append] at horder
      exact horder.1.2.2 x (List.mem_reverse.mpr hx) (.comment first)
        (List.mem_map_of_mem (List.mem_reverse.mpr (List.mem_of_getLast? hfirst)))
    simp only [hfirst, Option.bind_some, Option.map_some]
    refine GoSplice.comments_eq ((comments_pairwise s).filter _) hdoc.pairwise
      (fun c hc => (stop_le_of_mem_comments (List.mem_filter.mp hc).1).1) fun c => ?_
    rw [List.mem_filter, List.mem_reverse, Bool.and_eq_true, decide_eq_true_eq, decide_eq_true_eq]
    constructor
    · rintro ⟨hc, hle, hstop⟩
      have hpos := (stop_le_of_mem_comments hc).1
      exact hdoc.mem_iff.mpr ⟨hc, hle, by omega⟩
    · intro hc
      obtain ⟨hmem, -, hle, hstop, -⟩ := hdoc.comment hc
      exact ⟨hmem, hle, hstop⟩

/-- What stands around the comments of a doc comment. -/
theorem Parsed.docComments_parts (h : Parsed filename (Utf8.encode s) strict f s)
    (hsib : siblingsOf s = pre ++ .item t :: post)
    (hat : ReadInOrder (Utf8.encode s) (scan s).comments (.ofBytes (Utf8.encode s)) pre.reverse t d) : ∃ rest,
      siblingsOf s = rest.reverse ++ ((f.docComments d).map .comment ++ .item t :: post) ∧
      Above f.lines.row (f.lines.row t.start) (f.docComments d).reverse ∧
      ∀ c ∈ (f.docComments d).head?, NotTrailing f.lines.row (f.lines.row c.start) rest := by
  obtain ⟨rest, hbefore, habove, hrest⟩ :=
    exists_docGroup (.ofBytes (Utf8.encode s)) ((LineIndex.ofBytes (Utf8.encode s)).row t.start) pre.reverse
  have hgroup := congrArg List.reverse (h.docComments_eq hsib hat)
  rw [List.reverse_reverse] at hgroup
  rw [← hgroup] at hbefore habove hrest
  rw [List.getLast?_reverse] at hrest
  rw [h.lines_eq]
  refine ⟨rest, ?_, habove, hrest⟩
  rw [hsib, ← List.reverse_reverse pre, hbefore]
  simp

/-- No comment of a doc comment is right behind an item in its line: before the first there is none, and
right before the others is another comment. -/
theorem Parsed.docComments_isDetached (h : Parsed filename (Utf8.encode s) strict f s)
    (hsib : siblingsOf s = pre ++ .item t :: post)
    (hat : ReadInOrder (Utf8.encode s) (scan s).comments (.ofBytes (Utf8.encode s)) pre.reverse t d) :
    f.IsDetached (f.docComments d) := by
  rintro c hc u ⟨hrow, zs, ws, hbehind⟩
  obtain ⟨rest, hparts, -, hrest⟩ := h.docComments_parts hsib hat
  obtain ⟨xs, ys, hcs⟩ := List.append_of_mem hc
  rw [hcs, List.map_append, List.append_assoc, ← List.append_assoc] at hparts
  rw [h.siblings_eq, List.append_cons] at hbehind
  obtain ⟨hright, -⟩ := siblings_before h.refusal hparts hbehind rfl
  rcases List.eq_nil_or_concat xs with rfl | ⟨xs, e, rfl⟩
  · rw [List.map_nil, List.append_nil] at hright
    have hfirst : (f.docComments d).head? = some c := by
      rw [hcs]
      rfl
    exact hrest c hfirst u zs.reverse (by rw [← List.reverse_reverse rest, hright]; simp) hrow
  · rw [List.concat_eq_append, List.map_append, ← List.append_assoc] at hright
    cases (List.append_inj' hright rfl).2

/-- A doc comment holds every detached group above its declaration. -/
theorem Parsed.suffix_docComments (h : Parsed filename (Utf8.encode s) strict f s)
    (hsib : siblingsOf s = pre ++ .item t :: post)
    (hat : ReadInOrder (Utf8.encode s) (scan s).comments (.ofBytes (Utf8.encode s)) pre.reverse t d)
    (hg : f.IsGroup d group) (hdetached : f.IsDetached group) : group <:+ f.docComments d := by
  obtain ⟨pre', t', post', hsib', hstart, hclose⟩ := hg
  rw [h.siblings_eq] at hsib'
  rw [h.source_eq] at hclose
  have hsplit := hsib'
  rw [← List.append_assoc] at hsplit
  obtain ⟨rfl, hitem⟩ := siblings_before h.refusal hsib hsplit (hat.start.symm.trans hstart.symm)
  cases hitem
  have habove : Above _ _ group.reverse := (above_iff h.refusal (by rw [List.reverse_reverse]; exact hsib')).mpr
    (by rw [List.reverse_reverse]; exact hclose)
  rw [← List.reverse_prefix, h.docComments_eq hsib hat, List.reverse_reverse, List.reverse_append, ← List.map_reverse]
  refine prefix_docGroup habove fun c hc u r hu hrow => ?_
  obtain ⟨ys, rfl⟩ := List.head?_eq_some_iff.mp (List.getLast?_reverse ▸ hc)
  refine hdetached c List.mem_cons_self u
    ⟨h.lines_eq ▸ hrow, r.reverse, ys.map .comment ++ .item t :: post', ?_⟩
  rw [h.siblings_eq, hsib', ← List.reverse_reverse pre', hu]
  simp

/-- The doc comment of a declaration is the longest detached group above it. -/
theorem Parsed.docComment (h : Parsed filename source strict f s) (hd : d ∈ f.declarations) :
    f.DocComment d (f.docComments d) := by
  obtain ⟨pre, t, post, hsib, -, hat⟩ := h.readInOrder hd
  obtain rfl := h.encode_eq
  obtain ⟨rest, hparts, habove, -⟩ := h.docComments_parts hsib hat
  refine ⟨?_, ⟨rest.reverse, t, post, by rw [h.siblings_eq, hparts], hat.start.symm, ?_⟩,
    h.docComments_isDetached hsib hat, fun g hg hdetached => h.suffix_docComments hsib hat hg hdetached⟩
  · rw [h.docComments_eq hsib hat, hat.doc, docRange?_eq_docGroup, List.head?_reverse, List.getLast?_reverse]
  · rw [h.lines_eq] at habove
    rw [← List.reverse_reverse (f.docComments d)] at hparts ⊢
    rw [h.source_eq]
    exact (above_iff h.refusal hparts).mp habove

end Files

/-- The doc comment of a declaration is the longest detached group right above it.  It holds each group
without a comment in the line of an end before it, and is one if behind no item there are two comments in
its line. -/
theorem parse_docComments {filename : String} {source : Bytes} {strict : Bool} {f : SourceFile}
    (h : SourceFile.parse filename source strict = .ok f) : ∀ d ∈ f.declarations,
      f.DocComment d (f.docComments d) ∧ (∀ g, f.IsGroup d g → f.IsApart g → g <:+ f.docComments d) ∧
      (f.TrailsOnce → f.IsApart (f.docComments d)) := by
  obtain ⟨s, hs⟩ := parse_eq_ok_iff.mp h
  intro d hd
  have hdoc := hs.docComment hd
  refine ⟨hdoc, fun g hg hapart => ?_, fun honce c hc t ht hline => ?_⟩
  · refine hdoc.maximal g hg fun c hc t htrails => ?_
    obtain ⟨ht, hline⟩ := hs.sharesLine_of_trails htrails
    exact hapart c hc t ht hline
  · obtain ⟨pre, u, post, hsib, -⟩ := hdoc.isGroup
    have hmem : .comment c ∈ f.siblings := by
      rw [hsib]
      simp [hc]
    obtain ⟨v, htrails⟩ := hs.exists_trails honce hmem ht hline
    exact hdoc.isDetached c hc v htrails

/-- A second comment in the line of the package clause is the doc comment of the declaration below. -/
example : ∃ f, SourceFile.parse "a.go" (bytesOf "package a /* x */ /* y */\nfunc F() \x7b\x7d\n") true = .ok f ∧
    f.declarations.map f.docComments = [[⟨18, 25⟩]] := ⟨_, rfl, by decide +kernel⟩

/-- A file with a comment behind its package clause and a function with a doc comment of two lines. -/
def twoLineDoc : Bytes :=
  bytesOf "package a // The file.\n\n// F is one.\n// It does nothing.\nfunc F() \x7b\x7d\n"

theorem twoLineDoc_docComments : ∃ f, SourceFile.parse "a.go" twoLineDoc true = .ok f ∧ f.TrailsOnce ∧
    f.declarations.map f.docComments = [[⟨24, 36⟩, ⟨37, 56⟩]] ∧ ∀ d ∈ f.declarations,
      f.DocComment d (f.docComments d) ∧ (∀ g, f.IsGroup d g → f.IsApart g → g <:+ f.docComments d) ∧
      f.IsApart (f.docComments d) := by
  obtain ⟨f, hf, hdocs, hline⟩ : ∃ f, SourceFile.parse "a.go" twoLineDoc true = .ok f ∧
      f.declarations.map f.docComments = [[⟨24, 36⟩, ⟨37, 56⟩]] ∧
      ∀ t ∈ itemsIn f.source, ∀ c ∈ f.comments, ∀ e ∈ f.comments,
        f.SharesLine t c → f.SharesLine t e → c = e :=
    ⟨_, rfl, by decide +kernel, by decide +kernel⟩
  have honce : f.TrailsOnce := fun t ht c e hc he =>
    hline t ht c (Declaration.comment_mem_siblings hc) e (Declaration.comment_mem_siblings he)
  refine ⟨f, hf, honce, hdocs, fun d hd => ?_⟩
  obtain ⟨hdoc, hlongest, hapart⟩ := parse_docComments hf d hd
  exact ⟨hdoc, hlongest, hapart honce⟩

end GoSplice
