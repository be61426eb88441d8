import GoSplice.Proofs.InsertedItems
import GoSplice.Proofs.RoundTrips

/-!
# Lines that end between items

A file without imports gets one where the line of its package clause ends.  If that is between the items and
the comments of the file, it is a line end behind an item, or the end of the text:

    f.IsBetween f.importPlace → EndsLineAt s lead gs f.importPlace                   (IsBetween.endsLineAt)

and what is behind it is in a line below                         (EndsLineAt.row_lt, EndsLineAt.row_lt_comment).

No line ends inside of blanks and semicolons, so it is enough that none ends inside of an item or a comment.
Then an import that is put into a file that admits it is read back, and all else that it declares stays:

    applyTransform (.addImport i) p = (ok (), r), the line ends in between → the file read from r
      imports what f does, then i, and declares else what f does             (applyTransform_addsImport)
-/

namespace GoSplice

open Syntax Syntax.Segment Declaration

/-! ## Offsets between items and comments -/

namespace SourceFile

/-- The comments of a file. -/
def comments (f : SourceFile) : List Comment :=
  match Utf8.decode? f.source with
  | some s => (scan s).comments
  | none => []

/-- Whether no item and no comment of a file stands on both sides of an offset. -/
structure IsBetween (f : SourceFile) (o : Nat) : Prop where
  items : ∀ t ∈ itemsIn f.source, o ≤ t.start ∨ t.stop ≤ o
  comments : ∀ c ∈ f.comments, o ≤ c.start ∨ c.stop ≤ o

end SourceFile

theorem Parsed.comments_eq {filename : String} {strict : Bool} {source : Bytes} {f : SourceFile} {s : List Char}
    (h : Parsed filename source strict f s) : f.comments = (scan s).comments := by
  rw [SourceFile.comments, h.source_eq, h.encode_eq, Utf8.decode?_encode]

/-! ## Places of a character -/

/-- What stands in lists one behind the other stands in one of them. -/
theorem flatMap_eq_append_cons {α β : Type} {f : α → List β} {xs : List α} {a c : List β} {b : β}
    (h : xs.flatMap f = a ++ b :: c) :
    ∃ ys x zs u v, xs = ys ++ x :: zs ∧ f x = u ++ b :: v ∧ a = ys.flatMap f ++ u := by
  induction xs generalizing a with
  | nil => simp at h
  | cons x xs ih =>
    rw [List.flatMap_cons] at h
    rcases append_eq_append_cons h with ⟨v, hx, -⟩ | ⟨d, rfl, hd⟩
    · exact ⟨[], x, xs, a, v, rfl, hx, rfl⟩
    · obtain ⟨ys, z, zs, u, v, rfl, hz, rfl⟩ := ih hd
      exact ⟨x :: ys, z, zs, u, v, rfl, hz, by simp⟩

section Stretches

variable {s : List Char} {lead a b : List Lexeme} {gs : List Segment} {l : Lexeme}

/-- A stretch of segments is of an item, or stands behind one. -/
theorem Syntax.Segment.exists_around (h : joined gs = a ++ l :: b) :
    ∃ as g bs u v, gs = as ++ g :: bs ∧
      (g.code = u ++ l :: v ∧ a = joined as ++ u ∨ g.gap = u ++ l :: v ∧ a = joined as ++ (g.code ++ u)) := by
  obtain ⟨as, g, bs, u, v, rfl, hg, rfl⟩ := flatMap_eq_append_cons h
  refine ⟨as, g, bs, ?_⟩
  rcases append_eq_append_cons hg with ⟨w, hcode, -⟩ | ⟨w, rfl, hgap⟩
  · exact ⟨u, w, rfl, .inl ⟨hcode, rfl⟩⟩
  · exact ⟨w, v, rfl, .inr ⟨hgap, rfl⟩⟩

/-- The line of an offset between stretches ends inside of one behind it, or with the text. -/
theorem exists_lineEnd_stretch (h : stretches s = a ++ b) :
    let o := min (Splice.lineEnd (Utf8.encode s) (byteWidth (orderMark s ++ texts a))) (Utf8.encode s).length
    (∃ x l y u v, b = x ++ l :: y ∧ l.text = u ++ '\n' :: v ∧
      o = byteWidth (orderMark s ++ texts (a ++ x)) + byteWidth u) ∨ o = byteWidth s := by
  dsimp only
  have htext : s = (orderMark s ++ texts a) ++ texts b := by
    conv => lhs; rw [← orderMark_append_texts s, h, texts_append, ← List.append_assoc]
  by_cases hfeed : '\n' ∈ texts b
  · left
    obtain ⟨w, z, hw, hnone⟩ := List.eq_append_cons_of_mem hfeed
    obtain ⟨x, l, y, u, v, rfl, hl, rfl⟩ := flatMap_eq_append_cons hw
    refine ⟨x, l, y, u, v, rfl, hl, ?_⟩
    have hend := lineEnd_eq (x := orderMark s ++ texts a) hnone z
    rw [← hw, ← htext] at hend
    have hle : byteWidth (orderMark s ++ texts a ++ (texts x ++ u)) ≤ (Utf8.encode s).length := by
      rw [← byteWidth_eq]
      conv => rhs; rw [htext, hw, ← List.append_assoc, byteWidth_append]
      exact Nat.le_add_right _ _
    rw [show Splice.lineEnd _ _ = byteWidth (orderMark s ++ texts a ++ (texts x ++ u)) from hend, Nat.min_eq_left hle]
    simp only [texts_append, byteWidth_append, Nat.add_assoc]
  · right
    have hdrop := (split_bytes h).2
    have hall : (Utf8.encode (texts b)).takeWhile (· ≠ LineIndex.lineFeed) = Utf8.encode (texts b) :=
      List.takeWhile_eq_self_iff.mpr fun c hc => decide_eq_true (LineIndex.lineFeed_not_mem_encode hfeed c hc)
    rw [Splice.lineEnd, hdrop, hall, ← byteWidth_eq, ← byteWidth_eq, ← byteWidth_append, ← htext, Nat.min_self]

/-- No line ends inside of a filler, unless it is a comment. -/
theorem newline_of_filler (h : stretches s = a ++ l :: b) (hl : l.cls.isFiller) (hcomment : l.cls ≠ .comment)
    (hfeed : '\n' ∈ l.text) : l = ⟨.newline, ['\n']⟩ := by
  rw [stretches_eq] at h
  cases hc : l.cls with
  | newline => exact newline_stretch (show l ∈ lexemes _ by rw [h]; simp) hc
  | comment => exact absurd hc hcomment
  | blank => exact absurd ((blank_text (lexemes_suffix h) hc).1 _ hfeed) (by decide)
  | token k =>
    rw [hc] at hl
    obtain rfl : k = .operator .semicolon := of_decide_eq_true hl
    obtain ⟨w, hw, htext⟩ := operator_stretch h hc
    rw [htext, semicolon_word hw] at hfeed
    exact absurd hfeed (by decide)

/-- A stretch that begins with a line end is one. -/
theorem newline_of_head (h : stretches s = a ++ l :: b) (hl : l.cls ≠ .newline) {u v : List Char}
    (htext : l.text = u ++ '\n' :: v) : u ≠ [] := by
  rintro rfl
  rw [stretches_eq] at h
  refine not_endsLine h hl fun c hc => ?_
  rw [texts_cons, htext] at hc
  exact (Option.some.inj hc).symm

theorem mem_comments_of_stretch (h : stretches s = a ++ l :: b) (hl : l.cls = .comment) :
    ⟨byteWidth (orderMark s ++ texts a), byteWidth (orderMark s ++ texts a) + byteWidth l.text⟩ ∈
      (scan s).comments := by
  rw [comments_split h, place, hl]
  simp

/-- The rows behind a line end are those below it. -/
theorem row_lt_of_lineEnd (h : stretches s = a ++ ⟨.newline, ['\n']⟩ :: b) {o : Nat}
    (ho : byteWidth (orderMark s ++ texts a) < o) :
    (LineIndex.ofBytes (Utf8.encode s)).row (byteWidth (orderMark s ++ texts a)) <
      (LineIndex.ofBytes (Utf8.encode s)).row o := by
  obtain ⟨htake, hdrop⟩ := split_bytes h
  have hnext : (Utf8.encode s).take (byteWidth (orderMark s ++ texts a) + 1) =
      Utf8.encode (orderMark s ++ texts a) ++ [LineIndex.lineFeed] := by
    rw [List.take_add, htake, hdrop]
    rfl
  have hmono := LineIndex.row_mono (Utf8.encode s) ho
  rw [LineIndex.row_ofBytes, Nat.succ_eq_add_one, hnext] at hmono
  rw [LineIndex.row_ofBytes, htake]
  rw [List.count_append, List.count_singleton_self] at hmono
  omega

/-- A comment behind stretches is behind the next one, if that is none. -/
theorem le_of_comment_behind (h : stretches s = a ++ l :: b) (hl : l.cls ≠ .comment) {c : Comment}
    (hc : c ∈ (scan s).comments) (hle : byteWidth (orderMark s ++ texts a) ≤ c.start) :
    byteWidth (orderMark s ++ texts a) + byteWidth l.text ≤ c.start := by
  have htexts : ∀ k ∈ a ++ l :: b, k.text ≠ [] := fun k hk => ne_nil_of_mem_stretches (s := s) (by rw [h]; exact hk)
  rw [List.forall_mem_append, List.forall_mem_cons] at htexts
  rw [comments_split h, List.mem_append] at hc
  rcases hc with hc | hc
  · have hrange := comment_range hc htexts.1
    rw [← byteWidth_append] at hrange
    omega
  · have hsplit := place_comments_append (byteWidth (orderMark s ++ texts a)) none [l] b
    rw [List.singleton_append, comments_of_bare (List.forall_mem_singleton.mpr hl), List.nil_append, texts_cons,
      texts_nil, List.append_nil] at hsplit
    rw [hsplit] at hc
    exact (comment_range hc htexts.2.2).1

end Stretches

/-! ## The end of the package line -/

section Files

variable {f : SourceFile} {s : List Char} {lead : List Lexeme} {gs : List Segment} {o : Nat}

theorem Syntax.Segment.Linked.isFiller (h : Linked gs) : ∀ g ∈ gs, ∀ l ∈ g.gap, l.cls.isFiller := by
  induction h with
  | nil => exact List.forall_mem_nil _
  | cons _ hgap _ ih => exact List.forall_mem_cons.mpr ⟨hgap.isFiller, ih⟩
  | last _ hgap _ => exact List.forall_mem_singleton.mpr hgap.isFiller

/-- A line end in a stretch is one behind an item, if it is between items and comments. -/
theorem Syntax.Outline.endsLineAt (ho : Outline s lead gs) {a b : List Lexeme} {l : Lexeme} {u v : List Char}
    (h : stretches s = lead ++ a ++ l :: b) (htext : l.text = u ++ '\n' :: v)
    (hitems : ∀ t ∈ (textItems s).nodes, byteWidth (orderMark s ++ texts (lead ++ a) ++ u) ≤ t.start ∨
      t.stop ≤ byteWidth (orderMark s ++ texts (lead ++ a) ++ u))
    (hcomments : ∀ c ∈ (scan s).comments, byteWidth (orderMark s ++ texts (lead ++ a) ++ u) ≤ c.start ∨
      c.stop ≤ byteWidth (orderMark s ++ texts (lead ++ a) ++ u)) :
    EndsLineAt s lead gs (byteWidth (orderMark s ++ texts (lead ++ a) ++ u)) := by
  have hinside : 0 < byteWidth ('\n' :: v) := byteWidth_pos (List.cons_ne_nil _ _)
  have hcomment : l.cls ≠ .comment := fun hl => by
    have hu := byteWidth_pos (newline_of_head h (by rw [hl]; nofun) htext)
    have hout := hcomments _ (mem_comments_of_stretch h hl)
    simp only [htext, byteWidth_append] at hout hu
    omega
  have hjoined : joined gs = a ++ l :: b := by
    rw [ho.stretches_eq, List.append_assoc] at h
    exact List.append_cancel_left h
  obtain ⟨as, g, bs, w, z, rfl, ⟨hcode, rfl⟩ | ⟨hgap, rfl⟩⟩ := exists_around hjoined
  · -- the first stretch of an item is a token, and so does not begin with a line end
    exfalso
    have hg := ho.linked.items g (by simp)
    have hwu : 0 < byteWidth (texts w) + byteWidth u := by
      rcases List.eq_nil_or_concat w with rfl | ⟨w, k, rfl⟩
      · obtain ⟨m, r, k, hm, hk, -⟩ := hg.declares.head
        obtain ⟨rfl, -⟩ := List.cons.inj (hm.symm.trans hcode)
        have := byteWidth_pos (newline_of_head h (by rw [hk]; nofun) htext)
        omega
      · rw [List.concat_eq_append] at hcode
        have := byteWidth_pos (hg.nonempty k (by rw [hcode]; simp))
        rw [List.concat_eq_append, texts_append, texts_cons, byteWidth_append, byteWidth_append]
        omega
    obtain ⟨hstart, hstop⟩ := hg.range s lead as
    have hout := hitems _ (ho.mem_nodes_iff.mpr ⟨as, g, bs, rfl, rfl⟩)
    rw [hstart, hstop, hcode] at hout
    simp only [texts_append, texts_cons, htext, byteWidth_append] at hout
    omega
  · have hfiller := ho.linked.isFiller g (by simp) l (by rw [hgap]; simp)
    obtain rfl := newline_of_filler h hfiller hcomment (by rw [htext]; simp)
    obtain rfl : u = [] := by
      cases u with
      | nil => rfl
      | cons c u => simp at htext
    rw [List.append_nil]
    exact ⟨as, g, bs, w, _, rfl, hgap, .inl ⟨z, rfl⟩, rfl⟩

/-- A line that ends between items and comments ends behind an item. -/
theorem SourceFile.IsBetween.endsLineAt (h : f.IsBetween f.importPlace) (hp : Parsed f.filename f.source true f s)
    (ho : Outline s lead gs) (hfound : Splice.lastImport? f = none) : EndsLineAt s lead gs f.importPlace := by
  obtain ⟨hitems, hcomments⟩ := h
  rw [hp.comments_eq] at hcomments
  rw [hp.itemsIn_eq] at hitems
  obtain ⟨as, p, bs, rfl, -, -, hend⟩ := hp.exists_clauseItem ho
  have hs : stretches s = (lead ++ (joined as ++ p.code)) ++ (p.gap ++ joined bs) := by
    rw [ho.stretches_eq, joined_append, joined_cons]
    simp
  have hplace : f.importPlace = min (Splice.lineEnd (Utf8.encode s)
      (byteWidth (orderMark s ++ texts (lead ++ (joined as ++ p.code))))) (Utf8.encode s).length := by
    rw [SourceFile.importPlace, hfound, ← hp.encode_eq, hend]
  rcases exists_lineEnd_stretch hs with ⟨x, l, y, u, v, hrest, htext, heq⟩ | heq
  · rw [hplace, heq, ← byteWidth_append, List.append_assoc lead] at hitems hcomments ⊢
    exact ho.endsLineAt (b := y) (by rw [hs, hrest]; simp) htext hitems hcomments
  · obtain ⟨cs, g, hcs⟩ : ∃ cs g, as ++ p :: bs = cs ++ [g] := by
      rcases List.eq_nil_or_concat (as ++ p :: bs) with hnil | ⟨cs, g, hcs⟩
      · simp at hnil
      · exact ⟨cs, g, hcs.trans (List.concat_eq_append ..)⟩
    rw [hcs] at ho ⊢
    refine ⟨cs, g, [], g.gap, [], rfl, (List.append_nil _).symm, .inr ⟨rfl, rfl⟩, hplace.trans (heq.trans ?_)⟩
    conv =>
      lhs
      rw [← orderMark_append_texts s, ho.stretches_eq, joined_append, joined_cons, joined_nil, List.append_nil]

namespace Syntax.EndsLineAt

/-- What lies behind a line end is below it. -/
theorem row_lt (h : EndsLineAt s lead gs o) (ho : Outline s lead gs) {k : Nat} (hk : o < k)
    (hle : k ≤ (Utf8.encode s).length) :
    (LineIndex.ofBytes (Utf8.encode s)).row o < (LineIndex.ofBytes (Utf8.encode s)).row k := by
  obtain ⟨as, g, bs, a, b, rfl, hgap, ⟨c, rfl⟩ | ⟨rfl, rfl⟩, rfl⟩ := h
  · refine row_lt_of_lineEnd (b := c ++ joined bs) ?_ hk
    rw [ho.stretches_eq, joined_append, joined_cons, hgap]
    simp
  · -- nothing is behind the end of the text
    rw [← byteWidth_eq] at hle
    conv at hle => rhs; rw [← orderMark_append_texts s, ho.stretches_eq]
    rw [joined_append, joined_cons, hgap, joined_nil, List.append_nil, List.append_nil] at hle
    omega

/-- No comment begins at a line end, so one that is not before it is in a row below. -/
theorem row_lt_comment (h : EndsLineAt s lead gs o) (ho : Outline s lead gs) {c : Comment} (hc : c ∈ (scan s).comments)
    (hle : o ≤ c.start) :
    (LineIndex.ofBytes (Utf8.encode s)).row o < (LineIndex.ofBytes (Utf8.encode s)).row c.start := by
  have hrange := stop_le_of_mem_comments hc
  refine h.row_lt ho ?_ (by rw [← byteWidth_eq]; omega)
  obtain ⟨as, g, bs, a, b, rfl, hgap, ⟨d, rfl⟩ | ⟨rfl, rfl⟩, rfl⟩ := h
  · have hs : stretches s = lead ++ (joined as ++ (g.code ++ a)) ++ ⟨.newline, ['\n']⟩ :: (d ++ joined bs) := by
      rw [ho.stretches_eq, joined_append, joined_cons, hgap]
      simp
    exact Nat.lt_of_succ_le (le_of_comment_behind hs (by decide) hc hle)
  · exfalso
    conv at hrange => rhs; rw [← orderMark_append_texts s, ho.stretches_eq]
    rw [joined_append, joined_cons, hgap, joined_nil, List.append_nil, List.append_nil] at hrange
    omega

end Syntax.EndsLineAt

end Files

/-! ## Imports that are put into files -/

namespace Package

variable {p q r : Package} {f : SourceFile} {i : ImportAddition}

/-- An import that is put into a file that admits it is the last one there, and what else the file declares
stays, if a package line that gets it ends between items and comments. -/
theorem applyTransform_addsImport (hload : load p = (.ok (), q)) (hf : f ∈ q.files) (hi : i.filename = f.filename)
    (hname : IsImportName i.name.toList) (hadmits : f.Admits i)
    (hline : Splice.lastImport? f = none → f.IsBetween f.importPlace)
    (hrun : applyTransform (.addImport i) p = (.ok (), r)) :
    ∃ data f', r.read f.filename = .ok data ∧ SourceFile.parse f.filename data true = .ok f' ∧
      f'.imports = f.imports ++ [(i.name, i.path)] ∧ f'.others = f.others := by
  have hl := load_eq_ok hload
  obtain ⟨s, hs⟩ := parse_eq_ok_iff.mp (hl.files f hf).2
  obtain ⟨lead, gs, ho⟩ := hs.exists_outline
  obtain ⟨s', _, _, _, _, hdata, -, hwith, -⟩ := exists_withImport hs ho (by rw [hi]; exact hl.file?_eq hf)
    (by rw [hi]; exact hl.contentsOrNew_of_mem hf) hname hadmits fun hfound => (hline hfound).endsLineAt hs ho hfound
  obtain ⟨f', hparse', -, himports, hothers⟩ := hwith.gains.parse ho hs hwith.outline
  rw [applyTransform_of_load hload] at hrun
  change addImport i q = _ at hrun
  rw [addImport_eq, hdata, hi] at hrun
  exact ⟨Utf8.encode s', f', read_of_write hrun, hparse', by simpa using himports, hothers⟩

/-! ### An import below a comment -/

/-- The package line of a file with a comment in it ends between items and comments. -/
theorem clauseOnly_addsImport : ∃ q f r, load clauseOnly = (.ok (), q) ∧ f ∈ q.files ∧ IsImportName "".toList ∧
    f.Admits ⟨f.filename, "", "io"⟩ ∧ (Splice.lastImport? f = none → f.IsBetween f.importPlace) ∧
    applyTransform (.addImport ⟨f.filename, "", "io"⟩) clauseOnly = (.ok (), r) ∧
    ∃ data f', r.read f.filename = .ok data ∧ SourceFile.parse f.filename data true = .ok f' ∧
      f'.imports = f.imports ++ [("", "io")] ∧ f'.others = f.others := by
  have hload := eq_ok_of_isOk (show (load clauseOnly).1.isOk by decide +kernel)
  have hfiles : (load clauseOnly).2.files.any fun f => f.filename == "a.go" && f.source == Utf8.encode clauseOnlyText &&
      (Splice.lastImport? f).isNone &&
      (itemsIn f.source).all (fun t => decide (f.importPlace ≤ t.start ∨ t.stop ≤ f.importPlace)) &&
      f.comments.all fun c => decide (f.importPlace ≤ c.start ∨ c.stop ≤ f.importPlace) := by
    decide +kernel
  obtain ⟨f, hf, h⟩ := List.any_eq_true.mp hfiles
  simp only [Bool.and_eq_true, beq_iff_eq, Option.isNone_iff_eq_none] at h
  obtain ⟨⟨⟨⟨hname, hsource⟩, hlast⟩, hitems⟩, hcomments⟩ := h
  have hplain : IsPlainText "io".toList := by
    unfold IsPlainText
    simp
  have hadmits : f.Admits ⟨f.filename, "", "io"⟩ := clauseOnlyText_admits hsource hlast hplain
  have hbetween : f.IsBetween f.importPlace :=
    ⟨fun t ht => of_decide_eq_true (List.all_eq_true.mp hitems t ht),
      fun c hc => of_decide_eq_true (List.all_eq_true.mp hcomments c hc)⟩
  have hrun : (applyTransform (.addImport ⟨f.filename, "", "io"⟩) clauseOnly).1.isOk := by
    rw [hname]
    decide +kernel
  exact ⟨_, f, _, hload, hf, .inl rfl, hadmits, fun _ => hbetween, eq_ok_of_isOk hrun,
    applyTransform_addsImport hload hf rfl (.inl rfl) hadmits (fun _ => hbetween) (eq_ok_of_isOk hrun)⟩

end Package

end GoSplice
