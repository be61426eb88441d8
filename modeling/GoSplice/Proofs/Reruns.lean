import GoSplice.Proofs.Holdings
import GoSplice.Proofs.OtherFiles
import GoSplice.Proofs.Spacings
import GoSplice.Proofs.TouchedFiles

/-!
# Runs that are repeated

A snippet that is applied twice, with the pass over repeated imports behind it each time, leaves all
other files as they are when it is applied once, and its own too, but for white space where imports are
put in and taken out again.  The first run leaves a package that contains what the snippet adds; the second
one finds it:

    p contains ts, without imports, ts p = (ok (), r) → r has the files of p      (extends_of_contains)
    p contains ts, ts p = (ok (), r) → r has them, but for white space at one place (isSpaced_of_contains)
    ts and the pass over its file, applied again → Repeats filename ts r r'          (repeats_of_admits)
    the same in a file that is no source file                                        (repeats_aside)
    a snippet, as a session applies it                                               (rerun_repeats)
-/

namespace GoSplice

open Syntax Syntax.Segment

/-! ## Passes over repeated imports -/

namespace Package

variable {p q r : Package} {filename : String} {f : SourceFile}

theorem dedupFile_eq_ok (h : dedupFile f q = (.ok (), r)) :
    f.withoutRepeatedImports = f.source ∧ r = q ∨ write f.filename f.withoutRepeatedImports q = (.ok (), r) := by
  unfold dedupFile at h
  split at h
  · exact .inr h
  · next heq =>
    cases h
    exact .inl ⟨not_not.mp heq, rfl⟩

theorem dedupImports_eq_ok (h : dedupImports (some [filename]) q = (.ok (), r)) :
    q.files.file? filename = none ∧ r = q ∨ ∃ f, q.files.file? filename = some f ∧ dedupFile f q = (.ok (), r) := by
  unfold dedupImports at h
  rw [bind_apply, get_apply] at h
  dsimp only at h
  have hselected : q.selected (some [filename]) = (q.files.file? filename).toList := by
    unfold selected
    cases hf : q.files.file? filename <;> simp [List.eraseDups_cons, hf]
  rw [hselected] at h
  cases hf : q.files.file? filename with
  | none =>
    rw [hf] at h
    cases h
    exact .inl ⟨rfl, rfl⟩
  | some f =>
    rw [hf] at h
    obtain ⟨_, r', hfirst, hrest⟩ := bind_eq_ok.mp h
    cases hrest
    exact .inr ⟨f, rfl, hfirst⟩

/-- What a pass over the repeated imports of a file does: nothing if there is no such file, and else
it leaves what remains of its segments. -/
theorem applyTransform_dedupImports (hp : p.OverTrees) (hn : IsFileName filename)
    (h : applyTransform (.dedupImports (some [filename])) p = (.ok (), r)) : Extends filename p r ∧
      ((∀ data, p.read filename ≠ .ok data) ∧ r.read filename = p.read filename ∨
        ∃ s f lead gs, p.read filename = .ok (Utf8.encode s) ∧ Parsed filename (Utf8.encode s) true f s ∧
          Outline s lead gs ∧ r.read filename = .ok (Utf8.encode (orderMark s ++ texts (lead ++ remainders [] gs)))) := by
  obtain ⟨_, q, hload, happly⟩ := bind_eq_ok.mp h
  have hl := load_eq_ok hload
  have hextends : Extends filename p q := hl.extends_load hp hload
  rcases dedupImports_eq_ok happly with ⟨hnone, rfl⟩ | ⟨f, hf, hdedup⟩
  · refine ⟨hextends, .inl ⟨fun data hread => ?_, hl.read filename⟩⟩
    obtain ⟨f, hf, rfl, -⟩ := hl.exists_file_of_read hp hn hread
    rw [hl.file?_eq hf] at hnone
    cases hnone
  · obtain ⟨hmem, rfl⟩ := Members.mem_of_file? hf
    obtain ⟨hread, hparse⟩ := hl.files f hmem
    obtain ⟨s, hs⟩ := parse_eq_ok_iff.mp hparse
    rw [hs.encode_eq] at hread hs
    obtain ⟨lead, gs, ho⟩ := hs.exists_outline
    have hout := ho.withoutRepeated_eq hs
    rcases dedupFile_eq_ok hdedup with ⟨hsame, rfl⟩ | hwrite
    · refine ⟨hextends, .inr ⟨s, f, lead, gs, hread, hs, ho, ?_⟩⟩
      rw [hl.read, hread, ← hout, hsame, hs.source_eq]
    · rw [hout] at hwrite
      refine ⟨extends_of_write hp hload hn (fun s' hread' => ?_) hwrite,
        .inr ⟨s, f, lead, gs, hread, hs, ho, read_of_write hwrite⟩⟩
      obtain rfl := Utf8.encode_injective (Except.ok.inj (hread'.symm.trans hread))
      refine ⟨lead, gs, ho, fun lead' hs' ho' => ?_⟩
      obtain ⟨hcount, -, hpaths⟩ := ho.withoutRepeated ho'
      exact ⟨fun u => Nat.le_of_eq (hcount u).symm, hpaths⟩

/-! ## Transforms that are applied again -/

/-- A declaration that is there is not added again. -/
theorem load_of_contains {a : Addition} (hcontains : p.Contains (.add a)) (hreplace : a.replace = false)
    (h : applyTransform (.add a) p = (.ok (), r)) : load p = (.ok (), r) := by
  obtain ⟨_, q, hload, happly⟩ := bind_eq_ok.mp h
  rcases addDeclaration_eq_ok.mp happly with ⟨hm, -⟩ | ⟨-, -, -, rfl⟩ | ⟨-, -, htrue, -, -, -⟩
  · exact absurd hm (hcontains q hload)
  · exact hload
  · rw [hreplace] at htrue
    cases htrue

/-- Declarations that are there, added again, leave all files. -/
theorem extends_of_contains (hp : p.OverTrees) {ts : List Transform} (hts : ∀ t ∈ ts, ∃ a, t = .add a ∧ a.replace = false)
    (hcontains : ∀ t ∈ ts, p.Contains t) (h : applyTransforms ts p = (.ok (), r)) :
    Extends filename p r ∧ r.read filename = p.read filename := by
  induction ts generalizing p with
  | nil =>
    cases h
    exact ⟨.refl hp filename, rfl⟩
  | cons t ts ih =>
    obtain ⟨⟨a, rfl, hreplace⟩, hall⟩ := List.forall_mem_cons.mp hts
    obtain ⟨hfirst, hcontains⟩ := List.forall_mem_cons.mp hcontains
    obtain ⟨q, ht, hrest⟩ := applyTransforms_cons_eq_ok.mp h
    have hload := load_of_contains hfirst hreplace ht
    have hl := load_eq_ok hload
    have hextends : Extends filename p q := hl.extends_load hp hload
    obtain ⟨hextends', hread⟩ := ih hextends.overTrees hall (fun t ht => by
      obtain ⟨a, rfl, -⟩ := hall t ht
      exact hextends.declares _ (hcontains _ ht)) hrest
    exact ⟨hextends.trans hextends', hread.trans (hl.read filename)⟩

/-- What is there, added again, leaves white space more at the place of the next import. -/
theorem isSpaced_of_contains (hp : p.OverTrees) (hn : IsFileName filename) {ts : List Transform}
    (hts : ∀ t ∈ ts, t.PutsInto filename) (hcontains : ∀ t ∈ ts, p.Contains t) {s mark : List Char} {a b lead k e : List Lexeme}
    (hlead : ∀ l ∈ lead, l.cls.isFiller) (hread : p.read filename = .ok (Utf8.encode s)) (htailed : Tailed s a b)
    (hspaced : IsSpaced mark lead k e s) (h : applyTransforms ts p = (.ok (), r)) :
    Extends filename p r ∧ ∃ s', r.read filename = .ok (Utf8.encode s') ∧ IsSpaced mark lead k e s' := by
  induction ts generalizing p s a with
  | nil =>
    cases h
    exact ⟨.refl hp filename, s, hread, hspaced⟩
  | cons t ts ih =>
    obtain ⟨ht, hts⟩ := List.forall_mem_cons.mp hts
    obtain ⟨hfirst, hcontains⟩ := List.forall_mem_cons.mp hcontains
    obtain ⟨q, hrun, hrest⟩ := applyTransforms_cons_eq_ok.mp h
    suffices hstep : Extends filename p q ∧ ∃ s' a', q.read filename = .ok (Utf8.encode s') ∧ Tailed s' a' b ∧
        IsSpaced mark lead k e s' from by
      obtain ⟨hextends, s', a', hread', htailed', hspaced'⟩ := hstep
      obtain ⟨hextends', hread⟩ := ih hextends.overTrees hts (fun t ht => hextends.contains (hts t ht) (hcontains t ht))
        hread' htailed' hspaced' hrest
      exact ⟨hextends.trans hextends', hread⟩
    cases ht with
    | add _ hreplace _ =>
      have hload := load_of_contains hfirst hreplace hrun
      have hl := load_eq_ok hload
      exact ⟨hl.extends_load hp hload, s, a, (hl.read filename).trans hread, htailed, hspaced⟩
    | @addImport i hfilename hname hpath =>
      subst hfilename
      obtain ⟨_, l, hload, happly⟩ := bind_eq_ok.mp hrun
      obtain ⟨f, lead', gs, hfile, -, hparsed, ho⟩ := (load_eq_ok hload).exists_outline_of_read hp hn hread
      obtain ⟨s₀, hread₀, hpaths⟩ := hfirst
      obtain rfl := Utf8.encode_injective (Except.ok.inj (hread₀.symm.trans hread))
      obtain ⟨s', a', heq, htailed', hspaced'⟩ :=
        hspaced.withImport hlead htailed hparsed hfile hname hpath ho (hpaths lead' gs ho)
      change addImport _ l = _ at happly
      rw [addImport_eq, heq] at happly
      refine ⟨?_, s', a', read_of_write happly, htailed', hspaced'⟩
      exact ((EndsWith.there hread htailed).extends_transform hp hn (.addImport rfl hname hpath) trivial (fun _ => rfl) hrun).1

/-! ## Batches that are applied again -/

/-- Whether bytes are others with tabs and line ends put in at one place. -/
def IsWidened (before after : Bytes) : Prop :=
  ∃ front white back, before = front ++ back ∧ after = front ++ white ++ back ∧ ∀ b ∈ white, b = 9 ∨ b = 10

/-- The bytes that are no tabs and line ends. -/
def ink (bs : Bytes) : Bytes := bs.filter fun b => b ≠ 9 && b ≠ 10

theorem IsWidened.ink_eq {before after : Bytes} (h : IsWidened before after) : ink before = ink after := by
  obtain ⟨front, white, back, rfl, rfl, hwhite⟩ := h
  have hnone : ink white = [] := by
    refine List.filter_eq_nil_iff.mpr fun b hb => ?_
    rcases hwhite b hb with rfl | rfl <;> decide
  unfold ink at hnone ⊢
  rw [List.filter_append, List.filter_append, List.filter_append, hnone, List.append_nil]

/-- What a batch that is applied again leaves: all other files, and the file that it puts into, but
for white space at one place if it has an import. -/
structure Repeats (filename : String) (ts : List Transform) (r r' : Package) : Prop where
  others : ∀ name, Path.IsPlain name.toList → name ≠ filename → r'.read name = r.read name
  target : r'.read filename = r.read filename ∨ (∃ i, .addImport i ∈ ts) ∧
    ∃ before after, r.read filename = .ok before ∧ r'.read filename = .ok after ∧ IsWidened before after

section Batch

variable {ts : List Transform} {b : List Lexeme}

/-- What remains of a file without its repeated imports, if it has an import, has a place for the next
one, and ends with what the file ended with. -/
theorem exists_slot_behind {s t : List Char} {a lead lead' : List Lexeme} {gs hs : List Segment} {x : String}
    (htailed : Tailed s a b) (ho : Outline s lead gs) (ht : t = orderMark s ++ texts (lead ++ remainders [] gs))
    (hparsed : Parsed filename (Utf8.encode t) true f t) (ho' : Outline t lead' hs) (hx : x ∈ gs.flatMap paths) :
    ∃ a' k e, Tailed t a' b ∧ Slot [] hs k e ∧ t = orderMark t ++ texts (lead' ++ (k ++ e)) := by
  subst ht
  obtain ⟨-, hdistinct, hpaths⟩ := ho.withoutRepeated ho'
  obtain ⟨g, hg, himport⟩ : ∃ g ∈ hs, g.isImport := by
    by_contra hnone
    have hmem := hpaths x hx
    rw [paths_of_not_imports fun g hg => Bool.eq_false_iff.mpr fun himport => hnone ⟨g, hg, himport⟩] at hmem
    cases hmem
  obtain ⟨a', htailed'⟩ := htailed.withoutRepeated ho ho' ⟨x, hx⟩
  obtain ⟨k, e, hslot⟩ := hdistinct.exists_slot ho'.linked.items (ho'.isReadable hparsed) ⟨g, hg, himport⟩
  refine ⟨a', k, e, htailed', hslot, ?_⟩
  rw [← hslot.remainders_eq, ho'.text_of_distinct hdistinct]

/-- A batch with an import, and a pass over the repeated imports of its file, applied again. -/
theorem repeats_of_import (hn : IsFileName filename) (hts : ∀ t ∈ ts, t.PutsInto filename) {q r' : Package}
    (hq : q.OverTrees) (hends : EndsWith q filename b) (hcontains : ∀ t ∈ ts, q.Contains t) {i : ImportAddition}
    (hi : .addImport i ∈ ts) (h : applyTransform (.dedupImports (some [filename])) q = (.ok (), r))
    (h' : applyTransforms (ts ++ [.dedupImports (some [filename])]) r = (.ok (), r')) : Repeats filename ts r r' := by
  obtain ⟨hextends, hcases⟩ := applyTransform_dedupImports hq hn h
  obtain ⟨s, hread, hpaths⟩ : q.Imports filename i.path := by
    have himports := hcontains _ hi
    have hfilename : i.filename = filename := by
      cases hts _ hi with
      | addImport hfilename => exact hfilename
    exact hfilename ▸ himports
  obtain ⟨s₁, -, lead, gs, hread₁, -, ho, hdedup⟩ := hcases.resolve_left fun hmissing => hmissing.1 _ hread
  obtain rfl := Utf8.encode_injective (Except.ok.inj (hread.symm.trans hread₁))
  obtain ⟨a, htailed⟩ : ∃ a, Tailed s a b := by
    cases hends with
    | absent hnone => exact absurd hread (hnone _)
    | there hread' htailed =>
      obtain rfl := Utf8.encode_injective (Except.ok.inj (hread.symm.trans hread'))
      exact ⟨_, htailed⟩
  -- the file behind the first run
  generalize hremains : orderMark s ++ texts (lead ++ remainders [] gs) = t at hdedup
  obtain ⟨q', hrun, hlast⟩ := applyTransforms_append_eq_ok.mp h'
  obtain ⟨l, hload⟩ := exists_load_of_run (by simp) h'
  obtain ⟨f', lead', hs, -, -, hparsed, ho'⟩ := (load_eq_ok hload).exists_outline_of_read hextends.overTrees hn hdedup
  obtain ⟨a', k, e, htailed', hslot, ht⟩ := exists_slot_behind htailed ho hremains.symm hparsed ho' (hpaths lead gs ho)
  -- the file behind the transforms of the second run
  obtain ⟨hextends', s', hread', hspaced⟩ := isSpaced_of_contains hextends.overTrees hn hts
    (fun t ht => hextends.contains (hts t ht) (hcontains t ht)) ho'.noCode.isFiller hdedup htailed' (ho'.isSpaced hslot) hrun
  obtain ⟨hextends'', hcases'⟩ := applyTransform_dedupImports hextends'.overTrees hn
    (applyTransforms_singleton_eq_ok.mp hlast)
  obtain ⟨s₂, -, lead₂, hs₂, hread₂, -, ho₂, hdedup'⟩ := hcases'.resolve_left fun hmissing => hmissing.1 _ hread'
  obtain rfl := Utf8.encode_injective (Except.ok.inj (hread'.symm.trans hread₂))
  obtain ⟨rfl, w, v, hslot', hw, hv⟩ := hspaced.exists_slot ho'.noCode.isFiller ho₂
  refine ⟨fun name hname hne => ?_, .inr ⟨⟨i, hi⟩, _, _, hdedup, hdedup', ?_⟩⟩
  · rw [hextends''.others name hname hne, hextends'.others name hname hne]
  · rw [ht, hslot'.remainders_eq, hspaced.mark]
    refine ⟨Utf8.encode (orderMark t ++ texts (lead₂ ++ k)), Utf8.encode (texts (w ++ v)), Utf8.encode (texts e), ?_, ?_,
      (hw.append hv).bytes⟩ <;> simp [Utf8.encode_append]

/-- A batch without imports, and a pass over the repeated imports of its file, applied again. -/
theorem repeats_of_adds (hn : IsFileName filename) (hts : ∀ t ∈ ts, ∃ a, t = .add a ∧ a.replace = false) {q r' : Package}
    (hq : q.OverTrees) (hcontains : ∀ t ∈ ts, q.Contains t)
    (h : applyTransform (.dedupImports (some [filename])) q = (.ok (), r))
    (h' : applyTransforms (ts ++ [.dedupImports (some [filename])]) r = (.ok (), r')) : Repeats filename ts r r' := by
  obtain ⟨hextends, hcases⟩ := applyTransform_dedupImports hq hn h
  obtain ⟨q', hrun, hlast⟩ := applyTransforms_append_eq_ok.mp h'
  have hcontains' : ∀ t ∈ ts, r.Contains t := by
    intro t ht
    obtain ⟨a, rfl, -⟩ := hts t ht
    exact hextends.declares _ (hcontains _ ht)
  obtain ⟨hextends', hsame⟩ : Extends filename r q' ∧ q'.read filename = r.read filename :=
    extends_of_contains hextends.overTrees hts hcontains' hrun
  obtain ⟨hextends'', hcases'⟩ := applyTransform_dedupImports hextends'.overTrees hn
    (applyTransforms_singleton_eq_ok.mp hlast)
  refine ⟨fun name hname hne => ?_, .inl ?_⟩
  · rw [hextends''.others name hname hne, hextends'.others name hname hne]
  · rcases hcases' with ⟨-, hread⟩ | ⟨s, -, lead, gs, hread, -, ho, hdedup⟩
    · exact hread.trans hsame
    · rw [hsame] at hread
      rcases hcases with ⟨hnone, hmissing⟩ | ⟨s₁, -, lead₁, gs₁, -, -, ho₁, hdedup₁⟩
      · exact absurd (hmissing.symm.trans hread) (hnone _)
      · -- the first run has left each import once
        obtain rfl := Utf8.encode_injective (Except.ok.inj (hdedup₁.symm.trans hread))
        rw [hdedup, hread, ho.text_of_distinct (ho₁.withoutRepeated ho).2.1]

end Batch

end Package

/-! ## Snippets that are applied again -/

theorem Snippet.addsTo_of_parse {filename text : String} {ts : List Transform} (h : Snippet.parse filename text = .ok ts)
    {t : Transform} (ht : t ∈ ts) : t.AddsTo filename := by
  obtain ⟨f, groups, -, hgroups, rfl⟩ := Snippet.parse_eq_ok h
  obtain ⟨group, hgroup, ht⟩ := List.mem_flatten.mp ht
  obtain ⟨d, -, hg⟩ := (mem_of_mapM hgroups).2 group hgroup
  cases Snippet.standsFor_of_transformsOf hg with
  | imports specs close hdecl =>
    obtain ⟨x, -, rfl⟩ := List.mem_map.mp ht
    exact .addImport rfl
  | add subject hsubject =>
    rw [List.mem_singleton.mp ht]
    exact .add rfl rfl

theorem Transform.AddsTo.filename?_eq {filename : String} {t : Transform} (h : t.AddsTo filename) :
    t.filename? = some filename := by
  cases h with
  | add hfilename | addImport hfilename => exact congrArg some hfilename

namespace Package

variable {p q r r' : Package} {filename text : String} {ts : List Transform}

/-- A pass over the repeated imports of a file that is no source file does nothing. -/
theorem dedupImports_aside (hl : Loaded p q) (hn : ¬ IsFileName filename)
    (h : dedupImports (some [filename]) q = (.ok (), r)) : r = q := by
  rcases dedupImports_eq_ok h with ⟨-, rfl⟩ | ⟨f, hf, hdedup⟩
  · rfl
  · obtain ⟨hmem, rfl⟩ := Members.mem_of_file? hf
    rcases dedupFile_eq_ok hdedup with ⟨-, rfl⟩ | hwrite
    · rfl
    · exact absurd ⟨hl.hasSourceName hmem, (write_eq_ok hwrite).1⟩ hn

/-- What adds to a file that is no source file, and a pass over that file, leaves. -/
theorem leavesAside_dedupImports (hp : p.OverTrees) (hn : ¬ IsFileName filename) (hload : load p = (.ok (), q))
    (hts : ∀ t ∈ ts, t.AddsTo filename)
    (h : applyTransforms (ts ++ [.dedupImports (some [filename])]) p = (.ok (), r)) :
    LeavesAside filename ts p q r ∧ load r = (.ok (), r) := by
  obtain ⟨p', hrun, hlast⟩ := applyTransforms_append_eq_ok.mp h
  obtain ⟨hover, hothers, hview, htarget⟩ := leavesAside hp hn hload hts hrun
  obtain ⟨_, l, hload', happly⟩ := bind_eq_ok.mp (applyTransforms_singleton_eq_ok.mp hlast)
  have hl := load_eq_ok hload'
  obtain rfl := dedupImports_aside hl hn happly
  refine ⟨⟨hover.loaded hl, fun other ho hne => (hl.read other).trans (hothers other ho hne), fun l' hload'' => ?_,
    (hl.read filename).trans htarget⟩, hl.load⟩
  rw [hl.load] at hload''
  cases hload''
  exact hview _ hload'

/-- What adds to a file that is no source file adds the same again. -/
theorem repeats_aside (hp : p.OverTrees) (hn : ¬ IsFileName filename) (hts : ∀ t ∈ ts, t.AddsTo filename)
    (h : applyTransforms (ts ++ [.dedupImports (some [filename])]) p = (.ok (), r))
    (h' : applyTransforms (ts ++ [.dedupImports (some [filename])]) r = (.ok (), r')) : Repeats filename ts r r' := by
  obtain ⟨q, hload⟩ := exists_load_of_run (by simp) h
  obtain ⟨hfirst, hload'⟩ := leavesAside_dedupImports hp hn hload hts h
  obtain ⟨hsecond, -⟩ := leavesAside_dedupImports hfirst.overTrees hn hload' hts h'
  refine ⟨hsecond.others, .inl ?_⟩
  have hadded : r.added? = q.added? := funext (hfirst.view r hload').added?_eq
  have htarget := hsecond.target
  have htarget' := hfirst.target
  rw [hadded] at htarget
  cases hlast : (ts.filterMap q.added?).getLast? with
  | none =>
    rw [hlast, Option.map_none, Option.getD_none] at htarget
    exact htarget
  | some data =>
    rw [hlast, Option.map_some, Option.getD_some] at htarget htarget'
    exact htarget.trans htarget'.symm

/-- Whether what a snippet stands for can be put into a source file as it is: the paths of its
imports can stand between quotes, its declarations have names, and the file is ready for them. -/
structure Admits (p : Package) (filename : String) (ts : List Transform) : Prop where
  paths : ∀ t ∈ ts, t.HasPlainPath
  named : ∀ a, .add a ∈ ts → a.subject.IsNamed
  ready : ∀ s, p.read filename = .ok (Utf8.encode s) → IsReady s

/-- What a snippet adds to a source file is there. -/
theorem repeats_of_admits (hp : p.OverTrees) (hn : IsFileName filename) (hparse : Snippet.parse filename text = .ok ts)
    (hadmits : p.Admits filename ts) (h : applyTransforms (ts ++ [.dedupImports (some [filename])]) p = (.ok (), r))
    (h' : applyTransforms (ts ++ [.dedupImports (some [filename])]) r = (.ok (), r')) : Repeats filename ts r r' := by
  have hputs : ∀ t ∈ ts, t.PutsInto filename := fun t ht => Snippet.putsInto_of_parse hparse ht (hadmits.paths t ht)
  have hdeclaring : ∀ t ∈ ts, Declaring t := by
    intro t ht
    cases t with
    | add a => exact ⟨hadmits.named a ht, Snippet.exists_isItemText hparse ht⟩
    | addImport | dedupImports | format => trivial
  obtain ⟨l, hload⟩ := exists_load_of_run (by simp) h
  obtain ⟨q, hrun, hlast⟩ := applyTransforms_append_eq_ok.mp h
  have hdedup := applyTransforms_singleton_eq_ok.mp hlast
  obtain ⟨hextends, hcontains, b, hends⟩ := (endsWith_nil hp (load_eq_ok hload) hn hadmits.ready).extends_transforms hp hn
    (fun t ht => ⟨hputs t ht, hdeclaring t ht⟩) nofun (Snippet.pairwise_of_parse hparse) hrun
  by_cases himport : ∃ i, .addImport i ∈ ts
  · obtain ⟨i, hi⟩ := himport
    exact repeats_of_import hn hputs hextends.overTrees hends hcontains hi hdedup h'
  · refine repeats_of_adds hn (fun t ht => ?_) hextends.overTrees hcontains hdedup h'
    cases hputs t ht with
    | add _ hreplace => exact ⟨_, rfl, hreplace⟩
    | addImport => exact absurd ⟨_, ht⟩ himport

end Package

namespace Session

open Package

variable {p r r' : Package} {s : Source} {o : ApplyOptions} {ts : List Transform}

/-- The transforms of an application that does not format: those of its snippet, and a pass over the
repeated imports of the file that they add to. -/
theorem allTransforms_of_snippet (hlist : isList s.path = false) (hreplace : o.replace = false)
    (hformat : o.noFormat = true) (h : allTransforms [s] o = .ok ts) :
    ∃ text us, Snippet.parse (o.file.getD (defaultTarget s.path)) text = .ok us ∧
      ts = us ++ [.dedupImports (some (touched us))] := by
  obtain ⟨groups, hgroups, rfl⟩ := allTransforms_eq_ok h
  obtain ⟨us, rest, hsource, hrest, rfl⟩ := mapM_cons_eq_ok hgroups
  obtain rfl : rest = [] := (Except.ok.inj hrest).symm
  rw [hformat, if_pos rfl, List.flatten_cons, List.flatten_nil, List.append_nil]
  unfold sourceTransforms at hsource
  rw [hlist, hreplace] at hsource
  change snippetTransforms s o.file false = _ at hsource
  unfold snippetTransforms at hsource
  split at hsource
  · cases hsource
  · next text htext =>
    unfold Snippet.parseText at hsource
    cases hparse : Snippet.parse (o.file.getD (defaultTarget s.path))
        (String.ofList (Text.lineFeedsOnly (String.ofList text).toList)) with
    | error e =>
      rw [hparse] at hsource
      cases hsource
    | ok vs =>
      rw [hparse] at hsource
      cases hsource
      exact ⟨_, _, hparse, rfl⟩

theorem touched_eq {filename : String} (hts : ∀ t ∈ ts, t.AddsTo filename) (hne : ts ≠ []) : touched ts = [filename] := by
  obtain ⟨t, us, rfl⟩ := List.exists_cons_of_ne_nil hne
  refine eraseDups_eq_singleton ?_ fun name hname => ?_
  · exact List.mem_filterMap.mpr ⟨t, List.mem_cons_self, (hts t List.mem_cons_self).filename?_eq⟩
  · obtain ⟨u, hu, hname⟩ := List.mem_filterMap.mp hname
    rw [(hts u hu).filename?_eq] at hname
    exact (Option.some.inj hname).symm

/-- A snippet that is applied twice leaves what it leaves when it is applied once, but for white
space at one place of its file if it has an import. -/
theorem rerun_repeats (hp : p.OverTrees) (hlist : isList s.path = false) (hreplace : o.replace = false)
    (hformat : o.noFormat = true) (hts : allTransforms [s] o = .ok ts)
    (hadmits : IsFileName (o.file.getD (defaultTarget s.path)) → p.Admits (o.file.getD (defaultTarget s.path)) ts)
    (hrun : applyTransforms ts p = (.ok (), r)) (hrun' : applyTransforms ts r = (.ok (), r')) :
    Repeats (o.file.getD (defaultTarget s.path)) ts r r' := by
  obtain ⟨text, us, hparse, rfl⟩ := allTransforms_of_snippet hlist hreplace hformat hts
  generalize o.file.getD (defaultTarget s.path) = filename at hparse hadmits ⊢
  have hadds : ∀ t ∈ us, t.AddsTo filename := fun t ht => Snippet.addsTo_of_parse hparse ht
  suffices hrepeats : Repeats filename us r r' by
    refine ⟨hrepeats.others, hrepeats.target.imp_right fun ⟨⟨i, hi⟩, hwidened⟩ => ?_⟩
    exact ⟨⟨i, List.mem_append_left _ hi⟩, hwidened⟩
  by_cases hne : us = []
  · -- nothing is added, and no file is passed over
    subst hne
    obtain ⟨_, l, hload, happly⟩ := bind_eq_ok.mp (applyTransforms_singleton_eq_ok.mp hrun')
    cases happly
    have hl := load_eq_ok hload
    exact ⟨fun name _ _ => hl.read name, .inl (hl.read filename)⟩
  · rw [touched_eq hadds hne] at hrun hrun'
    by_cases hn : IsFileName filename
    · refine repeats_of_admits hp hn hparse ?_ hrun hrun'
      obtain ⟨hpaths, hnamed, hready⟩ := hadmits hn
      exact ⟨fun t ht => hpaths t (List.mem_append_left _ ht), fun a ha => hnamed a (List.mem_append_left _ ha), hready⟩
    · exact repeats_aside hp hn hadds hrun hrun'

/-- The printer's snippet in a file. -/
def printerSource : Source := ⟨"a.tmpl", bytesOf printerSnippet⟩

/-- Options of an application that neither replaces nor formats. -/
def plainOptions : ApplyOptions := ⟨".", none, false, false, true⟩

def printerTransforms : List Transform :=
  [.addImport ⟨"a.go", "", "fmt"⟩, .add ⟨"a.go", .func "" "F", "// F prints.\nfunc F() \x7b fmt.Println() \x7d", false⟩,
    .dedupImports (some ["a.go"])]

theorem printerSource_repeats : ∃ r r', (oneFile "package a\n\nimport \"io\"\n").OverTrees ∧
    allTransforms [printerSource] plainOptions = .ok printerTransforms ∧
    applyTransforms printerTransforms (oneFile "package a\n\nimport \"io\"\n") = (.ok (), r) ∧
    applyTransforms printerTransforms r = (.ok (), r') ∧ Repeats "a.go" printerTransforms r r' := by
  have hp : (oneFile "package a\n\nimport \"io\"\n").OverTrees := (oneFile_inMemory _).overTrees
  have hts : allTransforms [printerSource] plainOptions = .ok printerTransforms := rfl
  have hrun : (applyTransforms printerTransforms (oneFile "package a\n\nimport \"io\"\n")).1.isOk := by decide +kernel
  have hrun' : (applyTransforms printerTransforms
      (applyTransforms printerTransforms (oneFile "package a\n\nimport \"io\"\n")).2).1.isOk := by decide +kernel
  refine ⟨_, _, hp, hts, eq_ok_of_isOk hrun, eq_ok_of_isOk hrun', rerun_repeats hp (by decide) rfl rfl hts
    (fun _ => ⟨?_, ?_, fun s hs => ?_⟩) (eq_ok_of_isOk hrun) (eq_ok_of_isOk hrun')⟩
  · refine List.forall_mem_cons.mpr ⟨?_, List.forall_mem_cons.mpr ⟨trivial, List.forall_mem_singleton.mpr trivial⟩⟩
    show ∀ c ∈ ['f', 'm', 't'], c ≠ '"' ∧ c ≠ '\n' ∧ c ≠ '\\'
    simp
  · intro a ha
    have ha : a = ⟨"a.go", .func "" "F", "// F prints.\nfunc F() \x7b fmt.Println() \x7d", false⟩ := by
      simpa [printerTransforms] using ha
    rw [ha]
    exact nofun
  · obtain rfl : "package a\n\nimport \"io\"\n".toList = s := Utf8.encode_injective (Except.ok.inj hs)
    exact ⟨by decide, by decide +kernel, .inl (by decide +kernel)⟩

/-! ### What is not repeated -/

/-- Whether a snippet that is applied twice leaves files that are alike to those it leaves once. -/
def IsRepeatable (alike : Bytes → Bytes → Prop) (p : Package) (s : Source) (o : ApplyOptions) : Prop :=
  ∀ ts r r', allTransforms [s] o = .ok ts → applyTransforms ts p = (.ok (), r) →
    applyTransforms ts r = (.ok (), r') → ∀ name before after, r.read name = .ok before → r'.read name = .ok after → alike before after

/-- Whether two runs succeed, and a file is not the same behind the second one as behind the first. -/
def differs (same : Bytes → Bytes → Bool) (p : Package) (s : Source) (o : ApplyOptions) (name : String) : Bool :=
  (allTransforms [s] o).toOption.any fun ts =>
    let once := applyTransforms ts p
    let twice := applyTransforms ts once.2
    once.1.isOk && twice.1.isOk && (once.2.read name).toOption.any fun before =>
      (twice.2.read name).toOption.any fun after => !same before after

theorem not_isRepeatable (same : Bytes → Bytes → Bool) (name : String) {alike : Bytes → Bytes → Prop}
    (hsame : ∀ before after, alike before after → same before after) (h : differs same p s o name) :
    ¬ IsRepeatable alike p s o := by
  intro hrepeatable
  obtain ⟨ts, hts, h⟩ := (Option.any_eq_true _ _).mp h
  simp only [Bool.and_eq_true] at h
  obtain ⟨⟨honce, htwice⟩, h⟩ := h
  obtain ⟨before, hbefore, h⟩ := (Option.any_eq_true _ _).mp h
  obtain ⟨after, hafter, h⟩ := (Option.any_eq_true _ _).mp h
  have halike := hrepeatable ts _ _ (eq_ok_of_toOption hts) (eq_ok_of_isOk honce) (eq_ok_of_isOk htwice) name before after
    (eq_ok_of_toOption hbefore) (eq_ok_of_toOption hafter)
  rw [hsame before after halike] at h
  cases h

/-- A second run puts a line end behind an import.  It does more where the path of an import cannot
stand between quotes, where a group of values has no names, and where the file does not end its last
line, has an open comment, or has one on the line of its package clause. -/
theorem not_all_repeatable :
    ¬ IsRepeatable (· = ·) (oneFile "package test1\n") ⟨"a.tmpl", bytesOf "import \"io\"\n"⟩ plainOptions ∧
    ¬ IsRepeatable IsWidened (oneFile "package a\n")
      ⟨"a.tmpl", bytesOf "import \"x\\\"; import \\\"y\"\n"⟩ plainOptions ∧
    ¬ IsRepeatable IsWidened (oneFile "package a\n") ⟨"a.tmpl", bytesOf "var ()\n"⟩ plainOptions ∧
    ¬ IsRepeatable IsWidened (oneFile "package a // c") ⟨"a.tmpl", bytesOf "func F() \x7b\x7d\n"⟩ plainOptions ∧
    ¬ IsRepeatable IsWidened (oneFile "package a\n\nvar p = a /*b\n")
      ⟨"a.tmpl", bytesOf "const C = `*/\nconst D = ` + \"`//\"\n"⟩ plainOptions ∧
    ¬ IsRepeatable IsWidened (oneFile "package a /*\n*/\n") ⟨"a.tmpl", bytesOf "import \"io\"\n"⟩ plainOptions := by
  have hink : ∀ before after, IsWidened before after → (ink before == ink after) = true :=
    fun _ _ h => beq_iff_eq.mpr h.ink_eq
  refine ⟨not_isRepeatable (· == ·) "a.go" (fun _ _ h => beq_iff_eq.mpr h) (by decide +kernel), ?_⟩
  refine ⟨?_, ?_, ?_, ?_, ?_⟩ <;> refine not_isRepeatable (ink · == ink ·) "a.go" hink ?_ <;> decide +kernel

end Session

end GoSplice
