import GoSplice.Proofs.Retention
import GoSplice.Proofs.StoredFiles

/-!
# What packages contain

A package contains what a transform adds if it declares the subject, or if the file imports the path.  A
transform that is applied leaves a package that contains what it adds, and all that there was:

    write filename s' p = (ok (), r) → s' covers the file → Extends filename p r     (extends_of_write)
    applyTransform t p = (ok (), r) → Extends filename p r ∧ r.Contains t       (EndsWith.extends_transform)
-/

namespace GoSplice

open Syntax Syntax.Segment

namespace Package

variable {p q r l : Package} {filename : String} {f : SourceFile} {u : Subject} {s : List Char} {lead : List Lexeme}
  {gs : List Segment}

/-! ## Declarations and imports -/

/-- Whether a package has, where it is loaded, a declaration that a subject names. -/
def Declares (p : Package) (u : Subject) : Prop := ∀ q, load p = (.ok (), q) → q.files.findSubject? u ≠ none

/-- Whether a file is there and, where it is read, imports a path. -/
def Imports (p : Package) (filename path : String) : Prop :=
  ∃ s, p.read filename = .ok (Utf8.encode s) ∧ ∀ lead gs, Outline s lead gs → path ∈ gs.flatMap paths

/-- What is declared in a file of a package is found. -/
theorem findSubject?_ne_none (hf : f ∈ q.files) (h : 0 < f.count u) : q.files.findSubject? u ≠ none := by
  intro hnone
  obtain ⟨d, hd, hdeclares⟩ := List.countP_pos_iff.mp h
  exact not_isDeclaredBy hnone hf hd hdeclares

theorem Loaded.declares_iff (h : Loaded p q) : q.Declares u ↔ q.files.findSubject? u ≠ none := by
  refine ⟨fun hu => hu q h.load, fun hu q' hload => ?_⟩
  rw [h.load] at hload
  cases hload
  exact hu

/-- What a package behind another one keeps, which was changed in one file. -/
structure Extends (filename : String) (p r : Package) : Prop where
  overTrees : r.OverTrees
  others : ∀ name, Path.IsPlain name.toList → name ≠ filename → r.read name = p.read name
  declares : ∀ u, p.Declares u → r.Declares u
  imports : ∀ path, p.Imports filename path → r.Imports filename path

theorem Extends.refl (hp : p.OverTrees) (filename : String) : Extends filename p p :=
  ⟨hp, fun _ _ _ => rfl, fun _ => id, fun _ => id⟩

theorem Extends.trans (h : Extends filename p q) (h' : Extends filename q r) : Extends filename p r :=
  ⟨h'.overTrees, fun name hn hne => (h'.others name hn hne).trans (h.others name hn hne),
    fun u hu => h'.declares u (h.declares u hu), fun path hi => h'.imports path (h.imports path hi)⟩

theorem Loaded.extends_load (hp : p.OverTrees) (h : Loaded p q) (hload : Package.load p = (.ok (), q)) :
    Extends filename p q := by
  refine ⟨hp.loaded h, fun name _ _ => h.read name, fun u hu => h.declares_iff.mpr (hu q hload), fun path => ?_⟩
  rintro ⟨s, hread, hpath⟩
  exact ⟨s, (h.read filename).trans hread, hpath⟩

/-- A file that covers the one in the place of which it is written keeps what there is. -/
theorem extends_of_write (hp : p.OverTrees) (hload : load p = (.ok (), q)) (hn : IsFileName filename)
    (hcovers : p.CoversFile filename s) (h : write filename (Utf8.encode s) q = (.ok (), r)) : Extends filename p r := by
  have hl := load_eq_ok hload
  have hq := hp.loaded hl
  refine ⟨hq.write h, fun name hname hne => ?_, fun u hu l hreload => ?_, fun path => ?_⟩
  · rw [read_of_write_ne hq.directory hname hn.isPlain hne h, hl.read]
  · have hr := load_eq_ok hreload
    obtain ⟨m, hm⟩ := Option.ne_none_iff_exists'.mp (hu q hload)
    obtain ⟨hg, hd, hdeclares⟩ := mem_of_findSubject? hm
    have hcount : 0 < m.file.count u := List.countP_pos_iff.mpr ⟨_, hd, hdeclares⟩
    obtain ⟨f, hf, hname⟩ := (hl.exists_behind hp hn h hr).mpr (.inr ⟨m.file, hg, rfl⟩)
    refine findSubject?_ne_none hf ?_
    rcases hl.eq_or_written hp hn h hr hg hf hname with rfl | ⟨-, hread, hsource⟩
    · exact hcount
    · -- the file covers the one with the declaration
      obtain ⟨s₀, hs₀⟩ := parse_eq_ok_iff.mp (hl.files _ hg).2
      obtain ⟨s', hs'⟩ := parse_eq_ok_iff.mp (hr.files f hf).2
      rw [hsource] at hs'
      obtain rfl := Utf8.encode_injective hs'.encode_eq
      obtain ⟨lead, gs, ho, hcovers⟩ := hcovers s₀ (hread.trans (congrArg _ hs₀.encode_eq))
      obtain ⟨lead', hs, ho'⟩ := hs'.exists_outline
      rw [ho.count_eq hs₀] at hcount
      rw [ho'.count_eq hs']
      exact Nat.lt_of_lt_of_le hcount ((hcovers lead' hs ho').declares u)
  · rintro ⟨s₀, hread, hpath⟩
    obtain ⟨lead, gs, ho, hcovers⟩ := hcovers s₀ hread
    exact ⟨s, read_of_write h, fun lead' hs ho' => (hcovers lead' hs ho').paths path (hpath lead gs ho)⟩

/-! ## Transforms -/

/-- Whether a package has what a transform adds. -/
def Contains (p : Package) : Transform → Prop
  | .add a => p.Declares a.subject
  | .addImport i => p.Imports i.filename i.path
  | _ => True

theorem Extends.contains (h : Extends filename p r) {t : Transform} (ht : t.PutsInto filename) (hp : p.Contains t) :
    r.Contains t := by
  cases ht with
  | add hfilename => exact h.declares _ hp
  | addImport hfilename =>
    subst hfilename
    exact h.imports _ hp

/-- Whether a declaration that a transform adds has a name, and its text is read as it. -/
def Declaring : Transform → Prop
  | .add a => a.subject.IsNamed ∧ ∃ lead g, IsItemText a.subject a.text.toList lead g
  | _ => True

section EndsWith

variable {b : List Lexeme} {t : Transform}

/-- A text at the end of a file keeps what there is, and is found. -/
theorem EndsWith.extends_append {a : Addition} (h : EndsWith p a.filename b) (hp : p.OverTrees)
    (hload : load p = (.ok (), q)) (hn : IsFileName a.filename) (ht : TailText a.text.toList)
    (hopen : opensComment b → blockCommentLength? (a.text.toList ++ ['\n']) = none) (hdeclaring : Declaring (.add a))
    (hrun : append a.filename a.text q = (.ok (), r)) : Extends a.filename p r ∧ r.Contains (.add a) := by
  have hl := load_eq_ok hload
  obtain ⟨hnamed, fill, g, hitem⟩ := hdeclaring
  obtain ⟨s, c, hcontents, htailed, hthere, hnew⟩ := h.contents hp hl hn
  have hdata : Utf8.encode s ++ bytesOf a.text ++ [LineIndex.lineFeed] =
      Utf8.encode (s ++ (a.text.toList ++ ['\n'])) := by
    rw [Utf8.encode_append, Utf8.encode_append, ← List.append_assoc]
    rfl
  rw [append_eq, hcontents, hdata] at hrun
  have hst : stretches (s ++ (a.text.toList ++ ['\n'])) = stretches s ++ lexemes (a.text.toList ++ ['\n']) := by
    rw [(htailed.append ht hopen).stretches_eq, htailed.stretches_eq, List.append_assoc]
  obtain ⟨x, hx⟩ := stretches_lineEnd htailed.lineEnd (by rw [htailed.stretches_eq]; exact htailed.isSound)
  have hcovers : ∀ lead gs, Outline s lead gs → ∀ lead' hs, Outline (s ++ (a.text.toList ++ ['\n'])) lead' hs →
      Covers gs hs ∧ ∃ k ∈ hs, k.declares a.subject := fun lead gs ho lead' hs ho' =>
    (hitem.covers ho hx hst ho').imp_right (· hnamed)
  refine ⟨extends_of_write hp hload hn (fun s' hread => ?_) hrun, fun l hreload => ?_⟩
  · obtain ⟨rfl, lead, gs, ho⟩ := hthere s' hread
    exact ⟨lead, gs, ho, fun lead' hs ho' => (hcovers lead gs ho lead' hs ho').1⟩
  · have hr := load_eq_ok hreload
    have hread := read_of_write hrun
    obtain ⟨f, lead', hs, hfile, -, hparsed, ho'⟩ := hr.exists_outline_of_read
      ((hp.loaded hl).write hrun) hn hread
    obtain ⟨lead, gs, ho⟩ := hnew _ _ _ hparsed
    refine findSubject?_ne_none (Members.mem_of_file? hfile).1 ?_
    rw [ho'.count_eq hparsed]
    exact List.countP_pos_iff.mpr (hcovers lead gs ho lead' hs ho').2

/-- A transform keeps what there is, and what it adds is there. -/
theorem EndsWith.extends_transform (h : EndsWith p filename b) (hp : p.OverTrees) (hn : IsFileName filename)
    (ht : t.PutsInto filename) (hdeclaring : Declaring t)
    (hopen : opensComment b → blockCommentLength? t.addedText = none) (hrun : Package.applyTransform t p = (.ok (), r)) :
    Extends filename p r ∧ r.Contains t := by
  obtain ⟨_, q, hload, happly⟩ := bind_eq_ok.mp hrun
  have hl := load_eq_ok hload
  cases ht with
  | @add a hfilename hreplace htext =>
    subst hfilename
    rcases addDeclaration_eq_ok.mp happly with ⟨-, happend⟩ | ⟨hm, -, -, rfl⟩ | ⟨-, -, htrue, -, -, -⟩
    · exact h.extends_append hp hload hn htext hopen hdeclaring happend
    · refine ⟨hl.extends_load hp hload, hl.declares_iff.mpr ?_⟩
      rw [hm]
      exact Option.some_ne_none _
    · rw [hreplace] at htrue
      cases htrue
  | @addImport i hfilename hname hpath =>
    subst hfilename
    obtain ⟨s, a, hdata, -, hcovers, himports⟩ := h.withImport hp hl hn hname hpath
    change addImport _ q = _ at happly
    rw [addImport_eq, hdata] at happly
    exact ⟨extends_of_write hp hload hn hcovers happly, s, read_of_write happly, himports⟩

/-- Transforms keep what there is, and what they add is there. -/
theorem EndsWith.extends_transforms (h : EndsWith p filename b) (hp : p.OverTrees) (hn : IsFileName filename)
    {ts : List Transform} (hts : ∀ t ∈ ts, t.PutsInto filename ∧ Declaring t) (hawaits : Awaits b ts)
    (hpairwise : ts.Pairwise Transform.StandsBefore) (hrun : Package.applyTransforms ts p = (.ok (), r)) :
    Extends filename p r ∧ (∀ t ∈ ts, r.Contains t) ∧ ∃ c, EndsWith r filename (b ++ c) := by
  induction ts generalizing p b with
  | nil =>
    cases hrun
    refine ⟨.refl hp filename, List.forall_mem_nil _, [], ?_⟩
    rwa [List.append_nil]
  | cons t ts ih =>
    obtain ⟨⟨ht, hdeclaring⟩, hts⟩ := List.forall_mem_cons.mp hts
    obtain ⟨hbefore, hpairwise⟩ := List.pairwise_cons.mp hpairwise
    obtain ⟨q, hfirst, hrest⟩ := applyTransforms_cons_eq_ok.mp hrun
    obtain ⟨hextends, hcontains⟩ := h.extends_transform hp hn ht hdeclaring (fun ho => hawaits ho t List.mem_cons_self) hfirst
    obtain ⟨hq, c, hends, hawaits⟩ := h.applyTransform hp hn ht hawaits hbefore hfirst
    obtain ⟨hextends', hall, d, hends⟩ := ih hends hq hts hawaits hpairwise hrest
    refine ⟨hextends.trans hextends', List.forall_mem_cons.mpr ⟨hextends'.contains ht hcontains, hall⟩, c ++ d, ?_⟩
    rwa [← List.append_assoc]

end EndsWith

end Package

end GoSplice
