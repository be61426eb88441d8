import GoSplice.Proofs.Batches

/-!
# What transforms write

A transform writes the file that it adds to.  It may reach others: the file that holds the
declaration that it replaces, and those that a pass takes.  What all these writes keep, the
transform keeps:

    (∀ name, Writes l t name → P is kept by writes of name) → P l → P behind t on l
                                                                          (holds_applyLoaded)
-/

namespace GoSplice.Package

variable {p q l : Package} {name : String}

/-! ## Footprints -/

/-- What a transform changes of a loaded package without naming it: the file that it cuts a
declaration out of, or those that a pass takes. -/
inductive Reaches (l : Package) : Transform → String → Prop
  | cut {a : Addition} {m : Match} : a.replace → l.files.findSubject? a.subject = some m →
      Reaches l (.add a) m.file.filename
  | dedup {filenames : Option (List String)} {f : SourceFile} : f ∈ l.selected filenames →
      f.withoutRepeatedImports ≠ f.source → Reaches l (.dedupImports filenames) f.filename
  | format {filenames : Option (List String)} {name : String} : name ∈ l.formatted filenames →
      Reaches l (.format filenames) name

/-- The files that a transform writes to a package that was just loaded. -/
def Writes (l : Package) (t : Transform) (name : String) : Prop := t.filename? = some name ∨ Reaches l t name

theorem mem_of_formatted {filenames : Option (List String)} (h : name ∈ l.formatted filenames) :
    name ∈ l.contents.map (·.1) := by
  cases filenames with
  | none => exact List.mem_mergeSort.mp h
  | some listed => exact List.contains_iff_mem.mp (List.mem_filter.mp h).2

/-- What a transform reaches are files that were loaded. -/
theorem Reaches.mem {t : Transform} (h : Reaches l t name) :
    name ∈ l.files.map (·.filename) ∨ name ∈ l.contents.map (·.1) := by
  cases h with
  | cut _ hm => exact .inl (List.mem_map_of_mem (mem_of_findSubject? hm).1)
  | dedup hf _ => exact .inl (List.mem_map_of_mem (mem_of_selected hf))
  | format hn => exact .inr (mem_of_formatted hn)

/-! ## What is kept -/

section Kept

variable {P : Package → Prop}

theorem holds_throwIf (e : Option PatchError) (hp : P p) : P (throwIf e p).2 := by
  cases e <;> exact hp

/-- A run of the formatter is written down, and its answer to the file if that differs. -/
theorem holds_formatFile (hwrite : ∀ data p, P p → P (write name data p).2)
    (hjournal : ∀ journal p, P p → P { p with journal }) (hp : P p) : P (formatFile name p).2 := by
  refine holds_bind (P := P) (x := get) hp fun _ q _ hq => ?_
  refine holds_bind (P := P) (hjournal _ q hq) fun out r _ hr => ?_
  split
  · exact hwrite out r hr
  · exact hr

theorem holds_addDeclaration {a : Addition} (hwrite : ∀ name, Writes l (.add a) name → ∀ data p, P p → P (write name data p).2)
    (hl : P l) : P (addDeclaration a l).2 := by
  have happend : ∀ p, P p → P (append a.filename a.text p).2 := fun p hp => hwrite a.filename (.inl rfl) _ p hp
  cases hm : l.files.findSubject? a.subject with
  | none =>
    rw [addDeclaration_of_none hm]
    exact happend l hl
  | some m =>
    rw [addDeclaration_of_some hm]
    refine holds_bind (holds_throwIf _ hl) fun _ q _ hq => ?_
    split
    · next hreplace =>
      refine holds_bind (holds_throwIf _ hq) fun _ r _ hr => ?_
      refine holds_bind ?_ fun _ s _ hs => happend s hs
      exact hwrite m.file.filename (.inr (.cut hreplace hm)) _ r hr
    · exact hq

/-- What the writes of a transform and the runs of the formatter keep, whether they fail or not, the
transform keeps. -/
theorem holds_applyLoaded {t : Transform} (hwrite : ∀ name, Writes l t name → ∀ data p, P p → P (write name data p).2)
    (hjournal : ∀ journal p, P p → P { p with journal }) (hl : P l) : P (applyLoaded t l).2 := by
  cases t with
  | addImport a =>
    show P (addImport a l).2
    rw [addImport_eq]
    split
    · exact hwrite a.filename (.inl rfl) _ l hl
    · exact hl
  | add a => exact holds_addDeclaration hwrite hl
  | dedupImports filenames =>
    have hfile : ∀ f ∈ l.selected filenames, ∀ p, P p → P (dedupFile f p).2 := by
      intro f hf p hp
      unfold dedupFile
      split
      · next hne => exact hwrite f.filename (.inr (.dedup hf hne)) _ p hp
      · exact hp
    exact holds_forM hfile hl
  | format filenames =>
    have hfile : ∀ name ∈ l.formatted filenames, ∀ p, P p → P (formatFile name p).2 :=
      fun name hn p hp => holds_formatFile (hwrite name (.inr (.format hn))) hjournal hp
    exact holds_forM hfile hl

end Kept

end GoSplice.Package
