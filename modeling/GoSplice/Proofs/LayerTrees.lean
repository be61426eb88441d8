import GoSplice.Proofs.LayerHistories

/-!
# Trees of layers in memory

A layer in memory is a directory tree as long as no directories are made through a file.  A file is
not written where there is a directory, and no directory is made where there is a file, but `makeDirs`
makes all directories on its way and looks for a file only where the way ends:

    (m.after c).IsDouble x ↔ m.IsDouble x ∨ c.MakesThrough m x                    (isDouble_after)
    (m.run calls).IsDouble x ↔ m.IsDouble x ∨ some call makes directories through x   (isDouble_run)
    m.IsRooted → (m.IsTree ↔ no path of m is double)                              (IsRooted.isTree_iff)

A path is double if it is a file and a directory.  Once it is, it remains so.
-/

namespace GoSplice

open GoSplice.Path (IsPlain spell)

/-- Whether a call makes directories through a file: the file is above the directory that is made. -/
def LayerCall.MakesThrough (m : MemoryLayer) (x : String) : LayerCall → Prop
  | .makeDirs path _ => (m.file? x).isSome ∧ ∃ y, Path.clean path = .ok y ∧ m.file? y = none ∧ IsAbove x y
  | _ => False

/-- What is above a path is the path itself, or above the directory that holds it. -/
theorem isAbove_parent {x y : String} (h : IsAbove x y) (hne : x ≠ y) : IsAbove x (Path.parent y) := by
  obtain ⟨us, ss, hss, hus, rfl, rfl⟩ := h
  rcases List.eq_nil_or_concat ss with rfl | ⟨vs, s, rfl⟩
  · rw [List.prefix_nil.mp hus] at hne
    exact absurd rfl hne
  · rw [List.concat_eq_append] at *
    obtain ⟨hvs, hs⟩ := List.forall_mem_append.mp hss
    have hprefix : us <+: vs := (List.prefix_concat_iff.mp hus).resolve_left fun heq => hne (congrArg spell heq)
    exact ⟨us, vs, hvs, hprefix, rfl, Path.parent_spell hvs (hs s List.mem_cons_self)⟩

namespace MemoryLayer

variable {m m' : MemoryLayer} {path x y : String} {data : Bytes} {mode : Nat}

/-- Whether a path is both a file and a directory. -/
def IsDouble (m : MemoryLayer) (x : String) : Prop := (m.file? x).isSome ∧ m.hasDir x

/-- Whether the files and directories of a layer are a tree with files as leaves. -/
structure IsTree (m : MemoryLayer) : Prop where
  apart : ∀ x, ¬ m.IsDouble x
  leaf : ∀ x y, (m.file? x).isSome → (m.file? y).isSome ∨ m.hasDir y → IsAbove x y → x = y

/-- Where all that lies above a directory is one, only paths that are file and directory break a tree. -/
theorem IsRooted.isTree_iff (h : m.IsRooted) : m.IsTree ↔ ∀ x, ¬ m.IsDouble x := by
  constructor
  · exact IsTree.apart
  · intro hapart
    refine ⟨hapart, fun x y hx hy habove => ?_⟩
    by_contra hne
    apply hapart x
    refine ⟨hx, ?_⟩
    rcases hy with hy | hy
    · obtain ⟨f, hf⟩ := Option.isSome_iff_exists.mp hy
      exact h.above (Path.parent y) x (h.built.sound.parent y f hf) (isAbove_parent habove hne)
    · exact h.above y x hy habove

/-! ## Calls -/

/-- The file that a write puts in the place of another, or where there was nothing, is no directory. -/
theorem isDouble_write (hm : m.write path data mode = .ok m') : m'.IsDouble x ↔ m.IsDouble x := by
  obtain ⟨y, -, hdir, -, rfl⟩ := write_eq_ok.mp hm
  unfold IsDouble
  rw [hasDir_putFile, file?_putFile]
  by_cases hxy : x = y
  · rw [hxy]
    exact iff_of_false (fun h => hdir h.2) (fun h => hdir h.2)
  · rw [if_neg hxy]

/-- Directories are made over the files on the way. -/
theorem isDouble_makeDirs (h : m.Sound) (hm : m.makeDirs path = .ok m') :
    m'.IsDouble x ↔ m.IsDouble x ∨ (LayerCall.makeDirs path mode).MakesThrough m x := by
  obtain ⟨y, hy, hnone, rfl⟩ := makeDirs_eq_ok.mp hm
  obtain ⟨hfiles, hdirs⟩ := foldl_putDir (wayTo y) m
  have hfile : ((wayTo y).foldl putDir m).file? x = m.file? x := by
    unfold file?
    rw [hfiles]
  have hlayer : IsLayerPath y := Path.clean_eq_ok hy
  have hway : (m.file? x).isSome → (x ∈ wayTo y ↔ IsAbove x y) := by
    intro hx
    refine ⟨isAbove_of_mem_wayTo hlayer, ?_⟩
    rintro ⟨us, ss, hss, hus, rfl, rfl⟩
    obtain ⟨f, hf⟩ := Option.isSome_iff_exists.mp hx
    exact (mem_wayTo hss hus).resolve_left (h.path _ f hf).2
  unfold IsDouble LayerCall.MakesThrough
  rw [hfile, hdirs]
  constructor
  · rintro ⟨hx, hdir | hmem⟩
    · exact .inl ⟨hx, hdir⟩
    · exact .inr ⟨hx, y, hy, hnone, (hway hx).mp hmem⟩
  · rintro (⟨hx, hdir⟩ | ⟨hx, z, hz, -, habove⟩)
    · exact ⟨hx, .inl hdir⟩
    · rw [hy, Except.ok.injEq] at hz
      exact ⟨hx, .inr ((hway hx).mpr (hz ▸ habove))⟩

theorem not_makesThrough_of_error {e : PatchError} (hm : m.makeDirs path = .error e) :
    ¬ (LayerCall.makeDirs path mode).MakesThrough m x := by
  rintro ⟨-, y, hy, hnone, -⟩
  rw [makeDirs_eq_ok.mpr ⟨y, hy, hnone, rfl⟩] at hm
  cases hm

/-- A path becomes double where directories are made through its file, and in no other way. -/
theorem isDouble_after (h : m.Sound) (c : LayerCall) :
    (m.after c).IsDouble x ↔ m.IsDouble x ∨ c.MakesThrough m x := by
  cases c with
  | write path data mode =>
    have hno : ¬ (LayerCall.write path data mode).MakesThrough m x := fun hc => hc
    rw [or_iff_left hno]
    show ((m.write path data mode).toOption.getD m).IsDouble x ↔ _
    cases hm : m.write path data mode with
    | error e => rfl
    | ok m' => exact isDouble_write hm
  | makeDirs path mode =>
    show ((m.makeDirs path).toOption.getD m).IsDouble x ↔ _
    cases hm : m.makeDirs path with
    | error e => exact (or_iff_left (not_makesThrough_of_error hm)).symm
    | ok m' => exact isDouble_makeDirs h hm
  | read path | list path | isDir path | mode path => exact (or_iff_left (fun hc => hc)).symm

/-! ## Runs -/

/-- The call at some place of a run is the first one, or one of the others. -/
theorem exists_split_cons {α : Type} {P : List α → α → Prop} {c : α} {cs : List α} :
    (∃ before d after, c :: cs = before ++ d :: after ∧ P before d) ↔
      P [] c ∨ ∃ before d after, cs = before ++ d :: after ∧ P (c :: before) d := by
  constructor
  · rintro ⟨before, d, after, heq, h⟩
    cases before with
    | nil =>
      obtain ⟨rfl, -⟩ := List.cons.inj heq
      exact .inl h
    | cons b before =>
      obtain ⟨rfl, hcs⟩ := List.cons.inj heq
      exact .inr ⟨before, d, after, hcs, h⟩
  · rintro (h | ⟨before, d, after, rfl, h⟩)
    · exact ⟨[], c, cs, rfl, h⟩
    · exact ⟨c :: before, d, after, rfl, h⟩

theorem isDouble_run (h : m.IsRooted) (calls : List LayerCall) : (m.run calls).IsDouble x ↔ m.IsDouble x ∨
    ∃ before c after, calls = before ++ c :: after ∧ c.MakesThrough (m.run before) x := by
  induction calls generalizing m with
  | nil => simp [run]
  | cons c calls ih =>
    show ((m.after c).run calls).IsDouble x ↔ _
    rw [ih (h.after c), isDouble_after h.built.sound, or_assoc]
    exact or_congr_right (exists_split_cons (P := fun before (d : LayerCall) => d.MakesThrough (m.run before) x)).symm

theorem not_isDouble_empty (x : String) : ¬ empty.IsDouble x := fun h => nomatch h.1

/-- Behind any calls on an empty layer in memory the paths that are file and directory are those of the
files that directories were made through, and the layer is a tree if there was none. -/
theorem run_isTree_iff (calls : List LayerCall) :
    (∀ x, (empty.run calls).IsDouble x ↔
      ∃ before c after, calls = before ++ c :: after ∧ c.MakesThrough (empty.run before) x) ∧
    ((empty.run calls).IsTree ↔
      ∀ before c after, calls = before ++ c :: after → ∀ x, ¬ c.MakesThrough (empty.run before) x) := by
  have hdouble : ∀ x, (empty.run calls).IsDouble x ↔
      ∃ before c after, calls = before ++ c :: after ∧ c.MakesThrough (empty.run before) x := by
    intro x
    rw [isDouble_run isRooted_empty, or_iff_right (not_isDouble_empty x)]
  refine ⟨hdouble, ?_⟩
  rw [(isRooted_empty.run calls).isTree_iff]
  constructor
  · intro hapart before c after hcalls x hc
    exact hapart x ((hdouble x).mpr ⟨before, c, after, hcalls, hc⟩)
  · intro hnone x hx
    obtain ⟨before, c, after, hcalls, hc⟩ := (hdouble x).mp hx
    exact hnone before c after hcalls x hc

/-- A directory below a file makes a directory of the file. -/
example : (empty.run [.write "a" [] 0o644, .makeDirs "a/b" 0o755]).IsDouble "a" := ⟨rfl, rfl⟩

end MemoryLayer

end GoSplice
