import GoSplice.Proofs.CanonicalPaths
import GoSplice.Proofs.LayerCalls

/-!
# Histories of layers in memory

An empty layer in memory, behind any calls of which some fail, holds under each layer path what
the last write there that succeeded put under it, and nothing where there was none:

    (m.run calls).file? x = the last file that calls write under x, or m.file? x    (file?_run)
    (empty.run calls).ReadsBack (lastWritten? calls)                               (run_readsBack)

What it holds is a directory tree: every file lies in a directory, every directory in directories
up to the root, and a directory lists the names of the files in it, sorted and each once.
-/

namespace GoSplice

open GoSplice.Path (IsPlain spell)

namespace MemoryLayer

variable {m m' : MemoryLayer} {path x y : String} {data : Bytes} {mode : Nat} {f : StoredFile} {c : LayerCall}

/-! ## Runs -/

/-- The layer behind calls in order; those that fail leave it as it is. -/
def run (m : MemoryLayer) (calls : List LayerCall) : MemoryLayer := calls.foldl after m

/-- The file that a call writes, with its layer path; none unless it is a write that succeeds. -/
def written? (m : MemoryLayer) : LayerCall → Option (String × StoredFile)
  | .write path data mode =>
    match m.write path data mode, Path.clean path with
    | .ok _, .ok x => some (x, ⟨data, mode⟩)
    | _, _ => none
  | _ => none

/-- All files that calls write, in order. -/
def log : MemoryLayer → List LayerCall → List (String × StoredFile)
  | _, [] => []
  | m, c :: cs => (m.written? c).toList ++ (m.after c).log cs

/-- The last file that calls on an empty layer write under a layer path. -/
def lastWritten? (calls : List LayerCall) (x : String) : Option StoredFile := (empty.log calls).reverse.lookup x

/-- What one call changes of the files. -/
theorem file?_after (m : MemoryLayer) (c : LayerCall) (x : String) :
    (m.after c).file? x = ((m.written? c).toList.lookup x).or (m.file? x) := by
  cases c with
  | write path data mode =>
    cases hm : m.write path data mode with
    | error e =>
      simp only [after, written?, hm]
      rfl
    | ok m' =>
      obtain ⟨y, hy, -⟩ := write_eq_ok.mp hm
      simp only [after, written?, hm, hy]
      show m'.file? x = ([(y, (⟨data, mode⟩ : StoredFile))].lookup x).or (m.file? x)
      rw [file?_write hm hy, Entries.lookup_cons]
      split <;> rfl
  | makeDirs path mode =>
    show ((m.makeDirs path).toOption.getD m).file? x = m.file? x
    cases hm : m.makeDirs path with
    | error e => rfl
    | ok m' =>
      obtain ⟨y, -, -, rfl⟩ := makeDirs_eq_ok.mp hm
      show (((wayTo y).foldl putDir m).files).lookup x = m.files.lookup x
      rw [(foldl_putDir (wayTo y) m).1]
  | read path | list path | isDir path | mode path => rfl

/-- Behind calls a layer has the last file that they write, or the one that it had. -/
theorem file?_run (m : MemoryLayer) (calls : List LayerCall) (x : String) :
    (m.run calls).file? x = ((m.log calls).reverse.lookup x).or (m.file? x) := by
  induction calls generalizing m with
  | nil => rfl
  | cons c calls ih =>
    have hreverse : (m.written? c).toList.reverse = (m.written? c).toList := by
      cases m.written? c <;> rfl
    show ((m.after c).run calls).file? x = _
    rw [ih, file?_after, log, List.reverse_append, hreverse, List.lookup_append, Option.or_assoc]

theorem file?_run_empty (calls : List LayerCall) (x : String) : (empty.run calls).file? x = lastWritten? calls x := by
  rw [file?_run]
  exact Option.or_none

/-- The write to a directory that is none fails, and the last write to the path, spelled otherwise, counts. -/
example : lastWritten? [.makeDirs "a" 0o755, .write "a/b" [1] 0o600, .write "z/b" [2] 0o600,
    .write "a//./b" [3] 0o644] "a/b" = some ⟨[3], 0o644⟩ := by decide +kernel

/-! ## Directories -/

/-- A layer that was built, with all that lies above its directories. -/
structure IsRooted (m : MemoryLayer) : Prop where
  built : m.Built
  distinct : (m.files.map (·.1)).Nodup
  above : ∀ x d, m.hasDir x → IsAbove d x → m.hasDir d

theorem isRooted_empty : empty.IsRooted := by
  refine ⟨.empty, .nil, ?_⟩
  rintro x d hx ⟨us, ss, hss, hus, rfl, rfl⟩
  have hroot : spell ss = "." := List.mem_singleton.mp (List.contains_iff_mem.mp hx)
  rw [(Path.spell_eq_root_iff hss).mp hroot] at hus
  rw [List.prefix_nil.mp hus]
  rfl

theorem IsRooted.write (h : m.IsRooted) (hm : m.write path data mode = .ok m') : m'.IsRooted := by
  refine ⟨h.built.write hm, ?_, ?_⟩
  all_goals obtain ⟨x, -, -, -, rfl⟩ := write_eq_ok.mp hm
  · exact Entries.nodup_put h.distinct x _
  · exact h.above

/-- What lies above a directory on the way to a path is the root, or on that way too. -/
theorem mem_wayTo_of_isAbove {d : String} (hx : IsLayerPath x) (hy : y ∈ wayTo x) (hd : IsAbove d y) :
    d = "." ∨ d ∈ wayTo x := by
  obtain ⟨us, ss, hss, hus, rfl, rfl⟩ := isAbove_of_mem_wayTo hx hy
  obtain ⟨ts, us', hus', hts, rfl, heq⟩ := hd
  rw [← Path.spell_injective (fun u hu => hss u (hus.subset hu)) hus' heq] at hts
  exact mem_wayTo hss (hts.trans hus)

theorem IsRooted.makeDirs (h : m.IsRooted) (hm : m.makeDirs path = .ok m') : m'.IsRooted := by
  have hbuilt := h.built.makeDirs hm
  obtain ⟨x, hx, -, rfl⟩ := makeDirs_eq_ok.mp hm
  obtain ⟨hfiles, hdirs⟩ := foldl_putDir (wayTo x) m
  refine ⟨hbuilt, hfiles ▸ h.distinct, fun y d hy hd => ?_⟩
  rcases (hdirs y).mp hy with hy | hy
  · exact (hdirs d).mpr (.inl (h.above y d hy hd))
  · rcases mem_wayTo_of_isAbove (Path.clean_eq_ok hx) hy hd with rfl | hd
    · exact hbuilt.sound.root
    · exact (hdirs d).mpr (.inr hd)

theorem IsRooted.after (h : m.IsRooted) (c : LayerCall) : (m.after c).IsRooted := by
  cases c with
  | write path data mode =>
    show ((m.write path data mode).toOption.getD m).IsRooted
    cases hm : m.write path data mode with
    | error e => exact h
    | ok m' => exact h.write hm
  | makeDirs path mode =>
    show ((m.makeDirs path).toOption.getD m).IsRooted
    cases hm : m.makeDirs path with
    | error e => exact h
    | ok m' => exact h.makeDirs hm
  | read path | list path | isDir path | mode path => exact h

theorem IsRooted.run (h : m.IsRooted) (calls : List LayerCall) : (m.run calls).IsRooted := by
  induction calls generalizing m with
  | nil => exact h
  | cons c calls ih => exact ih (h.after c)

/-! ## What a layer answers -/

/-- Whether a layer in memory answers as a directory tree whose files are those of a table. -/
structure ReadsBack (m : MemoryLayer) (last : String → Option StoredFile) : Prop where
  read : ∀ p x, Path.clean p = .ok x → m.read p = match last x with
    | some f => .ok f.data
    | none => fail .notFound p
  mode? : ∀ p x, Path.clean p = .ok x → m.mode? p = .ok ((last x).map (·.mode))
  escape : ∀ p e, Path.clean p = .error e → m.read p = .error (.escape e) ∧ m.mode? p = .error (.escape e)
  parent : ∀ x f, last x = some f → m.isDir (Path.parent x) = .ok true
  above : ∀ p x d, Path.clean p = .ok x → m.isDir p = .ok true → IsAbove d x → m.isDir d = .ok true
  list : ∀ p d, Path.clean p = .ok d → m.isDir p = .ok true → ∃ names, m.list p = .ok names ∧
    names.Pairwise (· < ·) ∧ ∀ n, n ∈ names ↔ IsPlain n.toList ∧ ∃ f, last (Path.child d n) = some f
  write : ∀ p data mode, (∃ m', m.write p data mode = .ok m') ↔
    ∃ x, Path.clean p = .ok x ∧ m.isDir x = .ok false ∧ m.isDir (Path.parent x) = .ok true
  makeDirs : ∀ p, (∃ m', m.makeDirs p = .ok m') ↔ ∃ x, Path.clean p = .ok x ∧ last x = none

theorem resolve_of_error {e : Path.Escape} (h : Path.clean path = .error e) : resolve path = .error (.escape e) := by
  unfold resolve
  rw [h]
  rfl

theorem isDir_of_clean (m : MemoryLayer) (h : Path.clean path = .ok x) : m.isDir path = .ok (m.hasDir x) := by
  unfold isDir
  rw [resolve_of_clean h]
  rfl

theorem isLayerPath_parent (hx : IsLayerPath x) : IsLayerPath (Path.parent x) := by
  by_cases hroot : x = "."
  · rw [hroot]
    exact ⟨[], List.forall_mem_nil _, rfl⟩
  · obtain ⟨us, s, hus, -, -, habove, -⟩ := exists_last hx hroot
    exact ⟨us, hus, habove⟩

/-- The files of a directory, by their names. -/
theorem IsRooted.list (h : m.IsRooted) {d : String} (hc : Path.clean path = .ok d) (hdir : m.hasDir d) :
    ∃ names, m.list path = .ok names ∧ names.Pairwise (· < ·) ∧
      ∀ n, n ∈ names ↔ IsPlain n.toList ∧ ∃ f, m.file? (Path.child d n) = some f := by
  obtain ⟨ss, hss, rfl⟩ := Path.clean_eq_ok hc
  obtain ⟨files, hlist, hnodup, hmem⟩ := h.built.sound.exists_listed h.distinct hss hc hdir
  refine ⟨_, hlist, pairwise_lt_mergeSort hnodup, fun n => ?_⟩
  rw [List.mem_mergeSort, hmem]
  constructor
  · rintro ⟨s, hs, rfl, f, hf⟩
    rw [Path.spell_concat hss hs] at hf
    rw [String.toList_ofList]
    exact ⟨hs, f, hf⟩
  · rintro ⟨hn, f, hf⟩
    refine ⟨n.toList, hn, String.ofList_toList.symm, f, ?_⟩
    rwa [Path.spell_concat hss hn, String.ofList_toList]

theorem IsRooted.readsBack (h : m.IsRooted) : m.ReadsBack m.file? where
  read p x hp := by
    unfold read
    rw [resolve_of_clean hp]
    rfl
  mode? p x hp := by
    unfold mode?
    rw [resolve_of_clean hp]
    rfl
  escape p e hp := by
    unfold read mode?
    rw [resolve_of_error hp]
    exact ⟨rfl, rfl⟩
  parent x f hf := by
    obtain ⟨hx, -⟩ := h.built.sound.path x f hf
    rw [isDir_of_clean m (isLayerPath_parent hx).clean, h.built.sound.parent x f hf]
  above p x d hp hdir hd := by
    have hlayer : IsLayerPath d := by
      obtain ⟨us, ss, hss, hus, rfl, -⟩ := hd
      exact ⟨us, fun u hu => hss u (hus.subset hu), rfl⟩
    rw [isDir_of_clean m hp, Except.ok.injEq] at hdir
    rw [isDir_of_clean m hlayer.clean, h.above x d hdir hd]
  list p d hp hdir := by
    rw [isDir_of_clean m hp, Except.ok.injEq] at hdir
    exact h.list hp hdir
  write p data mode := by
    constructor
    · rintro ⟨m', hm'⟩
      obtain ⟨x, hx, hdir, hparent, -⟩ := write_eq_ok.mp hm'
      have hlayer : IsLayerPath x := Path.clean_eq_ok hx
      refine ⟨x, hx, ?_, ?_⟩
      · rw [isDir_of_clean m hlayer.clean, Bool.eq_false_iff.mpr hdir]
      · rw [isDir_of_clean m (isLayerPath_parent hlayer).clean, hparent]
    · rintro ⟨x, hx, hdir, hparent⟩
      have hlayer : IsLayerPath x := Path.clean_eq_ok hx
      rw [isDir_of_clean m hlayer.clean, Except.ok.injEq] at hdir
      rw [isDir_of_clean m (isLayerPath_parent hlayer).clean, Except.ok.injEq] at hparent
      exact ⟨_, write_eq_ok.mpr ⟨x, hx, Bool.eq_false_iff.mp hdir, hparent, rfl⟩⟩
  makeDirs p := by
    constructor
    · rintro ⟨m', hm'⟩
      obtain ⟨x, hx, hnone, -⟩ := makeDirs_eq_ok.mp hm'
      exact ⟨x, hx, hnone⟩
    · rintro ⟨x, hx, hnone⟩
      exact ⟨_, makeDirs_eq_ok.mpr ⟨x, hx, hnone, rfl⟩⟩

/-- Behind any calls on an empty layer in memory the files are those that were last written, and a
call that fails changes nothing. -/
theorem run_readsBack (calls : List LayerCall) :
    (empty.run calls).ReadsBack (lastWritten? calls) ∧
      ∀ c e, (Layer.memory (empty.run calls)).call c = .error e → empty.run (calls ++ [c]) = empty.run calls := by
  constructor
  · rw [← funext (file?_run_empty calls)]
    exact (isRooted_empty.run calls).readsBack
  · intro c e h
    unfold run
    rw [List.foldl_append]
    exact after_of_error h

end MemoryLayer

end GoSplice
