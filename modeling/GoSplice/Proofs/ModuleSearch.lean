import GoSplice.Module
import GoSplice.Proofs.LayerFiles
import Mathlib.Data.List.Induction

/-!
# The nearest module

The search for a module goes from a directory to the one that holds it, up to the root:

    upward (spell (ss ++ [s])) = spell (ss ++ [s]) :: upward (spell ss)          (upward_spell)
    moduleDir l start = ok d ↔ d is the first on the way up from start with a module file,
      and all on the way are directories                                         (moduleDir_nearest)

The way has an end: a layer path of `n` names has the root `n` steps above it, and above the root is the
root.
-/

namespace GoSplice

open GoSplice.Path (IsPlain spell parent)

/-! ## The way up -/

namespace Path

/-- The directory that lies some steps above a path. -/
def above : Nat → String → String
  | 0, x => x
  | n + 1, x => above n (parent x)

theorem above_root (n : Nat) : above n "." = "." := by
  induction n with
  | zero => rfl
  | succ n ih => exact ih

/-- Steps up leave as many names behind. -/
theorem above_take {ss : List (List Char)} (hss : ∀ s ∈ ss, IsPlain s) (n : Nat) :
    above n (spell ss) = spell (ss.take (ss.length - n)) := by
  induction n generalizing ss with
  | zero => rw [Nat.sub_zero, List.take_length, above]
  | succ n ih =>
    rcases List.eq_nil_or_concat ss with rfl | ⟨us, s, rfl⟩
    · rw [List.take_nil]
      exact above_root (n + 1)
    · rw [List.concat_eq_append] at *
      obtain ⟨hus, hs⟩ := List.forall_mem_append.mp hss
      have hlength : (us ++ [s]).length - (n + 1) = us.length - n := by
        rw [List.length_append, List.length_singleton, Nat.add_sub_add_right]
      rw [above, parent_spell hus (hs s List.mem_cons_self), ih hus, hlength,
        List.take_append_of_le_length (Nat.sub_le us.length n)]

/-- As many steps as a path has names lead to the root. -/
theorem above_spell {ss : List (List Char)} (hss : ∀ s ∈ ss, IsPlain s) : above ss.length (spell ss) = "." := by
  rw [above_take hss, Nat.sub_self]
  rfl

end Path

namespace MemoryLayer

theorem chain_append (ss : List (List Char)) (s : List Char) :
    chain (ss ++ [s]) = chain ss ++ [String.ofList (Path.join (ss ++ [s]))] := by
  induction ss with
  | nil => rfl
  | cons t ts ih =>
    rw [List.cons_append, chain, ih, List.map_append, List.map_singleton]
    cases ts with
    | nil => simp [chain, Path.join, String.ofList_append, String.append_assoc]
    | cons u us => simp [chain, Path.join, String.ofList_append, String.append_assoc]

end MemoryLayer

namespace Layer

theorem upward_spell {ss : List (List Char)} {s : List Char} (hss : ∀ s ∈ ss, IsPlain s) (hs : IsPlain s) :
    upward (spell (ss ++ [s])) = spell (ss ++ [s]) :: upward (spell ss) := by
  have hplain := Path.isPlain_concat hss hs
  unfold upward
  rw [MemoryLayer.names_spell hplain, MemoryLayer.names_spell hss, MemoryLayer.chain_append, List.reverse_append,
    List.reverse_singleton, List.singleton_append, List.cons_append, Path.spell_eq_join hplain (by simp)]

/-! ## Layers that answer -/

/-- Whether a layer says of a path whether it is a directory, and lists it if it is. -/
structure Answers (l : Layer) (x : String) : Prop where
  isDir : ∃ b, l.isDir x = .ok b
  list : l.isDir x = .ok true → ∃ names, l.list x = .ok names

/-- Whether a layer says of every path whether it is a directory, and lists every directory. -/
structure IsTotal (l : Layer) : Prop where
  isDir : ∀ x, IsLayerPath x → ∃ b, l.isDir x = .ok b
  list : ∀ x, IsLayerPath x → l.isDir x = .ok true → ∃ names, l.list x = .ok names

theorem IsTotal.answers {l : Layer} (h : l.IsTotal) {x : String} (hx : IsLayerPath x) : l.Answers x :=
  ⟨h.isDir x hx, h.list x hx⟩

theorem isTotal_memory (m : MemoryLayer) : (Layer.memory m).IsTotal := by
  have hdir : ∀ x, IsLayerPath x → m.isDir x = .ok (m.hasDir x) := by
    intro x hx
    unfold MemoryLayer.isDir
    rw [MemoryLayer.resolve_layerPath hx]
    rfl
  refine ⟨fun x hx => ⟨m.hasDir x, hdir x hx⟩, fun x hx h => ?_⟩
  change m.isDir x = _ at h
  rw [hdir x hx, Except.ok.injEq] at h
  show ∃ names, m.list x = .ok names
  unfold MemoryLayer.list
  rw [MemoryLayer.resolve_layerPath hx]
  simp only [bind, Except.bind, h, if_true]
  exact ⟨_, rfl⟩

/-- A disk lists every directory whose path it can be given. -/
theorem isTotal_disk {d : DiskLayer} (h : ∀ x, (Layer.disk d).isDir x = .ok true → '\x00' ∉ x.toList) :
    (Layer.disk d).IsTotal := by
  have hdir : ∀ x, IsLayerPath x → d.isDir x = .ok (d.tree.isDirAt (d.target x)) := by
    intro x hx
    unfold DiskLayer.isDir
    rw [hx.clean]
    rfl
  refine ⟨fun x hx => ⟨_, hdir x hx⟩, fun x hx hd => ?_⟩
  have hnul : x.toList.contains '\x00' = false := by simpa using h x hd
  change d.isDir x = _ at hd
  rw [hdir x hx, Except.ok.injEq, DiskTree.isDirAt] at hd
  show ∃ names, d.list x = .ok names
  unfold DiskLayer.list DiskLayer.onTree
  rw [hx.clean]
  simp only [Except.mapError, bind, Except.bind, hnul, Bool.false_eq_true, if_false, DiskTree.list]
  split at hd
  · next n hn =>
    cases n with
    | file f => cases hd
    | dir mode entries => exact ⟨_, by rw [hn]⟩
  · cases hd

/-! ## The search -/

/-- Whether a directory holds a module file. -/
def HoldsModule (l : Layer) (d : String) : Prop := ∃ names, l.list d = .ok names ∧ ModuleFile.fileName ∈ names

/-- Whether the search leaves some directories behind: all that lie less than `n` steps above a path are
directories without a module file. -/
def Passes (l : Layer) (x : String) (n : Nat) : Prop :=
  ∀ m < n, l.isDir (Path.above m x) = .ok true ∧ ¬ l.HoldsModule (Path.above m x)

theorem passes_succ {l : Layer} {x : String} {n : Nat} :
    l.Passes x (n + 1) ↔ (l.isDir x = .ok true ∧ ¬ l.HoldsModule x) ∧ l.Passes (parent x) n := by
  constructor
  · intro h
    exact ⟨h 0 (Nat.zero_lt_succ n), fun m hm => h (m + 1) (Nat.succ_lt_succ hm)⟩
  · rintro ⟨hx, h⟩ m hm
    cases m with
    | zero => exact hx
    | succ m => exact h m (Nat.lt_of_succ_lt_succ hm)

/-- How the search ends: at a module, at a path that is no directory, or above the root. -/
inductive Ends (l : Layer) (start x : String) : Except PatchError String → Prop
  | found (n : Nat) : l.Passes x n → l.isDir (Path.above n x) = .ok true → l.HoldsModule (Path.above n x) →
      Ends l start x (.ok (Path.above n x))
  | unopened (n : Nat) : l.Passes x n → l.isDir (Path.above n x) = .ok false →
      Ends l start x (.error (.unopenedDirectory (Path.above n x)))
  | nowhere : (∀ n, l.Passes x n) → Ends l start x (.error (.noModuleFile start))

variable {l : Layer} {start x : String}

/-- A search that leaves a path behind ends as the search from the directory that holds it. -/
theorem Ends.step {r : Except PatchError String} (hdir : l.isDir x = .ok true) (hx : ¬ l.HoldsModule x)
    (h : l.Ends start (parent x) r) : l.Ends start x r := by
  cases h with
  | found n hn hd hm => exact .found (n + 1) (passes_succ.mpr ⟨⟨hdir, hx⟩, hn⟩) hd hm
  | unopened n hn hd => exact .unopened (n + 1) (passes_succ.mpr ⟨⟨hdir, hx⟩, hn⟩) hd
  | nowhere hn =>
    refine .nowhere fun n => ?_
    cases n with
    | zero => exact fun m hm => absurd hm (Nat.not_lt_zero m)
    | succ n => exact passes_succ.mpr ⟨⟨hdir, hx⟩, hn n⟩

/-- One step of the search. -/
theorem nearestModule_cons (hx : l.Answers x) {xs : List String}
    (h : l.isDir x = .ok true → ¬ l.HoldsModule x → l.Ends start x (l.nearestModule start xs)) :
    l.Ends start x (l.nearestModule start (x :: xs)) := by
  have hnone : l.Passes x 0 := fun m hm => absurd hm (Nat.not_lt_zero m)
  obtain ⟨b, hb⟩ := hx.isDir
  rw [nearestModule, hb]
  simp only [bind, Except.bind]
  cases b with
  | false => exact .unopened 0 hnone hb
  | true =>
    obtain ⟨names, hnames⟩ := hx.list hb
    simp only [hnames, Bool.not_true, Bool.false_eq_true, if_false]
    split
    · next hmem => exact .found 0 hnone hb ⟨names, hnames, List.contains_iff_mem.mp hmem⟩
    · next hmem =>
      refine h hb ?_
      rintro ⟨names', hnames', hmem'⟩
      rw [hnames, Except.ok.injEq] at hnames'
      exact hmem (List.contains_iff_mem.mpr (hnames' ▸ hmem'))

/-- Where the search from a layer path ends.  The induction is on the names of the path, last first, as the
search leaves them. -/
theorem ends_upward {ss : List (List Char)} (hss : ∀ s ∈ ss, IsPlain s) (hl : ∀ us, us <+: ss → l.Answers (spell us)) :
    l.Ends start (spell ss) (l.nearestModule start (upward (spell ss))) := by
  have hhere := hl ss (List.prefix_refl ss)
  induction ss using List.reverseRecOn with
  | nil =>
    show l.Ends start "." (l.nearestModule start ["."])
    refine nearestModule_cons hhere fun hdir hmodule => .nowhere fun n m _ => ?_
    rw [show spell [] = "." from rfl, Path.above_root]
    exact ⟨hdir, hmodule⟩
  | append_singleton ss s ih =>
    obtain ⟨hss, hs⟩ := List.forall_mem_append.mp hss
    have hs := hs s List.mem_cons_self
    have hprefix := List.prefix_append ss [s]
    rw [upward_spell hss hs]
    refine nearestModule_cons hhere fun hdir hmodule => .step hdir hmodule ?_
    rw [Path.parent_spell hss hs]
    exact ih hss (fun us hus => hl us (hus.trans hprefix)) (hl ss hprefix)

theorem ends_moduleDir_spell {ss : List (List Char)} (hss : ∀ s ∈ ss, IsPlain s)
    (hl : ∀ us, us <+: ss → l.Answers (spell us)) (hx : Path.clean start = .ok (spell ss)) :
    l.Ends start (spell ss) (l.moduleDir start) := by
  have hsearch : l.moduleDir start = l.nearestModule start (upward (spell ss)) := by
    simp only [moduleDir, hx, Except.mapError, bind, Except.bind]
  rw [hsearch]
  exact ends_upward hss hl

theorem ends_moduleDir (hl : l.IsTotal) (hx : Path.clean start = .ok x) : l.Ends start x (l.moduleDir start) := by
  obtain ⟨ss, hss, rfl⟩ := Path.clean_eq_ok hx
  exact ends_moduleDir_spell hss (fun us hus => hl.answers ⟨us, fun s hs => hss s (hus.subset hs), rfl⟩) hx

/-- Where one search ends at a directory, every search does. -/
theorem Ends.eq_above {r : Except PatchError String} (h : l.Ends start x r) {n : Nat} (hn : l.Passes x n)
    (hdir : l.isDir (Path.above n x) = .ok true) (hmodule : l.HoldsModule (Path.above n x)) :
    r = .ok (Path.above n x) := by
  cases h with
  | found k hk hd hm =>
    rcases Nat.lt_trichotomy k n with hlt | rfl | hlt
    · exact absurd hm (hn k hlt).2
    · rfl
    · exact absurd hmodule (hk n hlt).2
  | unopened k hk hd =>
    rcases Nat.lt_trichotomy k n with hlt | rfl | hlt
    · rw [(hn k hlt).1] at hd
      cases hd
    · rw [hdir] at hd
      cases hd
    · exact absurd hmodule (hk n hlt).2
  | nowhere hk => exact absurd hmodule (hk (n + 1) n (Nat.lt_succ_self n)).2

/-- The module of a directory is the nearest one: the first directory on the way up that holds a module
file, if all on the way to it are directories.  In every other case the search fails, and the way has an end. -/
theorem moduleDir_nearest (hl : l.IsTotal) (hx : Path.clean start = .ok x) :
    (∀ d, l.moduleDir start = .ok d ↔ ∃ n, d = Path.above n x ∧ l.HoldsModule d ∧
      (∀ m ≤ n, l.isDir (Path.above m x) = .ok true) ∧ ∀ m < n, ¬ l.HoldsModule (Path.above m x)) ∧
    (∀ e, l.moduleDir start = .error e → e = .noModuleFile start ∨ ∃ n, e = .unopenedDirectory (Path.above n x)) ∧
    ∃ n, Path.above n x = "." := by
  have hends := ends_moduleDir hl hx
  refine ⟨fun d => ⟨fun h => ?_, ?_⟩, fun e h => ?_, ?_⟩
  · rw [h] at hends
    cases hends with
    | found n hn hdir hmodule =>
      refine ⟨n, rfl, hmodule, fun m hm => ?_, fun m hm => (hn m hm).2⟩
      rcases Nat.lt_or_eq_of_le hm with hlt | rfl
      · exact (hn m hlt).1
      · exact hdir
  · rintro ⟨n, rfl, hmodule, hdirs, hbelow⟩
    exact hends.eq_above (fun m hm => ⟨hdirs m (Nat.le_of_lt hm), hbelow m hm⟩) (hdirs n (Nat.le_refl n)) hmodule
  · rw [h] at hends
    cases hends with
    | unopened n _ _ => exact .inr ⟨n, rfl⟩
    | nowhere _ => exact .inl rfl
  · obtain ⟨ss, hss, rfl⟩ := Path.clean_eq_ok hx
    exact ⟨ss.length, Path.above_spell hss⟩

/-- A module within the directory of another, and a directory below both. -/
def nestedModules : MemoryLayer :=
  ⟨[("go.mod", ⟨[], 0o644⟩), ("a/go.mod", ⟨[], 0o644⟩)], [".", "a", "a/b"]⟩

theorem nestedModules_list : (Layer.memory nestedModules).list "a" = .ok ["go.mod"] ∧
    (Layer.memory nestedModules).list "a/b" = .ok [] := by
  constructor
  · show Except.ok (["go.mod"].mergeSort fun a b => a ≤ b) = _
    rw [List.mergeSort_singleton]
  · show Except.ok (([] : List String).mergeSort fun a b => a ≤ b) = _
    rw [List.mergeSort_nil]

/-- The inner module is the one that is found. -/
theorem nestedModules_nearest : (Layer.memory nestedModules).IsTotal ∧ Path.clean "a//b/." = .ok "a/b" ∧
    (Layer.memory nestedModules).moduleDir "a//b/." = .ok "a" ∧ ∃ n, Path.above n "a/b" = "." := by
  have hclean : Path.clean "a//b/." = .ok "a/b" := rfl
  obtain ⟨hlist, hlist'⟩ := nestedModules_list
  obtain ⟨hfound, -, hroot⟩ := moduleDir_nearest (isTotal_memory nestedModules) hclean
  refine ⟨isTotal_memory _, hclean, (hfound "a").mpr ⟨1, rfl, ⟨_, hlist, List.mem_singleton_self _⟩, ?_, ?_⟩, hroot⟩
  · intro m hm
    match m, hm with
    | 0, _ | 1, _ => rfl
  · intro m hm
    obtain rfl : m = 0 := by omega
    rintro ⟨names, hnames, hmem⟩
    change (Layer.memory nestedModules).list "a/b" = _ at hnames
    rw [hlist', Except.ok.injEq] at hnames
    rw [← hnames] at hmem
    cases hmem

end Layer

end GoSplice
