import GoSplice.Proofs.Preservation

/-!
# Existing files

A file of a package that exists, in whichever layer and on disk or in memory, is not lost under
what is added to it.  Its bytes stay in order, but for the declaration that is replaced:

    l.write x data mode = ok l' → l'.read x = ok data                       (Layer.read_write)
    p has the file name → load p = (ok (), l) → p reads bytes under name,
      and l.contentsOrNew name is them                                      (Loaded.contents_of_hasFile)
    p has the file name → applyTransform t p = (ok (), r) →
      r reads the bytes that p read, and more                               (applyTransform_keepsBytes)
-/

namespace GoSplice

/-! ## Trees on disk -/

namespace DiskTree

/-- What a path of one name more leads to is an entry of a directory. -/
theorem find_concat {n m : DiskTree} {path : List String} {s : String} (h : n.find (path ++ [s]) = .ok m) :
    ∃ mode entries, n.find path = .ok (.dir mode entries) ∧ entries.lookup s = some m := by
  induction path generalizing n with
  | nil =>
    cases n with
    | file f => cases h
    | dir mode entries =>
      rw [List.nil_append, find] at h
      split at h
      · next k hk =>
        cases h
        exact ⟨mode, entries, rfl, hk⟩
      · cases h
  | cons t path ih =>
    cases n with
    | file f => cases h
    | dir mode entries =>
      rw [List.cons_append, find] at h
      split at h
      · next k hk =>
        obtain ⟨mode', entries', hfind, hlookup⟩ := ih h
        refine ⟨mode', entries', ?_, hlookup⟩
        rw [find, hk]
        exact hfind
      · cases h

/-- A changed path leads to what was put there, in the place of what was there before. -/
theorem find_change {f : Option DiskTree → Except LayerProblem DiskTree} {n n' : DiskTree} {path : List String}
    (h : change f n path = .ok n') : ∃ new, f (n.find path).toOption = .ok new ∧ n'.find path = .ok new := by
  induction path generalizing n n' with
  | nil => exact ⟨n', h, rfl⟩
  | cons s path ih =>
    cases n with
    | file g => cases h
    | dir mode entries =>
      have hput : ∀ k : DiskTree, (DiskTree.dir mode (Entries.put s k entries)).find (s :: path) = k.find path := by
        intro k
        rw [find, Entries.lookup_put, if_pos rfl]
      unfold change at h
      rw [find]
      cases hlookup : entries.lookup s with
      | some k =>
        rw [hlookup] at h
        obtain ⟨k', hk, rfl⟩ := exists_of_map_ok h
        obtain ⟨new, hnew, hfind⟩ := ih hk
        exact ⟨new, hnew, (hput k').trans hfind⟩
      | none =>
        rw [hlookup] at h
        cases path with
        | cons t path => cases h
        | nil =>
          obtain ⟨k', hnew, rfl⟩ := exists_of_map_ok h
          exact ⟨k', hnew, hput k'⟩

theorem read_eq_ok {n : DiskTree} {path : List String} {data : Bytes} (h : n.read path = .ok data) :
    ∃ f, n.find path = .ok (.file f) ∧ f.data = data := by
  unfold read at h
  split at h
  · next f hf =>
    cases h
    exact ⟨f, hf, rfl⟩
  · cases h
  · cases h

theorem read_write {n n' : DiskTree} {path : List String} {data : Bytes} {mode : Nat}
    (h : n.write path data mode = .ok n') : n'.read path = .ok data := by
  obtain ⟨new, hnew, hfind⟩ := find_change h
  unfold read
  rw [hfind]
  split at hnew
  · cases hnew
    rfl
  · cases hnew
  · cases hnew
    rfl

/-- A change of one entry of a directory leaves the others. -/
theorem find_change_ne {f : Option DiskTree → Except LayerProblem DiskTree} {n n' : DiskTree} {path : List String}
    {s x : String} (hne : x ≠ s) (h : change f n (path ++ [s]) = .ok n') :
    n'.find (path ++ [x]) = n.find (path ++ [x]) := by
  have hput : ∀ (mode : Nat) (entries : List (String × DiskTree)) (k : DiskTree),
      (DiskTree.dir mode (Entries.put s k entries)).find [x] = (DiskTree.dir mode entries).find [x] := by
    intro mode entries k
    rw [find, find, Entries.lookup_put, if_neg hne]
  induction path generalizing n n' with
  | nil =>
    cases n with
    | file g => cases h
    | dir mode entries =>
      rw [List.nil_append] at h ⊢
      unfold change at h
      cases hlookup : entries.lookup s with
      | some k =>
        rw [hlookup] at h
        obtain ⟨k', -, rfl⟩ := exists_of_map_ok h
        exact hput mode entries k'
      | none =>
        rw [hlookup] at h
        obtain ⟨k', -, rfl⟩ := exists_of_map_ok h
        exact hput mode entries k'
  | cons u path ih =>
    cases n with
    | file g => cases h
    | dir mode entries =>
      rw [List.cons_append] at h ⊢
      unfold change at h
      cases hlookup : entries.lookup u with
      | some k =>
        rw [hlookup] at h
        obtain ⟨k', hk, rfl⟩ := exists_of_map_ok h
        rw [find, find, Entries.lookup_put, if_pos rfl, hlookup]
        exact ih hk
      | none =>
        rw [hlookup] at h
        cases path with
        | nil => cases h
        | cons v path => cases h

/-- A change that what a path leads to refuses is refused. -/
theorem change_of_find {f : Option DiskTree → Except LayerProblem DiskTree} {n k : DiskTree} {path : List String}
    {e : LayerProblem} (h : n.find path = .ok k) (hf : f (some k) = .error e) : change f n path = .error e := by
  induction path generalizing n with
  | nil =>
    cases h
    exact hf
  | cons s path ih =>
    cases n with
    | file g => cases h
    | dir mode entries =>
      rw [find] at h
      split at h
      · next m hm =>
        unfold change
        rw [hm]
        show (change f m path).map _ = _
        rw [ih h]
        rfl
      · cases h

/-- A path through what is no directory cannot be changed. -/
theorem change_of_notDirectory {f : Option DiskTree → Except LayerProblem DiskTree} {n : DiskTree} {path : List String}
    (h : n.find path = .error .notDirectory) : change f n path = .error .notDirectory := by
  induction path generalizing n with
  | nil => cases h
  | cons s path ih =>
    cases n with
    | file g => rfl
    | dir mode entries =>
      rw [find] at h
      split at h
      · next m hm =>
        unfold change
        rw [hm]
        show (change f m path).map _ = _
        rw [ih h]
        rfl
      · cases h

/-- What a path leads nowhere for. -/
theorem find_eq_error {n : DiskTree} {path : List String} {e : LayerProblem} (h : n.find path = .error e) :
    e = .notFound ∨ e = .notDirectory := by
  induction path generalizing n with
  | nil => cases h
  | cons s path ih =>
    cases n with
    | file g =>
      cases h
      exact .inr rfl
    | dir mode entries =>
      rw [find] at h
      split at h
      · exact ih h
      · cases h
        exact .inl rfl

/-- A path is followed name by name. -/
theorem find_append (n : DiskTree) (path more : List String) :
    n.find (path ++ more) = (n.find path).bind (·.find more) := by
  induction path generalizing n with
  | nil => rfl
  | cons s path ih =>
    cases n with
    | file g => rfl
    | dir mode entries =>
      rw [List.cons_append, find, find]
      cases entries.lookup s with
      | none => rfl
      | some m => exact ih m

/-- A directory is made where a path leads nowhere, and is empty. -/
theorem find_makeDir {n n' : DiskTree} {path : List String} {mode : Nat} (h : n.makeDir path mode = .ok n') :
    ∃ m, n'.find path = .ok (.dir m []) := by
  obtain ⟨new, hnew, hfind⟩ := find_change h
  generalize (n.find path).toOption = old at hnew
  cases old with
  | some k => cases hnew
  | none =>
    cases hnew
    exact ⟨_, hfind⟩

/-- Where making a directory finds nothing, or makes it, the path led nowhere. -/
theorem find_of_makeDir {n : DiskTree} {path : List String} {mode : Nat}
    (h : n.makeDir path mode = .error .notFound ∨ ∃ n', n.makeDir path mode = .ok n') :
    n.find path = .error .notFound := by
  cases hfind : n.find path with
  | ok k =>
    have hmake : n.makeDir path mode = .error .alreadyExists := change_of_find hfind rfl
    rw [hmake] at h
    rcases h with h | ⟨_, h⟩ <;> cases h
  | error e =>
    rcases find_eq_error hfind with rfl | rfl
    · rfl
    · have hmake : n.makeDir path mode = .error .notDirectory := change_of_notDirectory hfind
      rw [hmake] at h
      rcases h with h | ⟨_, h⟩ <;> cases h

/-- Directories are left as they are, or made where the path led nowhere. -/
theorem makeDirs_cases {n n' : DiskTree} {path : List String} {mode : Nat} (h : n.makeDirs path mode = .ok n') :
    n' = n ∨ n.find path = .error .notFound ∧ ∃ m, n'.find path = .ok (.dir m []) := by
  unfold makeDirs at h
  rcases List.eq_nil_or_concat path with rfl | ⟨above, s, rfl⟩
  · cases h
    exact .inl rfl
  · rw [List.concat_eq_append] at h ⊢
    rw [if_neg (by simp), List.reverse_append, List.reverse_singleton, List.singleton_append] at h
    unfold makeDirsUp at h
    rw [List.reverse_cons, List.reverse_reverse] at h
    dsimp only at h
    split at h
    · next n'' hmake =>
      cases h
      exact .inr ⟨find_of_makeDir (.inr ⟨_, hmake⟩), find_makeDir hmake⟩
    · next hmake =>
      cases hup : n.makeDirsUp parentMode above.reverse with
      | error e =>
        rw [hup] at h
        cases h
      | ok n'' =>
        rw [hup] at h
        exact .inr ⟨find_of_makeDir (.inl hmake), find_makeDir h⟩
    · split at h
      · cases h
        exact .inl rfl
      · cases h

/-- Directories that are made are there. -/
theorem isDirAt_of_makeDirs {n n' : DiskTree} {path : List String} {mode : Nat} (h : n.makeDirs path mode = .ok n') (hne : path ≠ []) : n'.isDirAt path := by
  have hmade : ∀ {k k' : DiskTree} {m : Nat}, k.makeDir path m = .ok k' → k'.isDirAt path := by
    intro k k' m hmake
    obtain ⟨m', hfind⟩ := find_makeDir hmake
    unfold isDirAt
    rw [hfind]
    rfl
  obtain ⟨s, above, heq⟩ := List.exists_cons_of_ne_nil (fun hnil => hne (List.reverse_eq_nil_iff.mp hnil))
  unfold makeDirs at h
  rw [if_neg (by simpa using hne), heq] at h
  unfold makeDirsUp at h
  rw [← heq, List.reverse_reverse] at h
  dsimp only at h
  split at h
  · next hmake =>
    cases h
    exact hmade hmake
  · cases hup : n.makeDirsUp parentMode above with
    | error e =>
      rw [hup] at h
      cases h
    | ok k =>
      rw [hup] at h
      exact hmade h
  · split at h
    · next hdir =>
      cases h
      exact hdir
    · cases h

/-- What is above a directory is one. -/
theorem isDirAt_above {n : DiskTree} {path more : List String} (h : n.isDirAt (path ++ more)) : n.isDirAt path := by
  unfold isDirAt at h ⊢
  rw [find_append] at h
  cases hfind : n.find path with
  | error e =>
    rw [hfind] at h
    exact h
  | ok k =>
    rw [hfind] at h
    cases k with
    | dir => rfl
    | file f => cases more <;> exact h

/-- No bytes are written in the place of a directory. -/
theorem write_of_isDirAt {n : DiskTree} {path : List String} {mode : Nat} {data : Bytes} (h : n.isDirAt path) : n.write path data mode = .error .isDirectory := by
  unfold isDirAt at h
  cases hfind : n.find path with
  | error e =>
    rw [hfind] at h
    cases h
  | ok k =>
    rw [hfind] at h
    cases k with
    | file f => cases h
    | dir => exact change_of_find hfind rfl

/-- Making a directory leaves what its entries lead to. -/
theorem find_makeDirs {n n' : DiskTree} {path : List String} {s : String} {mode : Nat}
    (h : n.makeDirs path mode = .ok n') : n'.find (path ++ [s]) = n.find (path ++ [s]) := by
  rcases makeDirs_cases h with rfl | ⟨hnone, m, hmade⟩
  · rfl
  · rw [find_append, find_append, hnone, hmade]
    rfl

theorem read_makeDirs {n n' : DiskTree} {path : List String} {s : String} {mode : Nat}
    (h : n.makeDirs path mode = .ok n') : n'.read (path ++ [s]) = n.read (path ++ [s]) := by
  unfold read
  rw [find_makeDirs h]

/-- A file that is read is listed in its directory. -/
theorem mem_list {n : DiskTree} {path : List String} {s : String} {data : Bytes}
    (h : n.read (path ++ [s]) = .ok data) : ∃ names, n.list path = .ok names ∧ s ∈ names := by
  obtain ⟨f, hf, -⟩ := read_eq_ok h
  obtain ⟨mode, entries, hfind, hlookup⟩ := find_concat hf
  refine ⟨_, by unfold list; rw [hfind], ?_⟩
  rw [List.mem_mergeSort, List.mem_map]
  exact ⟨(s, .file f), List.mem_filter.mpr ⟨Entries.mem_of_lookup hlookup, rfl⟩, rfl⟩

end DiskTree

namespace DiskLayer

variable {α : Type} {l : DiskLayer}

/-- An operation is one on the tree, unless its path has a NUL in it. -/
theorem onTree_spell {ss : List (List Char)} (hss : ∀ s ∈ ss, Path.IsPlain s)
    (run : DiskTree → List String → Except LayerProblem α) :
    l.onTree (Path.spell ss) run =
      if (Path.spell ss).toList.contains '\x00' then .error .nulInPath
      else (run l.tree (l.root ++ ss.map String.ofList)).mapError
        fun p => .layer (.disk p (absolute (l.root ++ ss.map String.ofList))) := by
  unfold onTree
  rw [Path.clean_spell hss]
  show (if (Path.spell ss).toList.contains '\x00' then _ else (run l.tree (l.target (Path.spell ss))).mapError _) = _
  rw [target, MemoryLayer.names_spell hss]

theorem onTree_eq_ok {ss : List (List Char)} (hss : ∀ s ∈ ss, Path.IsPlain s)
    {run : DiskTree → List String → Except LayerProblem α} {a : α} :
    l.onTree (Path.spell ss) run = .ok a ↔ (Path.spell ss).toList.contains '\x00' = false ∧
      run l.tree (l.root ++ ss.map String.ofList) = .ok a := by
  rw [onTree_spell hss]
  cases (Path.spell ss).toList.contains '\x00' with
  | true => exact ⟨fun h => (by cases h), fun h => (by cases h.1)⟩
  | false =>
    cases run l.tree (l.root ++ ss.map String.ofList) with
    | ok b => exact ⟨fun h => ⟨rfl, congrArg Except.ok (Except.ok.inj h)⟩, fun h => congrArg Except.ok (Except.ok.inj h.2)⟩
    | error e => exact ⟨fun h => (by cases h), fun h => (by cases h.2)⟩

end DiskLayer

/-! ## Layers -/

namespace Layer

/-- A layer on disk, or one in memory that was built by writing to it. -/
def IsTree : Layer → Prop
  | .memory l | .readOnly l => l.Built
  | .disk _ => True

theorem IsBuilt.isTree {l : Layer} (h : l.IsBuilt) : l.IsTree := by
  cases l with
  | memory l | readOnly l => exact h
  | disk l => trivial

variable {l l' : Layer}

theorem IsTree.makeDirs (hl : l.IsTree) {x : String} {mode : Nat} (h : l.makeDirs x mode = .ok l') : l'.IsTree := by
  cases l with
  | memory m =>
    obtain ⟨m', hm', rfl⟩ := memory_makeDirs h
    exact .makeDirs hl hm'
  | disk d =>
    obtain ⟨d', -, rfl⟩ := exists_of_map_ok h
    trivial
  | readOnly m => cases h

theorem IsTree.write (hl : l.IsTree) {x : String} {data : Bytes} {mode : Nat}
    (h : l.write x data mode = .ok l') : l'.IsTree := by
  cases l with
  | memory m =>
    obtain ⟨m', hm', rfl⟩ := memory_write h
    exact .write hl hm'
  | disk d =>
    obtain ⟨d', -, rfl⟩ := exists_of_map_ok h
    trivial
  | readOnly m => cases h

/-- What was written is read. -/
theorem read_write {x : String} {data : Bytes} {mode : Nat} (hx : IsLayerPath x)
    (h : l.write x data mode = .ok l') : l'.read x = .ok data := by
  cases l with
  | memory m =>
    obtain ⟨m', hm', rfl⟩ := memory_write h
    show m'.read x = .ok data
    rw [memory_read hx, MemoryLayer.file?_write hm' hx.clean, if_pos rfl]
    rfl
  | disk d =>
    obtain ⟨ss, hss, rfl⟩ := hx
    change Layer.disk <$> (d.onTree (Path.spell ss) (DiskTree.write · · data mode) >>= fun tree =>
      pure { d with tree }) = .ok l' at h
    cases hd : d.onTree (Path.spell ss) (DiskTree.write · · data mode) with
    | error e =>
      rw [hd] at h
      cases h
    | ok tree =>
      rw [hd] at h
      cases h
      obtain ⟨hnul, htree⟩ := (DiskLayer.onTree_eq_ok hss).mp hd
      exact (DiskLayer.onTree_eq_ok hss).mpr ⟨hnul, DiskTree.read_write htree⟩
  | readOnly m => cases h

section Entry

variable {ss : List (List Char)} {name : List Char}

/-- Making a directory leaves what is read in it. -/
theorem read_makeDirs (hss : ∀ s ∈ ss, Path.IsPlain s) (hname : Path.IsPlain name) {mode : Nat}
    (h : l.makeDirs (Path.spell ss) mode = .ok l') :
    l'.read (Path.spell (ss ++ [name])) = l.read (Path.spell (ss ++ [name])) := by
  have hall := Path.isPlain_concat hss hname
  cases l with
  | memory m =>
    obtain ⟨m', hm', rfl⟩ := memory_makeDirs h
    obtain ⟨x, -, -, rfl⟩ := MemoryLayer.makeDirs_eq_ok.mp hm'
    have hfiles := (MemoryLayer.foldl_putDir (MemoryLayer.wayTo x) m).1
    show MemoryLayer.read _ _ = m.read _
    rw [memory_read ⟨_, hall, rfl⟩, memory_read ⟨_, hall, rfl⟩, MemoryLayer.file?, hfiles]
    rfl
  | disk d =>
    change Layer.disk <$> (d.onTree (Path.spell ss) (DiskTree.makeDirs · · mode) >>= fun tree =>
      pure { d with tree }) = .ok l' at h
    cases hd : d.onTree (Path.spell ss) (DiskTree.makeDirs · · mode) with
    | error e =>
      rw [hd] at h
      cases h
    | ok tree =>
      rw [hd] at h
      cases h
      obtain ⟨-, hmade⟩ := (DiskLayer.onTree_eq_ok hss).mp hd
      show DiskLayer.onTree _ _ DiskTree.read = d.onTree _ DiskTree.read
      rw [DiskLayer.onTree_spell hall, DiskLayer.onTree_spell hall, List.map_append, List.map_singleton,
        ← List.append_assoc, DiskTree.read_makeDirs hmade]
  | readOnly m => cases h

/-- A write of another file of a directory leaves what is read. -/
theorem read_write_ne (hss : ∀ s ∈ ss, Path.IsPlain s) (hname : Path.IsPlain name) {other : List Char}
    (hother : Path.IsPlain other) (hne : name ≠ other) {data : Bytes} {mode : Nat}
    (h : l.write (Path.spell (ss ++ [other])) data mode = .ok l') :
    l'.read (Path.spell (ss ++ [name])) = l.read (Path.spell (ss ++ [name])) := by
  have hall := Path.isPlain_concat hss hname
  have hwritten := Path.isPlain_concat hss hother
  cases l with
  | memory m =>
    obtain ⟨m', hm', rfl⟩ := memory_write h
    have hpath : Path.spell (ss ++ [name]) ≠ Path.spell (ss ++ [other]) := by
      intro heq
      have := Path.spell_injective hall hwritten heq
      simp at this
      exact hne this
    show m'.read _ = m.read _
    rw [memory_read ⟨_, hall, rfl⟩, memory_read ⟨_, hall, rfl⟩,
      MemoryLayer.file?_write hm' (Path.clean_spell hwritten), if_neg hpath]
  | disk d =>
    change Layer.disk <$> (d.onTree (Path.spell (ss ++ [other])) (DiskTree.write · · data mode) >>= fun tree =>
      pure { d with tree }) = .ok l' at h
    cases hd : d.onTree (Path.spell (ss ++ [other])) (DiskTree.write · · data mode) with
    | error e =>
      rw [hd] at h
      cases h
    | ok tree =>
      rw [hd] at h
      cases h
      obtain ⟨-, htree⟩ := (DiskLayer.onTree_eq_ok hwritten).mp hd
      rw [List.map_append, ← List.append_assoc] at htree
      have hnames : String.ofList name ≠ String.ofList other := fun heq => hne (String.ofList_injective heq)
      have hfind := DiskTree.find_change_ne hnames htree
      have hread : tree.read (d.root ++ (ss ++ [name]).map String.ofList) =
          d.tree.read (d.root ++ (ss ++ [name]).map String.ofList) := by
        unfold DiskTree.read
        rw [List.map_append, List.map_cons, List.map_nil, ← List.append_assoc, hfind]
      show DiskLayer.onTree _ _ DiskTree.read = d.onTree _ DiskTree.read
      rw [DiskLayer.onTree_spell hall, DiskLayer.onTree_spell hall, hread]
  | readOnly m => cases h

end Entry

/-- A file that is read is among those that are listed. -/
theorem mem_list (hl : l.IsTree) {ss : List (List Char)} {name : List Char} (hss : ∀ s ∈ ss, Path.IsPlain s)
    (hname : Path.IsPlain name) {data : Bytes} (hread : l.read (Path.spell (ss ++ [name])) = .ok data)
    {found : Option (List String)} (hfound : ifFound (l.list (Path.spell ss)) = .ok found) :
    String.ofList name ∈ found.getD [] := by
  have hall := Path.isPlain_concat hss hname
  have hmemory : ∀ l : Layer, l.IsBuilt → l.read (Path.spell (ss ++ [name])) = .ok data →
      ifFound (l.list (Path.spell ss)) = .ok found → String.ofList name ∈ found.getD [] := by
    intro l hl hread hfound
    cases hf : l.file? (Path.spell (ss ++ [name])) with
    | none =>
      rw [read_of_none hl ⟨_, hall, rfl⟩ hf] at hread
      cases hread
    | some f =>
      exact (Package.mem_found hl ⟨ss, hss, rfl⟩ hfound _).mpr
        ⟨_, f, hf, Path.parent_spell hss hname, Path.baseName_spell hss hname⟩
  cases l with
  | memory m => exact hmemory (.memory m) hl hread hfound
  | readOnly m => exact hmemory (.readOnly m) hl hread hfound
  | disk d =>
    obtain ⟨-, htree⟩ := (DiskLayer.onTree_eq_ok hall).mp hread
    rw [List.map_append, ← List.append_assoc] at htree
    obtain ⟨names, hnames, hmem⟩ := DiskTree.mem_list htree
    change ifFound (d.onTree (Path.spell ss) DiskTree.list) = .ok found at hfound
    rw [DiskLayer.onTree_spell hss, hnames] at hfound
    split at hfound
    · cases hfound
    · cases hfound
      exact hmem

end Layer

/-- Text that is put into bytes leaves them in order. -/
theorem IsInsertion.sublist {before after text : Bytes} {k : Nat} (h : IsInsertion before k text after) :
    before.Sublist after := by
  obtain ⟨-, pre, post, -, -, rfl⟩ := h
  have hparts : (before.take k ++ before.drop k).Sublist (before.take k ++ (pre ++ text ++ post) ++ before.drop k) :=
    (List.sublist_append_left _ _).append (List.Sublist.refl _)
  rwa [List.take_append_drop] at hparts

/-! ## Packages -/

namespace Package

variable {p q r : Package} {name : String}

/-- A package over layers on disk or in memory, as `create` makes it and operations leave it. -/
structure OverTrees (p : Package) : Prop where
  input : p.layers.input.IsTree
  output : p.layers.output.IsTree
  directory : IsLayerPath p.directory

theorem InMemory.overTrees (hp : p.InMemory) : p.OverTrees :=
  ⟨hp.input.isTree, hp.output_isBuilt.isTree, hp.directory⟩

theorem overTrees_of_create {layers : Layers} {modulePath directory : String} {settings : Settings}
    {formatter : Formatter} (hin : layers.input.IsTree) (hout : layers.output.IsTree)
    (h : create layers modulePath directory settings formatter = .ok p) : p.OverTrees := by
  obtain ⟨-, d, hd, rfl⟩ := create_eq_ok h
  exact ⟨hin, hout, Path.clean_eq_ok hd⟩

theorem OverTrees.write (hp : p.OverTrees) {data : Bytes} (h : write name data p = (.ok (), q)) : q.OverTrees := by
  obtain ⟨-, x, o, mode, o', -, hmade, -, hwritten, rfl⟩ := write_eq_ok h
  change (p.layers.withOutput o).output.write x data mode = .ok o' at hwritten
  rw [Layers.output_withOutput] at hwritten
  have hout : o'.IsTree := (hp.output.makeDirs hmade).write hwritten
  refine ⟨?_, ?_, hp.directory⟩
  · show ((p.layers.withOutput o).withOutput o').input.IsTree
    have hin := hp.input
    cases hl : p.layers with
    | shared l => exact hout
    | overlay i l =>
      rw [hl] at hin
      exact hin
  · show ((p.layers.withOutput o).withOutput o').output.IsTree
    rw [Layers.output_withOutput]
    exact hout

theorem OverTrees.loaded (hp : p.OverTrees) (h : Loaded p q) : q.OverTrees := by
  rw [h.eq]
  exact ⟨hp.input, hp.output, hp.directory⟩

/-- Whether the directory of a package has a file of some name, in either layer. -/
structure HasFile (p : Package) (name : String) : Prop where
  plain : hasDirectory name = false
  stored : ∃ x data, p.path name = .ok x ∧ (p.layers.output.read x = .ok data ∨ p.layers.input.read x = .ok data)

/-- A layer that has a source file shows its name. -/
theorem OverTrees.mem_namesIn (hp : p.OverTrees) {l : Layer} (hl : l.IsTree) (hn : IsFileName name) {x : String}
    {data : Bytes} (hx : p.path name = .ok x) (hread : l.read x = .ok data) {names : List String}
    (hnames : p.namesIn l = .ok names) : name ∈ names := by
  obtain ⟨ss, hss, hd⟩ := hp.directory
  rw [path_spell hss hd hn.isPlain, Except.ok.injEq] at hx
  subst hx
  obtain ⟨found, hfound, rfl⟩ := namesIn_eq_ok hnames
  rw [hd] at hfound
  have hmem := Layer.mem_list hl hss hn.isPlain hread hfound
  rw [String.ofList_toList] at hmem
  exact List.mem_filter.mpr ⟨hmem, hn.suffix⟩

/-- The files that are loaded are all that either layer has. -/
theorem Loaded.exists_file (hp : p.OverTrees) (h : Loaded p q) (hfile : p.HasFile name) (hn : isSourceName name) :
    ∃ f ∈ q.files, f.filename = name := by
  obtain ⟨x, data, hx, hread⟩ := hfile.stored
  have hname : IsFileName name := ⟨hn, hfile.plain⟩
  obtain ⟨written, given, hw, hg, hnames⟩ := h.names_eq
  have hmem : name ∈ written ++ given := by
    rcases hread with hread | hread
    · exact List.mem_append_left _ (hp.mem_namesIn hp.output hname hx hread hw)
    · exact List.mem_append_right _ (hp.mem_namesIn hp.input hname hx hread hg)
  rw [← mem_sortedNames, ← hnames] at hmem
  exact List.mem_map.mp hmem

/-- A file that exists is read, and is loaded with the bytes that it has. -/
theorem Loaded.contents_of_hasFile (hp : p.OverTrees) (h : Loaded p q) (hfile : p.HasFile name)
    (hn : isSourceName name) : ∃ before, p.read name = .ok before ∧ q.contentsOrNew name = before := by
  obtain ⟨f, hf, rfl⟩ := h.exists_file hp hfile hn
  exact ⟨f.source, (h.files f hf).1, h.contentsOrNew_of_mem hf⟩

/-- What is read is a file of either layer. -/
theorem hasFile_of_read {data : Bytes} (hplain : hasDirectory name = false) (h : p.read name = .ok data) : p.HasFile name := by
  unfold read at h
  cases hx : p.path name with
  | error e =>
    rw [hx] at h
    cases h
  | ok x =>
    rw [hx] at h
    change (ifFound (p.layers.output.read x) >>= _) = _ at h
    cases hout : p.layers.output.read x with
    | ok written => exact ⟨hplain, x, written, hx, .inl hout⟩
    | error e =>
      rw [hout, ifFound] at h
      by_cases hmissing : e.isNotFound
      · rw [if_pos hmissing] at h
        exact ⟨hplain, x, data, hx, .inr h⟩
      · rw [if_neg hmissing] at h
        cases h

/-- A source file that is read is loaded. -/
theorem Loaded.exists_file_of_read (hp : p.OverTrees) (h : Loaded p q) (hn : IsFileName name) {data : Bytes}
    (hread : p.read name = .ok data) : ∃ f ∈ q.files, f.filename = name ∧ f.source = data := by
  obtain ⟨f, hf, rfl⟩ := h.exists_file hp (hasFile_of_read hn.plain hread) hn.suffix
  exact ⟨f, hf, rfl, Except.ok.inj ((h.files f hf).1.symm.trans hread)⟩

/-- A write puts bytes into the output layer. -/
theorem output_of_write {data : Bytes} (h : write name data p = (.ok (), q)) :
    ∃ x, q.path name = .ok x ∧ q.layers.output.read x = .ok data := by
  obtain ⟨-, x, o, mode, o', hx, -, -, ho', rfl⟩ := write_eq_ok h
  have hout : (wrote ((p.onto o).onto o') name x data).layers.output = o' := by
    show ((p.layers.withOutput o).withOutput o').output = o'
    rw [Layers.output_withOutput]
  refine ⟨x, hx, ?_⟩
  rw [hout]
  exact Layer.read_write (isLayerPath_path hx) ho'

/-- What the output layer has is read. -/
theorem read_of_output {x : String} {data : Bytes} (hx : p.path name = .ok x)
    (h : p.layers.output.read x = .ok data) : p.read name = .ok data := by
  unfold read
  rw [hx]
  show (ifFound (p.layers.output.read x) >>= _) = _
  rw [h]
  rfl

/-- What is written is read. -/
theorem read_of_write {data : Bytes} (h : write name data p = (.ok (), q)) : q.read name = .ok data := by
  obtain ⟨x, hx, hread⟩ := output_of_write h
  exact read_of_output hx hread

/-- A write of another file of the package leaves what is read in the output layer. -/
theorem output_of_write_ne {other : String} {data : Bytes} {x : String} (hd : IsLayerPath p.directory)
    (hn : Path.IsPlain name.toList) (ho : Path.IsPlain other.toList) (hne : name ≠ other) (hx : p.path name = .ok x)
    (h : write other data p = (.ok (), q)) :
    q.path name = .ok x ∧ q.layers.output.read x = p.layers.output.read x := by
  obtain ⟨ss, hss, hd⟩ := hd
  obtain ⟨-, y, o, mode, o', hy, hmade, -, hwritten, rfl⟩ := write_eq_ok h
  have hout : (wrote ((p.onto o).onto o') other y data).layers.output = o' := by
    show ((p.layers.withOutput o).withOutput o').output = o'
    rw [Layers.output_withOutput]
  refine ⟨hx, ?_⟩
  rw [path_spell hss hd hn, Except.ok.injEq] at hx
  rw [path_spell hss hd ho, Except.ok.injEq] at hy
  subst hx hy
  rw [hd] at hmade
  change (p.layers.withOutput o).output.write _ data mode = .ok o' at hwritten
  rw [Layers.output_withOutput] at hwritten
  rw [hout, Layer.read_write_ne hss hn ho (fun heq => hne (String.toList_inj.mp heq)) hwritten]
  exact Layer.read_makeDirs hss hn hmade

/-- A write of another file of the package leaves what is read. -/
theorem read_of_write_ne {other : String} {data : Bytes} (hd : IsLayerPath p.directory)
    (hn : Path.IsPlain name.toList) (ho : Path.IsPlain other.toList) (hne : name ≠ other) (h : write other data p = (.ok (), q)) :
    q.read name = p.read name := by
  obtain ⟨ss, hss, hdir⟩ := id hd
  have hx := path_spell hss hdir hn
  obtain ⟨hx', hout⟩ := output_of_write_ne hd hn ho hne hx h
  have hin : q.layers.input.read (Path.spell (ss ++ [name.toList])) = p.layers.input.read (Path.spell (ss ++ [name.toList])) := by
    obtain ⟨-, y, o, mode, o', -, -, -, -, rfl⟩ := write_eq_ok h
    change ((p.layers.withOutput o).withOutput o').output.read _ = _ at hout
    show ((p.layers.withOutput o).withOutput o').input.read _ = _
    cases hlayers : p.layers with
    | shared l =>
      rw [hlayers] at hout
      exact hout
    | overlay i l => rfl
  unfold read
  rw [hx, hx']
  show (ifFound (q.layers.output.read _) >>= _) = (ifFound (p.layers.output.read _) >>= _)
  rw [hout, hin]

/-- A loaded file is read behind a write of another as it was. -/
theorem Loaded.read_of_write_ne {r : Package} {other : String} {data : Bytes} (hl : Loaded p q) (hd : IsLayerPath q.directory)
    {f : SourceFile} (hf : f ∈ q.files) (hn : Path.IsPlain f.filename.toList) (ho : Path.IsPlain other.toList)
    (hne : f.filename ≠ other) (h : write other data q = (.ok (), r)) : r.read f.filename = .ok f.source := by
  rw [Package.read_of_write_ne hd hn ho hne h, hl.read]
  exact (hl.files f hf).1

/-- A write changes the contents of one file. -/
theorem contentsOrNew_of_write {data : Bytes} (h : write name data p = (.ok (), q)) (other : String) :
    q.contentsOrNew other = if other = name then data else p.contentsOrNew other := by
  obtain ⟨-, x, o, mode, o', -, -, -, -, rfl⟩ := write_eq_ok h
  show ((Entries.put name data p.contents).lookup other).getD p.newFile = _
  rw [Entries.lookup_put]
  split <;> rfl

/-! ## What is kept -/

/-- What a transform leaves of the bytes of a file, where `l` is the package as it was loaded: all
of them in order, but for the one declaration that it replaces. -/
inductive KeepsBytes (l : Package) (t : Transform) (name : String) (before after : Bytes) : Prop
  | all : before.Sublist after → KeepsBytes l t name before after
  | butReplaced {a : Addition} {m : Match} : t = .add a → a.replace = true →
      l.files.findSubject? a.subject = some m → m.file.filename = name → m.file.source = before →
      (Splice.cut before m.declaration).Sublist after → KeepsBytes l t name before after

theorem sublist_append_text (before : Bytes) (text : String) :
    before.Sublist (before ++ bytesOf text ++ [LineIndex.lineFeed]) := by
  rw [List.append_assoc]
  exact List.sublist_append_left _ _

/-- What adding a declaration leaves of a file. -/
theorem addDeclaration_keepsBytes {a : Addition} {before : Bytes} (hl : Loaded p q)
    (hread : p.read a.filename = .ok before) (hbefore : q.contentsOrNew a.filename = before)
    (h : addDeclaration a q = (.ok (), r)) :
    ∃ after, r.read a.filename = .ok after ∧ KeepsBytes q (.add a) a.filename before after := by
  cases addDeclaration_eq_ok.mp h with
  | new hm h =>
    rw [append_eq, hbefore] at h
    exact ⟨_, read_of_write h, .all (sublist_append_text before a.text)⟩
  | kept hm _ hreplace hr =>
    rw [hr, hl.read]
    exact ⟨before, hread, .all (List.Sublist.refl _)⟩
  | @replaced m _ hm _ hreplace _ hremove h =>
    rw [remove_eq] at hremove
    rw [append_eq, contentsOrNew_of_write hremove] at h
    split at h
    · next hname =>
      obtain ⟨hmem, -, -⟩ := mem_of_findSubject? hm
      have hsource : m.file.source = before := by
        rw [← hbefore, hname, hl.contentsOrNew_of_mem hmem]
      rw [← hname, hbefore] at h
      exact ⟨_, read_of_write h, .butReplaced rfl hreplace hm hname.symm hsource (sublist_append_text _ a.text)⟩
    · rw [hbefore] at h
      exact ⟨_, read_of_write h, .all (sublist_append_text before a.text)⟩

/-- What adding an import leaves of a file. -/
theorem addImport_keepsBytes {a : ImportAddition} {before : Bytes} (hl : Loaded p q)
    (hbefore : q.contentsOrNew a.filename = before) (h : addImport a q = (.ok (), r)) :
    ∃ after, r.read a.filename = .ok after ∧ before.Sublist after := by
  rw [addImport_eq] at h
  cases hw : q.withImport a with
  | error e =>
    rw [hw] at h
    cases h
  | ok after =>
    rw [hw] at h
    obtain ⟨k, text, -, hins⟩ := withImport_insertion hl hw
    exact ⟨after, read_of_write h, IsInsertion.sublist (hbefore ▸ hins)⟩

/-- A source file that exists in either layer keeps its bytes under a transform that adds to it,
but for the declaration that is replaced. -/
theorem applyTransform_keepsBytes {t : Transform} (hp : p.OverTrees) (ht : t.filename? = some name)
    (hn : isSourceName name) (hfile : p.HasFile name) (h : applyTransform t p = (.ok (), r)) :
    ∃ l before after, load p = (.ok (), l) ∧ p.read name = .ok before ∧ r.read name = .ok after ∧
      KeepsBytes l t name before after := by
  unfold applyTransform at h
  rw [bind_eq_ok] at h
  obtain ⟨_, l, hload, h⟩ := h
  have hl := load_eq_ok hload
  obtain ⟨before, hread, hbefore⟩ := hl.contents_of_hasFile hp hfile hn
  refine ⟨l, before, ?_⟩
  cases t with
  | addImport a =>
    cases ht
    obtain ⟨after, hafter, hkept⟩ := addImport_keepsBytes hl hbefore h
    exact ⟨after, hload, hread, hafter, .all hkept⟩
  | add a =>
    cases ht
    obtain ⟨after, hafter, hkept⟩ := addDeclaration_keepsBytes hl hread hbefore h
    exact ⟨after, hload, hread, hafter, hkept⟩
  | dedupImports names => cases ht
  | format names => cases ht

/-- Another function in the place of the one of a file. -/
def renewF : Transform := .add ⟨"a.go", .func "" "F", "func F() \x7b return \x7d", true⟩

theorem onePrivateFile_hasFile : onePrivateFile.HasFile "a.go" :=
  ⟨by decide, "a.go", _, rfl, .inr rfl⟩

theorem renewF_keepsBytes : ∃ r l before after, onePrivateFile.OverTrees ∧ onePrivateFile.HasFile "a.go" ∧
    applyTransform renewF onePrivateFile = (.ok (), r) ∧ load onePrivateFile = (.ok (), l) ∧
      onePrivateFile.read "a.go" = .ok before ∧ r.read "a.go" = .ok after ∧
      KeepsBytes l renewF "a.go" before after := by
  have hp := onePrivateFile_inMemory.overTrees
  have hrun := eq_ok_of_isOk (show (applyTransform renewF onePrivateFile).1.isOk by decide +kernel)
  obtain ⟨l, before, after, h⟩ := applyTransform_keepsBytes hp rfl (by decide) onePrivateFile_hasFile hrun
  exact ⟨_, l, before, after, hp, onePrivateFile_hasFile, hrun, h⟩

end Package

end GoSplice
