import GoSplice.Proofs.DiskTrees
import GoSplice.Proofs.Reloading

/-!
# Files that layers store

What a layer stores at its paths, in memory or on disk, and what a write of a package leaves of
that: one file with new bytes, and with the permission bits that it had or that a new one gets.

    write name data p = (ok (), q) → q stores data at the path of name, all else as before
                                                                       (stores_of_write)
    … → p and q are loaded → the names of q's files are those of p's, and name if it is one
                                                                       (mem_fileNames_of_write)
    … → p and q read some bytes at another path → they are the same    (Stores.read_unique)
-/

namespace GoSplice

open GoSplice.Path (IsPlain spell)

/-! ## Entries of directories -/

theorem Entries.mem_put {β : Type} {es : List (String × β)} {name x : String} {value v : β} :
    (x, v) ∈ put name value es → x = name ∧ v = value ∨ (x, v) ∈ es := by
  induction es with
  | nil =>
    intro h
    cases List.mem_singleton.mp h
    exact .inl ⟨rfl, rfl⟩
  | cons e es ih =>
    intro h
    unfold put at h
    split at h
    · rcases List.mem_cons.mp h with heq | h
      · cases heq
        exact .inl ⟨rfl, rfl⟩
      · exact .inr (List.mem_cons_of_mem e h)
    · rcases List.mem_cons.mp h with rfl | h
      · exact .inr List.mem_cons_self
      · exact (ih h).imp_right (List.mem_cons_of_mem e)

theorem Entries.mem_put_of_ne {β : Type} {es : List (String × β)} {name x : String} {value v : β}
    (hne : x ≠ name) (h : (x, v) ∈ es) : (x, v) ∈ put name value es := by
  induction es with
  | nil => cases h
  | cons e es ih =>
    unfold put
    split
    · next hname =>
      rcases List.mem_cons.mp h with rfl | h
      · exact absurd hname hne
      · exact List.mem_cons_of_mem _ h
    · rcases List.mem_cons.mp h with rfl | h
      · exact List.mem_cons_self
      · exact List.mem_cons_of_mem e (ih h)

namespace DiskTree

variable {n n' : DiskTree} {path : List String} {s : String} {mode : Nat} {data : Bytes}
  {f : Option DiskTree → Except LayerProblem DiskTree}

/-- A change of an entry puts it into its directory. -/
theorem find_change_above (h : change f n (path ++ [s]) = .ok n') : ∃ mode entries new,
    n.find path = .ok (.dir mode entries) ∧ n'.find path = .ok (.dir mode (Entries.put s new entries)) ∧
      f (n.find (path ++ [s])).toOption = .ok new := by
  induction path generalizing n n' with
  | nil =>
    cases n with
    | file g => cases h
    | dir mode entries =>
      rw [List.nil_append] at h ⊢
      unfold change at h
      rw [find]
      cases hlookup : entries.lookup s with
      | some k =>
        rw [hlookup] at h
        obtain ⟨k', hk, rfl⟩ := exists_of_map_ok h
        refine ⟨mode, entries, k', rfl, rfl, ?_⟩
        rw [find, hlookup]
        cases k <;> exact hk
      | none =>
        rw [hlookup] at h
        obtain ⟨k', hk, rfl⟩ := exists_of_map_ok h
        refine ⟨mode, entries, k', rfl, rfl, ?_⟩
        rw [find, hlookup]
        exact hk
  | cons t path ih =>
    cases n with
    | file g => cases h
    | dir mode entries =>
      rw [List.cons_append] at h ⊢
      unfold change at h
      cases hlookup : entries.lookup t with
      | some k =>
        rw [hlookup] at h
        obtain ⟨k', hk, rfl⟩ := exists_of_map_ok h
        rw [find, find, find, Entries.lookup_put, if_pos rfl, hlookup]
        exact ih hk
      | none =>
        rw [hlookup] at h
        cases path with
        | nil => cases h
        | cons u path => cases h

/-- The names that are listed of a directory, none of what is no directory. -/
def listed (n : DiskTree) (path : List String) : List String :=
  match n.find path with
  | .ok (.dir _ entries) => (entries.filter fun e => !e.2.isDir).map (·.1)
  | _ => []

theorem mem_listed_of_list {names : List String} (h : n.list path = .ok names) (x : String) :
    x ∈ names ↔ x ∈ n.listed path := by
  unfold list at h
  unfold listed
  cases hfind : n.find path with
  | error e =>
    rw [hfind] at h
    cases h
  | ok m =>
    rw [hfind] at h
    cases m with
    | file g => cases h
    | dir mode entries =>
      cases h
      exact List.mem_mergeSort

theorem listed_of_error {e : LayerProblem} (h : n.list path = .error e) : n.listed path = [] := by
  unfold list at h
  unfold listed
  cases hfind : n.find path with
  | error e => rfl
  | ok m =>
    rw [hfind] at h
    cases m with
    | file g => rfl
    | dir mode entries => cases h

/-- A file that is written is listed, and the others are as before. -/
theorem mem_listed_write (h : n.write (path ++ [s]) data mode = .ok n') (x : String) :
    x ∈ n'.listed path ↔ x = s ∨ x ∈ n.listed path := by
  obtain ⟨m, entries, new, hbefore, hbehind, hnew⟩ := find_change_above h
  have hfile : new.isDir = false := by
    split at hnew
    · cases hnew
      rfl
    · cases hnew
    · cases hnew
      rfl
  have hput : new = new ∧ (s, new) ∈ Entries.put s new entries :=
    ⟨rfl, Entries.mem_of_lookup (by rw [Entries.lookup_put, if_pos rfl])⟩
  unfold listed
  rw [hbefore, hbehind]
  simp only [List.mem_map, List.mem_filter, Bool.not_eq_true']
  constructor
  · rintro ⟨⟨y, k⟩, ⟨hmem, hk⟩, rfl⟩
    rcases Entries.mem_put hmem with ⟨rfl, -⟩ | hmem
    · exact .inl rfl
    · exact .inr ⟨(y, k), ⟨hmem, hk⟩, rfl⟩
  · rintro (rfl | ⟨⟨y, k⟩, ⟨hmem, hk⟩, rfl⟩)
    · exact ⟨(x, new), ⟨hput.2, hfile⟩, rfl⟩
    · by_cases hy : y = s
      · exact ⟨(s, new), ⟨hput.2, hfile⟩, hy.symm⟩
      · exact ⟨(y, k), ⟨Entries.mem_put_of_ne hy hmem, hk⟩, rfl⟩

/-- Where a file can be written there is one, or nothing. -/
theorem mode?_of_write (h : n.write path data mode = .ok n') :
    n.mode? path = .ok ((n.spot path).file?.map (·.mode)) := by
  unfold mode? spot
  cases hfind : n.find path with
  | ok m =>
    cases m with
    | file g => rfl
    | dir m entries =>
      rw [write_of_directory (spot_of_find hfind)] at h
      cases h
  | error e =>
    rcases find_eq_error hfind with rfl | rfl
    · rfl
    · have hwrite : n.write path data mode = .error .notDirectory := change_of_notDirectory hfind
      rw [hwrite] at h
      cases h

/-- Making a directory lists nothing new in it. -/
theorem listed_makeDirs (h : n.makeDirs path mode = .ok n') : n'.listed path = n.listed path := by
  rcases makeDirs_cases h with rfl | ⟨hnone, m, hmade⟩
  · rfl
  · unfold listed
    rw [hnone, hmade]
    rfl

end DiskTree

/-! ## Layers -/

namespace Layer

variable {l l' o : Layer} {x y : String} {mode : Nat} {data : Bytes}

/-- The file that a layer stores at a layer path. -/
def stored? : Layer → String → Option StoredFile
  | .memory m, x | .readOnly m, x => m.file? x
  | .disk d, x => (d.tree.spot (d.target x)).file?

theorem target_spell (d : DiskLayer) {ss : List (List Char)} (hss : ∀ s ∈ ss, IsPlain s) :
    d.target (spell ss) = d.root ++ ss.map String.ofList := by
  rw [DiskLayer.target, MemoryLayer.names_spell hss]

/-- An operation on the tree of a layer on disk that succeeds. -/
theorem exists_tree {d : DiskLayer} {run : DiskTree → List String → Except LayerProblem DiskTree}
    (hx : IsLayerPath x) (h : Layer.disk <$> (d.onTree x run >>= fun tree => pure { d with tree }) = .ok l') :
    ∃ tree, run d.tree (d.target x) = .ok tree ∧ l' = .disk { d with tree } := by
  obtain ⟨ss, hss, rfl⟩ := hx
  cases hd : d.onTree (spell ss) run with
  | error e =>
    rw [hd] at h
    cases h
  | ok tree =>
    rw [hd] at h
    cases h
    refine ⟨tree, ?_, rfl⟩
    rw [target_spell d hss]
    exact ((DiskLayer.onTree_eq_ok hss).mp hd).2

theorem target_ne (d : DiskLayer) (hx : IsLayerPath x) (hy : IsLayerPath y) (hne : y ≠ x) : d.target y ≠ d.target x := by
  obtain ⟨ss, hss, rfl⟩ := hx
  obtain ⟨ts, hts, rfl⟩ := hy
  rw [target_spell d hss, target_spell d hts]
  intro heq
  have hmap := List.append_cancel_left heq
  rw [List.map_inj_right fun _ _ h => String.ofList_injective h] at hmap
  exact hne (congrArg spell hmap)

/-- What is read is stored. -/
theorem stored?_of_read (hx : IsLayerPath x) (h : l.read x = .ok data) : (l.stored? x).map (·.data) = some data := by
  cases l with
  | memory m | readOnly m =>
    change m.read x = .ok data at h
    show (m.file? x).map (·.data) = some data
    rw [memory_read hx] at h
    cases hf : m.file? x with
    | none =>
      rw [hf] at h
      cases h
    | some f =>
      rw [hf] at h
      cases h
      rfl
  | disk d =>
    obtain ⟨ss, hss, rfl⟩ := hx
    show (d.tree.spot (d.target (spell ss))).file?.map (·.data) = some data
    rw [target_spell d hss, ← DiskTree.read_toOption, ((DiskLayer.onTree_eq_ok hss).mp h).2]
    rfl

/-- What is not found is not stored. -/
theorem stored?_of_notFound {e : PatchError} (hx : IsLayerPath x) (h : l.read x = .error e) (he : e.isNotFound) :
    l.stored? x = none := by
  cases l with
  | memory m | readOnly m =>
    change m.read x = .error e at h
    show m.file? x = none
    rw [memory_read hx] at h
    cases hf : m.file? x with
    | none => rfl
    | some f =>
      rw [hf] at h
      cases h
  | disk d =>
    obtain ⟨ss, hss, rfl⟩ := hx
    show (d.tree.spot (d.target (spell ss))).file? = none
    change d.onTree (spell ss) DiskTree.read = .error e at h
    rw [DiskLayer.onTree_spell hss] at h
    split at h
    · cases h
      cases he
    · cases hread : d.tree.read (d.root ++ ss.map String.ofList) with
      | ok data =>
        rw [hread] at h
        cases h
      | error problem =>
        have hnone := d.tree.read_toOption (d.root ++ ss.map String.ofList)
        rw [hread] at hnone
        rw [target_spell d hss]
        exact Option.map_eq_none_iff.mp hnone.symm

/-- Directories that are made leave all files. -/
theorem stored?_makeDirs (hx : IsLayerPath x) (h : l.makeDirs x mode = .ok l') (y : String) :
    l'.stored? y = l.stored? y := by
  cases l with
  | memory m =>
    obtain ⟨m', hm', rfl⟩ := memory_makeDirs h
    obtain ⟨z, -, -, rfl⟩ := MemoryLayer.makeDirs_eq_ok.mp hm'
    show MemoryLayer.file? _ y = m.file? y
    unfold MemoryLayer.file?
    rw [(MemoryLayer.foldl_putDir _ _).1]
  | disk d =>
    obtain ⟨tree, hmade, rfl⟩ := exists_tree hx h
    exact DiskTree.file?_makeDirs hmade (d.target y)
  | readOnly m => cases h

/-- The permission bits that a new file gets for those that are asked for. -/
def newMode : Layer → Nat → Nat
  | .disk _, mode => mode &&& DiskTree.fileBits
  | .memory _, mode | .readOnly _, mode => mode

theorem newMode_makeDirs (hx : IsLayerPath x) (h : l.makeDirs x mode = .ok l') : l'.newMode = l.newMode := by
  cases l with
  | memory m =>
    obtain ⟨m', -, rfl⟩ := memory_makeDirs h
    rfl
  | disk d =>
    obtain ⟨tree, -, rfl⟩ := exists_tree hx h
    rfl
  | readOnly m => cases h

theorem newMode_write (hx : IsLayerPath x) (h : l.write x data mode = .ok l') : l'.newMode = l.newMode := by
  cases l with
  | memory m =>
    obtain ⟨m', -, rfl⟩ := memory_write h
    rfl
  | disk d =>
    obtain ⟨tree, -, rfl⟩ := exists_tree hx h
    rfl
  | readOnly m => cases h

/-- A file that is written leaves all others. -/
theorem stored?_write_ne (hx : IsLayerPath x) (hy : IsLayerPath y) (hne : y ≠ x) (h : l.write x data mode = .ok l') :
    l'.stored? y = l.stored? y := by
  cases l with
  | memory m =>
    obtain ⟨m', hm', rfl⟩ := memory_write h
    exact (MemoryLayer.file?_write hm' hx.clean y).trans (if_neg hne)
  | disk d =>
    obtain ⟨tree, hwritten, rfl⟩ := exists_tree hx h
    show (tree.spot (d.target y)).file? = (d.tree.spot (d.target y)).file?
    rw [DiskTree.spot_write hwritten, if_neg (target_ne d hx hy hne)]
  | readOnly m => cases h

/-- A file that is written has the bits it had, if that is what is asked for. -/
theorem stored?_write (hx : IsLayerPath x) (h : l.write x data mode = .ok l')
    (hmode : ∀ f, l.stored? x = some f → f.mode = mode) :
    l'.stored? x = some ⟨data, ((l.stored? x).map (·.mode)).getD (l.newMode mode)⟩ := by
  cases l with
  | memory m =>
    obtain ⟨m', hm', rfl⟩ := memory_write h
    show m'.file? x = some ⟨data, ((m.file? x).map (·.mode)).getD mode⟩
    rw [MemoryLayer.file?_write hm' hx.clean, if_pos rfl]
    cases hf : m.file? x with
    | none => rfl
    | some f => rw [Option.map_some, Option.getD_some, hmode f hf]
  | disk d =>
    obtain ⟨tree, hwritten, rfl⟩ := exists_tree hx h
    show (tree.spot (d.target x)).file? =
      some ⟨data, ((d.tree.spot (d.target x)).file?.map (·.mode)).getD (mode &&& DiskTree.fileBits)⟩
    rw [DiskTree.spot_write hwritten, if_pos rfl]
    unfold DiskTree.written
    cases d.tree.spot (d.target x) <;> rfl
  | readOnly m => cases h

/-- The permission bits at a path that a file is written to are those of the file there. -/
theorem mode?_of_write (hx : IsLayerPath x) (h : l.write x data mode = .ok l') :
    l.mode? x = .ok ((l.stored? x).map (·.mode)) := by
  cases l with
  | memory m =>
    show m.mode? x = .ok ((m.file? x).map (·.mode))
    unfold MemoryLayer.mode?
    rw [MemoryLayer.resolve_layerPath hx]
    rfl
  | disk d =>
    obtain ⟨ss, hss, rfl⟩ := hx
    change Layer.disk <$> (d.onTree (spell ss) (DiskTree.write · · data mode) >>= fun tree =>
      pure { d with tree }) = .ok l' at h
    cases hd : d.onTree (spell ss) (DiskTree.write · · data mode) with
    | error e =>
      rw [hd] at h
      cases h
    | ok tree =>
      obtain ⟨hnul, hwritten⟩ := (DiskLayer.onTree_eq_ok hss).mp hd
      refine (DiskLayer.onTree_eq_ok hss).mpr ⟨hnul, ?_⟩
      show _ = Except.ok ((d.tree.spot (d.target (spell ss))).file?.map (·.mode))
      rw [target_spell d hss]
      exact DiskTree.mode?_of_write hwritten
  | readOnly m => cases h

/-- What a layer lists of a directory behind a write of a file in it. -/
theorem mem_found_write (hl : l.IsTree) {ss : List (List Char)} {name : List Char} (hss : ∀ s ∈ ss, IsPlain s)
    (hname : IsPlain name) {mode' : Nat} (hmade : l.makeDirs (spell ss) mode' = .ok o)
    (hwritten : o.write (spell (ss ++ [name])) data mode = .ok l') {found found' : Option (List String)}
    (hfound : ifFound (l.list (spell ss)) = .ok found) (hfound' : ifFound (l'.list (spell ss)) = .ok found') (n : String) :
    n ∈ found'.getD [] ↔ n = String.ofList name ∨ n ∈ found.getD [] := by
  have hd : IsLayerPath (spell ss) := ⟨ss, hss, rfl⟩
  have hall := Path.isPlain_concat hss hname
  cases l with
  | memory m =>
    obtain ⟨m1, hm1, rfl⟩ := memory_makeDirs hmade
    obtain ⟨m2, hm2, rfl⟩ := memory_write hwritten
    have hm2' : (Layer.memory m2).IsBuilt := .write (.makeDirs hl hm1) hm2
    have hfile : ∀ y, m2.file? y = if y = spell (ss ++ [name]) then some ⟨data, mode⟩ else m.file? y := by
      intro y
      rw [MemoryLayer.file?_write hm2 (Path.clean_spell hall)]
      exact congrArg _ (stored?_makeDirs hd hmade y)
    rw [Package.mem_found hm2' hd hfound', Package.mem_found (l := .memory m) hl hd hfound]
    constructor
    · rintro ⟨x, f, hf, hparent, rfl⟩
      rw [show (Layer.memory m2).file? x = m2.file? x from rfl, hfile] at hf
      split at hf
      · next hx =>
        rw [hx, Path.baseName_spell hss hname]
        exact .inl rfl
      · exact .inr ⟨x, f, hf, hparent, rfl⟩
    · rintro (rfl | ⟨x, f, hf, hparent, rfl⟩)
      · exact ⟨_, _, (hfile _).trans (if_pos rfl), Path.parent_spell hss hname, Path.baseName_spell hss hname⟩
      · by_cases hx : x = spell (ss ++ [name])
        · exact ⟨x, _, (hfile x).trans (if_pos hx), hparent, rfl⟩
        · exact ⟨x, f, (hfile x).trans ((if_neg hx).trans hf), hparent, rfl⟩
  | disk d =>
    obtain ⟨tree, htree, rfl⟩ := exists_tree hd hmade
    obtain ⟨tree', htree', rfl⟩ := exists_tree ⟨_, hall, rfl⟩ hwritten
    have hlisted : ∀ (tree : DiskTree) {found : Option (List String)},
        ifFound (DiskLayer.list { d with tree } (spell ss)) = .ok found →
          (n ∈ found.getD [] ↔ n ∈ tree.listed (d.target (spell ss))) := by
      intro tree found h
      rw [target_spell d hss]
      unfold DiskLayer.list at h
      rw [DiskLayer.onTree_spell hss] at h
      split at h
      · cases h
      · cases hnames : tree.list (d.root ++ ss.map String.ofList) with
        | ok names =>
          rw [hnames] at h
          cases h
          exact DiskTree.mem_listed_of_list hnames n
        | error e =>
          rw [DiskTree.listed_of_error hnames]
          rw [hnames] at h
          cases e <;> cases h
          rfl
    rw [hlisted tree' hfound', hlisted d.tree hfound, ← DiskTree.listed_makeDirs htree]
    rw [DiskLayer.target, MemoryLayer.names_spell hall, List.map_append, ← List.append_assoc] at htree'
    rw [target_spell d hss]
    exact DiskTree.mem_listed_write htree' n
  | readOnly m => cases hmade

/-- No bytes are written in the place of a directory that was made, or of one above it. -/
theorem not_write_above (hl : l.IsTree) {ss us : List (List Char)} (hss : ∀ s ∈ ss, IsPlain s) (hus : us <+: ss)
    {mode' : Nat} {found : Option (List String)} (hfound : ifFound (l.list (spell ss)) = .ok found)
    (hmade : l.makeDirs (spell ss) mode' = .ok o) : o.write (spell us) data mode ≠ .ok l' := by
  intro hwritten
  have hus' : ∀ s ∈ us, IsPlain s := fun s hs => hss s (hus.subset hs)
  cases l with
  | memory m =>
    obtain ⟨m1, hm1, rfl⟩ := memory_makeDirs hmade
    obtain ⟨m2, hm2, -⟩ := memory_write hwritten
    obtain ⟨y, hy, hdir, -⟩ := MemoryLayer.write_eq_ok.mp hm2
    rw [Path.clean_spell hus', Except.ok.injEq] at hy
    exact hdir (hy ▸ MemoryLayer.hasDir_of_makeDirs hss hus hl.sound.root hm1)
  | disk d =>
    obtain ⟨tree, htree, rfl⟩ := exists_tree ⟨ss, hss, rfl⟩ hmade
    obtain ⟨tree', htree', -⟩ := exists_tree ⟨us, hus', rfl⟩ hwritten
    obtain ⟨more, rfl⟩ := hus
    rw [target_spell d hss, List.map_append, ← List.append_assoc] at htree
    change tree.write (d.target (spell us)) data mode = _ at htree'
    rw [target_spell d hus'] at htree'
    suffices hdir : tree.isDirAt (d.root ++ us.map String.ofList ++ more.map String.ofList) by
      have hrefused : tree.write (d.root ++ us.map String.ofList) data mode = .error .isDirectory :=
        DiskTree.write_of_isDirAt (DiskTree.isDirAt_above hdir)
      rw [hrefused] at htree'
      cases htree'
    by_cases hroot : d.root ++ us.map String.ofList ++ more.map String.ofList = []
    · -- the root of the tree is listed
      change DiskTree.makeDirs d.tree _ _ = _ at htree
      rw [hroot] at htree ⊢
      cases htree
      change ifFound (d.onTree (spell (us ++ more)) DiskTree.list) = _ at hfound
      rw [DiskLayer.onTree_spell hss, List.map_append, ← List.append_assoc, hroot] at hfound
      split at hfound
      · cases hfound
      · unfold DiskTree.isDirAt DiskTree.find
        cases hd : d.tree with
        | dir => rfl
        | file f =>
          rw [hd] at hfound
          cases hfound
    · exact DiskTree.isDirAt_of_makeDirs htree hroot
  | readOnly m => cases hmade

end Layer

/-! ## Packages -/

namespace Layers

/-- Whether layers store the same files. -/
def SameFiles (l l' : Layers) : Prop :=
  ∀ x, IsLayerPath x → l.output.stored? x = l'.output.stored? x ∧ l.input.stored? x = l'.input.stored? x

theorem SameFiles.of_eq {l l' : Layers} (h : l = l') : l.SameFiles l' := by
  rintro x -
  rw [h]
  exact ⟨rfl, rfl⟩

theorem sameFiles_withOutput (l : Layers) {o o' : Layer} (h : ∀ x, IsLayerPath x → o.stored? x = o'.stored? x) :
    (l.withOutput o).SameFiles (l.withOutput o') := by
  intro x hx
  cases l with
  | shared l => exact ⟨h x hx, h x hx⟩
  | overlay i l => exact ⟨h x hx, rfl⟩

/-- The permission bits of a file that the output layer does not have. -/
def givenMode : Layers → String → Nat
  | .shared _, _ => defaultFileMode
  | .overlay i _, x => ((i.mode? x).toOption.getD none).getD defaultFileMode

/-- The permission bits of a file behind a write: those it has, or those that a new one gets. -/
def modeBehind (l : Layers) (x : String) : Nat :=
  ((l.output.stored? x).map (·.mode)).getD (l.output.newMode (l.givenMode x))

theorem givenMode_withOutput (l : Layers) (o : Layer) : (l.withOutput o).givenMode = l.givenMode := by
  cases l <;> rfl

end Layers

namespace Package

variable {p q r : Package} {name x y : String} {data : Bytes}

/-- A file in the package's directory is not where another is written. -/
theorem path_ne (hd : IsLayerPath p.directory) (hn : IsPlain name.toList) {other x y : String} (hne : name ≠ other)
    (hplain : hasDirectory other = false) (hx : p.path other = .ok x) (hy : p.path name = .ok y) : y ≠ x := by
  obtain ⟨ss, hss, hd⟩ := hd
  have hname := Path.isPlain_concat hss hn
  rw [path_spell hss hd hn, Except.ok.injEq] at hy
  subst hy
  by_cases ho : IsPlain other.toList
  · rw [path_spell hss hd ho, Except.ok.injEq] at hx
    subst hx
    intro heq
    have hlast := Path.spell_injective hname (Path.isPlain_concat hss ho) heq
    rw [List.append_cancel_left_eq, List.cons.injEq] at hlast
    exact hne (String.toList_inj.mp hlast.1)
  · unfold path at hx
    cases hc : Path.clean (Path.concat p.directory other) with
    | error e =>
      rw [hc] at hx
      cases hx
    | ok z =>
      rw [hc] at hx
      cases hx
      rw [hd, ← String.ofList_toList (s := other)] at hc
      obtain ⟨us, hus, rfl⟩ := Path.clean_concat_above hss (Path.clean_spell hss) (not_mem_of_hasDirectory hplain) ho hc
      intro heq
      have hlength := hus.length_le
      rw [← Path.spell_injective hname (fun u hu => hss u (hus.subset hu)) heq, List.length_append,
        List.length_singleton] at hlength
      omega

/-- A path that a source file has is no other file's. -/
theorem isSourceName_of_path (hd : IsLayerPath p.directory) (hname : IsPlain name.toList) (hx : p.path name = .ok x)
    (hother : isSourceName other) (hy : p.path other = .ok x) : isSourceName name := by
  obtain ⟨ss, hss, hd⟩ := hd
  rw [path_spell hss hd hname, Except.ok.injEq] at hx
  subst hx
  obtain ⟨front, hfront⟩ := List.isSuffixOf_iff_suffix.mp hother
  obtain ⟨rest, hrest⟩ : ∃ rest, (Path.concat p.directory other).toList = rest ++ sourceSuffix := by
    unfold Path.concat Path.concatChars
    rw [String.toList_ofList, ← hfront]
    split
    · exact ⟨_, rfl⟩
    · split
      · exact ⟨p.directory.toList ++ front, (List.append_assoc ..).symm⟩
      · exact ⟨p.directory.toList ++ '/' :: front, by simp⟩
  unfold path at hy
  cases hc : Path.clean (Path.concat p.directory other) with
  | error e =>
    rw [hc] at hy
    cases hy
  | ok y =>
    rw [hc] at hy
    cases hy
    obtain ⟨hplain, heq⟩ := Path.clean_segments hc
    obtain ⟨us, s, hsegs⟩ := Path.exists_cleanSegments_append (t := sourceSuffix) (by decide) (by decide) rest
    rw [hrest, hsegs] at hplain heq
    have hlast := congrArg List.getLast? (Path.spell_injective (Path.isPlain_concat hss hname) hplain heq)
    rw [List.getLast?_concat, List.getLast?_concat, Option.some.injEq] at hlast
    unfold isSourceName
    rw [hlast]
    exact List.isSuffixOf_iff_suffix.mpr (List.suffix_append s sourceSuffix)

/-- What a write of some bytes at a path leaves of the layers of a package. -/
structure Stores (p q : Package) (x : String) (data : Bytes) : Prop where
  layers : q.layers = p.layers.withOutput q.layers.output
  directory : q.directory = p.directory
  newMode : q.layers.output.newMode = p.layers.output.newMode
  stored : ∀ y, IsLayerPath y → q.layers.output.stored? y =
    if y = x then some ⟨data, p.layers.modeBehind x⟩ else p.layers.output.stored? y

/-- The bits that a file is written with are those it has, or those given. -/
theorem fileMode_of_write {o o' : Layer} {mode : Nat} (hx : IsLayerPath x) (hmode : (p.onto o).fileMode x = .ok mode)
    (h : o.write x data mode = .ok o') : ((o.stored? x).map (·.mode)).getD (p.layers.givenMode x) = mode := by
  unfold fileMode onto at hmode
  rw [Layers.output_withOutput, Layer.mode?_of_write hx h] at hmode
  cases hstored : o.stored? x with
  | some f =>
    rw [hstored] at hmode
    exact Except.ok.inj hmode
  | none =>
    rw [hstored] at hmode
    change ((p.layers.withOutput o).input.mode? x >>= fun m => pure (m.getD defaultFileMode)) = .ok mode at hmode
    show p.layers.givenMode x = mode
    cases hlayers : p.layers with
    | shared l =>
      rw [hlayers] at hmode
      change (o.mode? x >>= fun m => pure (m.getD defaultFileMode)) = .ok mode at hmode
      rw [Layer.mode?_of_write hx h, hstored] at hmode
      exact Except.ok.inj hmode
    | overlay i l =>
      rw [hlayers] at hmode
      change (i.mode? x >>= fun m => pure (m.getD defaultFileMode)) = .ok mode at hmode
      show ((i.mode? x).toOption.getD none).getD defaultFileMode = mode
      cases hi : i.mode? x with
      | error e =>
        rw [hi] at hmode
        cases hmode
      | ok m =>
        rw [hi] at hmode
        exact Except.ok.inj hmode

theorem stores_of_write (hd : IsLayerPath p.directory) (hx : p.path name = .ok x)
    (h : write name data p = (.ok (), q)) : Stores p q x data := by
  obtain ⟨-, x', o, mode, o', hx', hmade, hmode, hwritten, rfl⟩ := write_eq_ok h
  rw [hx, Except.ok.injEq] at hx'
  subst hx'
  have hlp := isLayerPath_path hx
  unfold Package.onto at hwritten
  rw [Layers.output_withOutput] at hwritten
  have hmode' := fileMode_of_write hlp hmode hwritten
  have hout : (wrote ((p.onto o).onto o') name x data).layers = p.layers.withOutput o' :=
    Layers.withOutput_withOutput p.layers o o'
  refine ⟨?_, rfl, ?_, fun y hy => ?_⟩ <;> rw [hout, Layers.output_withOutput]
  · rw [Layer.newMode_write hlp hwritten, Layer.newMode_makeDirs hd hmade]
  · have hsame := Layer.stored?_makeDirs hd hmade
    rw [hsame] at hmode'
    split
    · next hyx =>
      have hkept : ∀ f, o.stored? x = some f → f.mode = mode := by
        intro f hf
        rw [← hsame, hf] at hmode'
        exact hmode'
      rw [hyx, Layer.stored?_write hlp hwritten hkept, hsame, Layer.newMode_makeDirs hd hmade]
      unfold Layers.modeBehind
      cases hstored : p.layers.output.stored? x with
      | some f => rfl
      | none =>
        rw [hstored] at hmode'
        rw [← hmode']
        rfl
    · next hyx => rw [Layer.stored?_write_ne hlp hy hyx hwritten, hsame]

/-- A write at one path leaves the permission bits that a file at another one has or gets. -/
theorem Stores.modeBehind_eq (h : Stores p q x data) (hy : IsLayerPath y) (hne : y ≠ x) :
    q.layers.modeBehind y = p.layers.modeBehind y := by
  unfold Layers.modeBehind
  rw [h.stored y hy, if_neg hne, h.newMode, h.layers, Layers.givenMode_withOutput]

/-- What is read is stored in the output layer, or is not and read in the input layer. -/
theorem stored?_of_read (hx : p.path name = .ok x) (h : p.read name = .ok data) :
    (p.layers.output.stored? x).map (·.data) = some data ∨
      p.layers.output.stored? x = none ∧ p.layers.input.read x = .ok data := by
  have hlp := isLayerPath_path hx
  unfold read at h
  rw [hx] at h
  change (ifFound (p.layers.output.read x) >>= _) = _ at h
  cases hout : p.layers.output.read x with
  | ok written =>
    rw [hout] at h
    cases h
    exact .inl (Layer.stored?_of_read hlp hout)
  | error e =>
    rw [hout, ifFound] at h
    by_cases hmissing : e.isNotFound
    · rw [if_pos hmissing] at h
      exact .inr ⟨Layer.stored?_of_notFound hlp hout hmissing, h⟩
    · rw [if_neg hmissing] at h
      cases h

/-- What is read at another path than that of a write, before and behind it, is the same. -/
theorem Stores.read_unique (h : Stores p q x data) (hy : p.path name = .ok y) (hne : y ≠ x) {before after : Bytes}
    (hp : p.read name = .ok before) (hq : q.read name = .ok after) : after = before := by
  have hlp := isLayerPath_path hy
  have hsame : q.layers.output.stored? y = p.layers.output.stored? y := (h.stored y hlp).trans (if_neg hne)
  have hq' := stored?_of_read ((path_eq_of_directory h.directory name).trans hy) hq
  rw [hsame] at hq'
  rcases stored?_of_read hy hp with hold | ⟨hnone, hold⟩
  · rcases hq' with hnew | ⟨hnone, -⟩
    · exact Option.some.inj (hnew.symm.trans hold)
    · rw [hnone] at hold
      cases hold
  · rcases hq' with hnew | ⟨-, hnew⟩
    · rw [hnone] at hnew
      cases hnew
    · rw [h.layers] at hnew
      cases hlayers : p.layers with
      | shared l =>
        rw [hlayers] at hold hnone
        have hstored := Layer.stored?_of_read (l := l) hlp hold
        rw [show l.stored? y = none from hnone] at hstored
        cases hstored
      | overlay i l =>
        rw [hlayers] at hold hnew
        exact Except.ok.inj (hnew.symm.trans hold)

/-- Only plain names are those of files that can be written. -/
theorem OverTrees.isPlain_of_write (hp : p.OverTrees) (hl : Loaded p q) (h : Package.write name data q = (.ok (), r)) :
    IsPlain name.toList := by
  obtain ⟨hplain, x, o, mode, o', hx, hmade, -, hwritten, -⟩ := write_eq_ok h
  by_contra hname
  have hq := hp.loaded hl
  obtain ⟨ss, hss, hd⟩ := hq.directory
  obtain ⟨written, -, hw, -⟩ := (load_eq_ok hl.load).names_eq
  obtain ⟨found, hfound, -⟩ := namesIn_eq_ok hw
  unfold Package.onto at hwritten
  rw [Layers.output_withOutput] at hwritten
  unfold path at hx
  cases hc : Path.clean (Path.concat q.directory name) with
  | error e =>
    rw [hc] at hx
    cases hx
  | ok y =>
    rw [hc] at hx
    cases hx
    rw [hd, ← String.ofList_toList (s := name)] at hc
    obtain ⟨us, hus, rfl⟩ := Path.clean_concat_above hss (Path.clean_spell hss) (not_mem_of_hasDirectory hplain) hname hc
    rw [hd] at hfound hmade
    exact Layer.not_write_above hq.output hss hus hfound hmade hwritten

/-- The source files of a package behind a write are those it had, and that which was written, if it is one. -/
theorem mem_fileNames_of_write (hp : p.OverTrees) (hn : IsPlain name.toList) (h : write name data p = (.ok (), q))
    {names names' : List String} (hnames : p.fileNames = .ok names) (hnames' : q.fileNames = .ok names') (n : String) :
    n ∈ names' ↔ n = name ∧ isSourceName name ∨ n ∈ names := by
  obtain ⟨ss, hss, hd⟩ := hp.directory
  obtain ⟨-, x, o, mode, o', hx, hmade, -, hwritten, rfl⟩ := write_eq_ok h
  rw [path_spell hss hd hn, Except.ok.injEq] at hx
  subst hx
  have hlayers : (wrote ((p.onto o).onto o') name (spell (ss ++ [name.toList])) data).layers = p.layers.withOutput o' :=
    Layers.withOutput_withOutput p.layers o o'
  obtain ⟨written, given, hw, hg, rfl⟩ := fileNames_eq_ok hnames
  obtain ⟨written', given', hw', hg', rfl⟩ := fileNames_eq_ok hnames'
  rw [hlayers] at hw' hg'
  rw [Layers.output_withOutput] at hw'
  unfold Package.onto at hwritten
  rw [Layers.output_withOutput] at hwritten
  -- the output layer has one name more
  have houtput : ∀ n, n ∈ written' ↔ n = name ∧ isSourceName name ∨ n ∈ written := by
    intro n
    obtain ⟨found, hfound, rfl⟩ := namesIn_eq_ok hw
    obtain ⟨found', hfound', rfl⟩ := namesIn_eq_ok hw'
    change ifFound (o'.list p.directory) = .ok found' at hfound'
    rw [hd] at hfound hfound' hmade
    have hmem := Layer.mem_found_write hp.output hss hn hmade hwritten hfound hfound' n
    rw [String.ofList_toList] at hmem
    rw [List.mem_filter, List.mem_filter, hmem]
    constructor
    · rintro ⟨rfl | hfound, hsource⟩
      · exact .inl ⟨rfl, hsource⟩
      · exact .inr ⟨hfound, hsource⟩
    · rintro (⟨rfl, hsource⟩ | ⟨hfound, hsource⟩)
      · exact ⟨.inl rfl, hsource⟩
      · exact ⟨.inr hfound, hsource⟩
  -- the input layer is the output layer, or is left as it is
  have hinput : given' = written' ∧ given = written ∨ given' = given := by
    cases hl : p.layers with
    | shared l =>
      rw [hl] at hg hw hg'
      exact .inl ⟨Except.ok.inj (hg'.symm.trans hw'), Except.ok.inj (hg.symm.trans hw)⟩
    | overlay i l =>
      rw [hl] at hg hg'
      exact .inr (Except.ok.inj (hg'.symm.trans hg))
  rw [mem_sortedNames, mem_sortedNames, List.mem_append, List.mem_append]
  rcases hinput with ⟨rfl, rfl⟩ | rfl
  · rw [or_self, or_self, houtput]
  · rw [houtput, or_assoc]

section Loaded

variable {l : Package} {f g : SourceFile}

theorem exists_path_of_read (h : p.read name = .ok data) : ∃ x, p.path name = .ok x := by
  unfold read at h
  cases hx : p.path name with
  | error e =>
    rw [hx] at h
    cases h
  | ok x => exact ⟨x, rfl⟩

theorem read_of_path {m n : String} (h : p.path m = p.path n) : p.read m = p.read n := by
  unfold read
  rw [h]

/-- A file behind a write is the one before it, unless it is the one that was written, perhaps under
another name. -/
theorem Loaded.eq_or_written (hp : p.OverTrees) (hl : Loaded p q) (hn : IsFileName name)
    (h : write name data q = (.ok (), r)) (hr : Loaded r l) (hg : g ∈ q.files) (hf : f ∈ l.files)
    (hname : f.filename = g.filename) :
    f = g ∨ q.path g.filename = q.path name ∧ p.read name = .ok g.source ∧ f.source = data := by
  have hq := hp.loaded hl
  obtain ⟨ss, hss, hd⟩ := hq.directory
  have hx := path_spell hss hd hn.isPlain
  have hstores := stores_of_write hq.directory hx h
  obtain ⟨hread, hparse⟩ := hl.files g hg
  obtain ⟨hread', hparse'⟩ := hr.files f hf
  rw [hname] at hread' hparse'
  rw [← hl.read] at hread
  obtain ⟨y, hy⟩ := exists_path_of_read hread
  by_cases hyx : y = spell (ss ++ [name.toList])
  · have hpath : q.path g.filename = q.path name := hy.trans (hyx ▸ hx.symm)
    have hpath' : r.path g.filename = r.path name := by
      rw [path_eq_of_directory hstores.directory, path_eq_of_directory hstores.directory, hpath]
    rw [read_of_path hpath', read_of_write h, Except.ok.injEq] at hread'
    rw [read_of_path hpath, hl.read] at hread
    exact .inr ⟨hpath, hread, hread'.symm⟩
  · left
    rw [hstores.read_unique hy hyx hread hread', hparse, Except.ok.injEq] at hparse'
    exact hparse'.symm

/-- The files behind a write have the names that there were, and that of the one that was written. -/
theorem Loaded.exists_behind (hp : p.OverTrees) (hl : Loaded p q) (hn : IsFileName name)
    (h : write name data q = (.ok (), r)) (hr : Loaded r l) {n : String} :
    (∃ f ∈ l.files, f.filename = n) ↔ n = name ∨ ∃ g ∈ q.files, g.filename = n := by
  have hnames : q.fileNames = .ok (q.files.map (·.filename)) := (load_eq_ok hl.load).names
  have hmem := mem_fileNames_of_write (hp.loaded hl) hn.isPlain h hnames hr.names n
  rwa [List.mem_map, List.mem_map, and_iff_left hn.suffix] at hmem

end Loaded

end Package

end GoSplice
