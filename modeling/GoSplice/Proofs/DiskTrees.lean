import Mathlib.Data.List.Induction
import GoSplice.Proofs.ExistingFiles

/-!
# Directory trees by their paths

What stands at a path of a directory tree: a file, a directory or nothing.  Operations that write
are told by what stands where behind them:

    n.write path data mode = ok n' → n' has the file at path, all else as before       (spot_write)
    n.makeDirs path mode = ok n' → n' has directories on the way, all else as before   (spot_makeDirs)

A file can be written where its directory is one and it is none itself; a directory can be made
where no file stands on the way:

    (∃ n', n.write (path ++ [s]) data mode = ok n') ↔ path is a directory, path ++ [s] is none
                                                                                       (write_succeeds)
    (∃ n', n.makeDirs path mode = ok n') ↔ no file stands on the way to path           (makeDirs_succeeds)
-/

namespace GoSplice

/-! ## Entries -/

namespace Entries

variable {β : Type} {entries : List (String × β)}

/-- Putting an entry repeats no name. -/
theorem nodup_put (h : (entries.map (·.1)).Nodup) (name : String) (value : β) :
    ((put name value entries).map (·.1)).Nodup := by
  induction entries with
  | nil => exact List.pairwise_singleton _ name
  | cons e entries ih =>
    rw [List.map_cons, List.nodup_cons] at h
    unfold put
    split
    · next hname =>
      rw [List.map_cons, List.nodup_cons, ← hname]
      exact h
    · next hname =>
      rw [List.map_cons, List.nodup_cons]
      refine ⟨fun hmem => ?_, ih h.2⟩
      obtain ⟨⟨k, v⟩, hkv, hk⟩ := List.mem_map.mp hmem
      obtain ⟨w, hw⟩ := exists_lookup_of_mem hkv
      rw [lookup_put] at hw
      split at hw
      · next hkname => exact hname (hk.symm.trans hkname)
      · refine h.1 (List.mem_map.mpr ⟨_, mem_of_lookup hw, hk⟩)

/-- Where no name is used twice, the entry of a name is the one that is found. -/
theorem lookup_of_mem (h : (entries.map (·.1)).Nodup) {name : String} {value : β}
    (hmem : (name, value) ∈ entries) : entries.lookup name = some value := by
  induction entries with
  | nil => cases hmem
  | cons e entries ih =>
    obtain ⟨k, v⟩ := e
    rw [List.map_cons, List.nodup_cons] at h
    rw [lookup_cons]
    rcases List.mem_cons.mp hmem with heq | hrest
    · cases heq
      exact if_pos rfl
    · rw [if_neg, ih h.2 hrest]
      rintro rfl
      exact h.1 (List.mem_map.mpr ⟨_, hrest, rfl⟩)

end Entries

/-! ## Paths -/

/-- What stands at a path. -/
inductive Spot where
  | nothing
  | directory
  | file (f : StoredFile)
  deriving Repr, DecidableEq

/-- What stands there, if it is a file. -/
def Spot.file? : Spot → Option StoredFile
  | .file f => some f
  | _ => none

namespace DiskTree

/-- What a node is. -/
def kind : DiskTree → Spot
  | .file f => .file f
  | .dir .. => .directory

/-- What stands at a path of a tree. -/
def spot (n : DiskTree) (path : List String) : Spot :=
  match n.find path with
  | .ok m => m.kind
  | .error _ => .nothing

variable {n n' m : DiskTree} {path more : List String} {s : String} {mode : Nat} {data : Bytes}

theorem spot_of_find (h : n.find path = .ok m) : n.spot path = m.kind := by
  unfold spot
  rw [h]

theorem spot_of_error {e : LayerProblem} (h : n.find path = .error e) : n.spot path = .nothing := by
  unfold spot
  rw [h]

theorem spot_eq_file {f : StoredFile} : n.spot path = .file f ↔ n.find path = .ok (.file f) := by
  unfold spot
  cases n.find path with
  | error e => exact ⟨nofun, nofun⟩
  | ok m =>
    cases m with
    | file g => exact ⟨fun h => by cases h; rfl, fun h => by cases h; rfl⟩
    | dir mode entries => exact ⟨nofun, nofun⟩

theorem spot_eq_directory : n.spot path = .directory ↔ ∃ mode entries, n.find path = .ok (.dir mode entries) := by
  unfold spot
  cases n.find path with
  | error e => exact ⟨nofun, nofun⟩
  | ok m =>
    cases m with
    | file g => exact ⟨nofun, nofun⟩
    | dir mode entries => exact ⟨fun _ => ⟨mode, entries, rfl⟩, fun _ => rfl⟩

theorem spot_eq_nothing : n.spot path = .nothing ↔ ∃ e, n.find path = .error e := by
  unfold spot
  cases n.find path with
  | error e => exact ⟨fun _ => ⟨e, rfl⟩, fun _ => rfl⟩
  | ok m => cases m <;> exact ⟨nofun, nofun⟩

theorem read_toOption (n : DiskTree) (path : List String) :
    (n.read path).toOption = (n.spot path).file?.map (·.data) := by
  unfold read spot
  cases n.find path with
  | error e => rfl
  | ok m => cases m <;> rfl

/-! ## Paths above others -/

/-- Whatever stands below a path stands in a directory. -/
theorem spot_above (h : n.spot (path ++ more) ≠ .nothing) (hmore : more ≠ []) : n.spot path = .directory := by
  cases hfind : n.find path with
  | error e =>
    refine absurd ?_ h
    rw [spot_eq_nothing, find_append, hfind]
    exact ⟨e, rfl⟩
  | ok m =>
    cases m with
    | dir mode entries => exact spot_of_find hfind
    | file f =>
      obtain ⟨s, more, rfl⟩ := List.exists_cons_of_ne_nil hmore
      refine absurd ?_ h
      rw [spot_eq_nothing, find_append, hfind]
      exact ⟨_, rfl⟩

/-- No file stands at a path or above it. -/
def IsFree (n : DiskTree) (path : List String) : Prop := ∀ q, q <+: path → ∀ f, n.spot q ≠ .file f

/-- What is missing is missing in a directory, or no file stands above it. -/
theorem isFree_of_notFound (h : n.find path = .error .notFound) : n.IsFree path := by
  rintro q ⟨more, rfl⟩ f hf
  rw [spot_eq_file] at hf
  rw [find_append, hf] at h
  cases more <;> cases h

theorem isFree_of_directory (h : n.spot path = .directory) : n.IsFree path := by
  rintro q ⟨more, rfl⟩ f hf
  cases more with
  | nil =>
    rw [List.append_nil, hf] at h
    cases h
  | cons s more =>
    rw [spot_above (by rw [h]; nofun) (List.cons_ne_nil s more)] at hf
    cases hf

/-- A path that meets something else than a directory meets a file. -/
theorem exists_file_above (h : n.find path = .error .notDirectory) :
    ∃ q, q <+: path ∧ q ≠ path ∧ ∃ f, n.spot q = .file f := by
  induction path generalizing n with
  | nil => cases h
  | cons s path ih =>
    cases n with
    | file f => exact ⟨[], List.nil_prefix, nofun, f, rfl⟩
    | dir mode entries =>
      rw [find] at h
      cases hlookup : entries.lookup s with
      | none =>
        rw [hlookup] at h
        cases h
      | some m =>
        rw [hlookup] at h
        obtain ⟨q, hq, hne, f, hf⟩ := ih h
        refine ⟨s :: q, (List.prefix_cons_inj s).mpr hq, fun heq => hne (List.cons.inj heq).2, f, ?_⟩
        rw [spot_eq_file] at hf ⊢
        rw [find, hlookup]
        exact hf

/-! ## Changes -/

/-- A node with nothing below it. -/
inductive IsLeaf : DiskTree → Prop
  | file (f : StoredFile) : IsLeaf (.file f)
  | emptyDir (mode : Nat) : IsLeaf (.dir mode [])

theorem IsLeaf.spot_cons (h : n.IsLeaf) (s : String) (path : List String) : n.spot (s :: path) = .nothing := by
  cases h <;> rfl

theorem spot_dir_cons (mode : Nat) (entries : List (String × DiskTree)) (s : String) (path : List String) :
    (dir mode entries).spot (s :: path) = match entries.lookup s with
      | some m => m.spot path
      | none => .nothing := by
  unfold spot
  rw [find]
  cases entries.lookup s <;> rfl

variable {f : Option DiskTree → Except LayerProblem DiskTree}

/-- A change that puts one leaf in the place of another is seen at its path alone. -/
theorem spot_change (hold : ∀ k new, f (some k) = .ok new → k.IsLeaf) (hnew : ∀ k new, f k = .ok new → new.IsLeaf)
    (h : change f n path = .ok n') {q : List String} (hq : q ≠ path) : n'.spot q = n.spot q := by
  induction path generalizing n n' q with
  | nil =>
    obtain ⟨s, q, rfl⟩ := List.exists_cons_of_ne_nil hq
    exact ((hnew _ _ h).spot_cons s q).trans ((hold _ _ h).spot_cons s q).symm
  | cons s path ih =>
    cases n with
    | file g => cases h
    | dir mode entries =>
      -- below another entry nothing changes, below this one what the change of the entry does
      have hput : ∀ k' : DiskTree, (∀ q', s :: q' ≠ s :: path → k'.spot q' = (dir mode entries).spot (s :: q')) →
          (dir mode (Entries.put s k' entries)).spot q = (dir mode entries).spot q := by
        intro k' hk'
        cases q with
        | nil => rfl
        | cons t q =>
          rw [spot_dir_cons, Entries.lookup_put]
          by_cases hts : t = s
          · subst hts
            rw [if_pos rfl]
            exact hk' q hq
          · rw [if_neg hts, spot_dir_cons]
      unfold change at h
      cases hlookup : entries.lookup s with
      | some k =>
        rw [hlookup] at h
        obtain ⟨k', hk, rfl⟩ := exists_of_map_ok h
        apply hput
        intro q' hne
        rw [spot_dir_cons, hlookup]
        exact ih hk fun heq => hne (congrArg _ heq)
      | none =>
        rw [hlookup] at h
        cases path with
        | cons t path => cases h
        | nil =>
          obtain ⟨k', hk, rfl⟩ := exists_of_map_ok h
          apply hput
          intro q' hne
          obtain ⟨t, q', rfl⟩ := List.exists_cons_of_ne_nil fun heq => hne (congrArg _ heq)
          rw [spot_dir_cons, hlookup]
          exact (hnew _ _ hk).spot_cons t q'

theorem map_succeeds {ε α β : Type} {x : Except ε α} {g : α → β} : (∃ b, x.map g = .ok b) ↔ ∃ a, x = .ok a := by
  cases x with
  | error e => exact ⟨fun ⟨_, h⟩ => (by cases h), fun ⟨_, h⟩ => (by cases h)⟩
  | ok a => exact ⟨fun _ => ⟨a, rfl⟩, fun _ => ⟨g a, rfl⟩⟩

/-- An entry of a directory can be changed as the change itself allows. -/
theorem change_succeeds : (∃ n', change f n (path ++ [s]) = .ok n') ↔
    n.spot path = .directory ∧ ∃ new, f (n.find (path ++ [s])).toOption = .ok new := by
  induction path generalizing n with
  | nil =>
    cases n with
    | file g =>
      constructor
      · rintro ⟨n', h⟩
        cases h
      · rintro ⟨h, -⟩
        cases h
    | dir mode entries =>
      have hchange : change f (dir mode entries) [s] =
          (f ((dir mode entries).find [s]).toOption).map fun k => dir mode (Entries.put s k entries) := by
        unfold change
        rw [find]
        cases entries.lookup s with
        | some k => cases k <;> rfl
        | none => rfl
      rw [List.nil_append, hchange, map_succeeds]
      exact (and_iff_right rfl).symm
  | cons t path ih =>
    cases n with
    | file g =>
      constructor
      · rintro ⟨n', h⟩
        cases h
      · rintro ⟨h, -⟩
        cases h
    | dir mode entries =>
      rw [List.cons_append, find, spot_dir_cons]
      cases hlookup : entries.lookup t with
      | none =>
        constructor
        · rintro ⟨n', h⟩
          unfold change at h
          rw [hlookup] at h
          cases path <;> cases h
        · rintro ⟨h, -⟩
          cases h
      | some k =>
        have hchange : change f (dir mode entries) (t :: (path ++ [s])) =
            (change f k (path ++ [s])).map fun k' => dir mode (Entries.put t k' entries) := by
          conv => lhs; unfold change
          rw [hlookup]
        rw [hchange, map_succeeds]
        exact ih

/-- A path of which more than its last name is missing cannot be changed. -/
theorem change_of_missing (h : n.find path = .error .notFound) : change f n (path ++ [s]) = .error .notFound := by
  induction path generalizing n with
  | nil => cases h
  | cons t path ih =>
    cases n with
    | file g => cases h
    | dir mode entries =>
      rw [find] at h
      rw [List.cons_append]
      unfold change
      cases hlookup : entries.lookup t with
      | none => cases path <;> rfl
      | some m =>
        rw [hlookup] at h
        dsimp only
        rw [ih h]
        rfl

/-! ## Files -/

/-- The file that a write leaves: one that is there keeps its permission bits. -/
def written (n : DiskTree) (path : List String) (data : Bytes) (mode : Nat) : StoredFile :=
  match n.spot path with
  | .file f => ⟨data, f.mode⟩
  | _ => ⟨data, mode &&& fileBits⟩

theorem write_succeeds : (∃ n', n.write (path ++ [s]) data mode = .ok n') ↔
    n.spot path = .directory ∧ n.spot (path ++ [s]) ≠ .directory := by
  unfold write
  rw [change_succeeds]
  apply and_congr_right
  intro _
  unfold spot
  cases n.find (path ++ [s]) with
  | error e => exact ⟨fun _ => nofun, fun _ => ⟨_, rfl⟩⟩
  | ok m =>
    cases m with
    | file g => exact ⟨fun _ => nofun, fun _ => ⟨_, rfl⟩⟩
    | dir mode entries =>
      constructor
      · rintro ⟨new, h⟩
        cases h
      · exact fun h => absurd rfl h

theorem write_of_directory (h : n.spot path = .directory) : n.write path data mode = .error .isDirectory := by
  obtain ⟨m, entries, hfind⟩ := spot_eq_directory.mp h
  exact change_of_find hfind rfl

theorem spot_write (h : n.write path data mode = .ok n') (q : List String) :
    n'.spot q = if q = path then .file (n.written path data mode) else n.spot q := by
  by_cases hq : q = path
  · rw [if_pos hq, hq, spot_eq_file]
    obtain ⟨new, hnew, hfind⟩ := find_change h
    rw [hfind]
    unfold written spot
    cases hold : n.find path with
    | error e =>
      rw [hold] at hnew
      exact congrArg Except.ok (Except.ok.inj hnew).symm
    | ok m =>
      rw [hold] at hnew
      cases m with
      | file g => exact congrArg Except.ok (Except.ok.inj hnew).symm
      | dir mode entries => cases hnew
  · rw [if_neg hq]
    refine spot_change (fun k new hk => ?_) (fun k new hk => ?_) h hq
    · cases k with
      | file g => exact IsLeaf.file g
      | dir mode entries => cases hk
    · split at hk
      · cases hk
        exact IsLeaf.file _
      · cases hk
      · cases hk
        exact IsLeaf.file _

/-! ## Directories -/

theorem makeDir_succeeds : (∃ n', n.makeDir (path ++ [s]) mode = .ok n') ↔
    n.spot path = .directory ∧ n.spot (path ++ [s]) = .nothing := by
  unfold makeDir
  rw [change_succeeds]
  apply and_congr_right
  intro _
  unfold spot
  cases n.find (path ++ [s]) with
  | error e => exact ⟨fun _ => rfl, fun _ => ⟨_, rfl⟩⟩
  | ok m =>
    constructor
    · rintro ⟨new, h⟩
      cases h
    · intro h
      cases m <;> cases h

theorem spot_makeDir (h : n.makeDir path mode = .ok n') (q : List String) :
    n'.spot q = if q = path then .directory else n.spot q := by
  by_cases hq : q = path
  · obtain ⟨m, hm⟩ := find_makeDir h
    rw [if_pos hq, hq, spot_of_find hm]
    rfl
  · rw [if_neg hq]
    refine spot_change (fun k new hk => ?_) (fun k new hk => ?_) h hq
    · cases hk
    · split at hk
      · cases hk
      · cases hk
        exact IsLeaf.emptyDir _

/-- Directories are made where there is nothing, and hide no file. -/
theorem file?_makeDir (h : n.makeDir path mode = .ok n') (q : List String) : (n'.spot q).file? = (n.spot q).file? := by
  rw [spot_makeDir h]
  split
  · next hq =>
    rcases List.eq_nil_or_concat path with rfl | ⟨above, s, rfl⟩
    · cases h
    · rw [List.concat_eq_append] at h hq
      obtain ⟨-, hnothing⟩ := makeDir_succeeds.mp ⟨n', h⟩
      rw [hq, hnothing]
      rfl
  · rfl

/-- A directory that cannot be made, in a directory that could be changed, is there or a file is. -/
theorem makeDir_eq_error {e : LayerProblem} (h : n.makeDir path mode = .error e) (hne : path ≠ []) :
    e = .notFound ∧ (∃ above s, path = above ++ [s] ∧ n.find above = .error .notFound) ∨
      e ≠ .notFound ∧ (n.spot path = .directory ∨ ¬ n.IsFree path) := by
  obtain ⟨above, s, rfl⟩ : ∃ above s, path = above ++ [s] := by
    rcases List.eq_nil_or_concat path with rfl | ⟨above, s, rfl⟩
    · exact absurd rfl hne
    · exact ⟨above, s, List.concat_eq_append⟩
  cases hfind : n.find (above ++ [s]) with
  | ok m =>
    have hmake : n.makeDir (above ++ [s]) mode = .error .alreadyExists := change_of_find hfind rfl
    rw [h] at hmake
    cases hmake
    refine .inr ⟨nofun, ?_⟩
    cases m with
    | dir m entries => exact .inl (spot_of_find hfind)
    | file f => exact .inr fun hfree => hfree _ (List.prefix_refl _) f (spot_of_find hfind)
  | error e' =>
    rcases find_eq_error hfind with rfl | rfl
    · -- the directory above is missing too, as an entry of it could be made
      left
      have hfree := isFree_of_notFound hfind
      cases habove : n.find above with
      | error e'' =>
        rcases find_eq_error habove with rfl | rfl
        · have hmake : n.makeDir (above ++ [s]) mode = .error .notFound := change_of_missing habove
          rw [h] at hmake
          cases hmake
          exact ⟨rfl, above, s, rfl, habove⟩
        · obtain ⟨q, hq, -, f, hf⟩ := exists_file_above habove
          exact absurd hf (hfree q (hq.trans (List.prefix_append above [s])) f)
      | ok m =>
        cases m with
        | file f => exact absurd (spot_of_find habove) (hfree above (List.prefix_append above [s]) f)
        | dir m entries =>
          obtain ⟨n', hn'⟩ := makeDir_succeeds.mpr ⟨spot_of_find habove, spot_of_error hfind⟩
          rw [h] at hn'
          cases hn'
    · have hmake : n.makeDir (above ++ [s]) mode = .error .notDirectory := change_of_notDirectory hfind
      rw [h] at hmake
      cases hmake
      obtain ⟨q, hq, -, f, hf⟩ := exists_file_above hfind
      exact .inr ⟨nofun, .inr fun hfree => hfree q hq f hf⟩

theorem isDirAt_eq : n.isDirAt path = decide (n.spot path = .directory) := by
  unfold isDirAt spot
  cases n.find path with
  | error e => rfl
  | ok m => cases m <;> rfl

/-- All that stands on the way to a directory are directories. -/
theorem spot_of_prefix (h : n.spot path = .directory) {q : List String} (hq : q <+: path) : n.spot q = .directory := by
  obtain ⟨more, rfl⟩ := hq
  by_cases hmore : more = []
  · rwa [hmore, List.append_nil] at h
  · exact spot_above (by rw [h]; nofun) hmore

theorem makeDirsUp_of_made (h : n.makeDir (path ++ [s]) mode = .ok n') :
    n.makeDirsUp mode (path ++ [s]).reverse = .ok n' := by
  simp only [List.reverse_concat, makeDirsUp, List.reverse_cons, List.reverse_reverse, h]

theorem makeDirsUp_of_notFound (h : n.makeDir (path ++ [s]) mode = .error .notFound) :
    n.makeDirsUp mode (path ++ [s]).reverse =
      n.makeDirsUp parentMode path.reverse >>= (·.makeDir (path ++ [s]) mode) := by
  simp only [List.reverse_concat, makeDirsUp, List.reverse_cons, List.reverse_reverse, h]

theorem makeDirsUp_of_error (h : n.makeDir (path ++ [s]) mode = .error e) (he : e ≠ .notFound) :
    n.makeDirsUp mode (path ++ [s]).reverse = if n.isDirAt (path ++ [s]) then .ok n else .error e := by
  cases e <;>
    first | exact absurd rfl he
          | simp only [List.reverse_concat, makeDirsUp, List.reverse_cons, List.reverse_reverse, h]

/-- What a run up a path makes: the directories on the way, unless a file is in the way. -/
theorem makeDirsUp_spec (hroot : n.spot [] = .directory) (path : List String) (mode : Nat) :
    (∃ n', n.makeDirsUp mode path.reverse = .ok n' ∧
      ∀ q, n'.spot q = if q <+: path then .directory else n.spot q) ∧ n.IsFree path ∨
    (∃ e, n.makeDirsUp mode path.reverse = .error e) ∧ ¬ n.IsFree path := by
  induction path using List.reverseRecOn generalizing mode with
  | nil =>
    refine .inl ⟨⟨n, rfl, fun q => ?_⟩, isFree_of_directory hroot⟩
    split
    · next hq => rw [List.prefix_nil.mp hq, hroot]
    · rfl
  | append_singleton path s ih =>
    have hmade : ∀ r n' : DiskTree, r.makeDir (path ++ [s]) mode = .ok n' →
        (∀ q, r.spot q = if q <+: path then .directory else n.spot q) →
        ∀ q, n'.spot q = if q <+: path ++ [s] then .directory else n.spot q := by
      intro r n' hmake hr q
      rw [spot_makeDir hmake, hr]
      by_cases hq : q = path ++ [s]
      · rw [if_pos hq, if_pos (hq ▸ List.prefix_refl _)]
      · rw [if_neg hq]
        simp only [List.prefix_concat_iff, hq, false_or]
    cases hmake : n.makeDir (path ++ [s]) mode with
    | ok n' =>
      left
      obtain ⟨habove, hnothing⟩ := makeDir_succeeds.mp ⟨n', hmake⟩
      refine ⟨⟨n', makeDirsUp_of_made hmake, hmade n n' hmake fun q => ?_⟩, fun q hq f hf => ?_⟩
      · split
        · next hq => exact spot_of_prefix habove hq
        · rfl
      · rcases List.prefix_concat_iff.mp hq with rfl | hq
        · rw [hnothing] at hf
          cases hf
        · exact isFree_of_directory habove q hq f hf
    | error e =>
      rcases makeDir_eq_error hmake (by simp) with ⟨rfl, above, t, heq, hmissing⟩ | ⟨he, hthere⟩
      · -- the directories above are made first, and the last one then
        left
        obtain ⟨rfl, -⟩ := List.append_inj' heq rfl
        have hnothing : n.spot (path ++ [s]) = .nothing := by
          rw [spot_eq_nothing, find_append, hmissing]
          exact ⟨_, rfl⟩
        have hfree : n.IsFree path := isFree_of_notFound hmissing
        obtain ⟨r, hr, hspot⟩ := ((ih parentMode).resolve_right fun h => h.2 hfree).1
        have hbelow : ¬ path ++ [s] <+: path := by
          intro hpre
          have hlength := hpre.length_le
          rw [List.length_append, List.length_singleton] at hlength
          omega
        obtain ⟨n', hn'⟩ : ∃ n', r.makeDir (path ++ [s]) mode = .ok n' := by
          rw [makeDir_succeeds, hspot, hspot, if_pos (List.prefix_refl _), if_neg hbelow]
          exact ⟨rfl, hnothing⟩
        refine ⟨⟨n', ?_, hmade r n' hn' hspot⟩, fun q hq f hf => ?_⟩
        · rw [makeDirsUp_of_notFound hmake, hr]
          exact hn'
        · rcases List.prefix_concat_iff.mp hq with rfl | hq
          · rw [hnothing] at hf
            cases hf
          · exact hfree q hq f hf
      · by_cases hdir : n.spot (path ++ [s]) = .directory
        · refine .inl ⟨⟨n, ?_, fun q => ?_⟩, isFree_of_directory hdir⟩
          · rw [makeDirsUp_of_error hmake he, isDirAt_eq, hdir]
            rfl
          · split
            · next hq => exact spot_of_prefix hdir hq
            · rfl
        · refine .inr ⟨⟨e, ?_⟩, hthere.resolve_left hdir⟩
          rw [makeDirsUp_of_error hmake he, isDirAt_eq, decide_eq_false hdir]
          rfl

theorem makeDirs_eq (n : DiskTree) (path : List String) (mode : Nat) :
    n.makeDirs path mode = n.makeDirsUp mode path.reverse := by
  unfold makeDirs
  cases path <;> rfl

/-- What making one directory keeps, making those above it keeps too. -/
theorem makeDirs_keeps {P : DiskTree → Prop}
    (hmake : ∀ {n n' : DiskTree} {path : List String} {mode : Nat}, n.makeDir path mode = .ok n' → P n → P n')
    (hn : P n) (h : n.makeDirs path mode = .ok n') : P n' := by
  rw [makeDirs_eq] at h
  induction path using List.reverseRecOn generalizing mode n' with
  | nil =>
    cases h
    exact hn
  | append_singleton path s ih =>
    cases hfirst : n.makeDir (path ++ [s]) mode with
    | ok r =>
      rw [makeDirsUp_of_made hfirst] at h
      cases h
      exact hmake hfirst hn
    | error e =>
      by_cases he : e = .notFound
      · rw [makeDirsUp_of_notFound (he ▸ hfirst)] at h
        cases hup : n.makeDirsUp parentMode path.reverse with
        | error e' =>
          rw [hup] at h
          cases h
        | ok r =>
          rw [hup] at h
          exact hmake h (ih hup)
      · rw [makeDirsUp_of_error hfirst he] at h
        split at h
        · cases h
          exact hn
        · cases h

theorem file?_makeDirs (h : n.makeDirs path mode = .ok n') (q : List String) : (n'.spot q).file? = (n.spot q).file? :=
  makeDirs_keeps (P := fun m => (m.spot q).file? = (n.spot q).file?) (fun hm hq => (file?_makeDir hm q).trans hq) rfl h

theorem makeDirs_succeeds (hroot : n.spot [] = .directory) : (∃ n', n.makeDirs path mode = .ok n') ↔ n.IsFree path := by
  rw [makeDirs_eq]
  rcases makeDirsUp_spec hroot path mode with ⟨⟨n', h, -⟩, hfree⟩ | ⟨⟨e, h⟩, hfree⟩
  · exact ⟨fun _ => hfree, fun _ => ⟨n', h⟩⟩
  · refine ⟨fun ⟨n', h'⟩ => ?_, fun hfree' => absurd hfree' hfree⟩
    rw [h] at h'
    cases h'

theorem spot_makeDirs (hroot : n.spot [] = .directory) (h : n.makeDirs path mode = .ok n') (q : List String) :
    n'.spot q = if q <+: path then .directory else n.spot q := by
  rw [makeDirs_eq] at h
  rcases makeDirsUp_spec hroot path mode with ⟨⟨n'', h', hspot⟩, -⟩ | ⟨⟨e, h'⟩, -⟩
  · rw [h] at h'
    cases h'
    exact hspot q
  · rw [h] at h'
    cases h'

/-! ## Names -/

/-- The names of the entries of the directory at a path. -/
def names (n : DiskTree) (path : List String) : List String :=
  match n.find path with
  | .ok (.dir _ entries) => entries.map (·.1)
  | _ => []

theorem IsLeaf.names_eq_nil (h : n.IsLeaf) (path : List String) : n.names path = [] := by
  cases path with
  | nil => cases h <;> rfl
  | cons s path => cases h <;> rfl

theorem names_dir_cons (mode : Nat) (entries : List (String × DiskTree)) (s : String) (path : List String) :
    (dir mode entries).names (s :: path) = match entries.lookup s with
      | some m => m.names path
      | none => [] := by
  unfold names
  rw [find]
  cases entries.lookup s <;> rfl

/-- Putting leaves into directories repeats no name. -/
theorem nodup_names_change (hnew : ∀ k new, f k = .ok new → new.IsLeaf) (h : change f n path = .ok n')
    {q : List String} (hn : (n.names q).Nodup) : (n'.names q).Nodup := by
  induction path generalizing n n' q with
  | nil =>
    rw [(hnew _ _ h).names_eq_nil]
    exact .nil
  | cons s path ih =>
    cases n with
    | file g => cases h
    | dir mode entries =>
      have hput : ∀ k' : DiskTree, (∀ q', q = s :: q' → (k'.names q').Nodup) →
          ((dir mode (Entries.put s k' entries)).names q).Nodup := by
        intro k' hk'
        cases q with
        | nil => exact Entries.nodup_put hn s k'
        | cons t q =>
          rw [names_dir_cons, Entries.lookup_put]
          by_cases hts : t = s
          · subst hts
            rw [if_pos rfl]
            exact hk' q rfl
          · rw [if_neg hts, ← names_dir_cons mode]
            exact hn
      unfold change at h
      cases hlookup : entries.lookup s with
      | some k =>
        rw [hlookup] at h
        obtain ⟨k', hk, rfl⟩ := exists_of_map_ok h
        apply hput
        rintro q' rfl
        rw [names_dir_cons, hlookup] at hn
        exact ih hk hn
      | none =>
        rw [hlookup] at h
        cases path with
        | cons t path => cases h
        | nil =>
          obtain ⟨k', hk, rfl⟩ := exists_of_map_ok h
          apply hput
          rintro q' -
          rw [(hnew _ _ hk).names_eq_nil]
          exact .nil

theorem nodup_names_write (h : n.write path data mode = .ok n') {q : List String} (hn : (n.names q).Nodup) :
    (n'.names q).Nodup := by
  refine nodup_names_change (fun k new hk => ?_) h hn
  split at hk
  · cases hk
    exact .file _
  · cases hk
  · cases hk
    exact .file _

theorem nodup_names_makeDir (h : n.makeDir path mode = .ok n') {q : List String} (hn : (n.names q).Nodup) :
    (n'.names q).Nodup := by
  refine nodup_names_change (fun k new hk => ?_) h hn
  split at hk
  · cases hk
  · cases hk
    exact .emptyDir _

theorem nodup_names_makeDirs (h : n.makeDirs path mode = .ok n') {q : List String} (hn : (n.names q).Nodup) :
    (n'.names q).Nodup :=
  makeDirs_keeps (P := fun n => (n.names q).Nodup) (fun hm => nodup_names_makeDir hm) hn h

/-! ## Listing -/

/-- What is listed of a directory are the names of its files, in order and each once. -/
theorem list_spec (hn : (n.names path).Nodup) :
    (∃ files : List String, n.list path = .ok (files.mergeSort fun a b => a ≤ b) ∧ files.Nodup ∧
      ∀ s, s ∈ files ↔ ∃ f, n.spot (path ++ [s]) = .file f) ∧ n.spot path = .directory ∨
    (∃ e, n.list path = .error e) ∧ n.spot path ≠ .directory := by
  unfold list
  unfold names at hn
  cases hfind : n.find path with
  | error e => exact .inr ⟨⟨e, rfl⟩, by rw [spot_of_error hfind]; nofun⟩
  | ok m =>
    cases m with
    | file f => exact .inr ⟨⟨_, rfl⟩, by rw [spot_of_find hfind]; nofun⟩
    | dir mode entries =>
      rw [hfind] at hn
      dsimp only at hn
      refine .inl ⟨⟨_, rfl, ?_, fun s => ?_⟩, spot_of_find hfind⟩
      · exact hn.sublist (List.filter_sublist.map _)
      · have hspot : n.spot (path ++ [s]) = (dir mode entries).spot [s] := by
          unfold spot
          rw [find_append, hfind]
          rfl
        rw [hspot, spot_dir_cons, List.mem_map]
        constructor
        · rintro ⟨⟨k, m⟩, hmem, rfl⟩
          obtain ⟨hmem, hfile⟩ := List.mem_filter.mp hmem
          dsimp only
          rw [Entries.lookup_of_mem hn hmem]
          cases m with
          | file f => exact ⟨f, rfl⟩
          | dir mode entries => cases hfile
        · rintro ⟨f, hf⟩
          cases hlookup : entries.lookup s with
          | none =>
            rw [hlookup] at hf
            cases hf
          | some m =>
            rw [hlookup] at hf
            cases m with
            | dir mode entries => cases hf
            | file g => exact ⟨(s, .file g), List.mem_filter.mpr ⟨Entries.mem_of_lookup hlookup, rfl⟩, rfl⟩

end DiskTree

end GoSplice
