import GoSplice.Layer
import GoSplice.Proofs.Paths

/-!
# Files of layers in memory

What a layer in memory holds after it was written to, path by path.  A layer
that was built by writing has every file in a directory:

    l.write p bs m = ok l' → l'.file? x = if x = clean p then ⟨bs, m⟩ else l.file? x   (file?_write)
    l.makeDirs p = ok l' → l' has the directories of l and those on the way to p       (makeDirs_eq_ok)
    Built l → Sound l                                                                  (Built.sound)
-/

namespace GoSplice

open GoSplice.Path (IsPlain spell)

/-- A cleaned path is the spelling of plain names. -/
def IsLayerPath (x : String) : Prop := ∃ ss, (∀ s ∈ ss, IsPlain s) ∧ x = spell ss

theorem IsLayerPath.clean {x : String} (h : IsLayerPath x) : Path.clean x = .ok x := by
  obtain ⟨ss, hss, rfl⟩ := h
  exact Path.clean_spell hss

/-! ## Entries -/

namespace Entries

variable {β : Type}

/-- Looking up a name looks at the first entry first. -/
theorem lookup_cons (k x : String) (v : β) (es : List (String × β)) :
    ((k, v) :: es).lookup x = if x = k then some v else es.lookup x := by
  rw [List.lookup_cons]
  by_cases hx : x = k
  · simp [hx]
  · have hne : (x == k) = false := by simpa using hx
    rw [hne, if_neg hx]

theorem lookup_put (es : List (String × β)) (name x : String) (f : β) :
    (put name f es).lookup x = if x = name then some f else es.lookup x := by
  induction es with
  | nil => exact lookup_cons name x f []
  | cons e r ih =>
    obtain ⟨k, v⟩ := e
    unfold put
    by_cases hk : k = name
    · rw [if_pos hk, lookup_cons, lookup_cons, hk]
      split <;> rfl
    · rw [if_neg hk, lookup_cons, lookup_cons, ih]
      by_cases hx : x = k
      · rw [if_pos hx, if_neg (by rw [hx]; exact hk), if_pos hx]
      · rw [if_neg hx, if_neg hx]

theorem exists_lookup_of_mem {es : List (String × β)} {x : String} {f : β} (h : (x, f) ∈ es) :
    ∃ f', es.lookup x = some f' := by
  induction es with
  | nil => cases h
  | cons e r ih =>
    obtain ⟨k, v⟩ := e
    rw [lookup_cons]
    by_cases hx : x = k
    · exact ⟨v, if_pos hx⟩
    · rw [if_neg hx]
      rcases List.mem_cons.mp h with he | h
      · cases he
        exact absurd rfl hx
      · exact ih h

/-- An entry that is put where it is changes nothing. -/
theorem put_of_lookup {es : List (String × β)} {x : String} {f : β} (h : es.lookup x = some f) : put x f es = es := by
  induction es with
  | nil => cases h
  | cons e r ih =>
    obtain ⟨k, v⟩ := e
    rw [lookup_cons] at h
    unfold put
    split at h
    · next hx =>
      cases h
      rw [hx, if_pos rfl]
    · next hx => rw [if_neg (Ne.symm hx), ih h]

theorem mem_of_lookup {es : List (String × β)} {x : String} {f : β} (h : es.lookup x = some f) :
    (x, f) ∈ es := by
  induction es with
  | nil => cases h
  | cons e r ih =>
    obtain ⟨k, v⟩ := e
    rw [lookup_cons] at h
    split at h
    · next hx =>
      cases h
      rw [hx]
      exact List.mem_cons_self
    · exact List.mem_cons_of_mem _ (ih h)

end Entries

namespace MemoryLayer

/-! ## Layer paths -/

theorem resolve_eq_ok {path x : String} (h : resolve path = .ok x) : Path.clean path = .ok x := by
  unfold resolve at h
  cases hc : Path.clean path with
  | error e => rw [hc] at h; cases h
  | ok y => rw [hc] at h; cases h; rfl

theorem resolve_of_clean {path x : String} (h : Path.clean path = .ok x) : resolve path = .ok x := by
  unfold resolve
  rw [h]
  rfl

theorem resolve_layerPath {x : String} (h : IsLayerPath x) : resolve x = .ok x :=
  resolve_of_clean h.clean

/-! ## Directories -/

theorem hasDir_putDir (l : MemoryLayer) (name x : String) :
    (l.putDir name).hasDir x ↔ l.hasDir x ∨ x = name := by
  unfold putDir
  split
  · next h =>
    refine ⟨Or.inl, fun hx => hx.elim id ?_⟩
    rintro rfl
    exact h
  · simp [hasDir]

theorem files_putDir (l : MemoryLayer) (name : String) : (l.putDir name).files = l.files := by
  unfold putDir
  split <;> rfl

theorem foldl_putDir (names : List String) (l : MemoryLayer) :
    (names.foldl putDir l).files = l.files ∧
      ∀ x, (names.foldl putDir l).hasDir x ↔ l.hasDir x ∨ x ∈ names := by
  induction names generalizing l with
  | nil => simp
  | cons n names ih =>
    obtain ⟨hfiles, hdirs⟩ := ih (l.putDir n)
    refine ⟨hfiles.trans (files_putDir l n), fun x => ?_⟩
    rw [List.foldl_cons, hdirs, hasDir_putDir, List.mem_cons, or_assoc]

/-- The directories on the way to a layer path, itself included. -/
def wayTo (x : String) : List String := chain (Path.names x)

theorem makeDirs_eq_ok {l l' : MemoryLayer} {path : String} :
    l.makeDirs path = .ok l' ↔ ∃ x, Path.clean path = .ok x ∧ l.file? x = none ∧
      l' = (wayTo x).foldl putDir l := by
  constructor
  · intro h
    unfold makeDirs at h
    cases hr : resolve path with
    | error e => rw [hr] at h; cases h
    | ok x =>
      rw [hr] at h
      change (if (l.file? x).isSome then _ else _) = _ at h
      split at h
      · cases h
      · next hx =>
        cases h
        exact ⟨x, resolve_eq_ok hr, by simpa using hx, rfl⟩
  · rintro ⟨x, hx, hnone, rfl⟩
    unfold makeDirs
    rw [resolve_of_clean hx]
    change (if (l.file? x).isSome then _ else _) = _
    rw [if_neg (by simp [hnone])]
    rfl

theorem names_spell {ss : List (List Char)} (hss : ∀ s ∈ ss, IsPlain s) :
    Path.names (spell ss) = ss := by
  unfold Path.names spell
  rw [String.toList_ofList, Path.segments_spellChars (Path.plain_segments hss)]
  split
  · next h => subst h; rfl
  · exact List.filter_eq_self.mpr fun s hs => by
      simpa using ⟨(hss s hs).ne_nil, (hss s hs).ne_dot⟩

/-- The way to a path leads through all paths above it. -/
theorem mem_chain {us ss : List (List Char)} (h : us <+: ss) (hne : us ≠ []) :
    String.ofList (Path.join us) ∈ chain ss := by
  induction us generalizing ss with
  | nil => exact absurd rfl hne
  | cons s us ih =>
    obtain ⟨rest, rfl⟩ := h
    by_cases hus : us = []
    · subst hus
      exact List.mem_cons_self
    · refine List.mem_cons_of_mem _ (List.mem_map.mpr ⟨_, ih (List.prefix_append us rest) hus, ?_⟩)
      have hjoin : Path.join (s :: us) = s ++ (['/'] ++ Path.join us) := by
        cases us with
        | nil => exact absurd rfl hus
        | cons u us => rfl
      rw [hjoin, String.ofList_append, String.ofList_append, ← String.append_assoc]

theorem mem_wayTo {us ss : List (List Char)} (hss : ∀ s ∈ ss, IsPlain s) (h : us <+: ss) :
    spell us = "." ∨ spell us ∈ wayTo (spell ss) := by
  by_cases hus : us = []
  · subst hus
    exact Or.inl rfl
  · right
    unfold wayTo
    rw [names_spell hss, Path.spell_eq_join (fun s hs => hss s (h.subset hs)) hus]
    exact mem_chain h hus

/-- Behind `makeDirs` all directories on the way are there. -/
theorem hasDir_of_makeDirs {l l' : MemoryLayer} {us ss : List (List Char)}
    (hss : ∀ s ∈ ss, IsPlain s) (hus : us <+: ss) (hroot : l.hasDir ".")
    (h : l.makeDirs (spell ss) = .ok l') : l'.hasDir (spell us) := by
  obtain ⟨x, hx, -, rfl⟩ := makeDirs_eq_ok.mp h
  rw [Path.clean_spell hss, Except.ok.injEq] at hx
  subst hx
  rw [(foldl_putDir _ l).2]
  rcases mem_wayTo hss hus with he | hmem
  · rw [he]
    exact Or.inl hroot
  · exact Or.inr hmem

/-- Whether a layer refused an operation. -/
def IsLayerError (e : PatchError) : Prop := ∃ l, e = .layer l

theorem makeDirs_eq_error {l : MemoryLayer} {x : String} {e : PatchError} (hx : IsLayerPath x)
    (h : l.makeDirs x = .error e) : IsLayerError e := by
  unfold makeDirs at h
  rw [resolve_layerPath hx] at h
  change (if (l.file? x).isSome then _ else _) = _ at h
  split at h
  · cases h
    exact ⟨_, rfl⟩
  · cases h

/-! ## Writing -/

theorem file?_putFile (l : MemoryLayer) (name x : String) (f : StoredFile) :
    (l.putFile name f).file? x = if x = name then some f else l.file? x :=
  Entries.lookup_put l.files name x f

theorem hasDir_putFile (l : MemoryLayer) (name x : String) (f : StoredFile) :
    (l.putFile name f).hasDir x = l.hasDir x := rfl

theorem write_eq_ok {l l' : MemoryLayer} {path : String} {data : Bytes} {mode : Nat} :
    l.write path data mode = .ok l' ↔ ∃ x, Path.clean path = .ok x ∧ ¬ l.hasDir x ∧
      l.hasDir (Path.parent x) ∧ l' = l.putFile x ⟨data, mode⟩ := by
  constructor
  · intro h
    unfold write at h
    cases hr : resolve path with
    | error e => rw [hr] at h; cases h
    | ok x =>
      rw [hr] at h
      change (if l.hasDir x then _ else if !l.hasDir (Path.parent x) then _ else _) = _ at h
      split at h
      · cases h
      · next hx =>
        split at h
        · cases h
        · next hp =>
          cases h
          exact ⟨x, resolve_eq_ok hr, hx, by simpa using hp, rfl⟩
  · rintro ⟨x, hx, hdir, hparent, rfl⟩
    unfold write
    rw [resolve_of_clean hx]
    change (if l.hasDir x then _ else if !l.hasDir (Path.parent x) then _ else _) = _
    rw [if_neg hdir, if_neg (by simp [hparent])]
    rfl

theorem write_eq_error {l : MemoryLayer} {x : String} {data : Bytes} {mode : Nat} {e : PatchError}
    (hx : IsLayerPath x) (h : l.write x data mode = .error e) : IsLayerError e := by
  unfold write at h
  rw [resolve_layerPath hx] at h
  change (if l.hasDir x then _ else if !l.hasDir (Path.parent x) then _ else _) = _ at h
  split at h
  · cases h
    exact ⟨_, rfl⟩
  · split at h
    · cases h
      exact ⟨_, rfl⟩
    · cases h

theorem file?_write {l l' : MemoryLayer} {path x : String} {data : Bytes} {mode : Nat}
    (h : l.write path data mode = .ok l') (hx : Path.clean path = .ok x) (y : String) :
    l'.file? y = if y = x then some ⟨data, mode⟩ else l.file? y := by
  obtain ⟨x', hx', -, -, rfl⟩ := write_eq_ok.mp h
  rw [hx'] at hx
  cases hx
  exact file?_putFile l x y _

/-! ## Layers that were built -/

/-- A layer that was empty and then written to. -/
inductive Built : MemoryLayer → Prop
  | empty : Built empty
  | write {l l' : MemoryLayer} {path : String} {data : Bytes} {mode : Nat} :
      Built l → l.write path data mode = .ok l' → Built l'
  | makeDirs {l l' : MemoryLayer} {path : String} : Built l → l.makeDirs path = .ok l' → Built l'

/-- A layer with a root whose files lie in directories. -/
structure Sound (l : MemoryLayer) : Prop where
  root : l.hasDir "."
  path : ∀ x f, l.file? x = some f → IsLayerPath x ∧ x ≠ "."
  parent : ∀ x f, l.file? x = some f → l.hasDir (Path.parent x)

theorem sound_empty : Sound empty := by
  refine ⟨rfl, ?_, ?_⟩
  · intro x f h
    cases h
  · intro x f h
    cases h

theorem Sound.write {l l' : MemoryLayer} {path : String} {data : Bytes} {mode : Nat}
    (hl : Sound l) (h : l.write path data mode = .ok l') : Sound l' := by
  obtain ⟨x, hx, hdir, hparent, rfl⟩ := write_eq_ok.mp h
  have hfile : ∀ y f, (l.putFile x ⟨data, mode⟩).file? y = some f →
      y = x ∨ l.file? y = some f := by
    intro y f hy
    rw [file?_putFile] at hy
    split at hy
    · next he => exact Or.inl he
    · exact Or.inr hy
  refine ⟨hl.root, fun y f hy => ?_, fun y f hy => ?_⟩
  · rcases hfile y f hy with rfl | hy
    · refine ⟨Path.clean_eq_ok hx, ?_⟩
      rintro rfl
      exact hdir hl.root
    · exact hl.path y f hy
  · rcases hfile y f hy with rfl | hy
    · exact hparent
    · exact hl.parent y f hy

theorem Sound.makeDirs {l l' : MemoryLayer} {path : String} (hl : Sound l)
    (h : l.makeDirs path = .ok l') : Sound l' := by
  obtain ⟨x, -, -, rfl⟩ := makeDirs_eq_ok.mp h
  obtain ⟨hfiles, hdirs⟩ := foldl_putDir (wayTo x) l
  have hfile : ∀ y, ((wayTo x).foldl putDir l).file? y = l.file? y := by
    intro y
    unfold file?
    rw [hfiles]
  refine ⟨(hdirs _).mpr (Or.inl hl.root), fun y f hy => ?_, fun y f hy => ?_⟩
  · rw [hfile] at hy
    exact hl.path y f hy
  · rw [hfile] at hy
    exact (hdirs _).mpr (Or.inl (hl.parent y f hy))

theorem Built.sound {l : MemoryLayer} (h : Built l) : Sound l := by
  induction h with
  | empty => exact sound_empty
  | write _ hw ih => exact ih.write hw
  | makeDirs _ hm ih => exact ih.makeDirs hm

end MemoryLayer

end GoSplice
