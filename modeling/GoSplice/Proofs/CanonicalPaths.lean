import GoSplice.Proofs.LayerFiles

/-!
# Canonical paths

A layer path is the one canonical spelling of the entry that it leads to.  Cleaning it changes
nothing, every layer does the same on all spellings of it, and it is put together from its
directory and its last name as it is taken apart:

    clean x = ok x ↔ x is a layer path                                     (clean_eq_self_iff)
    clean p = clean q = ok c → l.SameEntry p q                             (sameEntry_of_clean)
    clean (concat d n) = ok (child d n), cleanParent (child d n) = ok d,
      baseName (child d n) = n                                             (clean_child)
    c ≠ "." → c = child d n for some d and n                               (exists_child)

Here `d` and `c` are layer paths, and `n` is a plain name.
-/

namespace GoSplice

open GoSplice.Path (IsPlain spell)

/-! ## One entry under many spellings -/

/-- An error without the text of a layer in memory, which repeats the path as it was given. -/
def PatchError.unspelled : PatchError → PatchError
  | .layer (.memory problem _) => .layer (.memory problem "")
  | e => e

/-- The outcome of an operation, whatever the spelling of its path. -/
def unspelled {α : Type} (r : Except PatchError α) : Except PatchError α := r.mapError PatchError.unspelled

theorem unspelled_map {α β : Type} (f : α → β) (r : Except PatchError α) : unspelled (f <$> r) = f <$> unspelled r := by
  cases r <;> rfl

namespace Layer

/-- Whether two paths denote one entry of a layer: every operation has the same outcome on both. -/
structure SameEntry (l : Layer) (p q : String) : Prop where
  read : unspelled (l.read p) = unspelled (l.read q)
  list : unspelled (l.list p) = unspelled (l.list q)
  isDir : unspelled (l.isDir p) = unspelled (l.isDir q)
  mode? : unspelled (l.mode? p) = unspelled (l.mode? q)
  write : ∀ data mode, unspelled (l.write p data mode) = unspelled (l.write q data mode)
  makeDirs : ∀ mode, unspelled (l.makeDirs p mode) = unspelled (l.makeDirs q mode)

variable {p q c : String}

/-- An operation of a layer in memory is one on the layer path, but for the texts of its errors. -/
theorem unspelled_resolve {α : Type} {f g : String → Except PatchError α} (hp : Path.clean p = .ok c)
    (hq : Path.clean q = .ok c) (h : unspelled (f c) = unspelled (g c)) :
    unspelled (MemoryLayer.resolve p >>= f) = unspelled (MemoryLayer.resolve q >>= g) := by
  rw [MemoryLayer.resolve_of_clean hp, MemoryLayer.resolve_of_clean hq]
  exact h

theorem sameEntry_memory (m : MemoryLayer) (hp : Path.clean p = .ok c) (hq : Path.clean q = .ok c) :
    (Layer.memory m).SameEntry p q := by
  refine ⟨?_, ?_, ?_, ?_, fun data mode => ?_, fun mode => ?_⟩
  · refine unspelled_resolve hp hq ?_
    split <;> rfl
  · refine unspelled_resolve hp hq ?_
    split <;> rfl
  · exact unspelled_resolve hp hq rfl
  · exact unspelled_resolve hp hq rfl
  · show unspelled (Layer.memory <$> m.write p data mode) = unspelled (Layer.memory <$> m.write q data mode)
    rw [unspelled_map, unspelled_map]
    refine congrArg _ (unspelled_resolve hp hq ?_)
    repeat' split
    all_goals rfl
  · show unspelled (Layer.memory <$> m.makeDirs p) = unspelled (Layer.memory <$> m.makeDirs q)
    rw [unspelled_map, unspelled_map]
    refine congrArg _ (unspelled_resolve hp hq ?_)
    split <;> rfl

/-- An operation of a layer on disk is one on the layer path. -/
theorem onTree_congr {α : Type} (d : DiskLayer) (hp : Path.clean p = .ok c) (hq : Path.clean q = .ok c)
    (run : DiskTree → List String → Except LayerProblem α) : d.onTree p run = d.onTree q run := by
  unfold DiskLayer.onTree
  rw [hp, hq]

theorem sameEntry_disk (d : DiskLayer) (hp : Path.clean p = .ok c) (hq : Path.clean q = .ok c) :
    (Layer.disk d).SameEntry p q := by
  refine ⟨?_, ?_, ?_, ?_, fun data mode => ?_, fun mode => ?_⟩
  · exact congrArg unspelled (onTree_congr d hp hq DiskTree.read)
  · exact congrArg unspelled (onTree_congr d hp hq DiskTree.list)
  · show unspelled (d.isDir p) = unspelled (d.isDir q)
    unfold DiskLayer.isDir
    rw [hp, hq]
  · exact congrArg unspelled (onTree_congr d hp hq DiskTree.mode?)
  · show unspelled (Layer.disk <$> d.write p data mode) = unspelled (Layer.disk <$> d.write q data mode)
    unfold DiskLayer.write
    rw [onTree_congr d hp hq]
  · show unspelled (Layer.disk <$> d.makeDirs p mode) = unspelled (Layer.disk <$> d.makeDirs q mode)
    unfold DiskLayer.makeDirs
    rw [onTree_congr d hp hq]

/-- Spellings of one layer path denote one entry. -/
theorem sameEntry_of_clean (l : Layer) (hp : Path.clean p = .ok c) (hq : Path.clean q = .ok c) : l.SameEntry p q := by
  cases l with
  | memory m => exact sameEntry_memory m hp hq
  | disk d => exact sameEntry_disk d hp hq
  | readOnly m =>
    have h := sameEntry_memory m hp hq
    exact ⟨h.read, h.list, h.isDir, h.mode?, fun _ _ => rfl, fun _ => rfl⟩

end Layer

/-! ## Directories and names -/

namespace Path

variable {ss : List (List Char)} {s : List Char} {c d n : String}

theorem clean_eq_self_iff : clean c = .ok c ↔ IsLayerPath c :=
  ⟨fun h => clean_eq_ok h, IsLayerPath.clean⟩

/-- The path of a name in the directory at a layer path. -/
def child (d n : String) : String := if d = "." then n else d ++ "/" ++ n

theorem spell_eq_root_iff (hss : ∀ s ∈ ss, IsPlain s) : spell ss = "." ↔ ss = [] := by
  constructor
  · exact fun h => spell_injective hss (List.forall_mem_nil _) h
  · rintro rfl
    rfl

theorem spell_concat (hss : ∀ s ∈ ss, IsPlain s) (hs : IsPlain s) :
    spell (ss ++ [s]) = child (spell ss) (String.ofList s) := by
  unfold child
  rw [spell, spellChars_append hss hs]
  by_cases hnil : ss = []
  · rw [if_pos hnil, if_pos ((spell_eq_root_iff hss).mpr hnil)]
  · rw [if_neg hnil, if_neg fun h => hnil ((spell_eq_root_iff hss).mp h), spell_eq_join hss hnil,
      show join ss ++ '/' :: s = join ss ++ ['/'] ++ s by simp, String.ofList_append, String.ofList_append]

theorem cleanParent_spell (hss : ∀ s ∈ ss, IsPlain s) (hs : IsPlain s) :
    cleanParent (spell (ss ++ [s])) = .ok (spell ss) := by
  unfold cleanParent
  rw [clean_spell (isPlain_concat hss hs)]
  exact congrArg Except.ok (parent_spell hss hs)

/-- A plain name below a layer path, joined to it and taken off again. -/
theorem clean_child (hd : IsLayerPath d) (hn : IsPlain n.toList) :
    clean (concat d n) = .ok (child d n) ∧ cleanParent (child d n) = .ok d ∧ baseName (child d n) = n := by
  obtain ⟨ss, hss, rfl⟩ := hd
  have hspell : spell (ss ++ [n.toList]) = child (spell ss) n := by
    rw [spell_concat hss hn, String.ofList_toList]
  have hclean := clean_concat hss (clean_spell hss) hn
  rw [String.ofList_toList] at hclean
  rw [← hspell]
  refine ⟨hclean, cleanParent_spell hss hn, ?_⟩
  rw [baseName_spell hss hn, String.ofList_toList]

/-- A layer path other than the root is a plain name below another. -/
theorem exists_child (hc : IsLayerPath c) (hroot : c ≠ ".") :
    ∃ d n, IsLayerPath d ∧ IsPlain n.toList ∧ c = child d n := by
  obtain ⟨ss, hss, rfl⟩ := hc
  rcases List.eq_nil_or_concat ss with rfl | ⟨us, s, rfl⟩
  · exact absurd rfl hroot
  · rw [List.concat_eq_append] at *
    obtain ⟨hus, hs⟩ := List.forall_mem_append.mp hss
    have hs := hs s List.mem_cons_self
    refine ⟨spell us, String.ofList s, ⟨us, hus, rfl⟩, ?_, spell_concat hus hs⟩
    rwa [String.toList_ofList]

/-- A cleaned path is the root, or names that are plain with slashes between them.  It is clean, all
its spellings denote one entry of every layer, and it is its last name below its directory, as every
plain name below a clean path is. -/
theorem clean_canonical {p : String} (h : clean p = .ok c) :
    (c = "." ∨ ∃ ss, ss ≠ [] ∧ (∀ s ∈ ss, IsPlain s) ∧ c = String.ofList (join ss)) ∧
    clean c = .ok c ∧
    (∀ q, clean q = .ok c → ∀ l : Layer, l.SameEntry p q) ∧
    (c ≠ "." → ∃ d, cleanParent c = .ok d ∧ clean (concat d (baseName c)) = .ok c) ∧
    ∀ d n, clean d = .ok d → IsPlain n.toList → ∃ x, clean (concat d n) = .ok x ∧
      x = (if d = "." then n else d ++ "/" ++ n) ∧ cleanParent x = .ok d ∧ baseName x = n := by
  have hc : IsLayerPath c := clean_eq_ok h
  refine ⟨?_, hc.clean, fun q hq l => l.sameEntry_of_clean h hq, fun hroot => ?_, fun d n hd hn => ?_⟩
  · obtain ⟨ss, hss, rfl⟩ := hc
    by_cases hnil : ss = []
    · exact .inl ((spell_eq_root_iff hss).mpr hnil)
    · exact .inr ⟨ss, hnil, hss, spell_eq_join hss hnil⟩
  · obtain ⟨d, n, hd, hn, rfl⟩ := exists_child hc hroot
    obtain ⟨hclean, hparent, hbase⟩ := clean_child hd hn
    exact ⟨d, hparent, by rw [hbase]; exact hclean⟩
  · obtain ⟨hclean, hparent, hbase⟩ := clean_child (clean_eq_self_iff.mp hd) hn
    exact ⟨_, hclean, rfl, hparent, hbase⟩

/-- A spelling with backslashes, dots and steps out of directories. -/
theorem clean_canonical_things : clean "//../a\\b/./../things\\/widget.go/" = .ok "a/things/widget.go" ∧
    clean "a/things/widget.go" = .ok "a/things/widget.go" ∧
    (∃ d, cleanParent "a/things/widget.go" = .ok d ∧ clean (concat d "widget.go") = .ok "a/things/widget.go") := by
  have h : clean "//../a\\b/./../things\\/widget.go/" = .ok "a/things/widget.go" := rfl
  obtain ⟨-, hself, -, hparent, -⟩ := clean_canonical h
  exact ⟨h, hself, hparent (by decide)⟩

end Path

end GoSplice
