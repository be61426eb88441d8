import GoSplice.Proofs.Confinement
import GoSplice.Proofs.DiskTrees
import GoSplice.Proofs.PackageNames

/-!
# Layers in memory and on disk

A layer in memory stands for a directory on disk: calls on an empty layer succeed or fail as they
would on an empty directory, with the same answers:

    l is an empty layer in memory, d one on an empty directory →
      RegularFrom l calls → answers of l to calls = answers of d to calls        (answers_agree)

Three things tell the two apart, and `LayerCall.IsRegular` leaves them out: what is asked of a path
that leads through a file, the permission bits of a file that is written anew, and paths and
permission bits that no disk has.
-/

namespace GoSplice

open GoSplice.Path (IsPlain spell)

/-! ## Calls -/

/-- A call of an operation of a layer. -/
inductive LayerCall where
  | read (path : String)
  | list (path : String)
  | isDir (path : String)
  | mode (path : String)
  | write (path : String) (data : Bytes) (mode : Nat)
  | makeDirs (path : String) (mode : Nat)
  deriving Repr, DecidableEq

inductive LayerAnswer where
  | bytes (data : Bytes)
  | names (names : List String)
  | truth (b : Bool)
  | mode (mode : Option Nat)
  | done
  deriving Repr, DecidableEq

/-- The answer to a call, and the layer behind it.  Permission bits are those of files: a layer in
memory knows none of directories. -/
def Layer.call (l : Layer) : LayerCall → Except PatchError (LayerAnswer × Layer)
  | .read path => return (.bytes (← l.read path), l)
  | .list path => return (.names (← l.list path), l)
  | .isDir path => return (.truth (← l.isDir path), l)
  | .mode path => do
    let mode ← l.mode? path
    return (.mode (if ← l.isDir path then none else mode), l)
  | .write path data mode => return (.done, ← l.write path data mode)
  | .makeDirs path mode => return (.done, ← l.makeDirs path mode)

/-- The answers to calls in order, none for those that fail. -/
def Layer.answers (l : Layer) : List LayerCall → List (Option LayerAnswer)
  | [] => []
  | c :: cs =>
    match l.call c with
    | .ok (a, l') => some a :: l'.answers cs
    | .error _ => none :: l.answers cs

/-! ## Regular calls -/

namespace MemoryLayer

/-- Whether no file stands above a layer path. -/
def ClearAbove (m : MemoryLayer) (x : String) : Prop :=
  ∀ e ∈ m.files, Path.names e.1 <+: Path.names x → e.1 = x

/-- The layer behind a call. -/
def after (m : MemoryLayer) : LayerCall → MemoryLayer
  | .write path data mode => (m.write path data mode).toOption.getD m
  | .makeDirs path _ => (m.makeDirs path).toOption.getD m
  | _ => m

end MemoryLayer

/-- Whether a layer in memory answers a call as a disk does. -/
def LayerCall.IsRegular (m : MemoryLayer) : LayerCall → Prop
  | .read _ | .list _ | .isDir _ => True
  | .mode path => ∀ x, Path.clean path = .ok x → '\x00' ∉ x.toList ∧ m.ClearAbove x
  | .makeDirs path _ => ∀ x, Path.clean path = .ok x → '\x00' ∉ x.toList ∧ m.ClearAbove x
  | .write path _ bits =>
    bits &&& DiskTree.fileBits = bits ∧
      ∀ x, Path.clean path = .ok x → '\x00' ∉ x.toList ∧ ∀ f, m.file? x = some f → f.mode = bits

/-- Whether all calls of a run are regular, each on the layer behind those before it. -/
def RegularFrom (m : MemoryLayer) : List LayerCall → Prop
  | [] => True
  | c :: cs => c.IsRegular m ∧ RegularFrom (m.after c) cs

section Decidable

/-- What holds of a result can be told from it. -/
def decidableForallOk {ε α : Type} (P : α → Prop) [DecidablePred P] :
    (r : Except ε α) → Decidable (∀ a, r = .ok a → P a)
  | .ok a => decidable_of_iff (P a) ⟨fun h _ ha => Except.ok.inj ha ▸ h, fun h => h a rfl⟩
  | .error _ => isTrue fun _ h => nomatch h

instance (m : MemoryLayer) (x : String) : Decidable (m.ClearAbove x) :=
  inferInstanceAs (Decidable (∀ e ∈ m.files, _))

instance (m : MemoryLayer) (x : String) (bits : Nat) : Decidable (∀ f, m.file? x = some f → f.mode = bits) :=
  inferInstanceAs (Decidable (∀ f ∈ m.file? x, f.mode = bits))

instance (m : MemoryLayer) : (c : LayerCall) → Decidable (c.IsRegular m)
  | .read _ | .list _ | .isDir _ => isTrue trivial
  | .mode path | .makeDirs path _ => decidableForallOk _ (Path.clean path)
  | .write path _ _ => @instDecidableAnd _ _ _ (decidableForallOk _ (Path.clean path))

instance decidableRegularFrom : (m : MemoryLayer) → (calls : List LayerCall) → Decidable (RegularFrom m calls)
  | _, [] => isTrue trivial
  | m, c :: cs => @instDecidableAnd _ _ _ (decidableRegularFrom (m.after c) cs)

end Decidable

/-! ## Layers in memory by their paths -/

namespace MemoryLayer

variable {m m' : MemoryLayer} {path : String} {ss ts : List (List Char)} {data : Bytes} {mode : Nat}

/-- What stands at a path of a layer in memory. -/
def spot (m : MemoryLayer) (ss : List (List Char)) : Spot :=
  match m.file? (spell ss) with
  | some f => .file f
  | none => if m.hasDir (spell ss) then .directory else .nothing

/-- A layer that was built, without a file where a directory is. -/
structure IsOrderly (m : MemoryLayer) : Prop where
  built : m.Built
  distinct : (m.files.map (·.1)).Nodup
  apart : ∀ x f, m.file? x = some f → m.hasDir x = false

theorem isOrderly_empty : empty.IsOrderly := ⟨.empty, .nil, nofun⟩

theorem spot_eq_file {f : StoredFile} : m.spot ss = .file f ↔ m.file? (spell ss) = some f := by
  unfold spot
  cases m.file? (spell ss) with
  | some g =>
    dsimp only
    rw [Spot.file.injEq, Option.some.injEq]
  | none =>
    dsimp only
    split <;> exact ⟨nofun, nofun⟩

theorem IsOrderly.spot_eq_directory (h : m.IsOrderly) : m.spot ss = .directory ↔ m.hasDir (spell ss) := by
  unfold spot
  cases hf : m.file? (spell ss) with
  | some g =>
    dsimp only
    rw [h.apart _ g hf]
    exact ⟨nofun, nofun⟩
  | none =>
    dsimp only
    split
    · next hdir => exact ⟨fun _ => hdir, fun _ => rfl⟩
    · next hdir => exact ⟨nofun, fun h => absurd h hdir⟩

theorem spot_root (h : m.IsOrderly) : m.spot [] = .directory := h.spot_eq_directory.mpr h.built.sound.root

/-- A file is written in a directory, where there is none. -/
theorem IsOrderly.write_succeeds (h : m.IsOrderly) (hss : ∀ s ∈ ss, IsPlain s) (hc : Path.clean path = .ok (spell ss)) :
    (∃ m', m.write path data mode = .ok m') ↔
      ∃ us s, ss = us ++ [s] ∧ m.spot us = .directory ∧ m.spot ss ≠ .directory := by
  constructor
  · rintro ⟨m', hm'⟩
    obtain ⟨x, hx, hdir, hparent, -⟩ := write_eq_ok.mp hm'
    rw [hc, Except.ok.injEq] at hx
    subst hx
    rcases List.eq_nil_or_concat ss with rfl | ⟨us, s, rfl⟩
    · exact absurd h.built.sound.root hdir
    · rw [List.concat_eq_append] at *
      rw [Path.parent_spell (fun u hu => hss u (List.mem_append_left _ hu)) (hss s (by simp))] at hparent
      exact ⟨us, s, rfl, h.spot_eq_directory.mpr hparent, fun hd => hdir (h.spot_eq_directory.mp hd)⟩
  · rintro ⟨us, s, rfl, habove, hdir⟩
    refine ⟨_, write_eq_ok.mpr ⟨_, hc, fun hd => hdir (h.spot_eq_directory.mpr hd), ?_, rfl⟩⟩
    rw [Path.parent_spell (fun u hu => hss u (List.mem_append_left _ hu)) (hss s (by simp))]
    exact h.spot_eq_directory.mp habove

theorem spot_write (hss : ∀ s ∈ ss, IsPlain s) (hts : ∀ t ∈ ts, IsPlain t) (hc : Path.clean path = .ok (spell ss))
    (h : m.write path data mode = .ok m') : m'.spot ts = if ts = ss then .file ⟨data, mode⟩ else m.spot ts := by
  have hfile := file?_write h hc (spell ts)
  obtain ⟨x, -, -, -, rfl⟩ := write_eq_ok.mp h
  by_cases heq : ts = ss
  · rw [if_pos (congrArg spell heq)] at hfile
    rw [if_pos heq, spot_eq_file, hfile]
  · rw [if_neg fun hspell => heq (Path.spell_injective hts hss hspell)] at hfile
    rw [if_neg heq, spot, hfile]
    rfl

theorem IsOrderly.write (h : m.IsOrderly) (hm : m.write path data mode = .ok m') : m'.IsOrderly := by
  refine ⟨h.built.write hm, ?_, ?_⟩
  · obtain ⟨x, -, -, -, rfl⟩ := write_eq_ok.mp hm
    exact Entries.nodup_put h.distinct x _
  · obtain ⟨x, -, hdir, -, rfl⟩ := write_eq_ok.mp hm
    intro y f hy
    rw [file?_putFile] at hy
    split at hy
    · next hyx => exact Bool.eq_false_iff.mpr (hyx ▸ hdir)
    · exact h.apart y f hy

/-! ## Files in the way -/

theorem mem_files {x : String} {f : StoredFile} (h : m.file? x = some f) : (x, f) ∈ m.files := Entries.mem_of_lookup h

/-- Above a path that is clear stands no file. -/
theorem ClearAbove.spot_ne (h : m.ClearAbove (spell ss)) (hss : ∀ s ∈ ss, IsPlain s) (hts : ts <+: ss) (hne : ts ≠ ss)
    (f : StoredFile) : m.spot ts ≠ .file f := by
  intro hf
  have hplain : ∀ t ∈ ts, IsPlain t := fun t ht => hss t (hts.subset ht)
  refine hne (Path.spell_injective hplain hss (h _ (mem_files (spot_eq_file.mp hf)) ?_))
  rw [names_spell hplain, names_spell hss]
  exact hts

/-- The directories on the way to a path. -/
theorem mem_wayTo_iff (hss : ∀ s ∈ ss, IsPlain s) (hts : ∀ t ∈ ts, IsPlain t) (hne : ts ≠ []) :
    spell ts ∈ wayTo (spell ss) ↔ ts <+: ss := by
  constructor
  · intro hmem
    obtain ⟨us, vs, hvs, hus, heq, hspell⟩ := isAbove_of_mem_wayTo ⟨ss, hss, rfl⟩ hmem
    rw [Path.spell_injective hss hvs hspell, Path.spell_injective hts (fun u hu => hvs u (hus.subset hu)) heq]
    exact hus
  · intro hpre
    refine (mem_wayTo hss hpre).resolve_left fun hroot => hne ?_
    exact Path.spell_injective hts (fun _ h => nomatch h) (hroot.trans rfl)

theorem spot_makeDirs (h : m.IsOrderly) (hss : ∀ s ∈ ss, IsPlain s) (hts : ∀ t ∈ ts, IsPlain t)
    (hc : Path.clean path = .ok (spell ss)) (hclear : m.ClearAbove (spell ss)) (hm : m.makeDirs path = .ok m') :
    m'.spot ts = if ts <+: ss then .directory else m.spot ts := by
  obtain ⟨x, hx, hnone, rfl⟩ := makeDirs_eq_ok.mp hm
  rw [hc, Except.ok.injEq] at hx
  subst hx
  obtain ⟨hfiles, hdirs⟩ := foldl_putDir (wayTo (spell ss)) m
  have hfile : ((wayTo (spell ss)).foldl putDir m).file? (spell ts) = m.file? (spell ts) := by
    unfold file?
    rw [hfiles]
  unfold spot
  rw [hfile]
  by_cases hpre : ts <+: ss
  · have hno : m.file? (spell ts) = none := by
      by_cases heq : ts = ss
      · rw [heq]
        exact hnone
      · rw [Option.eq_none_iff_forall_ne_some]
        exact fun f hf => hclear.spot_ne hss hpre heq f (spot_eq_file.mpr hf)
    have hdir : ((wayTo (spell ss)).foldl putDir m).hasDir (spell ts) := by
      rw [hdirs]
      by_cases hnil : ts = []
      · rw [hnil]
        exact .inl h.built.sound.root
      · exact .inr ((mem_wayTo_iff hss hts hnil).mpr hpre)
    rw [if_pos hpre, hno]
    exact if_pos hdir
  · have hnil : ts ≠ [] := by
      rintro rfl
      exact hpre List.nil_prefix
    have hdir : ((wayTo (spell ss)).foldl putDir m).hasDir (spell ts) = m.hasDir (spell ts) := by
      rw [Bool.eq_iff_iff, hdirs, mem_wayTo_iff hss hts hnil]
      exact or_iff_left hpre
    rw [if_neg hpre, hdir]

theorem IsOrderly.makeDirs (h : m.IsOrderly) (hss : ∀ s ∈ ss, IsPlain s) (hc : Path.clean path = .ok (spell ss))
    (hclear : m.ClearAbove (spell ss)) (hm : m.makeDirs path = .ok m') : m'.IsOrderly := by
  have hbuilt := h.built.makeDirs hm
  obtain ⟨x, -, -, hm'⟩ := makeDirs_eq_ok.mp hm
  have hfiles : m'.files = m.files := hm' ▸ (foldl_putDir (wayTo x) m).1
  refine ⟨hbuilt, hfiles ▸ h.distinct, fun y f hy => ?_⟩
  obtain ⟨⟨ts, hts, rfl⟩, hroot⟩ := hbuilt.sound.path y f hy
  have hspot := spot_makeDirs h hss hts hc hclear hm
  rw [spot_eq_file.mpr hy] at hspot
  split at hspot
  · cases hspot
  · next hpre =>
    obtain ⟨x, hx, -, rfl⟩ := makeDirs_eq_ok.mp hm
    rw [hc, Except.ok.injEq] at hx
    subst hx
    rw [Bool.eq_false_iff]
    intro hdir
    rcases ((foldl_putDir _ m).2 _).mp hdir with hdir | hmem
    · rw [h.apart _ f (spot_eq_file.mp hspot.symm)] at hdir
      cases hdir
    · refine hpre ((mem_wayTo_iff hss hts ?_).mp hmem)
      rintro rfl
      exact hroot rfl

/-! ## Lists -/

/-- A path other than the root is that of its directory and its last name. -/
theorem exists_last {x : String} (hx : IsLayerPath x) (hroot : x ≠ ".") : ∃ us s, (∀ u ∈ us, IsPlain u) ∧ IsPlain s ∧
    x = spell (us ++ [s]) ∧ Path.parent x = spell us ∧ Path.baseName x = String.ofList s := by
  obtain ⟨ss, hss, rfl⟩ := hx
  rcases List.eq_nil_or_concat ss with rfl | ⟨us, s, rfl⟩
  · exact absurd rfl hroot
  · rw [List.concat_eq_append] at *
    have hus : ∀ u ∈ us, IsPlain u := fun u hu => hss u (List.mem_append_left _ hu)
    have hs : IsPlain s := hss s (by simp)
    exact ⟨us, s, hus, hs, rfl, Path.parent_spell hus hs, Path.baseName_spell hus hs⟩

/-- What is listed of a directory are the names of the files in it, each once. -/
theorem Sound.exists_listed (h : m.Sound) (hdistinct : (m.files.map (·.1)).Nodup) (hss : ∀ s ∈ ss, IsPlain s)
    (hc : Path.clean path = .ok (spell ss)) (hdir : m.hasDir (spell ss)) :
    ∃ files : List String, m.list path = .ok (files.mergeSort fun a b => a ≤ b) ∧ files.Nodup ∧
      ∀ n, n ∈ files ↔ ∃ s, IsPlain s ∧ n = String.ofList s ∧ ∃ f, m.file? (spell (ss ++ [s])) = some f := by
  have hlast : ∀ e ∈ m.files.filter fun e => Path.parent e.1 = spell ss, ∃ s, IsPlain s ∧ e.1 = spell (ss ++ [s]) ∧
      Path.baseName e.1 = String.ofList s ∧ m.file? (spell (ss ++ [s])) = some e.2 := by
    rintro ⟨x, f⟩ hmem
    obtain ⟨hmem, hparent⟩ := List.mem_filter.mp hmem
    have hfile : m.file? x = some f := Entries.lookup_of_mem hdistinct hmem
    obtain ⟨hx, hroot⟩ := h.path x f hfile
    obtain ⟨us, s, hus, hs, rfl, habove, hbase⟩ := exists_last hx hroot
    rw [decide_eq_true_eq] at hparent
    obtain rfl := Path.spell_injective hus hss (habove.symm.trans hparent)
    exact ⟨s, hs, rfl, hbase, hfile⟩
  unfold list
  rw [resolve_of_clean hc]
  change ∃ files : List String, (if m.hasDir (spell ss) then Except.ok _ else fail .notFound path) = _ ∧ _
  rw [if_pos hdir]
  refine ⟨_, rfl, ?_, fun n => ?_⟩
  · have hkeys : (m.files.filter fun e => Path.parent e.1 = spell ss).Pairwise fun e e' => e.1 ≠ e'.1 :=
      (List.pairwise_map.mp hdistinct).sublist List.filter_sublist
    refine List.pairwise_map.mpr (hkeys.imp_of_mem fun {e e'} he he' hne hsame => hne ?_)
    obtain ⟨s, -, hs, hbase, -⟩ := hlast e he
    obtain ⟨s', -, hs', hbase', -⟩ := hlast e' he'
    have hnames : String.ofList s = String.ofList s' := hbase.symm.trans (hsame.trans hbase')
    rw [hs, hs', String.ofList_injective hnames]
  · rw [List.mem_map]
    constructor
    · rintro ⟨e, he, rfl⟩
      obtain ⟨s, hs, -, hbase, hfile⟩ := hlast e he
      exact ⟨s, hs, hbase, e.2, hfile⟩
    · rintro ⟨s, hs, rfl, f, hf⟩
      refine ⟨(spell (ss ++ [s]), f), List.mem_filter.mpr ⟨mem_files hf, ?_⟩, Path.baseName_spell hss hs⟩
      rw [decide_eq_true_eq]
      exact Path.parent_spell hss hs

/-- What is listed of a directory are the names of its files, in order and each once. -/
theorem IsOrderly.list_spec (h : m.IsOrderly) (hss : ∀ s ∈ ss, IsPlain s) (hc : Path.clean path = .ok (spell ss)) :
    (∃ files : List String, m.list path = .ok (files.mergeSort fun a b => a ≤ b) ∧ files.Nodup ∧
      ∀ n, n ∈ files ↔ ∃ s, IsPlain s ∧ n = String.ofList s ∧ ∃ f, m.spot (ss ++ [s]) = .file f) ∧
      m.spot ss = .directory ∨
    (∃ e, m.list path = .error e) ∧ m.spot ss ≠ .directory := by
  by_cases hdir : m.hasDir (spell ss)
  · simp only [spot_eq_file]
    exact .inl ⟨h.built.sound.exists_listed h.distinct hss hc hdir, h.spot_eq_directory.mpr hdir⟩
  · refine .inr ⟨⟨.layer (.memory .notFound path), ?_⟩, fun hd => hdir (h.spot_eq_directory.mp hd)⟩
    unfold list
    rw [resolve_of_clean hc]
    exact if_neg hdir

end MemoryLayer

/-! ## One directory, twice -/

/-- Whether a path has a name with a NUL in it. -/
def HasNul (ss : List (List Char)) : Prop := ∃ s ∈ ss, '\x00' ∈ s

theorem mem_join_iff {c : Char} (hc : c ≠ '/') (ss : List (List Char)) : c ∈ Path.join ss ↔ ∃ s ∈ ss, c ∈ s := by
  induction ss with
  | nil => exact ⟨nofun, nofun⟩
  | cons s ss ih =>
    cases ss with
    | nil => simp [Path.join]
    | cons t ss =>
      show c ∈ s ++ '/' :: Path.join (t :: ss) ↔ _
      rw [List.mem_append, List.mem_cons, ih]
      simp [hc]

theorem contains_spell (ss : List (List Char)) : (spell ss).toList.contains '\x00' ↔ HasNul ss := by
  unfold HasNul
  rw [← mem_join_iff (by decide), List.contains_iff_mem, spell, String.toList_ofList]
  unfold Path.spellChars Path.orDot
  split
  · next hnil =>
    rw [hnil]
    simp
  · rfl

/-- A layer in memory and one on disk with the same below their roots. -/
structure SameTree (m : MemoryLayer) (d : DiskLayer) : Prop where
  orderly : m.IsOrderly
  spot : ∀ ss, (∀ s ∈ ss, IsPlain s) → d.tree.spot (d.root ++ ss.map String.ofList) = m.spot ss
  plain : ∀ path s, d.tree.spot (d.root ++ (path ++ [s])) ≠ .nothing → IsPlain s.toList
  distinct : ∀ path, (d.tree.names (d.root ++ path)).Nodup
  noNul : ∀ ss, (∀ s ∈ ss, IsPlain s) → HasNul ss → m.spot ss = .nothing

/-- Two runs that both succeed, with results that are related, or both fail. -/
inductive SameSuccess {ε ε' α β : Type} (R : α → β → Prop) : Except ε α → Except ε' β → Prop
  | ok {a : α} {b : β} : R a b → SameSuccess R (.ok a) (.ok b)
  | error (e : ε) (e' : ε') : SameSuccess R (.error e) (.error e')

section SameSuccess

variable {ε ε' ε'' α β γ δ : Type} {R : α → β → Prop} {S : γ → δ → Prop} {x : Except ε α} {y : Except ε' β}

theorem SameSuccess.map {f : α → γ} {g : β → δ} (hfg : ∀ a b, R a b → S (f a) (g b)) (h : SameSuccess R x y) :
    SameSuccess S (f <$> x) (g <$> y) := by
  cases h with
  | ok h => exact .ok (hfg _ _ h)
  | error e e' => exact .error e e'

theorem SameSuccess.bind {f : α → Except ε γ} {g : β → Except ε' δ} (hfg : ∀ a b, R a b → SameSuccess S (f a) (g b))
    (h : SameSuccess R x y) : SameSuccess S (x >>= f) (y >>= g) := by
  cases h with
  | ok h => exact hfg _ _ h
  | error e e' => exact .error e e'

theorem SameSuccess.mapError (h : SameSuccess R x y) (f : ε' → ε'') : SameSuccess R x (y.mapError f) := by
  cases h with
  | ok h => exact .ok h
  | error e e' => exact .error e (f e')

theorem SameSuccess.of_iff (h : (∃ a, x = .ok a) ↔ ∃ b, y = .ok b) (hR : ∀ a b, x = .ok a → y = .ok b → R a b) :
    SameSuccess R x y := by
  cases x with
  | ok a =>
    obtain ⟨b, rfl⟩ := h.mp ⟨a, rfl⟩
    exact .ok (hR a b rfl rfl)
  | error e =>
    cases y with
    | ok b =>
      obtain ⟨a, ha⟩ := h.mpr ⟨b, rfl⟩
      cases ha
    | error e' => exact .error e e'

end SameSuccess

namespace SameTree

variable {m m' : MemoryLayer} {d : DiskLayer} {path : String} {ss : List (List Char)}

/-- Paths that are none fail on both. -/
theorem onTree_error {α β : Type} {R : α → β → Prop} {e : Path.Escape} (hc : Path.clean path = .error e)
    (f : String → Except PatchError α) (run : DiskTree → List String → Except LayerProblem β) :
    SameSuccess R (MemoryLayer.resolve path >>= f) (d.onTree path run) := by
  unfold MemoryLayer.resolve DiskLayer.onTree
  rw [hc]
  exact .error _ _

/-- An operation on a path of the layer is one on the tree. -/
theorem onTree_of_clean {α : Type} (hc : Path.clean path = .ok (spell ss)) (hss : ∀ s ∈ ss, IsPlain s)
    (run : DiskTree → List String → Except LayerProblem α) : d.onTree path run =
      if (spell ss).toList.contains '\x00' then .error .nulInPath
      else (run d.tree (d.root ++ ss.map String.ofList)).mapError
        fun p => .layer (.disk p (DiskLayer.absolute (d.root ++ ss.map String.ofList))) := by
  rw [← DiskLayer.onTree_spell hss]
  unfold DiskLayer.onTree
  rw [hc, Path.clean_spell hss]

theorem read (h : SameTree m d) (path : String) : SameSuccess (· = ·) (m.read path) (d.read path) := by
  cases hc : Path.clean path with
  | error e => exact onTree_error hc _ _
  | ok x =>
    obtain ⟨ss, hss, rfl⟩ := Path.clean_eq_ok hc
    have hspot := h.spot ss hss
    unfold MemoryLayer.read DiskLayer.read
    rw [onTree_of_clean hc hss, MemoryLayer.resolve_of_clean hc]
    show SameSuccess _ (match m.file? (spell ss) with | some f => _ | none => _) _
    cases hf : m.file? (spell ss) with
    | some f =>
      rw [MemoryLayer.spot_eq_file.mpr hf] at hspot
      have hnul : (spell ss).toList.contains '\x00' = false := by
        rw [Bool.eq_false_iff]
        intro hnul
        have hnone := h.noNul ss hss ((contains_spell ss).mp hnul)
        rw [MemoryLayer.spot_eq_file.mpr hf] at hnone
        cases hnone
      rw [hnul, DiskTree.read, DiskTree.spot_eq_file.mp hspot]
      exact .ok rfl
    | none =>
      show SameSuccess _ (MemoryLayer.fail .notFound path) _
      split
      · exact .error _ _
      · unfold DiskTree.read
        split
        · next g hg =>
          rw [DiskTree.spot_eq_file.mpr hg] at hspot
          rw [MemoryLayer.spot_eq_file.mp hspot.symm] at hf
          cases hf
        · exact .error _ _
        · exact .error _ _

theorem isDir (h : SameTree m d) (path : String) : SameSuccess (· = ·) (m.isDir path) (d.isDir path) := by
  unfold MemoryLayer.isDir MemoryLayer.resolve DiskLayer.isDir
  cases hc : Path.clean path with
  | error e => exact .error _ _
  | ok x =>
    obtain ⟨ss, hss, rfl⟩ := Path.clean_eq_ok hc
    refine .ok ?_
    rw [DiskTree.isDirAt_eq, DiskLayer.target, MemoryLayer.names_spell hss, h.spot ss hss, Bool.eq_iff_iff,
      decide_eq_true_eq, h.orderly.spot_eq_directory]

/-- The files of a directory are those of its names that lead to files. -/
theorem mem_files_iff (h : SameTree m d) (hss : ∀ s ∈ ss, IsPlain s) (n : String) :
    (∃ f, d.tree.spot (d.root ++ ss.map String.ofList ++ [n]) = .file f) ↔
      ∃ s, IsPlain s ∧ n = String.ofList s ∧ ∃ f, m.spot (ss ++ [s]) = .file f := by
  have hentry : ∀ s, IsPlain s → d.tree.spot (d.root ++ ss.map String.ofList ++ [String.ofList s]) = m.spot (ss ++ [s]) := by
    intro s hs
    rw [← h.spot (ss ++ [s]) (Path.isPlain_concat hss hs), List.map_append, List.map_singleton, List.append_assoc]
  constructor
  · rintro ⟨f, hf⟩
    have hs : IsPlain n.toList := h.plain (ss.map String.ofList) n (by rw [← List.append_assoc, hf]; nofun)
    refine ⟨n.toList, hs, String.ofList_toList.symm, f, ?_⟩
    rw [← hentry n.toList hs, String.ofList_toList]
    exact hf
  · rintro ⟨s, hs, rfl, f, hf⟩
    exact ⟨f, (hentry s hs).trans hf⟩

theorem list (h : SameTree m d) (path : String) : SameSuccess (· = ·) (m.list path) (d.list path) := by
  cases hc : Path.clean path with
  | error e => exact onTree_error hc _ _
  | ok x =>
    obtain ⟨ss, hss, rfl⟩ := Path.clean_eq_ok hc
    have hspot := h.spot ss hss
    unfold DiskLayer.list
    rw [onTree_of_clean hc hss]
    rcases h.orderly.list_spec hss hc with ⟨⟨files, hfiles, hnodup, hmem⟩, hdir⟩ | ⟨⟨e, hfail⟩, hdir⟩
    · have hnul : (spell ss).toList.contains '\x00' = false := by
        rw [Bool.eq_false_iff]
        intro hnul
        rw [h.noNul ss hss ((contains_spell ss).mp hnul)] at hdir
        cases hdir
      rw [hfiles, hnul]
      rcases DiskTree.list_spec (h.distinct (ss.map String.ofList)) with ⟨⟨files', hfiles', hnodup', hmem'⟩, -⟩ | ⟨-, hno⟩
      · rw [hfiles']
        refine .ok (mergeSort_congr hnodup hnodup' fun n => ?_)
        rw [hmem, hmem', h.mem_files_iff hss]
      · exact absurd (hspot.trans hdir) hno
    · rw [hfail]
      split
      · exact .error _ _
      · rcases DiskTree.list_spec (h.distinct (ss.map String.ofList)) with ⟨-, hdir'⟩ | ⟨⟨e', hfail'⟩, -⟩
        · exact absurd (hspot.symm.trans hdir') hdir
        · rw [hfail']
          exact .error _ _

/-- Paths below the layer's root, and what is above one of them. -/
theorem prefix_cases {q root l : List String} (h : q <+: root ++ l) : q <+: root ∨ ∃ q', q' <+: l ∧ q = root ++ q' := by
  rcases List.prefix_or_prefix_of_prefix h (List.prefix_append root l) with hq | ⟨q', rfl⟩
  · exact .inl hq
  · exact .inr ⟨q', (List.prefix_append_right_inj root).mp h, rfl⟩

theorem spot_root (h : SameTree m d) : d.tree.spot d.root = .directory := by
  have hroot := h.spot [] (List.forall_mem_nil _)
  rw [List.map_nil, List.append_nil] at hroot
  exact hroot.trans (MemoryLayer.spot_root h.orderly)

/-- A file above a path of the layer is one that both have. -/
theorem exists_file_above (h : SameTree m d) (hss : ∀ s ∈ ss, IsPlain s) {q : List String}
    (hq : q <+: d.root ++ ss.map String.ofList) {f : StoredFile} (hf : d.tree.spot q = .file f) :
    ∃ us, us <+: ss ∧ q = d.root ++ us.map String.ofList ∧ m.spot us = .file f := by
  rcases prefix_cases hq with hroot | ⟨q', hq', rfl⟩
  · rw [DiskTree.spot_of_prefix h.spot_root hroot] at hf
    cases hf
  · obtain ⟨us, hus, rfl⟩ := List.prefix_map_iff.mp hq'
    exact ⟨us, hus, rfl, (h.spot us fun u hu => hss u (hus.subset hu)).symm.trans hf⟩

/-- The permission bits of files, where no file is in the way. -/
theorem mode (h : SameTree m d) (hc : Path.clean path = .ok (spell ss)) (hss : ∀ s ∈ ss, IsPlain s)
    (hnul : (spell ss).toList.contains '\x00' = false) (hclear : m.ClearAbove (spell ss)) :
    m.mode? path = .ok ((m.file? (spell ss)).map (·.mode)) ∧
      ∃ bits, d.mode? path = .ok bits ∧ (m.spot ss ≠ .directory → bits = (m.file? (spell ss)).map (·.mode)) := by
  have hspot := h.spot ss hss
  constructor
  · unfold MemoryLayer.mode?
    rw [MemoryLayer.resolve_of_clean hc]
    rfl
  refine ⟨(d.tree.find (d.root ++ ss.map String.ofList)).toOption.map DiskTree.mode, ?_, fun hdir => ?_⟩
  · unfold DiskLayer.mode?
    rw [onTree_of_clean hc hss, hnul, DiskTree.mode?]
    cases hfind : d.tree.find (d.root ++ ss.map String.ofList) with
    | ok n => rfl
    | error e =>
      rcases DiskTree.find_eq_error hfind with rfl | rfl
      · rfl
      · obtain ⟨q, hq, hne, f, hf⟩ := DiskTree.exists_file_above hfind
        obtain ⟨us, hus, rfl, hfile⟩ := h.exists_file_above hss hq hf
        exact absurd hfile (hclear.spot_ne hss hus (fun heq => hne (heq ▸ rfl)) f)
  · cases hfind : d.tree.find (d.root ++ ss.map String.ofList) with
    | error e =>
      rw [DiskTree.spot_of_error hfind] at hspot
      cases hf : m.file? (spell ss) with
      | none => rfl
      | some f =>
        rw [MemoryLayer.spot_eq_file.mpr hf] at hspot
        cases hspot
    | ok n =>
      rw [DiskTree.spot_of_find hfind] at hspot
      cases n with
      | file f =>
        rw [MemoryLayer.spot_eq_file.mp hspot.symm]
        rfl
      | dir mode entries => exact absurd hspot.symm hdir

theorem map_ofList_inj {us vs : List (List Char)} : us.map String.ofList = vs.map String.ofList ↔ us = vs :=
  List.map_inj_right fun _ _ h => String.ofList_injective h

/-- Files can be written to both, or to none. -/
theorem write_succeeds (h : SameTree m d) {data : Bytes} {mode : Nat} (hc : Path.clean path = .ok (spell ss))
    (hss : ∀ s ∈ ss, IsPlain s) : (∃ m', m.write path data mode = .ok m') ↔
      ∃ n', d.tree.write (d.root ++ ss.map String.ofList) data mode = .ok n' := by
  rw [h.orderly.write_succeeds hss hc]
  rcases List.eq_nil_or_concat ss with rfl | ⟨us, s, rfl⟩
  · constructor
    · rintro ⟨us, s, heq, -⟩
      cases us <;> cases heq
    · rintro ⟨n', hn⟩
      rw [List.map_nil, List.append_nil, DiskTree.write_of_directory h.spot_root] at hn
      cases hn
  · rw [List.concat_eq_append] at *
    have hus : ∀ u ∈ us, IsPlain u := fun u hu => hss u (List.mem_append_left _ hu)
    have hwhole := h.spot _ hss
    rw [List.map_append, List.map_singleton, ← List.append_assoc] at hwhole ⊢
    rw [DiskTree.write_succeeds, h.spot us hus, hwhole]
    constructor
    · rintro ⟨vs, t, heq, habove, hdir⟩
      obtain ⟨rfl, -⟩ := List.append_inj' heq rfl
      exact ⟨habove, hdir⟩
    · rintro ⟨habove, hdir⟩
      exact ⟨us, s, rfl, habove, hdir⟩

/-- A file that is written stands at the same place in both. -/
theorem of_write (h : SameTree m d) {data : Bytes} {mode : Nat} {n' : DiskTree} (hc : Path.clean path = .ok (spell ss))
    (hss : ∀ s ∈ ss, IsPlain s) (hnul : (spell ss).toList.contains '\x00' = false) (hmode : mode &&& DiskTree.fileBits = mode)
    (hkept : ∀ f, m.file? (spell ss) = some f → f.mode = mode) (hm : m.write path data mode = .ok m')
    (hn : d.tree.write (d.root ++ ss.map String.ofList) data mode = .ok n') : SameTree m' { d with tree := n' } := by
  have hall : ∀ q, n'.spot q = if q = d.root ++ ss.map String.ofList then .file ⟨data, mode⟩ else d.tree.spot q := by
    intro q
    rw [DiskTree.spot_write hn, DiskTree.written, h.spot ss hss, hmode]
    cases hf : m.spot ss with
    | file f =>
      dsimp only
      rw [hkept f (MemoryLayer.spot_eq_file.mp hf)]
    | nothing => rfl
    | directory => rfl
  refine ⟨h.orderly.write hm, fun ts hts => ?_, fun q s hq => ?_, fun q => DiskTree.nodup_names_write hn (h.distinct q),
    fun ts hts hnul' => ?_⟩
  · rw [hall, MemoryLayer.spot_write hss hts hc hm, h.spot ts hts]
    simp only [List.append_cancel_left_eq, map_ofList_inj]
  · rw [hall] at hq
    split at hq
    · next heq =>
      have hmem : s ∈ ss.map String.ofList := by
        rw [← List.append_cancel_left heq]
        simp
      obtain ⟨t, ht, rfl⟩ := List.mem_map.mp hmem
      rw [String.toList_ofList]
      exact hss t ht
    · exact h.plain q s hq
  · rw [MemoryLayer.spot_write hss hts hc hm, if_neg]
    · exact h.noNul ts hts hnul'
    · rintro rfl
      rw [(contains_spell ts).mpr hnul'] at hnul
      cases hnul

theorem write (h : SameTree m d) {data : Bytes} {mode : Nat} (hc : (LayerCall.write path data mode).IsRegular m) :
    SameSuccess SameTree (m.write path data mode) (d.write path data mode) := by
  obtain ⟨hmode, hpath⟩ := hc
  cases hclean : Path.clean path with
  | error e =>
    unfold MemoryLayer.write MemoryLayer.resolve DiskLayer.write DiskLayer.onTree
    rw [hclean]
    exact .error _ _
  | ok x =>
    obtain ⟨hnul, hkept⟩ := hpath x hclean
    rw [← List.contains_iff_mem, Bool.not_eq_true] at hnul
    obtain ⟨ss, hss, rfl⟩ := Path.clean_eq_ok hclean
    have hsame : SameSuccess (fun m' n' => SameTree m' { d with tree := n' }) (m.write path data mode)
        (d.tree.write (d.root ++ ss.map String.ofList) data mode) :=
      .of_iff (h.write_succeeds hclean hss) fun m' n' hm hn => h.of_write hclean hss hnul hmode hkept hm hn
    unfold DiskLayer.write
    rw [onTree_of_clean hclean hss, hnul, ← id_map (m.write path data mode)]
    exact (hsame.mapError _).map fun _ _ => id

/-- Directories can be made on both, or on none. -/
theorem makeDirs_succeeds (h : SameTree m d) {mode : Nat} (hc : Path.clean path = .ok (spell ss))
    (hss : ∀ s ∈ ss, IsPlain s) (hclear : m.ClearAbove (spell ss)) : (∃ m', m.makeDirs path = .ok m') ↔
      ∃ n', d.tree.makeDirs (d.root ++ ss.map String.ofList) mode = .ok n' := by
  rw [DiskTree.makeDirs_succeeds (DiskTree.spot_of_prefix h.spot_root List.nil_prefix)]
  constructor
  · rintro ⟨m', hm⟩ q hq f hf
    obtain ⟨x, hx, hnone, -⟩ := MemoryLayer.makeDirs_eq_ok.mp hm
    rw [hc, Except.ok.injEq] at hx
    subst hx
    obtain ⟨us, hus, -, hfile⟩ := h.exists_file_above hss hq hf
    by_cases heq : us = ss
    · rw [heq, MemoryLayer.spot_eq_file, hnone] at hfile
      cases hfile
    · exact hclear.spot_ne hss hus heq f hfile
  · intro hfree
    refine ⟨_, MemoryLayer.makeDirs_eq_ok.mpr ⟨_, hc, ?_, rfl⟩⟩
    rw [Option.eq_none_iff_forall_ne_some]
    intro f hf
    exact hfree _ (List.prefix_refl _) f ((h.spot ss hss).trans (MemoryLayer.spot_eq_file.mpr hf))

/-- Directories that are made stand at the same places in both. -/
theorem of_makeDirs (h : SameTree m d) {mode : Nat} {n' : DiskTree} (hc : Path.clean path = .ok (spell ss))
    (hss : ∀ s ∈ ss, IsPlain s) (hnul : (spell ss).toList.contains '\x00' = false) (hclear : m.ClearAbove (spell ss))
    (hm : m.makeDirs path = .ok m') (hn : d.tree.makeDirs (d.root ++ ss.map String.ofList) mode = .ok n') :
    SameTree m' { d with tree := n' } := by
  have htree : d.tree.spot [] = .directory := DiskTree.spot_of_prefix h.spot_root List.nil_prefix
  have hall := DiskTree.spot_makeDirs htree hn
  refine ⟨h.orderly.makeDirs hss hc hclear hm, fun ts hts => ?_, fun q s hq => ?_,
    fun q => DiskTree.nodup_names_makeDirs hn (h.distinct q), fun ts hts hnul' => ?_⟩
  · have hpre : d.root ++ ts.map String.ofList <+: d.root ++ ss.map String.ofList ↔ ts <+: ss := by
      rw [List.prefix_append_right_inj, List.prefix_map_iff]
      constructor
      · rintro ⟨us, hus, heq⟩
        rwa [map_ofList_inj.mp heq]
      · intro hts
        exact ⟨ts, hts, rfl⟩
    rw [hall, MemoryLayer.spot_makeDirs h.orderly hss hts hc hclear hm, h.spot ts hts]
    simp only [hpre]
  · rw [hall] at hq
    split at hq
    · next hpre =>
      have hmem : s ∈ ss.map String.ofList :=
        ((List.prefix_append_right_inj d.root).mp hpre).subset (by simp)
      obtain ⟨t, ht, rfl⟩ := List.mem_map.mp hmem
      rw [String.toList_ofList]
      exact hss t ht
    · exact h.plain q s hq
  · rw [MemoryLayer.spot_makeDirs h.orderly hss hts hc hclear hm, if_neg]
    · exact h.noNul ts hts hnul'
    · rintro hpre
      obtain ⟨t, ht, hmem⟩ := hnul'
      rw [(contains_spell ss).mpr ⟨t, hpre.subset ht, hmem⟩] at hnul
      cases hnul

theorem makeDirs (h : SameTree m d) {mode : Nat} (hc : (LayerCall.makeDirs path mode).IsRegular m) :
    SameSuccess SameTree (m.makeDirs path) (d.makeDirs path mode) := by
  cases hclean : Path.clean path with
  | error e =>
    unfold MemoryLayer.makeDirs MemoryLayer.resolve DiskLayer.makeDirs DiskLayer.onTree
    rw [hclean]
    exact .error _ _
  | ok x =>
    obtain ⟨hnul, hclear⟩ := hc x hclean
    rw [← List.contains_iff_mem, Bool.not_eq_true] at hnul
    obtain ⟨ss, hss, rfl⟩ := Path.clean_eq_ok hclean
    have hsame : SameSuccess (fun m' n' => SameTree m' { d with tree := n' }) (m.makeDirs path)
        (d.tree.makeDirs (d.root ++ ss.map String.ofList) mode) :=
      .of_iff (h.makeDirs_succeeds hclean hss hclear) fun m' n' hm hn => h.of_makeDirs hclean hss hnul hclear hm hn
    unfold DiskLayer.makeDirs
    rw [onTree_of_clean hclean hss, hnul, ← id_map (m.makeDirs path)]
    exact (hsame.mapError _).map fun _ _ => id

/-! ## Runs -/

/-- What is related behind a call: the answers, and the layers. -/
def SameResult (m : MemoryLayer) (r r' : LayerAnswer × Layer) : Prop :=
  r.1 = r'.1 ∧ r.2 = .memory m ∧ ∃ d, r'.2 = .disk d ∧ SameTree m d

theorem SameResult.answer {a b : LayerAnswer} (hab : a = b) (h : SameTree m d) :
    SameResult m (a, .memory m) (b, .disk d) := ⟨hab, rfl, d, rfl, h⟩

theorem call_mode (h : SameTree m d) (hc : (LayerCall.mode path).IsRegular m) :
    SameSuccess (SameResult m) ((Layer.memory m).call (.mode path)) ((Layer.disk d).call (.mode path)) := by
  cases hclean : Path.clean path with
  | error e =>
    refine SameSuccess.bind (R := fun _ _ => False) (fun _ _ => False.elim) ?_
    exact onTree_error hclean _ _
  | ok x =>
    obtain ⟨hnul, hclear⟩ := hc x hclean
    rw [← List.contains_iff_mem, Bool.not_eq_true] at hnul
    obtain ⟨ss, hss, rfl⟩ := Path.clean_eq_ok hclean
    obtain ⟨hmode, bits, hbits, hsame⟩ := h.mode hclean hss hnul hclear
    have hdir : m.isDir path = .ok (m.hasDir (spell ss)) := by
      unfold MemoryLayer.isDir
      rw [MemoryLayer.resolve_of_clean hclean]
      rfl
    have hdisk := h.isDir path
    rw [hdir] at hdisk
    unfold Layer.call
    simp only [Layer.mode?, Layer.isDir, hmode, hbits, hdir, bind, Except.bind]
    cases hd : d.isDir path with
    | error e =>
      rw [hd] at hdisk
      cases hdisk
    | ok b =>
      rw [hd] at hdisk
      obtain ⟨rfl⟩ := hdisk
      refine .ok (.answer ?_ h)
      by_cases hdir : m.hasDir (spell ss)
      · rw [if_pos hdir, if_pos hdir]
      · rw [if_neg hdir, if_neg hdir, hsame fun hspot => hdir (h.orderly.spot_eq_directory.mp hspot)]

/-- Writing succeeds on both or on none; a layer on which it fails stays as it is. -/
theorem done {x : Except PatchError MemoryLayer} {y : Except PatchError DiskLayer} (h : SameSuccess SameTree x y) :
    SameSuccess (SameResult (x.toOption.getD m)) (Layer.memory <$> x >>= fun l => .ok (.done, l))
      (Layer.disk <$> y >>= fun l => .ok (.done, l)) := by
  cases h with
  | ok h => exact .ok (.answer rfl h)
  | error e e' => exact .error _ _

/-- A regular call has the same answer from both, and keeps them the same. -/
theorem call (h : SameTree m d) {c : LayerCall} (hc : c.IsRegular m) :
    SameSuccess (SameResult (m.after c)) ((Layer.memory m).call c) ((Layer.disk d).call c) := by
  cases c with
  | read path => exact (h.read path).bind fun _ _ hab => .ok (.answer (congrArg _ hab) h)
  | list path => exact (h.list path).bind fun _ _ hab => .ok (.answer (congrArg _ hab) h)
  | isDir path => exact (h.isDir path).bind fun _ _ hab => .ok (.answer (congrArg _ hab) h)
  | mode path => exact h.call_mode hc
  | write path data mode => exact done (h.write hc)
  | makeDirs path mode => exact done (h.makeDirs hc)

end SameTree

/-- A call that fails changes nothing. -/
theorem MemoryLayer.after_of_error {m : MemoryLayer} {c : LayerCall} {e : PatchError}
    (h : (Layer.memory m).call c = .error e) : m.after c = m := by
  have hfail : ∀ x : Except PatchError MemoryLayer,
      (Layer.memory <$> x >>= fun l => .ok (LayerAnswer.done, l)) = .error e → x.toOption.getD m = m := by
    intro x hx
    cases x with
    | ok m' => cases hx
    | error e => rfl
  cases c with
  | write path data mode => exact hfail _ h
  | makeDirs path mode => exact hfail _ h
  | _ => rfl

theorem SameTree.answers_eq {m : MemoryLayer} {d : DiskLayer} {calls : List LayerCall} (h : SameTree m d)
    (hcalls : RegularFrom m calls) : (Layer.memory m).answers calls = (Layer.disk d).answers calls := by
  induction calls generalizing m d with
  | nil => rfl
  | cons c calls ih =>
    obtain ⟨hc, hrest⟩ := hcalls
    have hstep := h.call hc
    unfold Layer.answers
    cases hm : (Layer.memory m).call c with
    | error e =>
      rw [hm] at hstep
      rw [MemoryLayer.after_of_error hm] at hrest
      generalize (Layer.disk d).call c = r at hstep
      cases hstep with
      | error _ e' => exact congrArg _ (ih h hrest)
    | ok r =>
      rw [hm] at hstep
      generalize (Layer.disk d).call c = r' at hstep
      cases hstep with
      | ok hsame =>
        obtain ⟨hanswer, hmemory, d', hdisk, hsame⟩ := hsame
        dsimp only
        rw [hanswer, hmemory, hdisk, ih hsame hrest]

/-- A layer in memory with nothing in it is an empty directory. -/
theorem SameTree.of_empty {tree : DiskTree} {root : List String} {mode : Nat}
    (h : tree.find root = .ok (.dir mode [])) : SameTree .empty ⟨tree, root⟩ := by
  have hspot : ∀ path, tree.spot (root ++ path) = (DiskTree.dir mode []).spot path := by
    intro path
    unfold DiskTree.spot
    rw [DiskTree.find_append, h]
    rfl
  have hnothing : ∀ ss : List (List Char), (∀ s ∈ ss, IsPlain s) → ss ≠ [] → MemoryLayer.empty.spot ss = .nothing := by
    intro ss hss hne
    unfold MemoryLayer.spot
    have hdir : ¬ MemoryLayer.empty.hasDir (spell ss) := by
      intro hdir
      have hroot : spell ss = "." := by simpa [MemoryLayer.hasDir, MemoryLayer.empty] using hdir
      exact hne (Path.spell_injective hss (List.forall_mem_nil _) hroot)
    exact if_neg hdir
  refine ⟨MemoryLayer.isOrderly_empty, fun ss hss => ?_, fun path s hs => ?_, fun path => ?_, fun ss hss hnul => ?_⟩
  · rw [hspot]
    cases ss with
    | nil => rfl
    | cons s ss =>
      rw [hnothing _ hss (List.cons_ne_nil s ss)]
      rfl
  · rw [hspot] at hs
    cases path with
    | nil => exact absurd rfl hs
    | cons t path => exact absurd rfl hs
  · unfold DiskTree.names
    rw [DiskTree.find_append, h]
    cases path <;> exact List.nodup_nil
  · obtain ⟨s, hs, -⟩ := hnul
    exact hnothing ss hss (List.ne_nil_of_mem hs)

/-- Calls on an empty layer in memory have the answers that they have on an empty directory. -/
theorem Layer.answers_agree {tree : DiskTree} {root : List String} {mode : Nat} {calls : List LayerCall}
    (h : tree.find root = .ok (.dir mode [])) (hcalls : RegularFrom .empty calls) :
    (Layer.memory .empty).answers calls = (Layer.disk ⟨tree, root⟩).answers calls :=
  (SameTree.of_empty h).answers_eq hcalls

/-- Calls of which about half fail: paths that lead out, to nothing, through a file or to a directory. -/
def someCalls : List LayerCall :=
  [.makeDirs "a/b" 0o755, .write "a/b/c" [1] 0o600, .write "a/./b/c" [2] 0o600, .read "a/b/c", .list "a/b",
    .mode "a/b/c", .mode "a", .isDir "a", .isDir "a/b/c/d", .read "../x", .read "a", .read "a/b/c/d",
    .write "a" [3] 0o600, .write "z/c" [3] 0o600, .write "a/b/c/d" [3] 0o600, .list "a/b/c", .makeDirs "a/b/c" 0o755]

theorem Layer.someCalls_agree :
    (Layer.memory .empty).answers someCalls = (Layer.disk ⟨.dir 0o755 [("p", .dir 0o755 [])], ["p"]⟩).answers someCalls ∧
      (Layer.memory .empty).answers someCalls = [some .done, some .done, some .done, some (.bytes [2]), some (.names ["c"]),
        some (.mode (some 0o600)), some (.mode none), some (.truth true), some (.truth false), none, none, none,
        none, none, none, none, none] :=
  ⟨answers_agree rfl (by decide +kernel), by decide +kernel⟩

end GoSplice
