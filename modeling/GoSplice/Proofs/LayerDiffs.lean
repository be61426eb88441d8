import GoSplice.Diff
import GoSplice.Proofs.PackageNames
import GoSplice.Proofs.Patches

/-!
# Differences between layers are patches

The differences between two layers have one entry for each file of the compared directories whose
bytes are not the same in both, and no other.  They are found unless something cannot be read.  Where
both contents are text with whole lines, an entry is a patch that makes one of the other:

    Layer.diff input output dirs = ok ds →
      path ∈ ds  ↔  a file of the directories, its bytes before ≠ after
      (path, text) ∈ ds  →  patch? text before = some after                     (Layer.diff_faithful)
-/

namespace GoSplice

/-! ## Compared files -/

/-- What a file held: nothing, if there is no such file. -/
def Layer.Held (l : Layer) (path : String) (bs : Bytes) : Prop :=
  ∃ found, ifFound (l.read path) = .ok found ∧ found.getD [] = bs

/-- The file under a name of a directory, with its bytes in both layers. -/
structure Compared (input output : Layer) (directory name path : String) (before after : Bytes) : Prop where
  spelled : Path.clean (Path.concat directory name) = .ok path
  held : input.Held path before
  read : output.read path = .ok after

/-- Whether all files that the output layer shows of a directory can be read in both layers; it need
not have the directory. -/
def Comparable (input output : Layer) (directory : String) : Prop :=
  ∃ found, ifFound (output.list directory) = .ok found ∧ ∀ name ∈ found.getD [],
    ∃ path before after, Compared input output directory name path before after

/-- Whether the file at a path is one of some directories, with other bytes than before. -/
def Changed (input output : Layer) (directories : List String) (path : String) (before after : Bytes) : Prop :=
  (∃ d ∈ directories, ∃ names, output.list d = .ok names ∧ ∃ name ∈ names, Compared input output d name path before after) ∧
    before ≠ after

theorem Layer.Held.unique {l : Layer} {path : String} {bs cs : Bytes} (hb : l.Held path bs) (hc : l.Held path cs) :
    bs = cs := by
  obtain ⟨found, hfound, rfl⟩ := hb
  obtain ⟨found', hfound', rfl⟩ := hc
  rw [hfound] at hfound'
  obtain rfl := Except.ok.inj hfound'
  rfl

theorem Changed.unique {input output : Layer} {directories : List String} {path : String} {before after before' after' : Bytes}
    (h : Changed input output directories path before after) (h' : Changed input output directories path before' after') :
    before = before' ∧ after = after' := by
  obtain ⟨⟨_, _, _, _, _, _, hc⟩, _⟩ := h
  obtain ⟨⟨_, _, _, _, _, _, hc'⟩, _⟩ := h'
  exact ⟨hc.held.unique hc'.held, Except.ok.inj (hc.read.symm.trans hc'.read)⟩

namespace Diff

variable {input output : Layer} {d : String}

/-- The diff of a file's bytes, if they differ. -/
def difference? (path : String) (before after : Bytes) : Option String :=
  if before = after then none
  else some (UnifiedDiff.text path (Utf8.decodeLossy before) (Utf8.decodeLossy after))

theorem difference?_eq_some_iff {path t : String} {before after : Bytes} : difference? path before after = some t ↔
    before ≠ after ∧ UnifiedDiff.text path (Utf8.decodeLossy before) (Utf8.decodeLossy after) = t := by
  unfold difference?
  by_cases heq : before = after
  · rw [if_pos heq]
    exact ⟨fun h => absurd h (by simp), fun h => absurd heq h.1⟩
  · rw [if_neg heq, Option.some.injEq]
    exact ⟨fun h => ⟨heq, h⟩, fun h => h.2⟩

theorem file?_eq_ok_iff {path : String} {diff : Option String} : file? input output path = .ok diff ↔
    ∃ before after, input.Held path before ∧ output.read path = .ok after ∧ difference? path before after = diff := by
  unfold file? Layer.Held
  constructor
  · intro h
    cases hafter : output.read path with
    | error e =>
      rw [hafter] at h
      cases h
    | ok after =>
      cases hbefore : ifFound (input.read path) with
      | error e =>
        rw [hafter, hbefore] at h
        cases h
      | ok found =>
        rw [hafter, hbefore] at h
        refine ⟨found.getD [], after, ⟨found, rfl, rfl⟩, rfl, ?_⟩
        change (if found.getD [] = after then Except.ok none else Except.ok (some _)) = _ at h
        unfold difference?
        split at h
        · next heq =>
          rw [if_pos heq]
          exact Except.ok.inj h
        · next heq =>
          rw [if_neg heq]
          exact Except.ok.inj h
  · rintro ⟨before, after, ⟨found, hfound, rfl⟩, hafter, rfl⟩
    rw [hafter, hfound]
    show (if found.getD [] = after then Except.ok none else Except.ok (some _)) = _
    unfold difference?
    split <;> rfl

theorem files_cons_eq_ok {name : String} {names : List String} {ds : List (String × String)} :
    files input output d (name :: names) = .ok ds ↔ ∃ path before after rest, Compared input output d name path before after ∧
      files input output d names = .ok rest ∧ ds = ((difference? path before after).map (path, ·)).toList ++ rest := by
  rw [files]
  constructor
  · intro h
    cases hpath : Path.clean (Path.concat d name) with
    | error e =>
      rw [hpath] at h
      cases h
    | ok path =>
      rw [hpath] at h
      change (file? input output path >>= _) = _ at h
      cases hfile : file? input output path with
      | error e =>
        rw [hfile] at h
        cases h
      | ok diff =>
        rw [hfile] at h
        change (files input output d names >>= _) = _ at h
        obtain ⟨before, after, hheld, hread, rfl⟩ := file?_eq_ok_iff.mp hfile
        cases hrest : files input output d names with
        | error e =>
          rw [hrest] at h
          cases h
        | ok rest =>
          rw [hrest] at h
          exact ⟨path, before, after, rest, ⟨hpath, hheld, hread⟩, rfl, (Except.ok.inj h).symm⟩
  · rintro ⟨path, before, after, rest, hc, hrest, rfl⟩
    rw [hc.spelled]
    show (file? input output path >>= _) = _
    rw [file?_eq_ok_iff.mpr ⟨before, after, hc.held, hc.read, rfl⟩]
    show (files input output d names >>= _) = _
    rw [hrest]
    rfl

/-- The diffs of files are found if all can be compared, and are the entries of those that differ. -/
theorem files_eq_ok_iff {names : List String} : (∃ ds, files input output d names = .ok ds) ↔
    ∀ name ∈ names, ∃ path before after, Compared input output d name path before after := by
  induction names with
  | nil => exact ⟨fun _ => List.forall_mem_nil _, fun _ => ⟨[], rfl⟩⟩
  | cons name names ih =>
    rw [List.forall_mem_cons, ← ih]
    constructor
    · rintro ⟨ds, h⟩
      obtain ⟨path, before, after, rest, hc, hrest, -⟩ := files_cons_eq_ok.mp h
      exact ⟨⟨path, before, after, hc⟩, rest, hrest⟩
    · rintro ⟨⟨path, before, after, hc⟩, rest, hrest⟩
      exact ⟨_, files_cons_eq_ok.mpr ⟨path, before, after, rest, hc, hrest, rfl⟩⟩

theorem mem_difference {path x t : String} {before after : Bytes} :
    (x, t) ∈ ((difference? path before after).map (path, ·)).toList ↔ x = path ∧ difference? path before after = some t := by
  cases difference? path before after with
  | none => simp
  | some u => simp [eq_comm]

theorem mem_files {names : List String} {ds : List (String × String)} (h : files input output d names = .ok ds)
    {x t : String} : (x, t) ∈ ds ↔
      ∃ name ∈ names, ∃ before after, Compared input output d name x before after ∧ difference? x before after = some t := by
  induction names generalizing ds with
  | nil =>
    obtain rfl := Except.ok.inj h
    simp
  | cons name names ih =>
    obtain ⟨path, before, after, rest, hc, hrest, rfl⟩ := files_cons_eq_ok.mp h
    simp only [List.mem_append, ih hrest, mem_difference, List.mem_cons, exists_eq_or_imp]
    refine or_congr_left ?_
    constructor
    · rintro ⟨rfl, ht⟩
      exact ⟨before, after, hc, ht⟩
    · rintro ⟨before', after', hc', ht⟩
      obtain rfl := Except.ok.inj (hc.spelled.symm.trans hc'.spelled)
      obtain rfl := hc.held.unique hc'.held
      obtain rfl := Except.ok.inj (hc.read.symm.trans hc'.read)
      exact ⟨rfl, ht⟩

theorem directory_eq_ok_iff : (∃ ds, directory input output d = .ok ds) ↔ Comparable input output d := by
  unfold directory Comparable
  cases hlist : ifFound (output.list d) with
  | error e =>
    constructor
    · rintro ⟨ds, h⟩
      cases h
    · rintro ⟨found, h, -⟩
      cases h
  | ok found =>
    have hinj : ∀ found' : Option (List String), (Except.ok found : Except PatchError _) = .ok found' ↔ found = found' :=
      fun found' => ⟨Except.ok.inj, congrArg _⟩
    simp only [hinj, exists_eq_left']
    cases found with
    | none => exact ⟨fun _ => List.forall_mem_nil _, fun _ => ⟨[], rfl⟩⟩
    | some names => exact files_eq_ok_iff

/-- The entries of a directory are those of the files that differ. -/
theorem mem_directory {ds : List (String × String)} (h : directory input output d = .ok ds) {x t : String} :
    (x, t) ∈ ds ↔ ∃ names, output.list d = .ok names ∧
      ∃ name ∈ names, ∃ before after, Compared input output d name x before after ∧ difference? x before after = some t := by
  unfold directory at h
  cases hlist : output.list d with
  | error e =>
    rw [hlist] at h
    unfold ifFound at h
    dsimp only at h
    split at h
    · obtain rfl := Except.ok.inj h
      simp
    · cases h
  | ok names =>
    rw [hlist] at h
    rw [mem_files h]
    simp

end Diff

namespace Layer

variable {α β ε : Type} {input output : Layer} {directories : List String}

theorem mapM_eq_ok_iff {f : α → Except ε β} {as : List α} :
    (∃ bs, as.mapM f = .ok bs) ↔ ∀ a ∈ as, ∃ b, f a = .ok b := by
  induction as with
  | nil => exact ⟨fun _ => List.forall_mem_nil _, fun _ => ⟨[], rfl⟩⟩
  | cons a as ih =>
    rw [List.forall_mem_cons, ← ih]
    constructor
    · rintro ⟨bs, h⟩
      obtain ⟨c, cs, hc, hcs, rfl⟩ := mapM_cons_eq_ok h
      exact ⟨⟨c, hc⟩, cs, hcs⟩
    · rintro ⟨⟨b, hb⟩, bs, hbs⟩
      refine ⟨b :: bs, ?_⟩
      rw [List.mapM_cons, hb, hbs]
      rfl

theorem mem_of_mapM {f : α → Except ε (List β)} {as : List α} {groups : List (List β)}
    (h : as.mapM f = .ok groups) {b : β} : b ∈ groups.flatten ↔ ∃ a ∈ as, ∃ bs, f a = .ok bs ∧ b ∈ bs := by
  induction as generalizing groups with
  | nil =>
    obtain rfl := Except.ok.inj h
    simp
  | cons a as ih =>
    obtain ⟨c, cs, hc, hcs, rfl⟩ := mapM_cons_eq_ok h
    simp only [List.flatten_cons, List.mem_append, ih hcs, List.mem_cons, exists_eq_or_imp, hc, Except.ok.injEq,
      exists_eq_left']

theorem diff_eq_ok {ds : List (String × String)} (h : input.diff output directories = .ok ds) :
    ∃ groups, directories.mapM (Diff.directory input output) = .ok groups ∧ ds = groups.flatten.eraseDups := by
  unfold diff at h
  cases hgroups : directories.mapM (Diff.directory input output) with
  | error e =>
    rw [hgroups] at h
    cases h
  | ok groups =>
    rw [hgroups] at h
    exact ⟨groups, rfl, (Except.ok.inj h).symm⟩

/-- Differences are found if all directories can be compared. -/
theorem diff_eq_ok_iff : (∃ ds, input.diff output directories = .ok ds) ↔
    ∀ d ∈ directories, Comparable input output d := by
  have hdirectories : (∃ groups, directories.mapM (Diff.directory input output) = .ok groups) ↔
      ∀ d ∈ directories, Comparable input output d := by
    rw [mapM_eq_ok_iff]
    exact forall₂_congr fun d _ => Diff.directory_eq_ok_iff
  rw [← hdirectories]
  constructor
  · rintro ⟨ds, h⟩
    obtain ⟨groups, hgroups, -⟩ := diff_eq_ok h
    exact ⟨groups, hgroups⟩
  · rintro ⟨groups, hgroups⟩
    refine ⟨groups.flatten.eraseDups, ?_⟩
    unfold diff
    rw [hgroups]
    rfl

/-- The entries are those of the files that differ. -/
theorem mem_diff {ds : List (String × String)} (h : input.diff output directories = .ok ds) {x t : String} :
    (x, t) ∈ ds ↔ ∃ before after, Changed input output directories x before after ∧
      UnifiedDiff.text x (Utf8.decodeLossy before) (Utf8.decodeLossy after) = t := by
  obtain ⟨groups, hgroups, rfl⟩ := diff_eq_ok h
  rw [List.mem_eraseDups, mem_of_mapM hgroups]
  constructor
  · rintro ⟨d, hd, es, hes, hmem⟩
    obtain ⟨names, hlist, name, hname, before, after, hc, ht⟩ := (Diff.mem_directory hes).mp hmem
    obtain ⟨hne, htext⟩ := Diff.difference?_eq_some_iff.mp ht
    exact ⟨before, after, ⟨⟨d, hd, names, hlist, name, hname, hc⟩, hne⟩, htext⟩
  · rintro ⟨before, after, ⟨⟨d, hd, names, hlist, name, hname, hc⟩, hne⟩, htext⟩
    obtain ⟨es, hes⟩ := mapM_eq_ok_iff.mp ⟨groups, hgroups⟩ d hd
    exact ⟨d, hd, es, hes, (Diff.mem_directory hes).mpr ⟨names, hlist, name, hname, before, after, hc,
      Diff.difference?_eq_some_iff.mpr ⟨hne, htext⟩⟩⟩

theorem nodup_diff {ds : List (String × String)} (h : input.diff output directories = .ok ds) :
    (ds.map (·.1)).Nodup := by
  have hds : ds.Nodup := by
    obtain ⟨groups, -, rfl⟩ := diff_eq_ok h
    exact nodup_eraseDups _
  refine List.pairwise_map.mpr (hds.imp_of_mem fun {e e'} he he' hne heq => hne ?_)
  obtain ⟨before, after, hchanged, htext⟩ := (mem_diff h).mp he
  obtain ⟨before', after', hchanged', htext'⟩ := (mem_diff h).mp he'
  rw [← heq] at hchanged' htext'
  obtain ⟨rfl, rfl⟩ := hchanged.unique hchanged'
  exact Prod.ext heq (htext.symm.trans htext')

theorem mem_paths_diff {ds : List (String × String)} (h : input.diff output directories = .ok ds) {x : String} :
    x ∈ ds.map (·.1) ↔ ∃ before after, Changed input output directories x before after := by
  rw [List.mem_map]
  constructor
  · rintro ⟨⟨y, t⟩, he, rfl⟩
    obtain ⟨before, after, hchanged, -⟩ := (mem_diff h).mp he
    exact ⟨before, after, hchanged⟩
  · rintro ⟨before, after, hchanged⟩
    exact ⟨(x, _), (mem_diff h).mpr ⟨before, after, hchanged, rfl⟩, rfl⟩

/-! ## Layers in memory -/

theorem eq_ok_of_ifFound {r : Except PatchError α} {a : α} (h : ifFound r = .ok (some a)) : r = .ok a := by
  cases r with
  | ok b => rw [Option.some.inj (Except.ok.inj h)]
  | error e =>
    unfold ifFound at h
    dsimp only at h
    split at h <;> cases h

theorem eq_spell_of_file? {l : Layer} (hl : l.IsBuilt) {y : String} {f : StoredFile} (hf : l.file? y = some f)
    {ss : List (List Char)} (hss : ∀ s ∈ ss, Path.IsPlain s) (hparent : Path.parent y = Path.spell ss) :
    y = Path.spell (ss ++ [(Path.baseName y).toList]) ∧ Path.IsPlain (Path.baseName y).toList := by
  have hfile : IsLayerPath y ∧ y ≠ "." := by
    cases l with
    | memory l | readOnly l => exact MemoryLayer.Sound.path (MemoryLayer.Built.sound hl) y f hf
    | disk l => exact hl.elim
  obtain ⟨⟨ts, hts, rfl⟩, hroot⟩ := hfile
  rcases List.eq_nil_or_concat ts with rfl | ⟨us, n, rfl⟩
  · exact absurd rfl hroot
  · rw [List.concat_eq_append] at *
    have hus : ∀ s ∈ us, Path.IsPlain s := fun s hs => hts s (List.mem_append_left _ hs)
    have hn : Path.IsPlain n := hts n (List.mem_append_right _ (List.mem_singleton_self n))
    rw [Path.parent_spell hus hn] at hparent
    rw [Path.baseName_spell hus hn, String.toList_ofList, Path.spell_injective hus hss hparent]
    exact ⟨rfl, hn⟩

/-- A directory and the last name of a file in it spell the file's path. -/
theorem clean_concat_baseName {l : Layer} (hl : l.IsBuilt) {d x : String} (hd : Path.clean d = .ok x) {y : String}
    {f : StoredFile} (hf : l.file? y = some f) (hparent : Path.parent y = x) :
    Path.clean (Path.concat d (Path.baseName y)) = .ok y ∧ IsLayerPath y := by
  obtain ⟨hss, rfl⟩ := Path.clean_segments hd
  obtain ⟨hy, hplain⟩ := eq_spell_of_file? hl hf hss hparent
  have hpath := Path.clean_concat hss hd hplain
  rw [String.ofList_toList, ← hy] at hpath
  exact ⟨hpath, Path.clean_eq_ok hpath⟩

theorem held_iff {l : Layer} (hl : l.IsBuilt) {x : String} (hx : IsLayerPath x) {bs : Bytes} :
    l.Held x bs ↔ ((l.file? x).map (·.data)).getD [] = bs := by
  unfold Held
  rw [ifFound_read hl hx]
  simp

/-- Files in memory are compared with nothing in the way. -/
theorem compared_of_file? (hin : input.IsBuilt) (hout : output.IsBuilt) {d x : String} (hd : Path.clean d = .ok x)
    {y : String} {f : StoredFile} (hf : output.file? y = some f) (hparent : Path.parent y = x) :
    Compared input output d (Path.baseName y) y (((input.file? y).map (·.data)).getD []) f.data := by
  obtain ⟨hpath, hy⟩ := clean_concat_baseName hout hd hf hparent
  exact ⟨hpath, (held_iff hin hy).mpr rfl, read_of_file? hout hy hf⟩

theorem comparable_of_isBuilt (hin : input.IsBuilt) (hout : output.IsBuilt) {d x : String} (hd : Path.clean d = .ok x) :
    Comparable input output d := by
  obtain ⟨found, hfound, -, hnames⟩ := ifFound_list hout hd
  refine ⟨found, hfound, fun name hname => ?_⟩
  cases found with
  | none => cases hname
  | some names =>
    obtain ⟨y, f, hf, hparent, rfl⟩ := (hnames names rfl name).mp hname
    exact ⟨y, _, _, compared_of_file? hin hout hd hf hparent⟩

/-- A file in memory has changed if it lies in the directory and its bytes are other bytes. -/
theorem changed_iff (hin : input.IsBuilt) (hout : output.IsBuilt) {d x : String} (hd : Path.clean d = .ok x) {y : String} :
    (∃ before after, Changed input output [d] y before after) ↔ Path.parent y = x ∧
      ∃ f, output.file? y = some f ∧ ((input.file? y).map (·.data)).getD [] ≠ f.data := by
  obtain ⟨found, hfound, hsome, hnames⟩ := ifFound_list hout hd
  constructor
  · rintro ⟨before, after, ⟨d', hd', names, hlist, name, hname, hc⟩, hne⟩
    obtain rfl := List.mem_singleton.mp hd'
    rw [hlist] at hfound
    obtain rfl := Except.ok.inj hfound
    obtain ⟨z, f, hf, hparent, rfl⟩ := (hnames names rfl name).mp hname
    have hz := compared_of_file? hin hout hd hf hparent
    obtain rfl := Except.ok.inj (hz.spelled.symm.trans hc.spelled)
    obtain rfl := hz.held.unique hc.held
    obtain rfl := Except.ok.inj (hz.read.symm.trans hc.read)
    exact ⟨hparent, f, hf, hne⟩
  · rintro ⟨hparent, f, hf, hne⟩
    have hdir : output.hasDir x := by
      rw [← hparent]
      cases output with
      | memory l | readOnly l => exact MemoryLayer.Sound.parent (MemoryLayer.Built.sound hout) y f hf
      | disk l => exact hout.elim
    obtain ⟨names, rfl⟩ := Option.isSome_iff_exists.mp (hsome.mpr hdir)
    have hname := (hnames names rfl _).mpr ⟨y, f, hf, hparent, rfl⟩
    exact ⟨_, f.data, ⟨d, List.mem_singleton_self d, names, eq_ok_of_ifFound hfound, _, hname,
      compared_of_file? hin hout hd hf hparent⟩, hne⟩

/-! ## Patches -/

/-- **Differences between layers are patches.**  They are found unless a directory or a file of it cannot be
read, which does not happen in memory.  Each path has one entry, and has it if its file is one of the
directories and holds other bytes than before.  Where the bytes before and after are text whose lines all
end with line feeds, and the path has none, the entry is a patch that makes one of the other. -/
theorem diff_faithful (input output : Layer) (directories : List String) :
    ((∃ ds, input.diff output directories = .ok ds) ↔ ∀ d ∈ directories, Comparable input output d) ∧
    (input.IsBuilt → output.IsBuilt → (∀ d ∈ directories, ∃ x, Path.clean d = .ok x) →
      ∀ d ∈ directories, Comparable input output d) ∧
    ∀ ds, input.diff output directories = .ok ds →
      (ds.map (·.1)).Nodup ∧
      (∀ path, path ∈ ds.map (·.1) ↔ ∃ before after, Changed input output directories path before after) ∧
      ∀ path text before after, (path, text) ∈ ds →
        Changed input output directories path (Utf8.encode before) (Utf8.encode after) → '\n' ∉ path.toList →
        UnifiedDiff.EndsLines before → UnifiedDiff.EndsLines after →
        UnifiedDiff.patch? text.toList before = some after := by
  refine ⟨diff_eq_ok_iff, fun hin hout hclean d hd => ?_, fun ds hds => ⟨nodup_diff hds, fun _ => mem_paths_diff hds, ?_⟩⟩
  · obtain ⟨x, hx⟩ := hclean d hd
    exact comparable_of_isBuilt hin hout hx
  · intro path text before after hmem hchanged hpath hbefore hafter
    obtain ⟨before', after', hchanged', htext⟩ := (mem_diff hds).mp hmem
    obtain ⟨rfl, rfl⟩ := hchanged.unique hchanged'
    rw [Utf8.decodeLossy_encode, Utf8.decodeLossy_encode] at htext
    rw [← htext]
    exact UnifiedDiff.patch?_text hpath hbefore hafter fun heq => hchanged.2 (congrArg _ heq)

/-- A layer with one file. -/
def oneFile (text : List Char) : MemoryLayer := ⟨[("a.go", ⟨Utf8.encode text, defaultFileMode⟩)], ["."]⟩

theorem built_oneFile (text : List Char) : (oneFile text).Built :=
  .write .empty
    (show MemoryLayer.empty.write "a.go" (Utf8.encode text) defaultFileMode = .ok (oneFile text) from rfl)

theorem compared_oneFile (before after : List Char) :
    Compared (.memory (oneFile before)) (.memory (oneFile after)) "." "a.go" "a.go" (Utf8.encode before)
      (Utf8.encode after) :=
  ⟨rfl, ⟨some (Utf8.encode before), rfl, rfl⟩, rfl⟩

theorem list_oneFile (text : List Char) : (Layer.memory (oneFile text)).list "." = .ok ["a.go"] := by
  show Except.ok (["a.go"].mergeSort _) = _
  rw [List.mergeSort_singleton]

theorem oneFile_faithful : ∃ ds text,
    (Layer.memory (oneFile ['a', '\r', '\n', 'b', '\n'])).diff (.memory (oneFile ['a', '\r', '\n', 'c', '\n'])) ["."] =
      .ok ds ∧ ("a.go", text) ∈ ds ∧
      UnifiedDiff.patch? text.toList ['a', '\r', '\n', 'b', '\n'] = some ['a', '\r', '\n', 'c', '\n'] := by
  obtain ⟨hiff, hmemory, hfound⟩ := diff_faithful (.memory (oneFile ['a', '\r', '\n', 'b', '\n']))
    (.memory (oneFile ['a', '\r', '\n', 'c', '\n'])) ["."]
  have hcomparable := hmemory (built_oneFile _) (built_oneFile _) (List.forall_mem_singleton.mpr ⟨".", rfl⟩)
  obtain ⟨ds, hds⟩ := hiff.mpr hcomparable
  obtain ⟨-, hpaths, hpatch⟩ := hfound ds hds
  have hchanged : Changed (.memory (oneFile ['a', '\r', '\n', 'b', '\n'])) (.memory (oneFile ['a', '\r', '\n', 'c', '\n']))
      ["."] "a.go" (Utf8.encode ['a', '\r', '\n', 'b', '\n']) (Utf8.encode ['a', '\r', '\n', 'c', '\n']) :=
    ⟨⟨".", List.mem_singleton_self _, ["a.go"], list_oneFile _, "a.go", List.mem_singleton_self _, compared_oneFile _ _⟩,
      by decide⟩
  obtain ⟨⟨_, text⟩, hmem, rfl⟩ := List.mem_map.mp ((hpaths "a.go").mpr ⟨_, _, hchanged⟩)
  exact ⟨ds, text, hds, hmem, hpatch "a.go" text _ _ hmem hchanged (by decide) (by decide) (by decide)⟩

end Layer

end GoSplice
