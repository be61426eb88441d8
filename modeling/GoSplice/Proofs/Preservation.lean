import GoSplice.Proofs.Writing

/-!
# What adding leaves alone

A transform that adds an import or a declaration changes one file, or two where
it replaces a declaration of another file.  Each file keeps its bytes, but for
one range that is cut and one text that is put in; every other file and all
permission bits stay:

    applyTransform t p = (ok (), q) → nothing was written, or
      Edits p l t ws and Leaves p q ws, where l is p as loaded    (applyTransform_leaves)
-/

namespace GoSplice

namespace Package

variable {p q r : Package}

/-! ## Sequences of writes -/

/-- What writes of some bytes at layer paths, the last one first, do to a package. -/
structure Rewritten (p q : Package) (ws : List (String × Bytes)) : Prop where
  layers : q.layers = p.layers.withOutput q.layers.output
  output : ∀ y, q.layers.output.file? y =
    ((ws.lookup y).map (⟨·, keptMode p.layers y⟩)).or (p.layers.output.file? y)
  inMemory : q.InMemory
  directory : q.directory = p.directory
  files : q.files = p.files
  localName : q.localName = p.localName

theorem Rewritten.refl (hp : p.InMemory) : Rewritten p p [] := by
  refine ⟨?_, fun y => rfl, hp, rfl, rfl, rfl⟩
  cases p.layers <;> rfl

theorem Rewritten.file? {ws : List (String × Bytes)} (h : Rewritten p q ws) (y : String) :
    q.layers.file? y = ((ws.lookup y).map (⟨·, keptMode p.layers y⟩)).or (p.layers.file? y) := by
  have hy := h.output y
  rw [h.layers]
  cases hw : ws.lookup y with
  | some d =>
    rw [hw] at hy
    exact Layers.file?_withOutput_some hy
  | none =>
    rw [hw] at hy
    exact Layers.file?_withOutput hy

theorem Rewritten.keptMode_eq {ws : List (String × Bytes)} (h : Rewritten p q ws) (y : String) :
    keptMode q.layers y = keptMode p.layers y := by
  have hy := h.file? y
  cases hw : ws.lookup y with
  | some d =>
    rw [hw] at hy
    unfold keptMode
    rw [hy]
    rfl
  | none =>
    rw [hw] at hy
    unfold keptMode
    rw [hy]
    rfl

theorem Rewritten.write {ws : List (String × Bytes)} {name x : String} {data : Bytes}
    (h : Rewritten p q ws) (hw : Written q r name x data) : Rewritten p r ((x, data) :: ws) := by
  refine ⟨?_, fun y => ?_, hw.inMemory, hw.directory.trans h.directory, hw.files.trans h.files,
    hw.localName.trans h.localName⟩
  · rw [hw.layers, h.layers]
    simp
  · rw [hw.output, Entries.lookup_cons]
    by_cases hy : y = x
    · rw [if_pos hy, if_pos hy, hy, h.keptMode_eq]
      rfl
    · rw [if_neg hy, if_neg hy, h.output]

/-! ## Files that are left -/

/-- What a package sees after files of some names got new bytes: those, and all
other files with the bytes and permission bits they had. -/
structure Leaves (p q : Package) (ws : List (String × Bytes)) : Prop where
  written : ∀ w ∈ ws, q.read w.1 = .ok w.2
  others : ∀ name, (∀ w ∈ ws, p.path name ≠ p.path w.1) → q.read name = p.read name
  seenMode : ∀ x f, p.layers.file? x = some f → ∃ f', q.layers.file? x = some f' ∧ f'.mode = f.mode
  outputMode : ∀ x f, p.layers.output.file? x = some f →
    ∃ f', q.layers.output.file? x = some f' ∧ f'.mode = f.mode
  newMode : ∀ x f', q.layers.file? x = some f' → p.layers.file? x = none → f'.mode = 0o644
  input : ∀ i o, p.layers = .overlay i o → ∃ o', q.layers = .overlay i o'

theorem path_eq_of_directory (h : q.directory = p.directory) (name : String) :
    q.path name = p.path name := by
  unfold path
  rw [h]

/-- Writes at the paths of different names. -/
theorem Rewritten.leaves {ws : List (String × Bytes)} {names : List (String × Bytes)}
    (hp : p.InMemory) (h : Rewritten p q ws)
    (hw : ∀ w ∈ names, ∃ x, p.path w.1 = .ok x ∧ ws.lookup x = some w.2)
    (hn : ∀ x d, ws.lookup x = some d → ∃ w ∈ names, p.path w.1 = .ok x) : Leaves p q names := by
  have hpath := path_eq_of_directory h.directory
  refine ⟨?_, ?_, ?_, ?_, ?_, ?_⟩
  · intro w hmem
    obtain ⟨x, hx, hl⟩ := hw w hmem
    rw [h.inMemory.read_eq ((hpath _).trans hx), h.file?, hl]
    rfl
  · intro name hname
    cases hx : p.path name with
    | error e =>
      unfold read
      rw [hpath, hx]
      rfl
    | ok x =>
      rw [h.inMemory.read_eq ((hpath _).trans hx), hp.read_eq hx, h.file?]
      cases hl : ws.lookup x with
      | none => rfl
      | some d =>
        obtain ⟨w, hmem, hwx⟩ := hn x d hl
        exact absurd (hx.trans hwx.symm) (hname w hmem)
  · intro x f hf
    rw [h.file?]
    cases ws.lookup x with
    | none => exact ⟨f, hf, rfl⟩
    | some d =>
      refine ⟨_, rfl, ?_⟩
      unfold keptMode
      rw [hf]
      rfl
  · intro x f hf
    rw [h.output]
    cases ws.lookup x with
    | none => exact ⟨f, hf, rfl⟩
    | some d =>
      refine ⟨_, rfl, ?_⟩
      unfold keptMode Layers.file?
      rw [hf]
      rfl
  · intro x f' hf' hnone
    rw [h.file?, hnone] at hf'
    cases hl : ws.lookup x with
    | none => rw [hl] at hf'; cases hf'
    | some d =>
      rw [hl] at hf'
      cases hf'
      unfold keptMode
      rw [hnone]
      rfl
  · intro i o hio
    rw [h.layers, hio]
    exact ⟨_, rfl⟩

end Package

/-! ## Imports put in -/

/-- Tabs and line feeds. -/
def IsBlankBytes (bs : Bytes) : Prop := ∀ b ∈ bs, b = 9 ∨ b = 10

instance (bs : Bytes) : Decidable (IsBlankBytes bs) :=
  List.decidableBAll _ bs

theorem isBlank_lineFeed : IsBlankBytes [LineIndex.lineFeed] :=
  List.forall_mem_singleton.mpr (Or.inr rfl)

/-- Bytes with some text put in at an offset, nothing but blanks around it. -/
def IsInsertion (before : Bytes) (k : Nat) (text after : Bytes) : Prop :=
  k ≤ before.length ∧ ∃ pre post, IsBlankBytes pre ∧ IsBlankBytes post ∧
    after = before.take k ++ (pre ++ text ++ post) ++ before.drop k

namespace Splice

/-- The word before an import that stands alone. -/
def keyword : Bytes := bytesOf "import "

theorem endingLine_eq (bs : Bytes) : ∃ pre, IsBlankBytes pre ∧ endingLine bs = bs ++ pre := by
  unfold endingLine
  split
  · exact ⟨[], List.forall_mem_nil _, (List.append_nil _).symm⟩
  · exact ⟨[LineIndex.lineFeed], isBlank_lineFeed, rfl⟩

theorem importInside_insertion {source : Bytes} {close : Nat} (text : Bytes)
    (h : close ≤ source.length) : IsInsertion source close text (importInside source close text) := by
  obtain ⟨pre, hpre, hline⟩ := endingLine_eq (source.take close)
  refine ⟨h, pre ++ [9], [LineIndex.lineFeed], ?_, isBlank_lineFeed, ?_⟩
  · intro b hb
    rcases List.mem_append.mp hb with hb | hb
    · exact hpre b hb
    · exact Or.inl (List.mem_singleton.mp hb)
  · unfold importInside
    rw [hline, show bytesOf "\t" = [9] from rfl]
    simp

theorem importBelow_insertion {source : Bytes} {stop : Nat} (text : Bytes)
    (h : stop ≤ source.length) :
    ∃ k, IsInsertion source k (keyword ++ text) (importBelow source stop text) := by
  unfold importBelow
  dsimp only
  by_cases hhead : (source.drop stop).head? = some LineIndex.lineFeed
  · rw [if_pos hhead]
    obtain ⟨rest, hrest⟩ : ∃ rest, source.drop stop = LineIndex.lineFeed :: rest := by
      cases hd : source.drop stop with
      | nil => rw [hd] at hhead; cases hhead
      | cons b rest =>
        rw [hd, List.head?_cons, Option.some.injEq] at hhead
        exact ⟨rest, by rw [hhead]⟩
    by_cases hlast : (source.take stop).getLast? = some LineIndex.lineFeed
    · refine ⟨stop, h, [], [], List.forall_mem_nil _, List.forall_mem_nil _, ?_⟩
      unfold endingLine keyword
      rw [if_pos hlast, hrest]
      simp
    · -- the line end behind the declaration stays before the import
      have hlen : stop + 1 ≤ source.length := by
        have := congrArg List.length hrest
        rw [List.length_drop, List.length_cons] at this
        omega
      have htake : source.take (stop + 1) = source.take stop ++ [LineIndex.lineFeed] := by
        rw [List.take_add, hrest]
        rfl
      have hdrop : source.drop (stop + 1) = rest := by
        rw [← List.drop_drop, hrest]
        rfl
      refine ⟨stop + 1, hlen, [], [LineIndex.lineFeed], List.forall_mem_nil _, isBlank_lineFeed, ?_⟩
      unfold endingLine keyword
      rw [if_neg hlast, htake, hdrop, hrest]
      simp
  · rw [if_neg hhead]
    obtain ⟨pre, hpre, hline⟩ := endingLine_eq (source.take stop)
    refine ⟨stop, h, pre, [LineIndex.lineFeed], hpre, isBlank_lineFeed, ?_⟩
    unfold keyword
    rw [hline]
    simp

theorem importAfterClause_insertion {source : Bytes} {pos : Nat} (text : Bytes)
    (h : pos ≤ source.length) :
    IsInsertion source pos (keyword ++ text) (importAfterClause source pos text) := by
  have htwo : IsBlankBytes [LineIndex.lineFeed, LineIndex.lineFeed] :=
    List.forall_mem_cons.mpr ⟨Or.inr rfl, isBlank_lineFeed⟩
  refine ⟨h, [LineIndex.lineFeed, LineIndex.lineFeed], [LineIndex.lineFeed], htwo, isBlank_lineFeed, ?_⟩
  have hword : bytesOf "\n\nimport " = [LineIndex.lineFeed, LineIndex.lineFeed] ++ keyword := rfl
  unfold importAfterClause
  rw [hword]
  simp

theorem lineEnd_le {source : Bytes} {offset : Nat} (h : offset ≤ source.length) :
    lineEnd source offset ≤ source.length := by
  have := (List.takeWhile_sublist (l := source.drop offset) (· ≠ LineIndex.lineFeed)).length_le
  rw [List.length_drop] at this
  unfold lineEnd
  omega

theorem packageLine?_le {bs : Bytes} {n : Nat} (h : packageLine? bs = some n) : n ≤ bs.length := by
  unfold packageLine? at h
  dsimp only at h
  split at h
  · next hword =>
    cases h
    refine lineEnd_le ?_
    obtain ⟨rest, hrest⟩ := List.isPrefixOf_iff_prefix.mp hword
    have hlen := congrArg List.length hrest
    have hspace := (List.takeWhile_sublist (l := List.drop (bytesOf "package").length
      (bs.drop (bs.takeWhile isSpaceByte).length)) isSpaceByte).length_le
    have hbefore := (List.takeWhile_sublist (l := bs) isSpaceByte).length_le
    simp only [List.length_append, List.length_drop] at hlen hspace
    omega
  · cases h

theorem packageLineEnd?_le {pos k : Nat} {lineStart : Bool} {bs : Bytes}
    (h : packageLineEnd? pos lineStart bs = some k) : k ≤ pos + bs.length := by
  induction bs generalizing pos lineStart with
  | nil => cases h
  | cons b r ih =>
    unfold packageLineEnd? at h
    rcases Option.or_eq_some_iff.mp h with h | ⟨-, h⟩
    · split at h
      · obtain ⟨n, hn, rfl⟩ := Option.map_eq_some_iff.mp h
        have := packageLine?_le hn
        omega
      · cases h
    · have := ih h
      rw [List.length_cons]
      omega

end Splice

/-! ## Transforms that add -/

namespace Package

variable {p q r : Package}

/-- What an added import is put into a file as, and where: the spec alone into
parentheses, else with the word before it. -/
def importPlaced (loaded : Package) (a : ImportAddition) (k : Nat) (text : Bytes) : Prop :=
  match (loaded.files.file? a.filename).bind Splice.lastImport? with
  | some (_, some close) => k = close ∧ text = importText a
  | _ => text = Splice.keyword ++ importText a

/-- The new bytes of the files that a transform changes, where `p` is the package
before and `l` the same loaded.  `p.bytesOr l.newFile` are the bytes that a file
had, or a package clause. -/
inductive Edits (p l : Package) : Transform → List (String × Bytes) → Prop
  | imported {a : ImportAddition} {k : Nat} {text after : Bytes} :
      importPlaced l a k text → IsInsertion (p.bytesOr l.newFile a.filename) k text after →
      Edits p l (.addImport a) [(a.filename, after)]
  | appended {a : Addition} : l.files.findSubject? a.subject = none →
      Edits p l (.add a)
        [(a.filename, p.bytesOr l.newFile a.filename ++ bytesOf a.text ++ [LineIndex.lineFeed])]
  | replacedHere {a : Addition} {m : Match} : l.files.findSubject? a.subject = some m →
      a.replace → m.file.filename = a.filename → p.read m.file.filename = .ok m.file.source →
      Edits p l (.add a)
        [(a.filename, m.file.source.take m.declaration.spliceStart ++
          m.file.source.drop m.declaration.stop ++ bytesOf a.text ++ [LineIndex.lineFeed])]
  | replacedElsewhere {a : Addition} {m : Match} : l.files.findSubject? a.subject = some m →
      a.replace → m.file.filename ≠ a.filename → p.read m.file.filename = .ok m.file.source →
      Edits p l (.add a)
        [(m.file.filename, m.file.source.take m.declaration.spliceStart ++
          m.file.source.drop m.declaration.stop),
        (a.filename, p.bytesOr l.newFile a.filename ++ bytesOf a.text ++ [LineIndex.lineFeed])]

/-- A transform that finds what it would add, and is not to replace it. -/
inductive Keeps (l : Package) : Transform → Prop
  | found {a : Addition} {m : Match} :
      l.files.findSubject? a.subject = some m → a.replace = false → Keeps l (.add a)

theorem Loaded.inMemory (hp : p.InMemory) (h : Loaded p q) : q.InMemory := by
  rw [h.eq]
  exact ⟨hp.input, hp.output, hp.directory⟩

theorem Loaded.layers (h : Loaded p q) : q.layers = p.layers := by
  rw [h.eq]
  rfl

theorem Loaded.path (h : Loaded p q) (name : String) : q.path name = p.path name := by
  rw [h.eq]
  rfl

theorem Loaded.read (h : Loaded p q) (name : String) : q.read name = p.read name := by
  rw [h.eq]
  rfl

/-- What is left behind a load is left behind what was loaded. -/
theorem Loaded.leaves (h : Loaded p q) {ws : List (String × Bytes)} (hw : Leaves q r ws) :
    Leaves p r ws := by
  obtain ⟨h1, h2, h3, h4, h5, h6⟩ := hw
  rw [h.layers] at h3 h4 h5 h6
  refine ⟨h1, fun name hname => ?_, h3, h4, h5, h6⟩
  rw [← h.read]
  refine h2 name fun w hw => ?_
  rw [h.path, h.path]
  exact hname w hw

/-- One write changes one file. -/
theorem leaves_of_write (hp : p.InMemory) {name : String} {data : Bytes}
    (h : write name data p = (.ok (), q)) : Leaves p q [(name, data)] := by
  obtain ⟨-, x, hx, hw⟩ := written_of_write hp h
  refine ((Rewritten.refl hp).write hw).leaves hp ?_ ?_
  · intro w hmem
    rw [List.mem_singleton] at hmem
    subst hmem
    exact ⟨x, hx, by rw [Entries.lookup_cons, if_pos rfl]⟩
  · intro y d hy
    refine ⟨(name, data), List.mem_cons_self, ?_⟩
    rw [Entries.lookup_cons] at hy
    split at hy
    · next he =>
      rw [he]
      exact hx
    · cases hy

/-- Of two writes to the same file the second counts. -/
theorem leaves_of_rewrite (hp : p.InMemory) {name : String} {data data' : Bytes}
    (h : write name data p = (.ok (), q)) (h' : write name data' q = (.ok (), r)) :
    Leaves p r [(name, data')] := by
  obtain ⟨-, x, hx, hw⟩ := written_of_write hp h
  obtain ⟨-, x', hx', hw'⟩ := written_of_write hw.inMemory h'
  rw [path_eq_of_directory hw.directory, hx, Except.ok.injEq] at hx'
  subst hx'
  refine (((Rewritten.refl hp).write hw).write hw').leaves hp ?_ ?_
  · intro w hmem
    rw [List.mem_singleton] at hmem
    subst hmem
    exact ⟨x, hx, by rw [Entries.lookup_cons, if_pos rfl]⟩
  · intro y d hy
    refine ⟨(name, data'), List.mem_cons_self, ?_⟩
    by_cases hyx : y = x
    · rw [hyx]
      exact hx
    · rw [Entries.lookup_cons, if_neg hyx, Entries.lookup_cons, if_neg hyx] at hy
      cases hy

/-- Two writes change the files at two paths. -/
theorem leaves_of_writes (hp : p.InMemory) {name name' : String} {data data' : Bytes}
    (h : write name data p = (.ok (), q)) (h' : write name' data' q = (.ok (), r))
    (hne : p.path name ≠ p.path name') : Leaves p r [(name, data), (name', data')] := by
  obtain ⟨-, x, hx, hw⟩ := written_of_write hp h
  obtain ⟨-, x', hx', hw'⟩ := written_of_write hw.inMemory h'
  rw [path_eq_of_directory hw.directory] at hx'
  have hxx : x ≠ x' := by
    rintro rfl
    exact hne (hx.trans hx'.symm)
  refine (((Rewritten.refl hp).write hw).write hw').leaves hp ?_ ?_
  · intro w hmem
    rcases List.mem_cons.mp hmem with rfl | hmem
    · exact ⟨x, hx, by rw [Entries.lookup_cons, if_neg hxx, Entries.lookup_cons, if_pos rfl]⟩
    · rw [List.mem_singleton] at hmem
      subst hmem
      exact ⟨x', hx', by rw [Entries.lookup_cons, if_pos rfl]⟩
  · intro y d hy
    by_cases hyx : y = x'
    · exact ⟨(name', data'), by simp, hyx ▸ hx'⟩
    · rw [Entries.lookup_cons, if_neg hyx, Entries.lookup_cons] at hy
      split at hy
      · next he => exact ⟨(name, data), by simp, he ▸ hx⟩
      · cases hy

theorem Written.contentsOrNew {name x : String} {data : Bytes} (h : Written p q name x data)
    (other : String) :
    q.contentsOrNew other = if other = name then data else p.contentsOrNew other := by
  unfold Package.contentsOrNew newFile
  rw [h.contents, Entries.lookup_put, h.localName]
  split <;> rfl

theorem Written.read {name x : String} {data : Bytes} (h : Written p q name x data) (hx : p.path name = .ok x) :
    q.read name = .ok data := by
  rw [h.inMemory.read_eq ((path_eq_of_directory h.directory name).trans hx), h.file?, if_pos rfl]

theorem Written.read_of_ne {name x : String} {data : Bytes} (hp : p.InMemory) (h : Written p q name x data) {n y : String}
    (hy : p.path n = .ok y) (hne : y ≠ x) : q.read n = p.read n := by
  rw [h.inMemory.read_eq ((path_eq_of_directory h.directory n).trans hy), hp.read_eq hy, h.file?, if_neg hne]

/-- A loaded file lies at a path of its own name. -/
theorem Loaded.path_filename (hp : p.InMemory) (h : Loaded p q) {f : SourceFile} (hf : f ∈ q.files) :
    ∃ x, p.path f.filename = .ok x ∧ Path.baseName x = f.filename :=
  hp.path_of_mem h.names (List.mem_map_of_mem hf)

/-- Loaded files are called by plain names. -/
theorem InMemory.isFileName_of_loaded (hp : p.InMemory) (h : Loaded p q) : ∀ f ∈ q.files, IsFileName f.filename :=
  fun _ hf => hp.isFileName_of_mem h.names (List.mem_map_of_mem hf)

/-- What adding a declaration writes. -/
theorem addDeclaration_leaves (hp : p.InMemory) (hl : Loaded p q) {a : Addition}
    (hn : isSourceName a.filename) (h : addDeclaration a q = (.ok (), r)) :
    (Keeps q (.add a) ∧ r.layers = p.layers) ∨ ∃ ws, Edits p q (.add a) ws ∧ Leaves p r ws := by
  have hq := hl.inMemory hp
  cases addDeclaration_eq_ok.mp h with
  | new hm h =>
    right
    rw [append_eq] at h
    have hname : IsFileName a.filename := ⟨hn, (written_of_write hq h).1⟩
    rw [contentsOrNew_loaded hp hl hname] at h
    exact ⟨_, .appended hm, hl.leaves (leaves_of_write hq h)⟩
  | kept hm _ hreplace hr =>
    left
    rw [hr]
    exact ⟨.found hm hreplace, hl.layers⟩
  | @replaced m _ hm _ hreplace _ hremove h =>
    right
    obtain ⟨hfile, -, -⟩ := mem_of_findSubject? hm
    have hread := (hl.files m.file hfile).1
    rw [remove_eq, hl.contentsOrNew_of_mem hfile] at hremove
    obtain ⟨-, x, hx, hw⟩ := written_of_write hq hremove
    rw [append_eq, hw.contentsOrNew] at h
    by_cases hname : m.file.filename = a.filename
    · rw [if_pos hname.symm] at h
      rw [← hname] at h
      refine ⟨_, .replacedHere hm hreplace hname hread, hl.leaves ?_⟩
      rw [← hname]
      exact leaves_of_rewrite hq hremove h
    · have hfn : IsFileName a.filename := ⟨hn, (written_of_write hw.inMemory h).1⟩
      rw [if_neg (Ne.symm hname), contentsOrNew_loaded hp hl hfn] at h
      refine ⟨_, .replacedElsewhere hm hreplace hname hread, hl.leaves ?_⟩
      refine leaves_of_writes hq hremove h ?_
      obtain ⟨y, hy, hbase⟩ := hl.path_filename hp hfile
      obtain ⟨z, hz, -, -, hbase'⟩ := hp.path_eq hfn
      rw [hl.path, hl.path, hy, hz, Ne, Except.ok.injEq]
      rintro rfl
      exact hname (hbase.symm.trans hbase')

/-- The last import of a file ends in it, and so do its parentheses. -/
theorem lastImport?_le {filename : String} {strict : Bool} {f : SourceFile} {source : Bytes} {s : List Char}
    (h : Parsed filename source strict f s) {stop : Nat} {close : Option Nat}
    (hl : Splice.lastImport? f = some (stop, close)) :
    stop ≤ source.length ∧ ∀ c ∈ close, c ≤ source.length := by
  unfold Splice.lastImport? at hl
  obtain ⟨d, hd, hm⟩ := List.exists_of_findSome?_eq_some hl
  have hwell := h.wellPlaced (List.mem_reverse.mp hd)
  split at hm
  · next specs close' hdecl =>
    cases hm
    refine ⟨hwell.stop_le, fun c hc => ?_⟩
    have := ((hwell.specs specs _ hdecl).paren c hc).2.2.1
    have := hwell.stop_le
    omega
  · cases hm

/-- The bytes with an import are those before with one text put in. -/
theorem withImport_insertion (hl : Loaded p q) {a : ImportAddition} {after : Bytes}
    (h : q.withImport a = .ok after) :
    ∃ k text, importPlaced q a k text ∧ IsInsertion (q.contentsOrNew a.filename) k text after := by
  unfold withImport at h
  dsimp only at h
  unfold importPlaced
  cases hf : q.files.file? a.filename with
  | none =>
    rw [hf] at h
    dsimp only at h
    split at h
    · next pos hpos =>
      cases h
      have hle := Splice.packageLineEnd?_le hpos
      rw [Nat.zero_add] at hle
      exact ⟨pos, _, rfl, Splice.importAfterClause_insertion _ hle⟩
    · cases h
  | some f =>
    rw [hf] at h
    dsimp only at h
    obtain ⟨hmem, hname⟩ := Members.mem_of_file? hf
    obtain ⟨s, hs⟩ := parse_eq_ok_iff.mp (hl.files f hmem).2
    have hsource : q.contentsOrNew a.filename = f.source := by
      rw [← hname]
      exact hl.contentsOrNew_of_mem hmem
    rw [hsource] at h ⊢
    rw [Option.bind_some]
    cases hlast : Splice.lastImport? f with
    | none =>
      rw [hlast] at h
      cases h
      exact ⟨_, _, rfl, Splice.importAfterClause_insertion _ (Nat.min_le_right _ _)⟩
    | some x =>
      obtain ⟨stop, close⟩ := x
      obtain ⟨hstop, hclose⟩ := lastImport?_le hs hlast
      rw [hlast] at h
      cases close with
      | none =>
        cases h
        obtain ⟨k, hk⟩ := Splice.importBelow_insertion (importText a) hstop
        exact ⟨k, _, rfl, hk⟩
      | some c =>
        cases h
        exact ⟨c, _, ⟨rfl, rfl⟩, Splice.importInside_insertion _ (hclose c rfl)⟩

theorem addImport_leaves (hp : p.InMemory) (hl : Loaded p q) {a : ImportAddition}
    (hn : isSourceName a.filename) (h : addImport a q = (.ok (), r)) :
    ∃ ws, Edits p q (.addImport a) ws ∧ Leaves p r ws := by
  rw [addImport_eq] at h
  cases hw : q.withImport a with
  | error e => rw [hw] at h; cases h
  | ok after =>
    rw [hw] at h
    obtain ⟨k, text, hplaced, hins⟩ := withImport_insertion hl hw
    rw [contentsOrNew_loaded hp hl ⟨hn, (written_of_write (hl.inMemory hp) h).1⟩] at hins
    exact ⟨_, .imported hplaced hins, hl.leaves (leaves_of_write (hl.inMemory hp) h)⟩

/-- A transform that adds leaves all bytes alone, but for the range of what it
replaces and the text that it adds. -/
theorem applyTransform_leaves {t : Transform} {filename : String} (hp : p.InMemory)
    (ht : t.filename? = some filename) (hn : isSourceName filename)
    (h : applyTransform t p = (.ok (), r)) :
    ∃ l, load p = (.ok (), l) ∧ ((Keeps l t ∧ r.layers = p.layers) ∨
      ∃ ws, Edits p l t ws ∧ Leaves p r ws) := by
  unfold applyTransform at h
  rw [bind_eq_ok] at h
  obtain ⟨_, l, hload, h⟩ := h
  have hl := load_eq_ok hload
  refine ⟨l, hload, ?_⟩
  cases t with
  | addImport a =>
    cases ht
    exact Or.inr (addImport_leaves hp hl hn h)
  | add a =>
    cases ht
    exact addDeclaration_leaves hp hl hn h
  | dedupImports names => cases ht
  | format names => cases ht

/-- A package of one file that can only be read by its owner, over an empty output layer. -/
def onePrivateFile : Package :=
  ⟨.overlay (.memory ⟨[("a.go", ⟨bytesOf "package a\n\nfunc F() \x7b\x7d\n", 0o600⟩)], ["."]⟩)
    (.memory .empty), "m", ".", .standard, fun _ _ => .missing, [], [], "", ⟨[], []⟩⟩

/-- The function of that file, to be put in another. -/
def moveF : Transform := .add ⟨"b.go", .func "" "F", "func F() \x7b return \x7d", true⟩

theorem onePrivateFile_inMemory : onePrivateFile.InMemory :=
  ⟨.write .empty (rfl : MemoryLayer.empty.write "a.go" _ 0o600 = .ok _), ⟨_, rfl, .empty⟩,
    ⟨[], List.forall_mem_nil _, rfl⟩⟩

theorem moveF_leaves : ∃ r l, applyTransform moveF onePrivateFile = (.ok (), r) ∧
    load onePrivateFile = (.ok (), l) ∧ ((Keeps l moveF ∧ r.layers = onePrivateFile.layers) ∨
      ∃ ws, Edits onePrivateFile l moveF ws ∧ Leaves onePrivateFile r ws) := by
  have hrun := eq_ok_of_isOk (show (applyTransform moveF onePrivateFile).1.isOk by decide +kernel)
  obtain ⟨l, hl⟩ := applyTransform_leaves onePrivateFile_inMemory rfl (by decide) hrun
  exact ⟨_, l, hrun, hl⟩

end Package

end GoSplice
