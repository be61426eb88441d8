import GoSplice.Proofs.Footprints
import GoSplice.Proofs.MemberReads
import GoSplice.Proofs.Validity
import GoSplice.Proofs.ValueGroups

/-!
# Passes of a formatter

A pass of a formatter that computes a function takes the members that it selects in order, and stops at the first
that the formatter fails on or makes too short:

    every selected member can be formatted, and written if that changes it →
      the pass takes q to some r                                                       (Progress.exists_run)
    the pass takes q to r → Formatted f q r selected                                           (Progress.run)
    selected = done ++ k :: rest, the members done can be formatted and k cannot →
      the pass fails with a formatter error for k, at some r with Formatted f q r done
                                                                                   (Progress.exists_failure)

A pass over what a pass has formatted changes nothing, if the formatter leaves its own output alone
(Formatted.again).
-/

namespace GoSplice

theorem Layers.withOutput_self (l : Layers) : l.withOutput l.output = l := by
  cases l <;> rfl

/-! ## What a write depends on and keeps -/

namespace Package

variable {p q : Package} {name : String} {data : Bytes}

/-- Whether a file can be written depends on the layers only. -/
theorem Writable.of_layers (h : p.Writable name) (hlayers : q.layers = p.layers) (hdirectory : q.directory = p.directory) :
    q.Writable name := by
  obtain ⟨data, r, h⟩ := h
  obtain ⟨hplain, x, o, mode, o', hx, hmade, hmode, hwritten, -⟩ := write_eq_ok h
  have hx' : q.path name = .ok x := by rw [← hx, path, path, hdirectory]
  have hmode' : (q.onto o).fileMode x = .ok mode := by
    rw [← hmode]
    unfold fileMode onto
    rw [hlayers]
  have hwritten' : o.write x data mode = .ok o' := by
    change (p.layers.withOutput o).output.write x data mode = .ok o' at hwritten
    rwa [Layers.output_withOutput] at hwritten
  exact ⟨data, write_of_steps hplain hx' (by rw [hlayers, hdirectory]; exact hmade) hmode' hwritten'⟩

theorem site_of_write (h : write name data p = (.ok (), q)) : q.site = p.site := by
  obtain ⟨-, x, o, mode, o', -, hmade, -, hwritten, rfl⟩ := write_eq_ok h
  change (p.layers.withOutput o).output.write x data mode = .ok o' at hwritten
  rw [Layers.output_withOutput] at hwritten
  have hwritable := (Layer.isWritable_write hwritten).trans (Layer.isWritable_makeDirs hmade)
  unfold site wrote onto
  rw [Layers.output_withOutput, hwritable]

theorem layers_of_write (h : write name data p = (.ok (), q)) : q.layers = p.layers.withOutput q.layers.output := by
  obtain ⟨-, x, o, mode, o', -, -, -, -, rfl⟩ := write_eq_ok h
  unfold wrote onto
  rw [Layers.output_withOutput, Layers.withOutput_withOutput]

end Package

/-! ## Formatters as functions -/

namespace Formatter

variable {formatter : Formatter} {command : List String} {timeout : Binary64} {f : Bytes → Option Bytes}
  {source out : Bytes} {name : String} {n : Nat}

/-- Whether a formatter computes a function, run by a command with a time limit, however often it ran before.  Where
the function has no value the program is missing, takes too long, or ends with another status than 0. -/
structure Computes (formatter : Formatter) (command : List String) (timeout : Binary64)
    (f : Bytes → Option Bytes) : Prop where
  made : ∀ n source out, f source = some out →
    ∃ errors, formatter n ⟨command, timeout, source⟩ = .exited 0 out errors
  failed : ∀ n source, f source = none →
    formatter n ⟨command, timeout, source⟩ = .missing ∨ formatter n ⟨command, timeout, source⟩ = .timedOut ∨
      ∃ status out errors, status ≠ 0 ∧ formatter n ⟨command, timeout, source⟩ = .exited status out errors

/-- Whether a formatter makes a text of a source that is long enough to be a source file. -/
def Makes (f : Bytes → Option Bytes) (source out : Bytes) : Prop := f source = some out ∧ 10 ≤ out.length

theorem length_shortestFile : shortestFile.length = 10 := by decide

theorem Makes.eq {out' : Bytes} (h : Makes f source out) (h' : f source = some out') : out = out' :=
  Option.some.inj (h.1.symm.trans h')

/-- What is taken of a formatter is long enough, whatever it computes. -/
theorem length_of_outcome {run : FormatRun} {reply : FormatReply} (h : outcome name run reply = .ok out) :
    10 ≤ out.length := by
  cases reply with
  | exited status output errors =>
    change (if status ≠ 0 then _ else if output.length < shortestFile.length then _ else Except.ok output) = _ at h
    split at h
    · cases h
    split at h
    · cases h
    next hlong =>
    cases h
    rw [length_shortestFile] at hlong
    exact Nat.not_lt.mp hlong
  | timedOut => cases h
  | missing => cases h
  | refused e => cases h

theorem Computes.outcome_of_makes (hf : formatter.Computes command timeout f) (h : Makes f source out) :
    outcome name ⟨command, timeout, source⟩ (formatter n ⟨command, timeout, source⟩) = .ok out := by
  obtain ⟨errors, hreply⟩ := hf.made n source out h.1
  rw [hreply]
  have hlong : ¬ out.length < shortestFile.length := by
    rw [length_shortestFile]
    exact Nat.not_lt.mpr h.2
  exact if_neg hlong

theorem Computes.outcome_of_not (hf : formatter.Computes command timeout f) (h : ∀ out, ¬ Makes f source out) :
    ∃ problem output, outcome name ⟨command, timeout, source⟩ (formatter n ⟨command, timeout, source⟩) =
      .error (.formatter name problem output) := by
  cases hfs : f source with
  | none =>
    rcases hf.failed n source hfs with hreply | hreply | ⟨status, out, errors, hstatus, hreply⟩
    · exact ⟨_, _, by rw [hreply]; rfl⟩
    · exact ⟨_, _, by rw [hreply]; rfl⟩
    · exact ⟨_, _, by rw [hreply]; exact if_pos hstatus⟩
  | some out =>
    obtain ⟨errors, hreply⟩ := hf.made n source out hfs
    have hshort : out.length < shortestFile.length := by
      rw [length_shortestFile]
      exact Nat.not_le.mp fun hlong => h out ⟨hfs, hlong⟩
    refine ⟨.tooShort, textOf out, ?_⟩
    rw [hreply]
    exact if_pos hshort

end Formatter

namespace Package

open Formatter (Makes Computes)

variable {p q r s l : Package} {f : Bytes → Option Bytes} {g k : SourceFile} {name : String}
  {names done rest : List String} {out : Bytes}

/-! ## One file -/

/-- A package with a run of the formatter written down. -/
def ran (p : Package) (source : Bytes) : Package :=
  { p with journal := { p.journal with runs := p.journal.runs ++ [⟨p.settings.formatter, p.settings.timeout, source⟩] } }

theorem runFormatter_eq (name : String) (source : Bytes) (p : Package) : runFormatter name source p =
    let run : FormatRun := ⟨p.settings.formatter, p.settings.timeout, source⟩
    (Formatter.outcome name run (p.formatter p.journal.runs.length run), p.ran source) := rfl

theorem formatFile_eq (name : String) (p : Package) : formatFile name p =
    let source := p.contentsOrNew name
    let run : FormatRun := ⟨p.settings.formatter, p.settings.timeout, source⟩
    match Formatter.outcome name run (p.formatter p.journal.runs.length run) with
    | .ok out => if out ≠ source then write name out (p.ran source) else (.ok (), p.ran source)
    | .error e => (.error e, p.ran source) := by
  unfold formatFile
  rw [bind_apply, get_apply]
  dsimp only
  rw [bind_apply, runFormatter_eq]
  dsimp only
  cases Formatter.outcome name ⟨p.settings.formatter, p.settings.timeout, p.contentsOrNew name⟩
      (p.formatter p.journal.runs.length ⟨p.settings.formatter, p.settings.timeout, p.contentsOrNew name⟩) with
  | error e => rfl
  | ok out =>
    dsimp only
    split <;> rfl

/-- A file that can be formatted is written if that changes it. -/
theorem formatFile_of_makes (hf : p.formatter.Computes p.settings.formatter p.settings.timeout f)
    (h : Makes f (p.contentsOrNew name) out) : formatFile name p =
      if out ≠ p.contentsOrNew name then write name out (p.ran (p.contentsOrNew name))
      else (.ok (), p.ran (p.contentsOrNew name)) := by
  rw [formatFile_eq]
  dsimp only
  rw [hf.outcome_of_makes h]

/-- A file that cannot be formatted is left. -/
theorem formatFile_of_not (hf : p.formatter.Computes p.settings.formatter p.settings.timeout f)
    (h : ∀ out, ¬ Makes f (p.contentsOrNew name) out) : ∃ problem output,
      formatFile name p = (.error (.formatter name problem output), p.ran (p.contentsOrNew name)) := by
  obtain ⟨problem, output, hout⟩ : ∃ problem output,
      Formatter.outcome name ⟨p.settings.formatter, p.settings.timeout, p.contentsOrNew name⟩
        (p.formatter p.journal.runs.length ⟨p.settings.formatter, p.settings.timeout, p.contentsOrNew name⟩) =
          .error (.formatter name problem output) :=
    hf.outcome_of_not h
  refine ⟨problem, output, ?_⟩
  rw [formatFile_eq]
  dsimp only
  rw [hout]

/-! ## What a pass does -/

/-- Whether formatting changes a file of a package that was loaded. -/
def changes (q : Package) (f : Bytes → Option Bytes) (name : String) : Bool :=
  f (q.contentsOrNew name) != some (q.contentsOrNew name)

/-- Whether a path leads to one of some files that formatting changes. -/
def Rewrites (q : Package) (f : Bytes → Option Bytes) (done : List String) (path : Except PatchError String) : Prop :=
  ∃ n ∈ done, q.changes f n = true ∧ q.path n = path

/-- What a pass did to members of a package that was loaded as `q`, in this order: they are formatted, those that this
changes are written, and all else is as it was. -/
structure Formatted (f : Bytes → Option Bytes) (q r : Package) (done : List String) : Prop where
  members : ∀ n ∈ done, n ∈ q.files.map (·.filename)
  made : ∀ g ∈ q.files, g.filename ∈ done → ∃ out, Makes f g.source out ∧ r.read g.filename = .ok out
  others : ∀ g ∈ q.files, ¬ q.Rewrites f done (q.path g.filename) → r.read g.filename = .ok g.source
  names : r.fileNames = .ok (q.files.map (·.filename))
  writes : ∃ paths, r.journal.writes = q.journal.writes ++ paths ∧
    paths.map Except.ok = (done.filter (q.changes f)).map q.path
  stored : ∀ x, IsLayerPath x → ¬ q.Rewrites f done (.ok x) →
    r.layers.output.stored? x = q.layers.output.stored? x
  untouched : (∀ n ∈ done, q.changes f n = false) → r.layers = q.layers
  input : r.layers = q.layers.withOutput r.layers.output
  site : r.site = q.site

/-- A pass on its way: what it has not yet come to has the contents that were loaded, and can be written if it could
be then. -/
structure Progress (f : Bytes → Option Bytes) (q s : Package) (done : List String) : Prop
    extends Formatted f q s done where
  standing : s.IsStanding (q.files.map (·.filename))
  contents : ∀ n, n ∉ done → s.contentsOrNew n = q.contentsOrNew n
  writable : ∀ n, IsFileName n → q.Writable n → s.Writable n

theorem changes_eq (hl : Loaded p q) (hg : g ∈ q.files) (h : Makes f g.source out) :
    q.changes f g.filename = (out != g.source) := by
  unfold changes
  rw [hl.contentsOrNew_of_mem hg, h.1]
  rfl

theorem Loaded.read_eq (hl : Loaded p q) (hg : g ∈ q.files) : q.read g.filename = .ok g.source := by
  rw [read_of_layers (q := q) (p := p) (by rw [hl.eq]; rfl) (by rw [hl.eq]; rfl)]
  exact (hl.files g hg).1

/-- Files at one path have the same source. -/
theorem Loaded.source_of_path (hl : Loaded p q) (hg : g ∈ q.files) (hk : k ∈ q.files)
    (hpath : q.path g.filename = q.path k.filename) : g.source = k.source := by
  have hread := read_of_path hpath
  rwa [hl.read_eq hg, hl.read_eq hk, Except.ok.injEq] at hread

theorem Rewrites.mono {path : Except PatchError String} (h : q.Rewrites f done path) :
    q.Rewrites f (done ++ [name]) path := by
  obtain ⟨n, hn, hrest⟩ := h
  exact ⟨n, List.mem_append_left _ hn, hrest⟩

theorem Progress.start (hp : p.OverTrees) (hinput : p.layers.IsProper) (hl : Loaded p q) : Progress f q q [] where
  members := List.forall_mem_nil _
  made _ _ hdone := nomatch hdone
  others _ hg _ := hl.read_eq hg
  names := (hl.isStanding hp hinput).members
  writes := ⟨[], (List.append_nil _).symm, by rw [List.filter_nil, List.map_nil, List.map_nil]⟩
  stored _ _ _ := rfl
  untouched _ := rfl
  input := q.layers.withOutput_self.symm
  site := rfl
  standing := hl.isStanding hp hinput
  contents _ _ := rfl
  writable _ _ h := h

theorem Progress.ran (h : Progress f q s done) (source : Bytes) : Progress f q (s.ran source) done where
  members := h.members
  made := h.made
  others := h.others
  names := h.names
  writes := h.writes
  stored := h.stored
  untouched := h.untouched
  input := h.input
  site := h.site
  standing :=
    let ht := h.standing.overTrees
    ⟨⟨ht.input, ht.output, ht.directory⟩, h.standing.input, h.standing.members, h.standing.reads⟩
  contents := h.contents
  writable n hn hw := (h.writable n hn hw).of_layers rfl rfl

theorem Formatted.directory (h : Formatted f q r done) : r.directory = q.directory := congrArg Site.directory h.site

theorem Formatted.path_eq (h : Formatted f q r done) (name : String) : r.path name = q.path name := by
  unfold path
  rw [h.directory]

/-- A file at the path of one that is rewritten reads as what the formatter makes of it. -/
theorem Formatted.rewritten (hl : Loaded p q) (h : Formatted f q r done) (hk : k ∈ q.files)
    (hmem : q.Rewrites f done (q.path k.filename)) :
    ∃ out, Makes f k.source out ∧ out ≠ k.source ∧ r.read k.filename = .ok out := by
  obtain ⟨n, hn, hchanged, hpath⟩ := hmem
  obtain ⟨g, hg, rfl⟩ := List.mem_map.mp (h.members n hn)
  obtain ⟨out, hmakes, hread⟩ := h.made g hg hn
  rw [changes_eq hl hg hmakes, bne_iff_ne] at hchanged
  have hsource := hl.source_of_path hg hk hpath
  rw [← h.path_eq, ← h.path_eq] at hpath
  exact ⟨out, hsource ▸ hmakes, hsource ▸ hchanged, (read_of_path hpath.symm).trans hread⟩

section Steps

variable (hl : Loaded p q) (hg : g ∈ q.files)

include hg in
theorem Formatted.members_concat (h : Formatted f q s done) :
    ∀ n ∈ done ++ [g.filename], n ∈ q.files.map (·.filename) := by
  intro n hn
  rcases List.mem_append.mp hn with hn | hn
  · exact h.members n hn
  · exact List.mem_singleton.mp hn ▸ List.mem_map_of_mem hg

include hl hg

/-- A file that formatting does not change is passed. -/
theorem Progress.pass (h : Progress f q s done) (hmakes : Makes f g.source g.source) : Progress f q s (done ++ [g.filename]) := by
  have hsame : q.changes f g.filename = false := by
    rw [changes_eq hl hg hmakes]
    exact bne_self_eq_false _
  have hleft : ∀ {n}, n ∈ done → n ∈ done ++ [g.filename] := List.mem_append_left _
  refine { h with
    members := h.members_concat hg, made := ?_, others := fun k hk hnot => h.others k hk fun hmem => hnot hmem.mono,
    writes := ?_, stored := fun x hx hnot => h.stored x hx fun hmem => hnot hmem.mono,
    untouched := fun hall => h.untouched fun n hn => hall n (hleft hn),
    contents := fun n hn => h.contents n fun hdone => hn (hleft hdone) }
  · intro k hk hdone
    rcases List.mem_append.mp hdone with hdone | hlast
    · exact h.made k hk hdone
    · obtain rfl := hl.eq_of_filename hk hg (List.mem_singleton.mp hlast)
      refine ⟨_, hmakes, h.others _ hg fun hmem => ?_⟩
      obtain ⟨out, hmakes', hne, -⟩ := h.rewritten hl hg hmem
      exact hne (hmakes'.eq hmakes.1)
  · rw [List.filter_append, List.filter_cons_of_neg (by rw [hsame]; nofun), List.filter_nil, List.append_nil]
    exact h.writes

/-- A file that formatting changes is written, and all others stay. -/
theorem Progress.write (h : Progress f q s done) (hmakes : Makes f g.source out) (hne : out ≠ g.source)
    (hwrite : Package.write g.filename out s = (.ok (), r)) : Progress f q r (done ++ [g.filename]) := by
  have hchanged : q.changes f g.filename = true := by
    rw [changes_eq hl hg hmakes]
    exact bne_iff_ne.mpr hne
  have hd := h.standing.overTrees.directory
  have hmem : ∀ {k}, k ∈ q.files → k.filename ∈ q.files.map (·.filename) := List.mem_map_of_mem
  have hstays : ∀ k ∈ q.files, ∀ bs, q.path k.filename ≠ q.path g.filename → s.read k.filename = .ok bs →
      r.read k.filename = .ok bs := by
    intro k hk bs hpath hread
    rw [← h.path_eq, ← h.path_eq] at hpath
    exact h.standing.read_of_write (hmem hg) (hmem hk) hwrite hread hpath
  have hleft : ∀ {n}, n ∈ done → n ∈ done ++ [g.filename] := List.mem_append_left _
  have hright : g.filename ∈ done ++ [g.filename] := List.mem_append_right _ (List.mem_singleton_self _)
  have hname : IsFileName g.filename := ⟨hl.hasSourceName hg, (write_eq_ok hwrite).1⟩
  have hsite := (site_of_write hwrite).trans h.site
  obtain ⟨-, x, o, mode, o', hx, -, -, -, hr⟩ := write_eq_ok hwrite
  refine {
    members := h.members_concat hg, made := ?_, others := ?_, writes := ?_, stored := ?_, untouched := ?_, input := ?_
    names := h.standing.fileNames_of_write (hmem hg) hwrite
    site := hsite
    standing := h.standing.write (hmem hg) hwrite
    contents := ?_
    writable := fun n hn hw => (h.writable n hn hw).behind hd hn hname hwrite }
  · intro k hk hdone
    by_cases hpath : q.path k.filename = q.path g.filename
    · have hpath' : r.path k.filename = r.path g.filename := by
        unfold path at hpath ⊢
        rw [show r.directory = q.directory from congrArg Site.directory hsite]
        exact hpath
      exact ⟨out, hl.source_of_path hk hg hpath ▸ hmakes, (read_of_path hpath').trans (read_of_write hwrite)⟩
    · rcases List.mem_append.mp hdone with hdone | hlast
      · obtain ⟨out', hmakes', hread⟩ := h.made k hk hdone
        exact ⟨out', hmakes', hstays k hk out' hpath hread⟩
      · exact absurd (congrArg q.path (List.mem_singleton.mp hlast)) hpath
  · intro k hk hnot
    refine hstays k hk _ (fun hpath => hnot ⟨_, hright, hchanged, hpath.symm⟩) ?_
    exact h.others k hk fun hmem => hnot hmem.mono
  · obtain ⟨paths, hwrites, hpaths⟩ := h.writes
    refine ⟨paths ++ [x], ?_, ?_⟩
    · rw [← List.append_assoc, ← hwrites, hr]
      rfl
    · rw [List.map_append, hpaths, List.filter_append, List.filter_cons_of_pos hchanged, List.filter_nil,
        List.map_append, List.map_singleton, List.map_singleton, ← h.path_eq, hx]
  · intro y hy hnot
    have hne : y ≠ x := fun heq => hnot ⟨_, hright, hchanged, by rw [← h.path_eq, hx, heq]⟩
    rw [(stores_of_write hd hx hwrite).stored y hy, if_neg hne]
    exact h.stored y hy fun hmem => hnot hmem.mono
  · intro hall
    rw [hall _ hright] at hchanged
    cases hchanged
  · rw [layers_of_write hwrite, h.input, Layers.withOutput_withOutput, Layers.output_withOutput]
  · intro n hn
    rw [contentsOrNew_of_write hwrite, if_neg (fun heq : n = g.filename => hn (heq ▸ hright))]
    exact h.contents n fun hdone => hn (hleft hdone)

end Steps

/-! ## Passes -/

/-- Whether a file of a package that was loaded can be formatted, and written if that changes it. -/
def Formattable (f : Bytes → Option Bytes) (q : Package) (g : SourceFile) : Prop :=
  ∃ out, Makes f g.source out ∧ (out ≠ g.source → q.Writable g.filename)

section Passes

variable (hl : Loaded p q) (hf : q.formatter.Computes q.settings.formatter q.settings.timeout f)

include hf in
theorem Formatted.computes (h : Formatted f q r done) : r.formatter.Computes r.settings.formatter r.settings.timeout f := by
  rw [show r.formatter = q.formatter from congrArg Site.formatter h.site,
    show r.settings = q.settings from congrArg Site.settings h.site]
  exact hf

include hl

theorem Progress.contents_of_new (h : Progress f q s done) (hg : g ∈ q.files) (hnew : g.filename ∉ done) :
    s.contentsOrNew g.filename = g.source := by
  rw [h.contents _ hnew, hl.contentsOrNew_of_mem hg]

include hf

/-- A file that cannot be formatted ends a pass, and is left. -/
theorem Progress.fail (h : Progress f q s done) (hg : g ∈ q.files) (hnew : g.filename ∉ done)
    (hnot : ∀ out, ¬ Makes f g.source out) : ∃ problem output,
      formatFile g.filename s = (.error (.formatter g.filename problem output), s.ran g.source) := by
  have hcontents := h.contents_of_new hl hg hnew
  rw [← hcontents] at hnot
  obtain ⟨problem, output, hrun⟩ := formatFile_of_not (h.computes hf) hnot
  exact ⟨problem, output, by rw [hrun, hcontents]⟩

theorem Progress.exists_step (h : Progress f q s done) (hg : g ∈ q.files) (hnew : g.filename ∉ done)
    (hgood : Formattable f q g) : ∃ r, formatFile g.filename s = (.ok (), r) := by
  obtain ⟨out, hmakes, hwritable⟩ := hgood
  rw [formatFile_of_makes (h.computes hf) (by rwa [h.contents_of_new hl hg hnew]), h.contents_of_new hl hg hnew]
  split
  · next hne =>
    obtain ⟨data, q', hwrite⟩ := hwritable hne
    have hname : IsFileName g.filename := ⟨hl.hasSourceName hg, (write_eq_ok hwrite).1⟩
    have hran := h.ran g.source
    exact (hran.writable _ hname ⟨data, q', hwrite⟩).exists_write hran.standing.overTrees.directory hname out
  · exact ⟨_, rfl⟩

/-- What a step of a pass does that succeeds. -/
theorem Progress.step (h : Progress f q s done) (hg : g ∈ q.files) (hnew : g.filename ∉ done)
    (hrun : formatFile g.filename s = (.ok (), r)) : Progress f q r (done ++ [g.filename]) := by
  by_cases hmakes : ∃ out, Makes f g.source out
  · obtain ⟨out, hmakes⟩ := hmakes
    rw [formatFile_of_makes (h.computes hf) (by rwa [h.contents_of_new hl hg hnew]), h.contents_of_new hl hg hnew] at hrun
    split at hrun
    · next hne => exact (h.ran g.source).write hl hg hmakes hne hrun
    · next hsame =>
      cases hrun
      obtain rfl : out = g.source := not_not.mp hsame
      exact (h.ran g.source).pass hl hg hmakes
  · obtain ⟨problem, output, hfail⟩ := h.fail hl hf hg hnew fun out hmakes' => hmakes ⟨out, hmakes'⟩
    rw [hfail] at hrun
    cases hrun

/-- What a pass does that succeeds. -/
theorem Progress.run (h : Progress f q s done) (hnames : ∀ n ∈ names, n ∈ q.files.map (·.filename))
    (hnodup : (done ++ names).Nodup) (hrun : names.forM formatFile s = (.ok (), r)) : Progress f q r (done ++ names) := by
  induction names generalizing done s with
  | nil =>
    cases hrun
    rwa [List.append_nil]
  | cons n names ih =>
    obtain ⟨_, s', hstep, hrest⟩ := bind_eq_ok.mp hrun
    obtain ⟨hn, hnames'⟩ := List.forall_mem_cons.mp hnames
    obtain ⟨g, hg, rfl⟩ := List.mem_map.mp hn
    have hnew : g.filename ∉ done := fun hdone =>
      (List.nodup_append.mp hnodup).2.2 _ hdone _ List.mem_cons_self rfl
    rw [List.append_cons] at hnodup ⊢
    exact ih (h.step hl hf hg hnew hstep) hnames' hnodup hrest

/-- A pass over files that can be formatted and written succeeds. -/
theorem Progress.exists_run (h : Progress f q s done) (hnames : ∀ n ∈ names, n ∈ q.files.map (·.filename))
    (hnodup : (done ++ names).Nodup) (hgood : ∀ g ∈ q.files, g.filename ∈ names → Formattable f q g) :
    ∃ r, names.forM formatFile s = (.ok (), r) := by
  induction names generalizing done s with
  | nil => exact ⟨s, rfl⟩
  | cons n names ih =>
    obtain ⟨hn, hnames'⟩ := List.forall_mem_cons.mp hnames
    obtain ⟨g, hg, rfl⟩ := List.mem_map.mp hn
    have hnew : g.filename ∉ done := fun hdone =>
      (List.nodup_append.mp hnodup).2.2 _ hdone _ List.mem_cons_self rfl
    obtain ⟨s', hstep⟩ := h.exists_step hl hf hg hnew (hgood g hg List.mem_cons_self)
    rw [List.append_cons] at hnodup
    obtain ⟨r, hrest⟩ := ih (h.step hl hf hg hnew hstep) hnames' hnodup fun k hk hmem =>
      hgood k hk (List.mem_cons_of_mem _ hmem)
    exact ⟨r, bind_eq_ok.mpr ⟨_, s', hstep, hrest⟩⟩

/-- A pass ends at the first file that cannot be formatted. -/
theorem Progress.exists_failure (h : Progress f q s []) (hnames : ∀ n ∈ done, n ∈ q.files.map (·.filename))
    (hk : k ∈ q.files) (hnodup : (done ++ k.filename :: rest).Nodup)
    (hgood : ∀ g ∈ q.files, g.filename ∈ done → Formattable f q g) (hnot : ∀ out, ¬ Makes f k.source out) :
    ∃ problem output r, (done ++ k.filename :: rest).forM formatFile s = (.error (.formatter k.filename problem output), r) ∧
      Formatted f q r done ∧ r.read k.filename = .ok k.source := by
  obtain ⟨hdone, -, hapart⟩ := List.nodup_append.mp hnodup
  obtain ⟨s', hrun⟩ := h.exists_run hl hf hnames hdone hgood
  have hprogress := h.run hl hf hnames hdone hrun
  obtain ⟨problem, output, hfail⟩ := hprogress.fail hl hf hk (fun hmem => hapart _ hmem _ List.mem_cons_self rfl) hnot
  have hformatted := (hprogress.ran k.source).toFormatted
  have hleft : (s'.ran k.source).read k.filename = .ok k.source := hformatted.others k hk fun hmem => by
    obtain ⟨out, hmakes, -⟩ := hformatted.rewritten hl hk hmem
    exact hnot out hmakes
  refine ⟨problem, output, s'.ran k.source, ?_, hformatted, hleft⟩
  change forM (done ++ k.filename :: rest) formatFile s = _
  rw [List.forM_append, bind_apply, show forM done formatFile s = _ from hrun]
  show (formatFile k.filename >>= fun _ => rest.forM formatFile) s' = _
  rw [bind_apply, hfail]

end Passes

/-! ## Selected files -/

section Selected

variable {filenames : Option (List String)}

theorem Loaded.contents_names (hl : Loaded p q) : q.contents.map (·.1) = q.files.map (·.filename) := by
  rw [hl.contents, List.map_map]
  rfl

theorem Loaded.pairwise_names (hl : Loaded p q) : (q.files.map (·.filename)).Pairwise (· < ·) := by
  obtain ⟨written, given, -, -, hnames⟩ := hl.names_eq
  rw [hnames]
  exact pairwise_sortedNames _

/-- Without names a pass takes all members, in the order of their names. -/
theorem formatted_none (hl : Loaded p q) : q.formatted none = q.files.map (·.filename) := by
  unfold formatted
  rw [hl.contents_names]
  exact List.mergeSort_of_pairwise (hl.pairwise_names.imp fun h => decide_eq_true (String.not_lt.mp (String.lt_asymm h)))

/-- Of listed names a pass takes those of members, each once, in the order of the list. -/
theorem formatted_some (hl : Loaded p q) (listed : List String) :
    q.formatted (some listed) = listed.eraseDups.filter (q.files.map (·.filename)).contains := by
  unfold formatted
  rw [hl.contents_names]

theorem mem_files_of_formatted (hl : Loaded p q) : ∀ n ∈ q.formatted filenames, n ∈ q.files.map (·.filename) := by
  intro n hn
  rw [← hl.contents_names]
  exact mem_of_formatted hn

theorem nodup_formatted (hl : Loaded p q) : (q.formatted filenames).Nodup := by
  cases filenames with
  | none =>
    rw [formatted_none hl]
    exact hl.nodup_filenames
  | some listed =>
    rw [formatted_some hl]
    exact (nodup_eraseDups listed).filter _

end Selected

/-! ## A second pass -/

/-- Lists with the same keys in order have the same values, if equal keys have equal values. -/
theorem map_eq_of_keys {α β γ : Type} {as bs : List α} {key : α → β} {value : α → γ} (h : as.map key = bs.map key)
    (hvalue : ∀ a ∈ as, ∀ b ∈ bs, key a = key b → value a = value b) : as.map value = bs.map value := by
  induction as generalizing bs with
  | nil =>
    rw [List.map_eq_nil_iff.mp h.symm]
  | cons a as ih =>
    cases bs with
    | nil => cases h
    | cons b bs =>
      rw [List.map_cons, List.map_cons, List.cons.injEq] at h ⊢
      exact ⟨hvalue a List.mem_cons_self b List.mem_cons_self h.1, ih h.2 fun a ha b hb =>
        hvalue a (List.mem_cons_of_mem _ ha) b (List.mem_cons_of_mem _ hb)⟩

/-- Whether what a formatter makes of the members of a package is left alone by it, and has their package names. -/
def Settles (f : Bytes → Option Bytes) (q : Package) : Prop :=
  ∀ g ∈ q.files, ∀ out, f g.source = some out → f out = some out ∧
    ∃ g', SourceFile.parse g.filename out true = .ok g' ∧ g'.packageName = g.packageName

/-- A package that a pass went over loads again. -/
theorem Formatted.reload (hl : Loaded p q) (hsettles : Settles f q) (h : Formatted f q r done) :
    ∃ l, load r = (.ok (), l) ∧ l.files.map (·.filename) = q.files.map (·.filename) := by
  have hread : ∀ g ∈ q.files, ∃ bs g', r.read g.filename = .ok bs ∧ SourceFile.parse g.filename bs true = .ok g' ∧
      g'.packageName = g.packageName := by
    intro g hg
    by_cases hdone : q.Rewrites f done (q.path g.filename)
    · obtain ⟨out, hmakes, -, hbs⟩ := h.rewritten hl hg hdone
      obtain ⟨-, g', hparse, hname⟩ := hsettles g hg out hmakes.1
      exact ⟨out, g', hbs, hparse, hname⟩
    · exact ⟨g.source, g, h.others g hg hdone, (hl.files g hg).2, rfl⟩
  have hall : ∀ n ∈ q.files.map (·.filename), ∃ bs g', r.read n = .ok bs ∧ SourceFile.parse n bs true = .ok g' := by
    refine List.forall_mem_map.mpr fun g hg => ?_
    obtain ⟨bs, g', hbs, hparse, -⟩ := hread g hg
    exact ⟨bs, g', hbs, hparse⟩
  obtain ⟨files, hfiles⟩ := parseFiles_of_forall hall
  obtain ⟨hnames, hparsed⟩ := parseFiles_eq_ok hfiles
  have hpackages : files.map (·.packageName) = q.files.map (·.packageName) := by
    refine map_eq_of_keys hnames fun a ha g hg hsame => ?_
    obtain ⟨hbs, hparse⟩ := hparsed a ha
    obtain ⟨bs, g', hbs', hparse', hname⟩ := hread g hg
    rw [hsame, hbs', Except.ok.injEq] at hbs
    rw [hsame, ← hbs, hparse', Except.ok.injEq] at hparse
    rw [← hparse, hname]
  have hderive : r.deriveName (files.map (·.packageName)).eraseDups = .ok q.localName := by
    rw [hpackages, ← hl.localName]
    have hsite : q.site = p.site := by rw [hl.eq]; rfl
    refine deriveName_congr ((congrArg Site.directory (h.site.trans hsite)).trans rfl) ?_ _
    exact congrArg Site.modulePath (h.site.trans hsite)
  exact ⟨_, load_apply h.names hfiles hderive, hnames⟩

/-- A second pass over what a pass has formatted succeeds and writes nothing. -/
theorem Formatted.again (hl : Loaded p q) (hf : q.formatter.Computes q.settings.formatter q.settings.timeout f)
    (hsettles : Settles f q) (hr : r.IsStanding (q.files.map (·.filename))) {filenames : Option (List String)} (h : Formatted f q r (q.formatted filenames)) :
    ∃ r', applyTransform (.format filenames) r = (.ok (), r') ∧ r'.journal.writes = r.journal.writes ∧
      r'.layers = r.layers := by
  obtain ⟨l, hload, hnames⟩ := h.reload hl hsettles
  have hl' := load_eq_ok hload
  have hselected : l.formatted filenames = q.formatted filenames := by
    unfold formatted
    rw [hl'.contents_names, hl.contents_names, hnames]
  -- what the first pass made of a file is what the second reads, and makes of it
  have hmakes : ∀ k ∈ l.files, k.filename ∈ l.formatted filenames → Makes f k.source k.source := by
    intro k hk hmem
    obtain ⟨g, hg, hsame⟩ := List.mem_map.mp (hnames ▸ List.mem_map_of_mem hk)
    rw [hselected, ← hsame] at hmem
    obtain ⟨out, hmakes, hread⟩ := h.made g hg hmem
    rw [hsame, (hl'.files k hk).1, Except.ok.injEq] at hread
    rw [hread]
    exact ⟨(hsettles g hg out hmakes.1).1, hmakes.2⟩
  have hsame : ∀ n ∈ l.formatted filenames, l.changes f n = false := by
    intro n hn
    obtain ⟨k, hk, rfl⟩ := List.mem_map.mp (mem_files_of_formatted hl' n hn)
    rw [changes_eq hl' hk (hmakes k hk hn)]
    exact bne_self_eq_false _
  have hsite : l.site = r.site := by rw [hl'.eq]; rfl
  have hf' : l.formatter.Computes l.settings.formatter l.settings.timeout f := by
    rw [show l.formatter = r.formatter from congrArg Site.formatter hsite,
      show l.settings = r.settings from congrArg Site.settings hsite]
    exact h.computes hf
  have hstart := Progress.start (f := f) hr.overTrees hr.input hl'
  obtain ⟨r', hrun⟩ := hstart.exists_run hl' hf' (mem_files_of_formatted hl') (nodup_formatted hl')
    fun k hk hmem => ⟨_, hmakes k hk hmem, fun hne => absurd rfl hne⟩
  have hdone := hstart.run hl' hf' (mem_files_of_formatted hl') (nodup_formatted hl') hrun
  obtain ⟨paths, hwrites, hpaths⟩ := hdone.writes
  have hnone : paths = [] := by
    rw [List.nil_append, List.filter_eq_nil_iff.mpr fun n hn => by rw [hsame n hn]; nofun] at hpaths
    exact List.map_eq_nil_iff.mp hpaths
  refine ⟨r', ?_, ?_, ?_⟩
  · rw [applyTransform_of_load hload]
    exact hrun
  · rw [hwrites, hnone, List.append_nil, hl'.eq]
    rfl
  · rw [hdone.untouched hsame, hl'.eq]
    rfl

/-! ## Short files -/

/-- Whether all that the output layer holds and did not hold before is long enough to be a source file. -/
structure AddsOnlyLong (q s : Package) : Prop where
  directory : IsLayerPath s.directory
  stored : ∀ x file, IsLayerPath x → s.layers.output.stored? x = some file →
    q.layers.output.stored? x = some file ∨ 10 ≤ file.data.length

theorem AddsOnlyLong.write (h : AddsOnlyLong q s) {data : Bytes} (hlong : 10 ≤ data.length) :
    AddsOnlyLong q (Package.write name data s).2 := by
  cases hwrite : Package.write name data s with
  | mk result r =>
    cases result with
    | ok =>
      obtain ⟨-, x, o, mode, o', hx, -, -, -, -⟩ := write_eq_ok hwrite
      have hstores := stores_of_write h.directory hx hwrite
      refine ⟨hstores.directory ▸ h.directory, fun y file hy hfile => ?_⟩
      rw [hstores.stored y hy] at hfile
      split at hfile
      · cases hfile
        exact .inr hlong
      · exact h.stored y file hy hfile
    | error e =>
      rcases write_eq_error hwrite with rfl | ⟨o, hmade, rfl⟩
      · exact h
      · refine ⟨h.directory, fun y file hy hfile => h.stored y file hy ?_⟩
        change (s.layers.withOutput o).output.stored? y = some file at hfile
        rwa [Layers.output_withOutput, Layer.stored?_makeDirs h.directory hmade] at hfile

theorem AddsOnlyLong.formatFile (h : AddsOnlyLong q s) (name : String) :
    AddsOnlyLong q (Package.formatFile name s).2 := by
  have hran : ∀ source, AddsOnlyLong q (s.ran source) := fun _ => ⟨h.directory, h.stored⟩
  rw [formatFile_eq]
  dsimp only
  split
  · next out hout =>
    split
    · exact (hran _).write (Formatter.length_of_outcome hout)
    · exact hran _
  · exact hran _

/-! ## Main result -/

/-- A pass of a formatter that computes a function, over a package that loads.  It takes the members in order, or
those that are listed, each once; formats all of them, if they can be formatted and no write fails, and otherwise those
before the first that cannot; never writes what is too short; and, run again, writes nothing. -/
theorem format_passes (hp : p.OverTrees) (hinput : p.layers.IsProper)
    (hf : p.formatter.Computes p.settings.formatter p.settings.timeout f)
    (hload : load p = (.ok (), q)) :
    (q.files.map (·.filename)).Pairwise (· < ·) ∧ q.formatted none = q.files.map (·.filename) ∧
    (∀ listed, q.formatted (some listed) = listed.eraseDups.filter (q.files.map (·.filename)).contains) ∧
    ∀ filenames,
      ((∀ g ∈ q.files, g.filename ∈ q.formatted filenames → Formattable f q g) →
        ∃ r, applyTransform (.format filenames) p = (.ok (), r) ∧ Formatted f q r (q.formatted filenames)) ∧
      (∀ done, ∀ k ∈ q.files, ∀ rest, q.formatted filenames = done ++ k.filename :: rest →
        (∀ g ∈ q.files, g.filename ∈ done → Formattable f q g) → (∀ out, ¬ Makes f k.source out) →
        ∃ problem output r, applyTransform (.format filenames) p = (.error (.formatter k.filename problem output), r) ∧
          Formatted f q r done ∧ r.read k.filename = .ok k.source) ∧
      (∀ r, applyTransform (.format filenames) p = (.ok (), r) → Formatted f q r (q.formatted filenames) ∧
        (Settles f q → ∃ r', applyTransform (.format filenames) r = (.ok (), r') ∧
          r'.journal.writes = r.journal.writes ∧ r'.layers = r.layers)) ∧
      ∀ x file, IsLayerPath x → (applyTransform (.format filenames) p).2.layers.output.stored? x = some file →
        p.layers.output.stored? x = some file ∨ 10 ≤ file.data.length := by
  have hl := load_eq_ok hload
  have hf : q.formatter.Computes q.settings.formatter q.settings.timeout f := by
    rw [hl.eq]
    exact hf
  have hstart := Progress.start (f := f) hp hinput hl
  refine ⟨hl.pairwise_names, formatted_none hl, formatted_some hl, fun filenames => ?_⟩
  have hmem : ∀ n ∈ q.formatted filenames, n ∈ q.files.map (·.filename) := mem_files_of_formatted hl
  have hnodup : (q.formatted filenames).Nodup := nodup_formatted hl
  rw [applyTransform_of_load hload]
  refine ⟨fun hgood => ?_, fun done k hk rest hselected hgood hnot => ?_, fun r hrun => ?_, fun x file hx hfile => ?_⟩
  · obtain ⟨r, hrun⟩ := hstart.exists_run hl hf hmem hnodup hgood
    exact ⟨r, hrun, (hstart.run hl hf hmem hnodup hrun).toFormatted⟩
  · change ∃ problem output r, (q.formatted filenames).forM formatFile q = _ ∧ _
    rw [hselected] at hmem hnodup ⊢
    exact hstart.exists_failure hl hf (fun n hn => hmem n (List.mem_append_left _ hn)) hk hnodup hgood hnot
  · have hprogress := hstart.run hl hf hmem hnodup hrun
    exact ⟨hprogress.toFormatted, fun hsettles =>
      hprogress.toFormatted.again hl hf hsettles hprogress.standing⟩
  · have hsame : p.layers = q.layers := by rw [hl.eq]; rfl
    rw [hsame]
    have hlong : AddsOnlyLong q (Package.format filenames q).2 :=
      holds_forM (P := AddsOnlyLong q) (fun name _ _ h => h.formatFile name)
        ⟨hstart.standing.overTrees.directory, fun _ _ _ => .inl⟩
    exact hlong.stored x file hx hfile

/-- A formatter that leaves one line end at the end of a file, and refuses an empty one. -/
def trimmed (source : Bytes) : Option Bytes :=
  if source.isEmpty then none else some ((source.reverse.dropWhile (· = LineIndex.lineFeed)).reverse ++ [LineIndex.lineFeed])

def trimmer : Formatter := fun _ run =>
  match trimmed run.input with
  | some out => .exited 0 out []
  | none => .exited 1 [] []

theorem trimmer_computes (command : List String) (timeout : Binary64) : trimmer.Computes command timeout trimmed where
  made n source out h := ⟨[], by rw [trimmer]; dsimp only; rw [h]⟩
  failed n source h := .inr (.inr ⟨1, [], [], by decide, by rw [trimmer]; dsimp only; rw [h]⟩)

/-- A file with two line ends too many, and a formatter that takes them out. -/
def untrimmed : Package := { oneFile "package a\n\n\n" with formatter := trimmer }

theorem untrimmed_passes : untrimmed.OverTrees ∧ ∃ r r', applyTransform (.format none) untrimmed = (.ok (), r) ∧
    r.read "a.go" = .ok (bytesOf "package a\n") ∧ applyTransform (.format none) r = (.ok (), r') ∧
    r'.journal.writes = r.journal.writes := by
  have hp : untrimmed.OverTrees :=
    let h := (oneFile_inMemory "package a\n\n\n").overTrees
    ⟨h.input, h.output, h.directory⟩
  have hload := eq_ok_of_isOk (show (load untrimmed).1.isOk by decide +kernel)
  have hfiles : (load untrimmed).2.files.map (fun g => (g.filename, g.source, g.packageName)) =
      [("a.go", bytesOf "package a\n\n\n", "a")] := by decide +kernel
  have hwritable : (write "a.go" [] (load untrimmed).2).1.isOk := by decide +kernel
  have hparse : (SourceFile.parse "a.go" (bytesOf "package a\n") true).toOption.map (·.packageName) = some "a" := by
    decide +kernel
  have htrimmed : trimmed (bytesOf "package a\n\n\n") = some (bytesOf "package a\n") ∧
      trimmed (bytesOf "package a\n") = some (bytesOf "package a\n") := by decide +kernel
  obtain ⟨g, hg, hdata⟩ := List.map_eq_singleton_iff.mp hfiles
  simp only [Prod.mk.injEq] at hdata
  obtain ⟨hname, hsource, hpackage⟩ := hdata
  have hall : ∀ {P : SourceFile → Prop}, P g → ∀ k ∈ (load untrimmed).2.files, P k := by
    intro P h
    rw [hg]
    exact List.forall_mem_singleton.mpr h
  have hpasses := format_passes hp trivial (trimmer_computes _ _) hload
  have hselected : (load untrimmed).2.formatted none = ["a.go"] := by
    rw [hpasses.2.1, hg, List.map_singleton, hname]
  obtain ⟨hsucceeds, -, hrun, -⟩ := hpasses.2.2.2 none
  have hgood : Formattable trimmed (load untrimmed).2 g :=
    ⟨_, ⟨hsource ▸ htrimmed.1, by decide⟩, fun _ => hname ▸ ⟨[], _, eq_ok_of_isOk hwritable⟩⟩
  have hsettles : Settles trimmed (load untrimmed).2 := by
    refine hall fun out hout => ?_
    rw [hsource, htrimmed.1, Option.some.injEq] at hout
    subst hout
    obtain ⟨g', hg', hname'⟩ := Option.map_eq_some_iff.mp hparse
    exact ⟨htrimmed.2, g', by rw [hname]; exact eq_ok_of_toOption hg', hname'.trans hpackage.symm⟩
  obtain ⟨r, happlied, hformatted⟩ := hsucceeds (hall fun _ => hgood)
  obtain ⟨out, hmakes, hread⟩ := hformatted.made g (by rw [hg]; exact List.mem_singleton_self _)
    (by rw [hselected, hname]; exact List.mem_singleton_self _)
  obtain ⟨r', hagain, hwrites, -⟩ := (hrun r happlied).2 hsettles
  rw [hsource] at hmakes
  rw [hname, hmakes.eq htrimmed.1] at hread
  exact ⟨hp, r, r', happlied, hread, hagain, hwrites⟩

end Package

end GoSplice
