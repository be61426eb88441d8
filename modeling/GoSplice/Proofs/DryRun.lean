import GoSplice.Proofs.LayerDiffs
import GoSplice.Proofs.Mirrors

/-!
# Dry runs

Transforms can be tried out: applied over an empty output layer they do what
they would do in place, and the difference between the layers is the change.

    in place: ok          →  over an empty layer: ok, and the same files   (dryRun_agrees)
    in place: an error    →  over an empty layer: the same error           (dryRun_agrees)
-/

namespace GoSplice

open Syntax

/-! ## Files are never emptied -/

namespace Splice

/-- A byte outside of the ranges stays. -/
theorem delete_ne_nil {source : Bytes} {pos k : Nat} {rs : List Range} (hpos : pos ≤ k)
    (hk : k < source.length) (hrs : ∀ r ∈ rs, k < r.start ∨ r.stop ≤ k) :
    delete source pos rs ≠ [] := by
  induction rs generalizing pos with
  | nil =>
    intro he
    have hlen := congrArg List.length he
    rw [delete, List.length_drop, List.length_nil] at hlen
    omega
  | cons r rs ih =>
    intro he
    rw [delete, List.append_eq_nil_iff] at he
    rcases hrs r List.mem_cons_self with h | h
    · have hlen := congrArg List.length he.1
      rw [slice, List.length_drop, List.length_take, List.length_nil] at hlen
      omega
    · exact ih h (fun s hs => hrs s (List.mem_cons_of_mem _ hs)) he.2

theorem cut_ne_nil {source : Bytes} {d : Declaration} {k : Nat} (hk : k < source.length)
    (hd : k < d.spliceStart ∨ d.stop ≤ k) : cut source d ≠ [] := by
  intro he
  rw [cut, List.append_eq_nil_iff] at he
  rcases hd with h | h
  · have hlen := congrArg List.length he.1
    rw [List.length_take, List.length_nil] at hlen
    omega
  · have hlen := congrArg List.length he.2
    rw [List.length_drop, List.length_nil] at hlen
    omega

end Splice

namespace RepeatedImports

theorem mem_of_mem_repeated {seen : List String} {specs : List ImportSpec} {s : ImportSpec}
    (h : s ∈ repeated seen specs) : s ∈ specs := by
  induction specs generalizing seen with
  | nil => cases h
  | cons t ts ih =>
    unfold repeated at h
    split at h
    · rcases List.mem_cons.mp h with rfl | h
      · exact List.mem_cons_self
      · exact List.mem_cons_of_mem _ (ih h)
    · exact List.mem_cons_of_mem _ (ih h)

/-- A range to delete is an import declaration or a spec of one. -/
theorem mem_ranges {seen : List String} {ds : List Declaration} {r : Splice.Range}
    (h : r ∈ ranges seen ds) : ∃ d ∈ ds, ∃ specs close, d.declared = .imports specs close ∧
      (r = ⟨d.start, d.stop⟩ ∨ ∃ s ∈ specs, r = ⟨s.start, s.stop⟩) := by
  induction ds generalizing seen with
  | nil => cases h
  | cons d ds ih =>
    unfold ranges at h
    split at h
    · next specs close hd =>
      rcases List.mem_append.mp h with h | h
      · refine ⟨d, List.mem_cons_self, specs, close, hd, ?_⟩
        unfold rangesOf at h
        dsimp only at h
        split at h
        · exact Or.inl (List.mem_singleton.mp h)
        · obtain ⟨s, hs, rfl⟩ := List.mem_map.mp h
          exact Or.inr ⟨s, mem_of_mem_repeated hs, rfl⟩
      · obtain ⟨e, he, h⟩ := ih h
        exact ⟨e, List.mem_cons_of_mem _ he, h⟩
    · obtain ⟨e, he, h⟩ := ih h
      exact ⟨e, List.mem_cons_of_mem _ he, h⟩

end RepeatedImports

section Clause

variable {filename : String} {source : Bytes} {strict : Bool} {f : SourceFile} {s : List Char}

/-- A file has a byte of its package clause outside of all declarations. -/
theorem Parsed.exists_clause (h : Parsed filename source strict f s) :
    ∃ k < source.length, ∀ d ∈ f.declarations, k < d.spliceStart ∨ d.stop ≤ k := by
  obtain ⟨t, ht, -⟩ := h.clause
  have hmem := List.mem_of_find?_eq_some ht
  have hlabel : t.label = .packageClause := by simpa using List.find?_some ht
  obtain ⟨hi, -, hnest⟩ := (read_textItems h.refusal).nested (startOf_orderly s)
  obtain ⟨-, hlt, -, -, hstop, -⟩ := (hnest.of_mem hmem).range
  have hle := hstop.le
  rw [byteWidth_eq, ← h.encode_eq] at hle
  refine ⟨t.start, by omega, fun d hd => ?_⟩
  rcases (h.wellPlaced hd).clause t (h.itemsIn_eq ▸ hmem) hlabel with h | h <;> omega

theorem Parsed.withoutRepeatedImports_ne_nil (h : Parsed filename source strict f s) :
    f.withoutRepeatedImports ≠ [] := by
  obtain ⟨k, hk, hout⟩ := h.exists_clause
  unfold SourceFile.withoutRepeatedImports
  rw [h.source_eq]
  refine Splice.delete_ne_nil (Nat.zero_le k) hk fun r hr => ?_
  obtain ⟨d, hd, specs, close, hdecl, hrange⟩ := RepeatedImports.mem_ranges hr
  have hwell := h.wellPlaced hd
  have hle := hwell.splice_le
  rcases hrange with rfl | ⟨t, ht, rfl⟩
  · rcases hout d hd with h | h
    · exact Or.inl (Nat.lt_of_lt_of_le h hle)
    · exact Or.inr h
  · obtain ⟨h1, h2, h3⟩ := (hwell.specs specs close hdecl).inside t ht
    dsimp only
    rcases hout d hd with h | h <;> omega

end Clause

theorem withImport_ne_nil {p : Package} {a : ImportAddition} {data : Bytes}
    (h : p.withImport a = .ok data) : data ≠ [] := by
  unfold Package.withImport at h
  dsimp only at h
  split at h
  · split at h <;> cases h
    · simp [Splice.importInside]
    · simp [Splice.importBelow]
    · simp [Splice.importAfterClause]
  · split at h <;> cases h
    simp [Splice.importAfterClause]

theorem Formatter.outcome_ne_nil {filename : String} {run : FormatRun} {reply : FormatReply}
    {data : Bytes} (h : outcome filename run reply = .ok data) : data ≠ [] := by
  cases reply with
  | exited status output errors =>
    unfold outcome at h
    dsimp only at h
    split at h
    · cases h
    · split at h
      · cases h
      · next hlen =>
        cases h
        rintro rfl
        exact hlen (by decide)
  | timedOut | missing | refused => cases h

/-! ## Transforms -/

namespace Mirrors

open Package MemoryLayer

variable {i : MemoryLayer} {p q : Package}

theorem eq_of_rest {γ : Type} (h : Mirrors i p q) (f : Package → γ)
    (hf : ∀ (r : Package) l, f { r with layers := l } = f r) : f p = f q := by
  obtain ⟨a, o, h⟩ := h
  rw [h.rest]
  exact (hf p q.layers).symm

theorem append (h : Mirrors i p q) (name text : String) :
    Agree IsLayerError i (Package.append name text p) (Package.append name text q) := by
  rw [append_eq, append_eq, h.eq_of_rest (·.contentsOrNew name) fun _ _ => rfl]
  exact h.write (by simp)

theorem remove (h : Mirrors i p q) {m : Match}
    (hm : Splice.cut (p.contentsOrNew m.file.filename) m.declaration ≠ []) :
    Agree IsLayerError i (Package.remove m p) (Package.remove m q) := by
  rw [remove_eq, remove_eq, ← h.eq_of_rest (·.contentsOrNew m.file.filename) fun _ _ => rfl]
  exact h.write hm

theorem throwIf (h : Mirrors i p q) (e : Option PatchError) :
    Agree IsLayerError i (Package.throwIf e p) (Package.throwIf e q) := by
  cases e <;> exact Or.inr ⟨rfl, h⟩

theorem addDeclaration (h : Mirrors i p q) {p₀ : Package} (hl : Loaded p₀ p) (a : Addition) :
    Agree IsLayerError i (Package.addDeclaration a p) (Package.addDeclaration a q) := by
  unfold Package.addDeclaration
  refine agree_get ?_
  rw [← h.eq_of_rest (·.files) fun _ _ => rfl]
  cases hm : p.files.findSubject? a.subject with
  | none => exact h.append a.filename a.text
  | some m =>
    refine agree_bind (h.throwIf _) fun _ p1 q1 h1 hm1 => ?_
    obtain rfl := throwIf_eq_ok h1
    split
    · refine agree_bind (hm1.throwIf _) fun _ p2 q2 h2 hm2 => ?_
      obtain rfl := throwIf_eq_ok h2
      refine agree_bind (hm2.remove ?_) fun _ p3 q3 _ hm3 => hm3.append a.filename a.text
      obtain ⟨hfile, hdecl, -⟩ := mem_of_findSubject? hm
      obtain ⟨s, hs⟩ := parse_eq_ok_iff.mp (hl.files m.file hfile).2
      obtain ⟨k, hk, hout⟩ := hs.exists_clause
      rw [hl.contentsOrNew_of_mem hfile]
      exact Splice.cut_ne_nil hk (hout m.declaration hdecl)
    · exact Or.inr ⟨rfl, hm1⟩

theorem addImport (h : Mirrors i p q) (a : ImportAddition) :
    Agree IsLayerError i (Package.addImport a p) (Package.addImport a q) := by
  rw [addImport_eq, addImport_eq, ← h.eq_of_rest (·.withImport a) fun _ _ => rfl]
  cases hw : p.withImport a with
  | error e => exact Or.inr ⟨rfl, h⟩
  | ok data => exact h.write (withImport_ne_nil hw)

theorem dedupImports (h : Mirrors i p q) {p₀ : Package} (hl : Loaded p₀ p)
    (names : Option (List String)) :
    Agree IsLayerError i (Package.dedupImports names p) (Package.dedupImports names q) := by
  have hparsed : ∀ f ∈ p.selected names, f.withoutRepeatedImports ≠ [] := by
    intro f hf
    obtain ⟨s, hs⟩ := parse_eq_ok_iff.mp (hl.files f (mem_of_selected hf)).2
    exact hs.withoutRepeatedImports_ne_nil
  unfold Package.dedupImports
  refine agree_get ?_
  rw [← h.eq_of_rest (·.selected names) fun _ _ => rfl]
  refine agree_forM (fun f hf r r' hm => ?_) h
  unfold dedupFile
  split
  · exact hm.write (hparsed f hf)
  · exact Or.inr ⟨rfl, hm⟩

theorem runFormatter (h : Mirrors i p q) (name : String) (source : Bytes) :
    Agree IsLayerError i (Package.runFormatter name source p) (Package.runFormatter name source q) := by
  unfold Package.runFormatter
  refine agree_get ?_
  rw [← h.eq_of_rest (·.settings) fun _ _ => rfl, ← h.eq_of_rest (·.formatter) fun _ _ => rfl,
    ← h.eq_of_rest (·.journal) fun _ _ => rfl]
  refine agree_modify (Or.inr ⟨rfl, ?_⟩)
  refine h.change (fun r => { r with journal := { r.journal with runs := r.journal.runs ++ _ } })
    (fun _ => rfl) rfl fun _ _ => rfl

theorem runFormatter_ne_nil {name : String} {source out : Bytes}
    (h : Package.runFormatter name source p = (.ok out, q)) : out ≠ [] := by
  unfold Package.runFormatter at h
  rw [bind_eq_ok] at h
  obtain ⟨_, _, hget, h⟩ := h
  cases hget
  rw [bind_eq_ok] at h
  obtain ⟨_, _, hmodify, h⟩ := h
  rw [lift_apply, Prod.mk.injEq] at h
  exact Formatter.outcome_ne_nil h.1

theorem formatFile (h : Mirrors i p q) (name : String) :
    Agree IsLayerError i (Package.formatFile name p) (Package.formatFile name q) := by
  unfold Package.formatFile
  refine agree_get ?_
  rw [← h.eq_of_rest (·.contentsOrNew name) fun _ _ => rfl]
  generalize p.contentsOrNew name = source
  refine agree_bind (h.runFormatter name source) fun out p' q' hrun hm => ?_
  split
  · exact hm.write (runFormatter_ne_nil hrun)
  · exact Or.inr ⟨rfl, hm⟩

theorem format (h : Mirrors i p q) (names : Option (List String)) :
    Agree IsLayerError i (Package.format names p) (Package.format names q) := by
  unfold Package.format
  refine agree_get ?_
  rw [← h.eq_of_rest (·.formatted names) fun _ _ => rfl]
  exact agree_forM (fun name _ _ _ hm => hm.formatFile name) h

theorem applyTransform (h : Mirrors i p q) (t : Transform) :
    Agree IsLayerError i (Package.applyTransform t p) (Package.applyTransform t q) := by
  unfold Package.applyTransform
  refine agree_bind h.load fun _ p' q' hload hm => ?_
  have hl := load_eq_ok hload
  cases t with
  | addImport a => exact hm.addImport a
  | add a => exact hm.addDeclaration hl a
  | dedupImports names => exact hm.dedupImports hl names
  | format names => exact hm.format names

/-! ## Batches -/

/-- Whether a batch met an error of a layer. -/
def IsBatchLayerError (e : PatchError) : Prop :=
  ∃ kind filename index total l, e = .transform kind filename index total (.layer l)

theorem applyLocated (h : Mirrors i p q) (t : Transform) (index total : Nat) :
    Agree IsBatchLayerError i
      ((tryCatch (Package.applyTransform t) fun e => throw (located t index total e) : Operation Unit) p)
      ((tryCatch (Package.applyTransform t) fun e => throw (located t index total e) : Operation Unit) q) := by
  rw [tryCatch_apply, tryCatch_apply]
  have ha := h.applyTransform t
  revert ha
  generalize Package.applyTransform t p = x
  generalize Package.applyTransform t q = y
  rintro (⟨e, he, l, rfl⟩ | ⟨hxy, hm⟩)
  · left
    refine ⟨_, ?_, t.kind, t.filename?.getD "", index, total, l, rfl⟩
    obtain ⟨r, p'⟩ := x
    dsimp only at he
    subst he
    rfl
  · right
    obtain ⟨r, p'⟩ := x
    obtain ⟨s, q'⟩ := y
    dsimp only at hxy hm
    subst hxy
    cases r <;> exact ⟨rfl, hm⟩

theorem applyFrom (h : Mirrors i p q) (total index : Nat) (ts : List Transform) :
    Agree IsBatchLayerError i (Package.applyFrom total index ts p)
      (Package.applyFrom total index ts q) := by
  induction ts generalizing p q index with
  | nil => exact Or.inr ⟨rfl, h⟩
  | cons t ts ih =>
    exact agree_bind (h.applyLocated t index total) fun _ p' q' _ hm => ih hm (index + 1)

end Mirrors

/-! ## Differences -/

section Diff

variable {i a o : MemoryLayer} {d : String}

/-- The bytes of the file at a layer path. -/
def MemoryLayer.data? (l : MemoryLayer) (x : String) : Option Bytes := (l.file? x).map (·.data)

/-- Where the bytes differ, the output layer has a file. -/
theorem Overlays.exists_of_differs (h : Overlays i a o) {y : String} (hne : a.data? y ≠ i.data? y) :
    ∃ f, o.file? y = some f := by
  cases ho : o.file? y with
  | some f => exact ⟨f, rfl⟩
  | none =>
    refine absurd ?_ hne
    unfold MemoryLayer.data?
    rw [h.files, ho, Option.none_or]

/-- The diffs of a directory are those of its files whose bytes differ. -/
theorem Overlays.diff (h : Overlays i a o) {x : String} (hd : Path.clean d = .ok x) :
    ∃ ds, Layer.diff (.memory i) (.memory o) [d] = .ok ds ∧ ∀ y, y ∈ ds.map (·.1) ↔
      Path.parent y = x ∧ a.data? y ≠ i.data? y := by
  have hin : (Layer.memory i).IsBuilt := h.input
  have hout : (Layer.memory o).IsBuilt := h.output
  have hcomparable := List.forall_mem_singleton.mpr (Layer.comparable_of_isBuilt hin hout hd)
  obtain ⟨ds, hds⟩ := Layer.diff_eq_ok_iff.mpr hcomparable
  refine ⟨ds, hds, fun y => ?_⟩
  rw [Layer.mem_paths_diff hds, Layer.changed_iff hin hout hd]
  refine and_congr_right fun _ => ?_
  show (∃ f, o.file? y = some f ∧ (i.data? y).getD [] ≠ f.data) ↔ _
  constructor
  · rintro ⟨f, hf, hne⟩ heq
    refine hne ?_
    rw [← heq, MemoryLayer.data?, h.files, hf]
    rfl
  · intro hne
    obtain ⟨f, hf⟩ := h.exists_of_differs hne
    refine ⟨f, hf, fun heq => hne ?_⟩
    rw [MemoryLayer.data?, h.files, hf]
    cases hi : i.data? y with
    | some bs =>
      rw [hi] at heq
      exact congrArg some heq.symm
    | none =>
      rw [hi] at heq
      exact absurd heq.symm (h.nonempty y f hf)

end Diff

/-! ## Dry runs -/

section DryRun

open Package

variable {i : MemoryLayer} {modulePath directory : String} {settings : Settings}
  {formatter : Formatter} {p q : Package}

/-- A layer is its own overlay by an empty one. -/
theorem mirrors_create (hi : i.Built)
    (hp : create (.shared (.memory i)) modulePath directory settings formatter = .ok p)
    (hq : create (.overlay (.memory i) (.memory .empty)) modulePath directory settings formatter =
      .ok q) : Mirrors i p q ∧ Path.clean directory = .ok p.directory := by
  obtain ⟨-, d, hd, rfl⟩ := create_eq_ok hp
  obtain ⟨-, d', hd', rfl⟩ := create_eq_ok hq
  obtain rfl : d = d' := Except.ok.inj (hd.symm.trans hd')
  exact ⟨⟨i, .empty, rfl, rfl, rfl, Path.clean_eq_ok hd, Overlays.refl hi⟩, hd⟩

/-- Transforms that are applied to a layer in place, or over an empty output layer,
do the same: where the first run succeeds, the second shows the same files, and the
diff lists what has changed; where the first stops at a transform, and not because
its layer refused a write, the second stops there with the same error. -/
theorem dryRun_agrees (hi : i.Built)
    (hp : create (.shared (.memory i)) modulePath directory settings formatter = .ok p)
    (hq : create (.overlay (.memory i) (.memory .empty)) modulePath directory settings formatter =
      .ok q) (ts : List Transform) :
    (∀ p', applyTransforms ts p = (.ok (), p') → ∃ q' a o ds, applyTransforms ts q = (.ok (), q') ∧
      p'.layers = .shared (.memory a) ∧ q'.layers = .overlay (.memory i) (.memory o) ∧
      (∀ name, q'.read name = p'.read name) ∧ (∀ x, q'.layers.file? x = a.file? x) ∧
      Layer.diff (.memory i) (.memory o) [directory] = .ok ds ∧
      ∀ x, x ∈ ds.map (·.1) ↔ Path.parent x = p.directory ∧ a.data? x ≠ i.data? x) ∧
    (∀ p' kind filename index total cause,
      applyTransforms ts p = (.error (.transform kind filename index total cause), p') →
      (∀ e, cause ≠ .layer e) →
      ∃ q', applyTransforms ts q = (.error (.transform kind filename index total cause), q')) := by
  obtain ⟨hm, hd⟩ := mirrors_create hi hp hq
  obtain ⟨r, q', hq'⟩ : ∃ r q', applyTransforms ts q = (r, q') := ⟨_, _, rfl⟩
  have hrun : Agree Mirrors.IsBatchLayerError i (applyTransforms ts p) (applyTransforms ts q) :=
    hm.applyFrom ts.length 0 ts
  constructor
  · intro p' hp'
    rw [hp', hq'] at hrun
    rcases hrun with ⟨e, he, -⟩ | ⟨hres, hm'⟩
    · cases he
    · dsimp only at hres hm'
      subst hres
      have hfile := hm'.file?
      have hread := hm'.read
      obtain ⟨a, o, hm'⟩ := hm'
      obtain ⟨ds, hds, hmem⟩ := hm'.overlays.diff hd
      refine ⟨q', a, o, ds, hq', hm'.single, hm'.double, fun name => (hread name).symm, fun x => ?_,
        hds, hmem⟩
      rw [← hfile, hm'.single]
      show (a.file? x).or (a.file? x) = a.file? x
      cases a.file? x <;> rfl
  · intro p' kind filename index total cause hp' hcause
    rw [hp', hq'] at hrun
    rcases hrun with ⟨e, he, _, _, _, _, l, rfl⟩ | ⟨hres, -⟩
    · cases he
      exact absurd rfl (hcause l)
    · dsimp only at hres
      subst hres
      exact ⟨q', hq'⟩

/-- A function added to a package without files. -/
def firstFunction : List Transform := [.add ⟨"a.go", .func "" "F", "func F() \x7b\x7d", false⟩]

theorem firstFunction_agrees : ∃ p q p' q' a o ds,
    create (.shared (.memory .empty)) "m" "d" .standard (fun _ _ => .missing) = .ok p ∧
    create (.overlay (.memory .empty) (.memory .empty)) "m" "d" .standard (fun _ _ => .missing) = .ok q ∧
    applyTransforms firstFunction p = (.ok (), p') ∧ applyTransforms firstFunction q = (.ok (), q') ∧
    p'.layers = .shared (.memory a) ∧ q'.layers = .overlay (.memory .empty) (.memory o) ∧
    (∀ name, q'.read name = p'.read name) ∧ (∀ x, q'.layers.file? x = a.file? x) ∧
    Layer.diff (.memory .empty) (.memory o) ["d"] = .ok ds ∧
    ∀ x, x ∈ ds.map (·.1) ↔ Path.parent x = p.directory ∧
      a.data? x ≠ MemoryLayer.empty.data? x := by
  obtain ⟨p, hp, hok⟩ : ∃ p, create (.shared (.memory .empty)) "m" "d" .standard
      (fun _ _ => .missing) = .ok p ∧ (applyTransforms firstFunction p).1.isOk :=
    ⟨_, rfl, by decide +kernel⟩
  obtain ⟨q, hq⟩ : ∃ q, create (.overlay (.memory .empty) (.memory .empty)) "m" "d" .standard
      (fun _ _ => .missing) = .ok q := ⟨_, rfl⟩
  have hrun := eq_ok_of_isOk hok
  obtain ⟨q', a, o, ds, hall⟩ := (dryRun_agrees .empty hp hq firstFunction).1 _ hrun
  exact ⟨p, q, _, q', a, o, ds, hp, hq, hrun, hall⟩

end DryRun

end GoSplice
