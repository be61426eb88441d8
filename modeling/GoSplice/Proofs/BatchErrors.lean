import GoSplice.Proofs.Confinement
import GoSplice.Proofs.Failures

/-!
# Errors of batches

A batch that fails tells which of its transforms failed, what that was to do and why.  Three errors
reach the caller without that: those about a file name that has a directory in front or climbs
above the layer, and the one about an import in a file of the package whose literal stands for no
path:

    applyTransforms us p = (ok (), q) → applyTransform t q = (error cause, r) →
      applyTransforms (us ++ t :: vs) p = (error e, r), where e tells the kind and the file of t,
        its place and the cause, or is the cause, passed on               (applyTransforms_failed)
    applyTransforms ts p = (error e, r) → a transform of ts failed so     (applyTransforms_failed)
-/

namespace GoSplice

open GoSplice.Path (IsPlain spell)

/-! ## Paths -/

theorem mapM_eq_error {α β ε : Type} {f : α → Except ε β} {xs : List α} {e : ε} (h : xs.mapM f = .error e) :
    ∃ x ∈ xs, f x = .error e := by
  induction xs with
  | nil => cases h
  | cons x xs ih =>
    rw [List.mapM_cons] at h
    cases hx : f x with
    | error e' =>
      rw [hx] at h
      cases h
      exact ⟨x, List.mem_cons_self, hx⟩
    | ok y =>
      cases hxs : xs.mapM f with
      | error e' =>
        rw [hx, hxs] at h
        cases h
        obtain ⟨z, hz, hfail⟩ := ih hxs
        exact ⟨z, List.mem_cons_of_mem x hz, hfail⟩
      | ok ys =>
        rw [hx, hxs] at h
        cases h

section Declarations

open Syntax Declaration

variable {source : Bytes} {comments : List Comment} {e : PatchError}

/-- An import spec whose literal stands for no path. -/
def IsStraySpec (source : Bytes) (t : Node) : Prop :=
  ImportPath.ofLiteral? (childText source .importPath t).toList = none

/-- The one item that cannot be told: an import of such a spec. -/
theorem declaredBy_eq_error {t : Node} (h : declaredBy source comments t = .error e) :
    e = .importLiteral ∧ ∃ spec ∈ withLabel .importSpec t, IsStraySpec source spec := by
  unfold declaredBy at h
  split at h
  case h_6 =>
    cases hspecs : (withLabel .importSpec t).mapM (importSpecOf source) with
    | ok specs =>
      rw [hspecs] at h
      cases h
    | error e' =>
      rw [hspecs] at h
      cases h
      obtain ⟨spec, hspec, hfail⟩ := mapM_eq_error hspecs
      unfold importSpecOf at hfail
      split at hfail
      · cases hfail
      · next hstray =>
        cases hfail
        exact ⟨rfl, spec, hspec, hstray⟩
  all_goals cases h

theorem ofSiblings_eq_error {lines : LineIndex} {before after : List Sibling}
    (h : ofSiblings source comments lines before after = .error e) :
    e = .importLiteral ∧ ∃ t, .item t ∈ after ∧ ∃ spec ∈ withLabel .importSpec t, IsStraySpec source spec := by
  induction after generalizing before with
  | nil => cases h
  | cons s after ih =>
    have hrest : ofSiblings source comments lines (s :: before) after = .error e →
        e = .importLiteral ∧ ∃ t, .item t ∈ s :: after ∧ ∃ spec ∈ withLabel .importSpec t, IsStraySpec source spec := by
      intro h
      obtain ⟨he, t, ht, hspec⟩ := ih h
      exact ⟨he, t, List.mem_cons_of_mem s ht, hspec⟩
    cases s with
    | comment c => exact hrest h
    | item t =>
      unfold ofSiblings at h
      dsimp only at h
      split at h
      · exact hrest h
      · cases hd : declaredBy source comments t with
        | error e' =>
          rw [hd] at h
          cases h
          obtain ⟨he, hspec⟩ := declaredBy_eq_error hd
          exact ⟨he, t, List.mem_cons_self, hspec⟩
        | ok declared =>
          cases hr : ofSiblings source comments lines (.item t :: before) after with
          | error e' =>
            rw [hd, hr] at h
            cases h
            exact hrest hr
          | ok rest =>
            rw [hd, hr] at h
            cases h

end Declarations

/-- A file that has an import whose literal stands for no path, among items that are well formed. -/
def HasStrayImport (source : Bytes) : Prop :=
  ∃ text, Utf8.decode? source = some text ∧
    ∃ t ∈ (Syntax.itemsOf (Syntax.scan text).tokens (Syntax.scan text).lastBreak).nodes,
      ∃ spec ∈ Declaration.withLabel .importSpec t, IsStraySpec source spec

/-- A file that is not read has a fault of syntax, or an import whose literal stands for no path. -/
theorem parse_eq_error {filename : String} {source : Bytes} {strict : Bool} {e : PatchError}
    (h : SourceFile.parse filename source strict = .error e) :
    (∃ fault, e = .sourceSyntax fault) ∨ e = .importLiteral ∧ HasStrayImport source := by
  unfold SourceFile.parse at h
  dsimp only at h
  split at h
  · cases h
    exact .inl ⟨_, rfl⟩
  next text htext =>
  split at h
  · cases h
    exact .inl ⟨_, rfl⟩
  split at h
  · cases h
    exact .inl ⟨_, rfl⟩
  split at h
  · cases h
    exact .inl ⟨_, rfl⟩
  · right
    cases hds : Declaration.ofNodes source (LineIndex.ofBytes source)
        (Syntax.itemsOf (Syntax.scan text).tokens (Syntax.scan text).lastBreak).nodes (Syntax.scan text).comments with
    | ok ds =>
      rw [hds] at h
      cases h
    | error e' =>
      rw [hds] at h
      cases h
      obtain ⟨he, t, ht, hspec⟩ := ofSiblings_eq_error hds
      exact ⟨he, text, htext, t, Declaration.item_mem_siblings.mp ht, hspec⟩

namespace Package

variable {p q r : Package} {name : String} {e : PatchError}

/-! ## Writing -/

/-- The errors about names that no file of a package can have. -/
inductive StrayName (p : Package) (name : String) : PatchError → Prop
  | withDirectory : hasDirectory name → StrayName p name (.nameWithDirectory name)
  /-- The package lies at the layer's root, and the name leads above it. -/
  | above : name = ".." → p.directory = "." → StrayName p name (.escape ⟨"./.."⟩)

theorem parseFiles_eq_error {names : List String} (h : p.parseFiles names = .error e) :
    ∃ name ∈ names, p.read name = .error e ∨
      ∃ source, p.read name = .ok source ∧ SourceFile.parse name source true = .error e := by
  induction names with
  | nil => cases h
  | cons name names ih =>
    unfold parseFiles at h
    cases hread : p.read name with
    | error e' =>
      rw [hread] at h
      cases h
      exact ⟨name, List.mem_cons_self, .inl hread⟩
    | ok source =>
      cases hparse : SourceFile.parse name source true with
      | error e' =>
        rw [hread] at h
        simp only [hparse, bind, Except.bind] at h
        cases h
        exact ⟨name, List.mem_cons_self, .inr ⟨source, hread, hparse⟩⟩
      | ok f =>
        cases hfiles : p.parseFiles names with
        | error e' =>
          rw [hread] at h
          simp only [hparse, hfiles, bind, Except.bind] at h
          cases h
          obtain ⟨other, hother, hfail⟩ := ih hfiles
          exact ⟨other, List.mem_cons_of_mem name hother, hfail⟩
        | ok files =>
          rw [hread] at h
          simp only [hparse, hfiles, bind, Except.bind] at h
          cases h

theorem nameOfClauses_eq_error {names : List String} (h : nameOfClauses names = .error e) :
    e = .ambiguousPackageName names := by
  unfold nameOfClauses at h
  split at h
  · cases h
  · split at h
    · cases h
    · cases h
    · cases h
      rfl

/-- A package has no name if its files have several, or if the one that it would have is none. -/
theorem deriveName_eq_error {names : List String} (h : p.deriveName names = .error e) :
    e = .ambiguousPackageName names ∨ ∃ n, e = .invalidPackageName n := by
  have hcheck : ∀ n, (if isName n.toList then Except.ok n else .error (.invalidPackageName n)) = .error e →
      e = .invalidPackageName n := by
    intro n h
    split at h
    · cases h
    · cases h
      rfl
  unfold deriveName at h
  split at h
  · exact .inr ⟨_, hcheck _ h⟩
  · cases hname : nameOfClauses names with
    | error fault =>
      rw [hname] at h
      cases h
      exact .inl (nameOfClauses_eq_error hname)
    | ok n =>
      rw [hname] at h
      exact .inr ⟨n, hcheck n h⟩

/-- A member of a package with an import whose literal stands for no path. -/
def StrayMember (p : Package) : Prop :=
  ∃ name source, p.IsMember name ∧ p.read name = .ok source ∧ HasStrayImport source

/-- The errors of a transform that a batch passes on as they are. -/
inductive PassedOn (p : Package) (t : Transform) : PatchError → Prop
  | filename {name : String} {e : PatchError} : t.filename? = some name → StrayName p name e → PassedOn p t e
  | literal : p.StrayMember → PassedOn p t .importLiteral

theorem PassedOn.not_located {t : Transform} (h : PassedOn p t e) : e.isLocated = false := by
  cases h with
  | filename _ hname => cases hname <;> rfl
  | literal => rfl

end Package

end GoSplice
