import GoSplice.Layer.Memory

/-!
# Layers on disk

A directory tree and a layer that is one of its directories.  New files and
directories get their permission bits as the process's mask allows, and the
process may read and write everything.  A path is walked from the root of the
tree; what is missing on the way, or is no directory, is the problem reported.
-/

namespace GoSplice

/-- A file, or a directory with named entries. -/
inductive DiskTree where
  | file (f : StoredFile)
  | dir (mode : Nat) (entries : List (String × DiskTree))
  deriving Repr

namespace DiskTree

def isDir : DiskTree → Bool
  | .file _ => false
  | .dir .. => true

def mode : DiskTree → Nat
  | .file f => f.mode
  | .dir m _ => m

/-- The permission bits that new files and directories do not get. -/
def mask : Nat := 0o022

/-- The permission bits that a file can have. -/
def fileBits : Nat := 0o7777

/-- The permission bits that a new directory can have. -/
def dirBits : Nat := 0o1777

/-- The permission bits of a new directory. -/
def maskedMode (mode : Nat) : Nat := (mode &&& dirBits) - (mode &&& dirBits &&& mask)

/-- Permission bits of the directories that are made above a new one. -/
def parentMode : Nat := 0o777

/-! ## Walking -/

/-- What a path leads to. -/
def find : DiskTree → List String → Except LayerProblem DiskTree
  | n, [] => .ok n
  | .file _, _ :: _ => .error .notDirectory
  | .dir _ entries, s :: path =>
    match entries.lookup s with
    | some n => find n path
    | none => .error .notFound

/-- Changes what a path leads to; nothing, if its directory has no such entry. -/
def change (f : Option DiskTree → Except LayerProblem DiskTree) :
    DiskTree → List String → Except LayerProblem DiskTree
  | n, [] => f (some n)
  | .file _, _ :: _ => .error .notDirectory
  | .dir mode entries, s :: path =>
    match entries.lookup s, path with
    | some n, _ => (change f n path).map fun n' => .dir mode (Entries.put s n' entries)
    | none, [] => (f none).map fun n' => .dir mode (Entries.put s n' entries)
    | none, _ :: _ => .error .notFound

/-! ## Operations -/

def read (root : DiskTree) (path : List String) : Except LayerProblem Bytes :=
  match root.find path with
  | .ok (.file f) => .ok f.data
  | .ok (.dir ..) => .error .isDirectory
  | .error p => .error p

/-- The names of the files of a directory, in order. -/
def list (root : DiskTree) (path : List String) : Except LayerProblem (List String) :=
  match root.find path with
  | .ok (.dir _ entries) =>
    .ok (((entries.filter fun (_, n) => !n.isDir).map (·.1)).mergeSort fun a b => a ≤ b)
  | .ok (.file _) => .error .notDirectory
  | .error p => .error p

/-- Whether a path leads to a directory; where it leads nowhere, it does not. -/
def isDirAt (root : DiskTree) (path : List String) : Bool :=
  match root.find path with
  | .ok n => n.isDir
  | .error _ => false

def mode? (root : DiskTree) (path : List String) : Except LayerProblem (Option Nat) :=
  match root.find path with
  | .ok n => .ok (some n.mode)
  | .error .notFound => .ok none
  | .error p => .error p

/-- Puts contents into a file, which keeps its permission bits if it exists. -/
def write (root : DiskTree) (path : List String) (data : Bytes) (mode : Nat) :
    Except LayerProblem DiskTree :=
  root.change (fun
    | some (.file f) => .ok (.file ⟨data, f.mode⟩)
    | some (.dir ..) => .error .isDirectory
    | none => .ok (.file ⟨data, mode &&& fileBits⟩)) path

/-- Makes one directory, which must not exist. -/
def makeDir (root : DiskTree) (path : List String) (mode : Nat) : Except LayerProblem DiskTree :=
  root.change (fun
    | some _ => .error .alreadyExists
    | none => .ok (.dir (maskedMode mode) [])) path

/-- Makes a directory, unless it exists, and those above it; the names of the
path come last first. -/
def makeDirsUp (root : DiskTree) (mode : Nat) : List String → Except LayerProblem DiskTree
  | [] => .ok root
  | s :: above =>
    let path := (s :: above).reverse
    match root.makeDir path mode with
    | .ok root' => .ok root'
    | .error .notFound => do
      let root' ← makeDirsUp root parentMode above
      root'.makeDir path mode
    | .error p => if root.isDirAt path then .ok root else .error p

def makeDirs (root : DiskTree) (path : List String) (mode : Nat) : Except LayerProblem DiskTree :=
  if path.isEmpty then .ok root else makeDirsUp root mode path.reverse

/-- All files below a node, with their paths. -/
def files (above : List String) : DiskTree → List (List String × StoredFile)
  | .file f => [(above.reverse, f)]
  | .dir _ entries => entries.attach.flatMap fun ⟨e, _⟩ => files (e.1 :: above) e.2
termination_by n => sizeOf n
decreasing_by
  rename_i h
  have h1 := List.sizeOf_lt_of_mem h
  have h2 : sizeOf e.2 < sizeOf e := by
    cases e
    simp only [Prod.mk.sizeOf_spec]
    omega
  simp
  omega

end DiskTree

/-- A directory of a tree as a layer. -/
structure DiskLayer where
  tree : DiskTree
  /-- The names that lead to the layer's root. -/
  root : List String

namespace DiskLayer

/-- The spelling of a path that begins at the root of the tree. -/
def absolute (path : List String) : String := "/" ++ String.intercalate "/" path

/-- The names that lead to a layer path. -/
def target (l : DiskLayer) (name : String) : List String :=
  l.root ++ (Path.names name).map String.ofList

/-- An operation on a path; no layer path has a NUL in it. -/
def onTree (l : DiskLayer) (path : String) (run : DiskTree → List String → Except LayerProblem α) :
    Except PatchError α := do
  let name ← (Path.clean path).mapError .escape
  if name.toList.contains '\x00' then .error .nulInPath
  else (run l.tree (l.target name)).mapError fun p => .layer (.disk p (absolute (l.target name)))

def read (l : DiskLayer) (path : String) : Except PatchError Bytes := l.onTree path DiskTree.read

def list (l : DiskLayer) (path : String) : Except PatchError (List String) :=
  l.onTree path DiskTree.list

def isDir (l : DiskLayer) (path : String) : Except PatchError Bool :=
  return l.tree.isDirAt (l.target (← (Path.clean path).mapError .escape))

def mode? (l : DiskLayer) (path : String) : Except PatchError (Option Nat) :=
  l.onTree path DiskTree.mode?

def write (l : DiskLayer) (path : String) (data : Bytes) (mode : Nat) :
    Except PatchError DiskLayer :=
  return { l with tree := ← l.onTree path (DiskTree.write · · data mode) }

def makeDirs (l : DiskLayer) (path : String) (mode : Nat) : Except PatchError DiskLayer :=
  return { l with tree := ← l.onTree path (DiskTree.makeDirs · · mode) }

end DiskLayer

end GoSplice
