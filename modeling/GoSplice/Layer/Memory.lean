import GoSplice.Entries
import GoSplice.Error

/-!
# Layers in memory

A layer in memory holds files and directories under their layer paths.  A file
can be written where its directory exists, as in a directory tree:

    write p bs m   puts the file at `clean p`, unless that is a directory or
                   its parent is none
    makeDirs p     makes `clean p` and all directories above it
-/

namespace GoSplice

/-- The contents and the permission bits of a file. -/
structure StoredFile where
  data : Bytes
  mode : Nat
  deriving Repr, DecidableEq

/-- Permission bits of a new file. -/
def defaultFileMode : Nat := 0o644

/-- Permission bits of a new directory. -/
def defaultDirMode : Nat := 0o755

structure MemoryLayer where
  files : List (String × StoredFile)
  dirs : List String
  deriving Repr, DecidableEq

namespace MemoryLayer

/-- A layer with nothing in it. -/
def empty : MemoryLayer := ⟨[], ["."]⟩

def fail (problem : LayerProblem) (text : String) : Except PatchError α :=
  .error (.layer (.memory problem text))

/-- The layer path that a text spells. -/
def resolve (path : String) : Except PatchError String := (Path.clean path).mapError .escape

/-! ## Views -/

/-- The file at a layer path. -/
def file? (l : MemoryLayer) (name : String) : Option StoredFile := l.files.lookup name

def hasDir (l : MemoryLayer) (name : String) : Bool := l.dirs.contains name

/-! ## Reading -/

def read (l : MemoryLayer) (path : String) : Except PatchError Bytes := do
  match l.file? (← resolve path) with
  | some f => return f.data
  | none => fail .notFound path

/-- The names of the files of a directory, in order. -/
def list (l : MemoryLayer) (path : String) : Except PatchError (List String) := do
  let directory ← resolve path
  if l.hasDir directory then
    let inside := l.files.filter fun (name, _) => Path.parent name = directory
    return (inside.map fun (name, _) => Path.baseName name).mergeSort fun a b => a ≤ b
  else fail .notFound path

def isDir (l : MemoryLayer) (path : String) : Except PatchError Bool :=
  return l.hasDir (← resolve path)

/-- The permission bits of a file, none if there is no such file. -/
def mode? (l : MemoryLayer) (path : String) : Except PatchError (Option Nat) :=
  return (l.file? (← resolve path)).map (·.mode)

/-! ## Writing -/

def putFile (l : MemoryLayer) (name : String) (f : StoredFile) : MemoryLayer :=
  { l with files := Entries.put name f l.files }

def write (l : MemoryLayer) (path : String) (data : Bytes) (mode : Nat) :
    Except PatchError MemoryLayer := do
  let name ← resolve path
  let parent := Path.parent name
  if l.hasDir name then fail .isDirectory path
  else if !l.hasDir parent then
    fail .notFound ("parent directory " ++ Text.quoted parent ++ " does not exist")
  else return l.putFile name ⟨data, mode⟩

/-- A path of some names and those of all directories above it, the root excepted. -/
def chain : List (List Char) → List String
  | [] => []
  | s :: ss => String.ofList s :: (chain ss).map fun p => String.ofList s ++ "/" ++ p

def putDir (l : MemoryLayer) (name : String) : MemoryLayer :=
  if l.hasDir name then l else { l with dirs := l.dirs ++ [name] }

def makeDirs (l : MemoryLayer) (path : String) : Except PatchError MemoryLayer := do
  let name ← resolve path
  if (l.file? name).isSome then fail .alreadyExists path
  else return (chain (Path.names name)).foldl putDir l

/-- The directories, in order. -/
def directories (l : MemoryLayer) : List String := l.dirs.mergeSort fun a b => a ≤ b

end MemoryLayer

end GoSplice
