import GoSplice.Layer.Memory
import GoSplice.Layer.Disk

/-!
# Layers

A layer is a tree of files under slash separated paths: in memory, on disk, or
one that can only be read.  All layers have the same operations.
-/

namespace GoSplice

inductive Layer where
  | memory (l : MemoryLayer)
  | disk (l : DiskLayer)
  /-- A layer without operations that write. -/
  | readOnly (l : MemoryLayer)

namespace Layer

def isWritable : Layer → Bool
  | .memory _ | .disk _ => true
  | .readOnly _ => false

def read : Layer → String → Except PatchError Bytes
  | .memory l | .readOnly l => l.read
  | .disk l => l.read

def list : Layer → String → Except PatchError (List String)
  | .memory l | .readOnly l => l.list
  | .disk l => l.list

def isDir : Layer → String → Except PatchError Bool
  | .memory l | .readOnly l => l.isDir
  | .disk l => l.isDir

def mode? : Layer → String → Except PatchError (Option Nat)
  | .memory l | .readOnly l => l.mode?
  | .disk l => l.mode?

def write (l : Layer) (path : String) (data : Bytes) (mode : Nat) : Except PatchError Layer :=
  match l with
  | .memory l => .memory <$> l.write path data mode
  | .disk l => .disk <$> l.write path data mode
  | .readOnly _ => .error .readOnlyOutput

def makeDirs (l : Layer) (path : String) (mode : Nat) : Except PatchError Layer :=
  match l with
  | .memory l => .memory <$> l.makeDirs path
  | .disk l => .disk <$> l.makeDirs path mode
  | .readOnly _ => .error .readOnlyOutput

end Layer

/-- Whether something was sought and is not there. -/
def PatchError.isNotFound : PatchError → Bool
  | .layer e => e.problem = .notFound
  | _ => false

/-- None where something is not there. -/
def ifFound (r : Except PatchError α) : Except PatchError (Option α) :=
  match r with
  | .ok a => .ok (some a)
  | .error e => if e.isNotFound then .ok none else .error e

end GoSplice
