import GoSplice.Layer
import GoSplice.Text.Blank

/-!
# Modules

The module of a directory is the nearest directory at or above it that holds a
file `go.mod`.  The directive `module` of that file gives the module's path.
-/

namespace GoSplice

namespace ModuleFile

def fileName : String := "go.mod"

/-! ## The directive -/

def keyword : List Char := ['m', 'o', 'd', 'u', 'l', 'e']

/-- The text up to a quote that ends it; none if there is no such quote or no text. -/
def quoted? (quote : Char) (s : List Char) : Option (List Char) :=
  let text := s.takeWhile (· ≠ quote)
  if text.isEmpty || text.length = s.length then none else some text

/-- The value at the start of a text: between quotes, or up to a blank. -/
def value (s : List Char) : List Char :=
  let word := s.takeWhile fun c => !Text.isBlank c
  match s with
  | '"' :: r => (quoted? '"' r).getD word
  | '\x60' :: r => (quoted? '\x60' r).getD word
  | _ => word

/-- The value of a directive that begins a text, blank space before it allowed. -/
def directive? (s : List Char) : Option (List Char) :=
  let s := s.dropWhile Text.isBlank
  if keyword.isPrefixOf s then
    let r := s.drop keyword.length
    let v := value (r.dropWhile Text.isBlank)
    if (r.head?.map Text.isBlank).getD false && !v.isEmpty then some v else none
  else none

/-- The value of the first directive that begins a line. -/
def firstDirective? : Bool → List Char → Option (List Char)
  | _, [] => none
  | lineStart, c :: r =>
    (if lineStart then directive? (c :: r) else none).or (firstDirective? (c = '\n') r)

/-- The module path that the text of a module file gives. -/
def modulePath? (text : List Char) : Option String := (firstDirective? true text).map String.ofList

end ModuleFile

/-! ## The module of a directory -/

namespace Layer

/-- The nearest of some directories, innermost first, that holds a module file. -/
def nearestModule (l : Layer) (start : String) : List String → Except PatchError String
  | [] => .error (.noModuleFile start)
  | d :: above => do
    if !(← l.isDir d) then .error (.unopenedDirectory d)
    else if (← l.list d).contains ModuleFile.fileName then return d
    else nearestModule l start above

/-- A layer path and all directories above it, innermost first. -/
def upward (name : String) : List String := (MemoryLayer.chain (Path.names name)).reverse ++ ["."]

/-- The directory of the module to which a directory belongs. -/
def moduleDir (l : Layer) (start : String) : Except PatchError String := do
  let name ← (Path.clean start).mapError .escape
  l.nearestModule start (upward name)

/-- The path of the module in a directory. -/
def modulePath (l : Layer) (dir : String) : Except PatchError String := do
  let path := Path.concat dir ModuleFile.fileName
  match Utf8.decode? (← l.read path) with
  | none => .error .undecodable
  | some text =>
    match ModuleFile.modulePath? text with
    | some p => return p
    | none => .error (.noModuleDirective path)

end Layer

/-! ## Working directories -/

/-- A package directory and the module that it belongs to. -/
structure WorkingModule where
  /-- The names that lead to the module's directory. -/
  root : List String
  /-- The package directory below the module's. -/
  packageDir : String
  modulePath : String
  deriving Repr, DecidableEq

/-- The directory `package`, seen from a working directory, in the module of the
working directory.  `disk` is all of the disk. -/
def WorkingModule.find (disk : DiskTree) (workingDir : List String) (package : String) :
    Except PatchError WorkingModule := do
  let layer := Layer.disk ⟨disk, []⟩
  let here := if workingDir.isEmpty then "." else String.intercalate "/" workingDir
  let dir ← layer.moduleDir here
  let modulePath ← layer.modulePath dir
  let target ← (Path.clean (Path.concat here package)).mapError .escape
  let packageDir := Path.relative target dir
  if Path.climbs packageDir.toList then .error (.outsideModule package dir)
  else return ⟨(Path.names dir).map String.ofList, packageDir, modulePath⟩

end GoSplice
