import GoSplice.Formatter
import GoSplice.Layer
import GoSplice.Package.Members
import GoSplice.Settings

/-!
# Packages

A package is a directory seen through two layers: what the output layer has
hides what the input layer has under the same path, and all writes go to the
output layer.  An operation that fails leaves behind what it did before it
failed.
-/

namespace GoSplice

/-! ## Layers -/

/-- An input and an output layer, or one layer that is both. -/
inductive Layers where
  | shared (l : Layer)
  | overlay (input output : Layer)

namespace Layers

def input : Layers → Layer
  | .shared l => l
  | .overlay i _ => i

def output : Layers → Layer
  | .shared l => l
  | .overlay _ o => o

def withOutput (l : Layers) (output : Layer) : Layers :=
  match l with
  | .shared _ => .shared output
  | .overlay i _ => .overlay i output

end Layers

/-! ## Packages and operations -/

/-- What a package did to the world outside: the paths written and the runs of
the formatter, in order. -/
structure Journal where
  writes : List String
  runs : List FormatRun

structure Package where
  layers : Layers
  modulePath : String
  /-- The layer path of the package's directory. -/
  directory : String
  settings : Settings
  formatter : Formatter
  /-- The files as they were last loaded. -/
  files : Members
  /-- The contents of files as they were last loaded or written. -/
  contents : List (String × Bytes)
  /-- The package name of new files. -/
  localName : String
  journal : Journal

/-- An operation on a package. -/
abbrev Operation (α : Type) := ExceptT PatchError (StateM Package) α

namespace Package

/-- A package that is not loaded yet. -/
def create (layers : Layers) (modulePath directory : String) (settings : Settings)
    (formatter : Formatter) : Except PatchError Package := do
  if !layers.output.isWritable then .error .readOnlyOutput
  else
    let directory ← (Path.clean directory).mapError .escape
    return {
      layers, modulePath, directory, settings, formatter
      files := [], contents := [], localName := "", journal := ⟨[], []⟩ }

/-- How a package shows itself. -/
def description (p : Package) : String :=
  "Package(module_path=" ++ Text.quoted p.modulePath ++
    ", sub_dir=" ++ Text.quoted p.directory ++ ")"

/-! ## Reading -/

/-- What source files end with. -/
def sourceSuffix : List Char := ['.', 'g', 'o']

def isSourceName (name : String) : Bool := sourceSuffix.isSuffixOf name.toList

/-- The layer path of a file of the package. -/
def path (p : Package) (filename : String) : Except PatchError String :=
  (Path.clean (Path.concat p.directory filename)).mapError .escape

/-- The names of the source files in a layer, none if the directory is missing. -/
def namesIn (p : Package) (l : Layer) : Except PatchError (List String) :=
  return ((← ifFound (l.list p.directory)).getD []).filter isSourceName

/-- The names of the source files in both layers, in order. -/
def fileNames (p : Package) : Except PatchError (List String) := do
  let written ← p.namesIn p.layers.output
  let given ← p.namesIn p.layers.input
  return (written ++ given).eraseDups.mergeSort fun a b => a ≤ b

/-- The contents of a file: those in the output layer, if it is there. -/
def read (p : Package) (filename : String) : Except PatchError Bytes := do
  let path ← p.path filename
  match ← ifFound (p.layers.output.read path) with
  | some bs => return bs
  | none => p.layers.input.read path

/-- The permission bits of the file at a path: those it has, or those of a new file. -/
def fileMode (p : Package) (path : String) : Except PatchError Nat := do
  match ← p.layers.output.mode? path with
  | some m => return m
  | none => return (← p.layers.input.mode? path).getD defaultFileMode

/-! ## Names of packages -/

def isNameStart (c : Char) : Bool := c.isAlpha || c = '_'

/-- Whether a text is a letter or underscore and then letters, digits and
underscores; one line feed may follow. -/
def isName (s : List Char) : Bool :=
  match s with
  | [] => false
  | c :: r =>
    let tail := r.dropWhile fun d => isNameStart d || d.isDigit
    isNameStart c && (tail.isEmpty || tail = ['\n'])

/-- Whether the last part of a module path is a major version. -/
def isMajorVersion (s : List Char) : Bool :=
  match s with
  | 'v' :: r =>
    let tail := r.dropWhile Char.isDigit
    (r.head?.map Char.isDigit).getD false && (tail.isEmpty || tail = ['\n'])
  | _ => false

/-- The last part of a module path that names it, empty if there is none. -/
def moduleName (modulePath : String) : List Char :=
  match ((Path.segments modulePath.toList).filter (· ≠ [])).reverse with
  | [] => []
  | [s] => s
  | s :: t :: _ => if isMajorVersion s then t else s

/-- The name of a package without files. -/
def nameOfPath (p : Package) : String :=
  let base := if p.directory = "." then [] else Path.baseChars p.directory.toList
  let name := if base.isEmpty then moduleName p.modulePath else base
  String.ofList (name.filter (· ≠ '-'))

/-- What the names of external test packages end with. -/
def testSuffix : List Char := "_test".toList

/-- The name of the package whose files have some package names. -/
def nameOfClauses (names : List String) : Except PatchError String :=
  match names with
  | [name] => .ok name
  | _ =>
    match names.filter fun n => !testSuffix.isSuffixOf n.toList with
    | [] => .ok ""
    | [name] => .ok name
    | _ => .error (.ambiguousPackageName names)

def deriveName (p : Package) (names : List String) : Except PatchError String := do
  let name ← if names.isEmpty then .ok p.nameOfPath else nameOfClauses names
  if isName name.toList then return name else .error (.invalidPackageName name)

/-! ## Loading -/

/-- Reads and parses the files of some names. -/
def parseFiles (p : Package) : List String → Except PatchError Members
  | [] => .ok []
  | name :: names => do
    let source ← p.read name
    let file ← SourceFile.parse name source true
    let files ← p.parseFiles names
    return file :: files

/-- The package with files in the place of those it had. -/
def withFiles (p : Package) (files : Members) : Package :=
  { p with files, contents := files.map fun f => (f.filename, f.source) }

/-- Reads and parses all files, and derives the package name from them. -/
def load : Operation Unit := do
  let p ← get
  let names ← p.fileNames
  let files ← p.parseFiles names
  set (p.withFiles files)
  let name ← p.deriveName (files.map (·.packageName)).eraseDups
  modify fun p => { p with localName := name }

end Package

end GoSplice
