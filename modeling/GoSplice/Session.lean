import GoSplice.Command
import GoSplice.Console
import GoSplice.Diff
import GoSplice.Module
import GoSplice.Package.Edit
import GoSplice.Package.Find

/-!
# Running commands

A command runs in a session: a disk, a working directory, the variables of the
environment and a formatter.  It leaves a changed disk, prints some text and
ends with a status:

    0   the command did what it should
    1   it failed; a message says why, unless the failure is one of its
        arguments, which `failure` holds
    2   the words spell no command, or name a source that is no file
-/

namespace GoSplice

structure Session where
  /-- All of the disk. -/
  disk : DiskTree
  /-- The names that lead to the working directory. -/
  workingDir : List String
  environment : List (String × String)
  formatter : Formatter

/-- What a command leaves behind. -/
structure Outcome where
  status : Nat
  output : String
  /-- An error that no message was printed for. -/
  failure : Option PatchError
  disk : DiskTree
  runs : List FormatRun

/-- An outcome with what a package did to the disk. -/
def Outcome.behind (o : Outcome) (p : Package) : Outcome :=
  let disk := match p.layers.output with
    | .disk l => l.tree
    | _ => o.disk
  { o with disk, runs := p.journal.runs }

namespace Session

/-! ## Files of the working directory -/

/-- The names that a path leads to, behind those walked so far; every directory
on the way must exist. -/
def walk? (disk : DiskTree) : List String → List (List Char) → Option (List String)
  | walked, [] => some walked
  | walked, s :: ss =>
    if !disk.isDirAt walked then none
    else if s = [] ∨ s = ['.'] then walk? disk walked ss
    else if s = Path.dotDot then walk? disk walked.dropLast ss
    else walk? disk (walked ++ [String.ofList s]) ss

/-- The contents of the file that a path names. -/
def file? (w : Session) (path : String) : Option Bytes := do
  let start := if path.toList.head? = some '/' then [] else w.workingDir
  let names ← walk? w.disk start (Path.segments path.toList)
  (w.disk.read names).toOption

/-! ## Sources -/

/-- A source of transforms: a path and the contents of its file. -/
structure Source where
  path : String
  data : Bytes

/-- The last name of a path, without regard to slashes behind it. -/
def lastName (path : String) : List Char := (Path.names path).getLast?.getD []

/-- The file that a snippet is written to: its name up to the first point. -/
def defaultTarget (path : String) : String :=
  String.ofList ((lastName path).takeWhile (· ≠ '.')) ++ ".go"

/-- Whether a path names a list of transforms. -/
def isList (path : String) : Bool :=
  let suffix := ".json".toList
  suffix.isSuffixOf (lastName path) && suffix.length < (lastName path).length

/-- The transforms of a snippet. -/
def snippetTransforms (s : Source) (file : Option String) (replace : Bool) :
    Except PatchError (List Transform) :=
  match Utf8.decode? s.data with
  | none => .error .undecodable
  | some text => Snippet.parseText (file.getD (defaultTarget s.path)) (String.ofList text) replace

/-- The transforms of a source: a list, or those of a snippet. -/
def sourceTransforms (s : Source) (file : Option String) (replace : Bool) :
    Except PatchError (List Transform) :=
  if isList s.path then (Transform.listOfBytes s.data).orThrow
  else snippetTransforms s file replace

/-- The transforms of all sources and the passes that close an application, over
all files that are added to. -/
def allTransforms (sources : List Source) (o : ApplyOptions) :
    Except PatchError (List Transform) := do
  let groups ← sources.mapM (sourceTransforms · o.file o.replace)
  let touched := (groups.flatten.filterMap Transform.filename?).eraseDups
  return groups.flatten ++ .dedupImports (some touched) ::
    if o.noFormat then [] else [.format (some touched)]

/-! ## Outcomes -/

/-- The end of a command that leaves the disk alone. -/
def finish (w : Session) (status : Nat) (output : String) : Outcome :=
  ⟨status, output, none, w.disk, []⟩

/-- The end of a command that meets an error. -/
def failWith (w : Session) (e : PatchError) : Outcome :=
  if e.isLocated then w.finish 1 (Console.message ("Error: " ++ e.message))
  else ⟨1, "", some e, w.disk, []⟩

/-! ## Commands -/

/-- The layers of an application: the module's directory, and for a dry run a
layer in memory above it. -/
def layers (w : Session) (m : WorkingModule) (dryRun : Bool) : Except PatchError Layers := do
  let disk := Layer.disk ⟨w.disk, m.root⟩
  if dryRun then return .overlay disk (.memory (← MemoryLayer.empty.makeDirs m.packageDir))
  else return .shared disk

/-- The package of a working module. -/
def openPackage (w : Session) (m : WorkingModule) (dryRun : Bool) : Except PatchError Package := do
  let layers ← w.layers m dryRun
  let settings ← Settings.ofEnvironment w.environment
  Package.create layers m.modulePath m.packageDir settings w.formatter

/-- The text of a dry run: a diff for each file that would change. -/
def diffText (diffs : List (String × String)) : String :=
  if diffs.isEmpty then Console.message "No changes."
  else String.join (diffs.map fun (path, text) =>
    Console.message ("### " ++ path) ++ Console.source text)

/-- What is printed of a package whose transforms were applied. -/
def report (m : WorkingModule) (p : Package) (count : Nat) (dryRun : Bool) :
    Except PatchError String := do
  let line := Console.message ("Applied " ++ toString count ++ " transform(s) to " ++ m.packageDir)
  if dryRun then
    return line ++ diffText (← p.layers.input.diff p.layers.output [m.packageDir])
  else return line

def apply (w : Session) (sources : List Source) (o : ApplyOptions) : Outcome :=
  let prepared : Except PatchError (WorkingModule × Package × List Transform) := do
    let m ← WorkingModule.find w.disk w.workingDir o.package
    let p ← w.openPackage m o.dryRun
    return (m, p, ← allTransforms sources o)
  match prepared with
  | .error (.validation issues) =>
    w.finish 1 (Console.message ("Error: " ++ PatchError.message (.validation issues)))
  | .error e => w.failWith e
  | .ok (m, p, ts) =>
    match (Package.applyTransforms ts).run.run p with
    | (.error e, p) => (w.failWith e).behind p
    | (.ok _, p) =>
      match report m p ts.length o.dryRun with
      | .error e => Outcome.behind ⟨1, "", some e, w.disk, []⟩ p
      | .ok text => (w.finish 0 text).behind p

def transforms (w : Session) (source : Source) (file : Option String) : Outcome :=
  match snippetTransforms source file false with
  | .error e => w.failWith e
  | .ok ts => w.finish 0 (Json.text .indented (Transform.listToJson ts) ++ "\n")

/-- What is printed of a type that was found. -/
def infoText (t : TypeInfo) : String :=
  Console.message (t.name ++ " declared in " ++ t.found.file.filename ++ ":" ++
    toString (t.position.row + 1)) ++ Console.source (textOf t.source)

def findType (w : Session) (name package : String) (loose : Bool) : Outcome :=
  let search := if loose then Package.findTypeLoose name else Package.findType name
  let found : Except PatchError TypeInfo := do
    let m ← WorkingModule.find w.disk w.workingDir package
    let p ← w.openPackage m false
    (search.run.run p).1
  match found with
  | .ok info => w.finish 0 (infoText info)
  | .error (.notFound name suggestions) =>
    w.finish 1 (Console.message ("Type " ++ PatchError.message (.notFound name suggestions)))
  | .error e => w.failWith e

/-- The end of a command that was not spelled right. -/
def misused (w : Session) : Outcome := w.finish 2 ""

/-- Runs the command that some words spell. -/
def run (w : Session) (words : List String) : Outcome :=
  match Command.ofWords? words with
  | none => w.misused
  | some (.apply paths o) =>
    match paths.mapM fun path => (w.file? path).map (Source.mk path) with
    | none => w.misused
    | some sources => w.apply sources o
  | some (.transforms path file) =>
    match w.file? path with
    | none => w.misused
    | some data => w.transforms ⟨path, data⟩ file
  | some (.findType name package loose) => w.findType name package loose

end Session

end GoSplice
