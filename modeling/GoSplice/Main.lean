import GoSplice.Session

/-!
# The program

`main` reads the parts of the disk that its command looks at into a tree, runs
the command on that tree, prints what it prints and writes the files that
changed.  It starts no other program, so a formatter counts as missing.
-/

namespace GoSplice.Program

/-- The variables that settings come from. -/
def variableNames : List String :=
  ["SRCPATCH_GOFMT", "SRCPATCH_FORMAT_TIMEOUT", "SRCPATCH_FILE_SEPARATOR"]

def environment : IO (List (String × String)) := do
  let values ← variableNames.mapM fun name => return (name, ← IO.getEnv name)
  return values.filterMap fun (name, value) => value.map (name, ·)

/-- The names of a path seen from a directory. -/
def namesFrom (dir : List String) (path : String) : List String :=
  let here := DiskLayer.absolute dir
  (Path.names (Path.normalize (Path.concat here path))).map String.ofList

/-- The paths above a path and the path itself, outermost first. -/
def prefixes (names : List String) : List (List String) :=
  (List.range (names.length + 1)).map names.take

/-- A tree with a directory, or as it was where that cannot be. -/
def withDir (tree : DiskTree) (names : List String) : DiskTree :=
  (tree.makeDirs names defaultDirMode).toOption.getD tree

/-- A tree with a file, or as it was where that cannot be. -/
def withFile (tree : DiskTree) (names : List String) (data : Bytes) : DiskTree :=
  ((withDir tree names.dropLast).write names data defaultFileMode).toOption.getD tree

/-- A tree with what lies on the disk under a path: a directory or a file. -/
def withPath (tree : DiskTree) (names : List String) : IO DiskTree := do
  let path := (← IO.currentDir) / DiskLayer.absolute names
  if ← path.isDir then return withDir tree names
  else if ← path.pathExists then
    return withFile tree names (← IO.FS.readBinFile path).toList
  else return tree

/-- A tree with all that lies in a directory of the disk, if it is one. -/
def withEntries (tree : DiskTree) (names : List String) : IO DiskTree := do
  let path := (← IO.currentDir) / DiskLayer.absolute names
  if ← path.isDir then
    (← path.readDir).toList.foldlM (fun tree e => withPath tree (names ++ [e.fileName])) tree
  else return tree

/-- The paths that a command names, and the package directory among them. -/
def namedPaths (command : Command) : List String × Option String :=
  match command with
  | .apply sources o => (sources, some o.package)
  | .transforms snippet _ => ([snippet], none)
  | .findType _ package _ => ([], some package)

/-- The part of the disk that a command looks at. -/
def readTree (dir : List String) (command : Command) : IO DiskTree := do
  let (sources, package) := namedPaths command
  let mut tree : DiskTree := .dir defaultDirMode []
  for names in prefixes dir do
    tree ← withPath tree names
    tree ← withPath tree (names ++ [ModuleFile.fileName])
  for source in sources do
    for names in prefixes (namesFrom dir source) do tree ← withPath tree names
  if let some package := package then
    let names := namesFrom dir package
    for above in prefixes names do tree ← withPath tree above
    tree ← withEntries tree names
  return tree

/-- Writes the files of a tree that differ from those of another. -/
def writeChanges (before after : DiskTree) : IO Unit := do
  let old := before.files []
  for (names, f) in after.files [] do
    if (old.lookup names).map (·.data) ≠ some f.data then
      IO.FS.createDirAll (DiskLayer.absolute names.dropLast)
      IO.FS.writeBinFile (DiskLayer.absolute names) ⟨f.data.toArray⟩

end GoSplice.Program

open GoSplice Program in
/-- Runs the command that the arguments spell. -/
def main (arguments : List String) : IO UInt32 := do
  let workingDir := (Path.names (← IO.currentDir).toString).map String.ofList
  let disk ← match Command.ofWords? arguments with
    | some command => readTree workingDir command
    | none => pure (.dir defaultDirMode [])
  let session : Session := {
    disk, workingDir, environment := ← environment, formatter := fun _ _ => .missing }
  let outcome := session.run arguments
  IO.print outcome.output
  if let some e := outcome.failure then IO.eprintln e.message
  writeChanges disk outcome.disk
  return UInt32.ofNat outcome.status
