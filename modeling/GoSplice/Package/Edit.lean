import GoSplice.Entries
import GoSplice.Package.Basic
import GoSplice.Snippet
import GoSplice.Source.RepeatedImports
import GoSplice.Source.Splice

/-!
# Changing packages

Every transform is applied to a package that was just loaded, and its changes
are written before the next one sees the package.  A declaration is added at
the end of its file; one that exists already, anywhere in the package, is left
alone or, where it is to be replaced, cut out first with its doc comment.  An
added import goes behind the last import of its file.
-/

namespace GoSplice.Package

/-! ## Writing -/

/-- Whether a name has a directory in front. -/
def hasDirectory (filename : String) : Bool := filename.toList.any fun c => c = '/' || c = '\\'

def setOutput (output : Layer) : Operation Unit :=
  modify fun p => { p with layers := p.layers.withOutput output }

/-- The package behind a write. -/
def wrote (p : Package) (filename path : String) (data : Bytes) : Package :=
  { p with
    contents := Entries.put filename data p.contents
    journal := { p.journal with writes := p.journal.writes ++ [path] } }

/-- Writes a file of the package, which keeps its permission bits. -/
def write (filename : String) (data : Bytes) : Operation Unit := do
  if hasDirectory filename then throw (.nameWithDirectory filename)
  let p ← get
  let path ← p.path filename
  setOutput (← p.layers.output.makeDirs p.directory defaultDirMode)
  let p ← get
  let mode ← p.fileMode path
  setOutput (← p.layers.output.write path data mode)
  modify (wrote · filename path data)

/-- The contents of a new file: a package clause. -/
def newFile (p : Package) : Bytes := bytesOf ("package " ++ p.localName ++ "\n\n")

/-- The contents of a file as they were last loaded or written, or those of a new file. -/
def contentsOrNew (p : Package) (filename : String) : Bytes :=
  (p.contents.lookup filename).getD p.newFile

/-! ## Declarations -/

/-- Adds a text, and a line end, to the end of a file. -/
def append (filename text : String) : Operation Unit := do
  let p ← get
  write filename (p.contentsOrNew filename ++ bytesOf text ++ [LineIndex.lineFeed])

/-- Cuts a declaration out of the file that holds it. -/
def remove (m : Match) : Operation Unit := do
  let p ← get
  write m.file.filename (Splice.cut (p.contentsOrNew m.file.filename) m.declaration)

/-- Whether a declaration is too wide to count as what is to be added: a group
of values with a name that is not listed. -/
def exceeds (a : Addition) (d : Declared) : Option PatchError :=
  match a.subject, d with
  | .value kind names, .value _ existing =>
    if existing.all names.contains then none else some (.ambiguousGroup kind.name existing names)
  | _, _ => none

/-- Whether cutting a declaration would cut more than what is to be replaced: a
group of types. -/
def sharesGroup (a : Addition) (d : Declared) : Option PatchError :=
  match a.subject, d with
  | .type name, .type existing =>
    if existing.length = 1 then none else some (.ambiguousGroup "type" existing [name])
  | _, _ => none

def throwIf (e : Option PatchError) : Operation Unit :=
  match e with
  | some e => throw e
  | none => pure ()

def addDeclaration (a : Addition) : Operation Unit := do
  let p ← get
  match p.files.findSubject? a.subject with
  | none => append a.filename a.text
  | some m =>
    throwIf (exceeds a m.declaration.declared)
    if a.replace then
      throwIf (sharesGroup a m.declaration.declared)
      remove m
      append a.filename a.text

/-! ## Imports -/

/-- An import as source text. -/
def importText (a : ImportAddition) : Bytes :=
  bytesOf ((if a.name.isEmpty then "" else a.name ++ " ") ++ "\"" ++ a.path ++ "\"")

/-- The contents of a file with an import added. -/
def withImport (p : Package) (a : ImportAddition) : Except PatchError Bytes :=
  let text := importText a
  match p.files.file? a.filename with
  | some f =>
    match Splice.lastImport? f with
    | some (_, some close) => .ok (Splice.importInside f.source close text)
    | some (stop, none) => .ok (Splice.importBelow f.source stop text)
    | none =>
      let source := p.contentsOrNew a.filename
      let clauseLine := min (Splice.lineEnd source f.clauseEnd) source.length
      .ok (Splice.importAfterClause source clauseLine text)
  | none =>
    let source := p.contentsOrNew a.filename
    match Splice.packageLineEnd? 0 true source with
    | some pos => .ok (Splice.importAfterClause source pos text)
    | none => .error (.noPackageLine a.filename)

def addImport (a : ImportAddition) : Operation Unit := do
  write a.filename (← (← get).withImport a)

/-! ## Passes over files -/

/-- The files of some names, each once; without names all files. -/
def selected (p : Package) (filenames : Option (List String)) : List SourceFile :=
  match filenames with
  | none => p.files
  | some names => names.eraseDups.filterMap p.files.file?

def dedupFile (f : SourceFile) : Operation Unit := do
  let out := f.withoutRepeatedImports
  if out ≠ f.source then write f.filename out

def dedupImports (filenames : Option (List String)) : Operation Unit := do
  ((← get).selected filenames).forM dedupFile

/-- The names of the files that a pass of the formatter takes. -/
def formatted (p : Package) (filenames : Option (List String)) : List String :=
  let names := p.contents.map (·.1)
  match filenames with
  | none => names.mergeSort fun a b => a ≤ b
  | some listed => listed.eraseDups.filter names.contains

/-- Runs the formatter on some bytes. -/
def runFormatter (filename : String) (source : Bytes) : Operation Bytes := do
  let p ← get
  let run : FormatRun := ⟨p.settings.formatter, p.settings.timeout, source⟩
  modify fun p => { p with journal := { p.journal with runs := p.journal.runs ++ [run] } }
  Formatter.outcome filename run (p.formatter p.journal.runs.length run)

def formatFile (filename : String) : Operation Unit := do
  let source := (← get).contentsOrNew filename
  let out ← runFormatter filename source
  if out ≠ source then write filename out

def format (filenames : Option (List String)) : Operation Unit := do
  ((← get).formatted filenames).forM formatFile

/-! ## Transforms -/

/-- Applies a transform to the package as it is. -/
def applyLoaded : Transform → Operation Unit
  | .addImport a => addImport a
  | .add a => addDeclaration a
  | .dedupImports filenames => dedupImports filenames
  | .format filenames => format filenames

/-- Loads the package and applies a transform. -/
def applyTransform (t : Transform) : Operation Unit := do
  load
  applyLoaded t

/-- An error with the place of the transform that met it. -/
def located (t : Transform) (index total : Nat) (e : PatchError) : PatchError :=
  if e.isLocated then .transform t.kind (t.filename?.getD "") index total e else e

/-- Applies transforms in order, up to the first that fails.  `index` is the place of the first. -/
def applyFrom (total : Nat) : Nat → List Transform → Operation Unit
  | _, [] => pure ()
  | index, t :: ts => do
    tryCatch (applyTransform t) fun e => throw (located t index total e)
    applyFrom total (index + 1) ts

/-- Applies transforms in order.  Those before one that fails stay applied. -/
def applyTransforms (ts : List Transform) : Operation Unit := applyFrom ts.length 0 ts

end GoSplice.Package
