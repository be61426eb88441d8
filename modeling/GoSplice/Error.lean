import GoSplice.Path
import GoSplice.Syntax.Fault
import GoSplice.Source.LineIndex

/-!
# Errors

Every way in which an operation can fail, as a cause.  The wording of all of
them is in `message`.
-/

namespace GoSplice

/-! ## Syntax errors -/

/-- What makes a source file unreadable. -/
inductive SyntaxProblem where
  | illegalEncoding
  | noPackageClause
  /-- A statement among the declarations; its text. -/
  | statement (token : String)
  /-- The grammar refuses the file at this token. -/
  | unexpected (token : String)
  /-- The grammar misses this mark. -/
  | missing (mark : String)
  /-- A problem known by its description alone. -/
  | described (text : String)
  deriving Repr, DecidableEq

def SyntaxProblem.message : SyntaxProblem → String
  | .illegalEncoding => "illegal UTF-8 encoding"
  | .noPackageClause => "expected 'package' clause"
  | .statement token | .unexpected token =>
    if token.isEmpty then "syntax error" else "syntax error: unexpected " ++ Text.quoted token
  | .missing mark => "expected " ++ Text.quoted mark
  | .described text => text

/-- A problem at a line and column, both counted from one, and at an offset. -/
structure SyntaxError where
  filename : String
  line : Int
  column : Int
  offset : Int
  problem : SyntaxProblem
  deriving Repr, DecidableEq

namespace SyntaxError

/-- The error at an offset of an indexed file. -/
def ofOffset (filename : String) (lines : LineIndex) (offset : Nat) (problem : SyntaxProblem) :
    SyntaxError :=
  let p := lines.position offset
  ⟨filename, p.row + 1, p.column + 1, offset, problem⟩

/-- The error as seen in a file without its first bytes and lines. -/
def shifted (e : SyntaxError) (bytes lines : Int) : SyntaxError :=
  { e with line := max (e.line - lines) 1, offset := max (e.offset - bytes) 0 }

def message (e : SyntaxError) : String :=
  e.filename ++ ":" ++ toString e.line ++ ":" ++ toString e.column ++ ": " ++ e.problem.message

end SyntaxError

/-! ## Layer errors -/

inductive LayerProblem where
  | notFound | alreadyExists | isDirectory | notDirectory | denied
  deriving Repr, DecidableEq

/-- What the system says about a problem on disk. -/
def LayerProblem.systemText : LayerProblem → String
  | .notFound => "[Errno 2] No such file or directory"
  | .alreadyExists => "[Errno 17] File exists"
  | .isDirectory => "[Errno 21] Is a directory"
  | .notDirectory => "[Errno 20] Not a directory"
  | .denied => "[Errno 13] Permission denied"

/-- A layer refuses an operation: a layer in memory with a text of its own, a
layer on disk with the path that the system was given. -/
inductive LayerError where
  | memory (problem : LayerProblem) (text : String)
  | disk (problem : LayerProblem) (path : String)
  deriving Repr, DecidableEq

namespace LayerError

def problem : LayerError → LayerProblem
  | .memory p _ | .disk p _ => p

def message : LayerError → String
  | .memory _ text => text
  | .disk p path => p.systemText ++ ": " ++ Text.quoted path

end LayerError

/-! ## Validation -/

/-- A step into a value: a field or an element. -/
inductive Step where
  | field (name : String)
  | index (i : Nat)
  deriving Repr, DecidableEq

inductive IssueKind where
  | invalidJson | listType | objectType | tagMissing | tagInvalid | missing | stringType
  | boolParsing | boolType | tooShort | floatType | floatParsing | notPositive
  deriving Repr, DecidableEq

def IssueKind.message : IssueKind → String
  | .invalidJson => "invalid JSON"
  | .listType => "a list is expected"
  | .objectType => "an object is expected"
  | .tagMissing => "the kind is missing"
  | .tagInvalid => "there is no such kind"
  | .missing => "the field is missing"
  | .stringType => "a string is expected"
  | .boolParsing | .boolType => "a truth value is expected"
  | .tooShort => "the list is too short"
  | .floatType | .floatParsing => "a number is expected"
  | .notPositive => "the number should be greater than 0"

def Step.text : Step → String
  | .field name => name
  | .index i => toString i

/-- A value that does not have the form it should have. -/
structure Issue where
  kind : IssueKind
  path : List Step
  deriving Repr, DecidableEq

/-- Where the value lies, and what is wrong with it. -/
def Issue.message (i : Issue) : String :=
  String.intercalate "." (i.path.map Step.text) ++ (if i.path.isEmpty then "" else ": ") ++
    i.kind.message

/-! ## All errors -/

/-- What can go wrong when a command line is split into words. -/
inductive WordsProblem where
  | openQuotation | openEscape
  deriving Repr, DecidableEq

/-- Why a formatter gives no output. -/
inductive FormatProblem where
  | missingProgram (name : String)
  | timedOut (seconds : String)
  | exited (status : Int)
  | tooShort
  | described (text : String)
  deriving Repr, DecidableEq

def FormatProblem.message : FormatProblem → String
  | .missingProgram name => "formatter " ++ Text.quoted name ++ " not found"
  | .timedOut seconds => "formatter timed out after " ++ seconds ++ "s"
  | .exited status => "formatter exited with status " ++ toString status
  | .tooShort => "formatter returned contents that are too short to be valid"
  | .described text => text

inductive PatchError where
  | sourceSyntax (e : SyntaxError)
  /-- A method of a snippet whose receiver is neither `T` nor `*T`. -/
  | receiver (filename receiver name : String)
  /-- A type declaration of a snippet that does not bind one name. -/
  | typeNames (filename : String) (names : List String)
  | snippet (text : String)
  | unsupported (filename kind : String)
  | ambiguousGroup (kind : String) (existing requested : List String)
  | ambiguousPackageName (names : List String)
  | invalidPackageName (name : String)
  | formatter (filename : String) (problem : FormatProblem) (output : String)
  | notFound (name : String) (suggestions : List String)
  /-- The transform at a position of a batch failed. -/
  | transform (kind filename : String) (index total : Int) (cause : PatchError)
  | readOnlyOutput
  | noPackageLine (filename : String)
  | unopenedDirectory (directory : String)
  | noModuleFile (start : String)
  | noModuleDirective (path : String)
  | outsideModule (package moduleDir : String)
  | general (text : String)
  | layer (e : LayerError)
  | escape (e : Path.Escape)
  | suffix (e : Path.SuffixMismatch)
  | nameWithDirectory (filename : String)
  | nulInPath
  | words (p : WordsProblem)
  | rowOutOfRange (row : Int)
  | offsetOutOfRange (offset : Int)
  /-- An import path literal whose escapes have no meaning. -/
  | importLiteral
  /-- Contents that are not UTF-8 where text is needed. -/
  | undecodable
  | validation (issues : List Issue)
  deriving Repr

namespace PatchError

/-- The wording of an error. -/
def message : PatchError → String
  | .sourceSyntax e => e.message
  | .receiver filename type name =>
    filename ++ ": unexpected receiver type " ++ Text.quoted type ++ " on " ++ name
  | .typeNames filename names =>
    filename ++ ": type declaration must bind exactly 1 name, found " ++ toString names.length ++
      ": " ++ Text.quotedList names
  | .snippet text => text
  | .unsupported filename kind => filename ++ ": unsupported top-level construct: " ++ kind
  | .ambiguousGroup kind existing requested =>
    "name list from transform " ++ kind ++ " block " ++ Text.quotedList requested ++
      " is not a superset of existing block " ++ Text.quotedList existing
  | .ambiguousPackageName names => "multiple package names found: " ++ Text.quotedList names
  | .invalidPackageName name => "derived package name " ++ Text.quoted name ++ " is not valid"
  | .formatter filename problem output =>
    filename ++ ": " ++ problem.message ++
      if output.isEmpty then "" else "; full output: " ++ output
  | .notFound name suggestions =>
    Text.quoted name ++ " not found" ++
      if suggestions.isEmpty then ""
      else " (did you mean " ++ String.intercalate ", " suggestions ++ "?)"
  | .transform kind filename index total cause =>
    "transform " ++ toString (index + 1) ++ " of " ++ toString total ++ " [" ++ kind ++
      (if filename.isEmpty then "" else " (" ++ filename ++ ")") ++ "] failed: " ++ cause.message
  | .readOnlyOutput => "output layer cannot be written, cannot write changes"
  | .noPackageLine filename => "unable to find package line in " ++ Text.quoted filename
  | .unopenedDirectory directory => "failed to open dir " ++ Text.quoted directory
  | .noModuleFile start => "unable to find go.mod at or above " ++ Text.quoted start
  | .noModuleDirective path => "no module directive in " ++ path
  | .outsideModule package moduleDir =>
    "package path " ++ Text.quoted package ++ " is outside of module dir " ++ Text.quoted moduleDir
  | .general text => text
  | .layer e => e.message
  | .escape e => "path " ++ Text.quoted e.path ++ " escapes the filesystem root"
  | .suffix e =>
    "dir " ++ Text.quoted e.directory ++ " does not end with suffix " ++ Text.quoted e.suffix
  | .nameWithDirectory filename =>
    "name " ++ Text.quoted filename ++
      " appears to have a directory, only plain file names are allowed"
  | .nulInPath => "embedded null byte"
  | .words .openQuotation => "No closing quotation"
  | .words .openEscape => "No escaped character"
  | .rowOutOfRange row => "row " ++ toString row ++ " out of range"
  | .offsetOutOfRange offset => "offset " ++ toString offset ++ " out of range"
  | .importLiteral => "an import path has an escape without meaning"
  | .undecodable => "the contents are not UTF-8"
  | .validation issues => String.intercalate "\n" (issues.map Issue.message)

/-- Whether a batch reports the error with the place of the transform that met
it.  Faulty arguments are passed on as they are. -/
def isLocated : PatchError → Bool
  | .escape _ | .suffix _ | .nameWithDirectory _ | .nulInPath | .words _ | .rowOutOfRange _
  | .offsetOutOfRange _ | .importLiteral | .undecodable | .validation _ => false
  | _ => true

end PatchError

end GoSplice
