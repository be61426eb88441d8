import GoSplice.Json.Reader
import GoSplice.Json.Printer
import GoSplice.Source.Declaration
import GoSplice.Validation

/-!
# Transforms

A transform is one change to a package: an import or a declaration to add to a
file, or a pass over files.  Lists of transforms are written as JSON, one
object for each transform, whose member `kind` tells which it is:

    listOfJson v = ok ts   the transforms of a value
    listToJson ts          their value, with all members
-/

namespace GoSplice

open Json (Value)

/-- What an added declaration declares. -/
inductive Subject where
  /-- The receiver is empty for functions, else `T` or `*T`. -/
  | func (receiver name : String)
  | value (kind : ValueKind) (names : List String)
  | type (name : String)
  deriving Repr, DecidableEq

/-- A declaration to add to a file. -/
structure Addition where
  filename : String
  subject : Subject
  text : String
  /-- Whether it takes the place of a declaration that exists. -/
  replace : Bool
  deriving Repr, DecidableEq

/-- An import to add to a file. -/
structure ImportAddition where
  filename : String
  /-- The local name, empty for none. -/
  name : String
  path : String
  deriving Repr, DecidableEq

inductive Transform where
  | addImport (a : ImportAddition)
  | add (a : Addition)
  /-- Removes imports that repeat a path, in all files or in those listed. -/
  | dedupImports (filenames : Option (List String))
  /-- Runs the formatter, on all files or on those listed. -/
  | format (filenames : Option (List String))
  deriving Repr, DecidableEq

namespace Transform

/-! ## Parts -/

/-- The name of the kind of a transform. -/
def kind : Transform → String
  | .addImport _ => "import"
  | .add a =>
    match a.subject with
    | .func .. => "add_func"
    | .value .const _ => "add_const"
    | .value .var _ => "add_var"
    | .type _ => "add_type"
  | .dedupImports _ => "dedup_imports"
  | .format _ => "format"

/-- The file that a transform adds to. -/
def filename? : Transform → Option String
  | .addImport a => some a.filename
  | .add a => some a.filename
  | .dedupImports _ | .format _ => none

/-- The transform that replaces what it would else leave alone. -/
def replacing : Transform → Transform
  | .add a => .add { a with replace := true }
  | t => t

/-! ## JSON -/

def stringsValue (ss : List String) : Value := .array (ss.map .string)

def listValue : Option (List String) → Value
  | some ss => stringsValue ss
  | none => .null

/-- The members of a declaration that tell what it declares. -/
def subjectMembers : Subject → List (String × Value)
  | .func receiver name => [("name", .string name), ("receiver_type", .string receiver)]
  | .value _ names => [("name_list", stringsValue names)]
  | .type name => [("name", .string name)]

/-- The members behind the kind. -/
def members : Transform → List (String × Value)
  | .addImport a =>
    [("filename", .string a.filename), ("name", .string a.name), ("path", .string a.path)]
  | .add a =>
    ("filename", .string a.filename) :: subjectMembers a.subject ++
      [("text", .string a.text), ("replace", .bool a.replace)]
  | .dedupImports filenames | .format filenames => [("filename_list", listValue filenames)]

def toJson (t : Transform) : Value := .object (("kind", .string t.kind) :: t.members)

def listToJson (ts : List Transform) : Value := .array (ts.map toJson)

/-! ## Validation -/

/-- An import from the members of an object at `path`. -/
def importOfMembers (ms : List (String × Value)) (path : List Step) : Checked Transform :=
  (fun filename name importPath => .addImport ⟨filename, name, importPath⟩) <$>
    Checked.required ms path "filename" Checked.string
    <*> Checked.optional ms path "name" "" Checked.string
    <*> Checked.required ms path "path" Checked.string

/-- A declaration from the members of an object at `path`. -/
def additionOfMembers (ms : List (String × Value)) (path : List Step) (subject : Checked Subject) :
    Checked Transform :=
  (fun filename subject text replace => .add ⟨filename, subject, text, replace⟩) <$>
    Checked.required ms path "filename" Checked.string
    <*> subject
    <*> Checked.required ms path "text" Checked.string
    <*> Checked.optional ms path "replace" false Checked.bool

/-- The subject of a function. -/
def funcOfMembers (ms : List (String × Value)) (path : List Step) : Checked Subject :=
  (fun name receiver => .func receiver name) <$>
    Checked.required ms path "name" Checked.string
    <*> Checked.optional ms path "receiver_type" "" Checked.string

def filenamesOfMembers (ms : List (String × Value)) (path : List Step) :
    Checked (Option (List String)) :=
  Checked.optional ms path "filename_list" none Checked.optionalStrings

/-- The transform of a kind; none if there is no such kind. -/
def ofMembers? (ms : List (String × Value)) (kind : String) (path : List Step) :
    Option (Checked Transform) :=
  let addition (subject : Checked Subject) := some (additionOfMembers ms path subject)
  let names := Checked.required ms path "name_list" Checked.strings
  match kind with
  | "import" => some (importOfMembers ms path)
  | "add_func" => addition (funcOfMembers ms path)
  | "add_const" => addition (.value .const <$> names)
  | "add_var" => addition (.value .var <$> names)
  | "add_type" => addition (.type <$> Checked.required ms path "name" Checked.string)
  | "dedup_imports" => some (.dedupImports <$> filenamesOfMembers ms path)
  | "format" => some (.format <$> filenamesOfMembers ms path)
  | _ => none

/-- The transform of a value at `path`. -/
def ofJson (path : List Step) : Value → Checked Transform
  | .object ms =>
    match Json.member? ms "kind" with
    | none => Checked.fail .tagMissing path
    | some (.string kind) =>
      (ofMembers? ms kind (path ++ [.field kind])).getD (Checked.fail .tagInvalid path)
    | some _ => Checked.fail .tagInvalid path
  | _ => Checked.fail .objectType path

/-- The transforms of a value. -/
def listOfJson : Value → Checked (List Transform)
  | .array items => Checked.each (fun i => ofJson [.index i]) 0 items
  | _ => Checked.fail .listType []

/-- The transforms that a JSON text spells. -/
def listOfBytes (bs : Bytes) : Checked (List Transform) :=
  match Json.read? bs with
  | some v => listOfJson v
  | none => Checked.fail .invalidJson []

end Transform

end GoSplice
