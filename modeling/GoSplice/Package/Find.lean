import GoSplice.Package.Basic
import GoSplice.Text.Similar
import GoSplice.TypeName

/-!
# Finding types

The declaration of a type in a package, found by its name, or, in a loose
search, by the name in another case or by its spelling in file names.  If
nothing is found the error suggests similar names.
-/

namespace GoSplice

/-- A type and the declaration that declares it. -/
structure TypeInfo where
  name : String
  found : Match

namespace TypeInfo

/-- Where the declaration begins, without its doc comment. -/
def position (t : TypeInfo) : Position := t.found.file.lines.position t.found.declaration.start

/-- The source of the declaration with its doc comment. -/
def source (t : TypeInfo) : Bytes :=
  slice t.found.file.source t.found.declaration.spliceStart t.found.declaration.stop

/-- The source of the declaration without its doc comment. -/
def bareSource (t : TypeInfo) : Bytes :=
  slice t.found.file.source t.found.declaration.start t.found.declaration.stop

end TypeInfo

namespace Package

/-- The declaration of a type of that name. -/
def typeInfo? (p : Package) (name : String) : Option TypeInfo :=
  (p.files.findSubject? (.type name)).map (⟨name, ·⟩)

/-- Loads the package and finds a type by its name. -/
def findType (name : String) : Operation TypeInfo := do
  load
  let p ← get
  match p.typeInfo? name with
  | some info => return info
  | none => throw (.notFound name (Similar.suggestions name p.files.typeNames))

/-- A search text without the ending of source files. -/
def searchName (search : String) : String :=
  if isSourceName search then
    String.ofList (search.toList.take (search.toList.length - sourceSuffix.length))
  else search

/-- The ways in which a name can match a search text, the closest first. -/
def levels (separator wanted : String) : List (String → Bool) :=
  [(· = wanted), (Text.lower · = Text.lower wanted),
    (TypeName.spell · separator = Text.lower wanted)]

/-- Loads the package and finds a type that matches a search text: the first
name in order that matches most closely. -/
def findTypeLoose (search : String) : Operation TypeInfo := do
  load
  let p ← get
  let wanted := searchName search
  let names := p.files.typeNames
  match (levels p.settings.separator wanted).findSome? (names.find? ·) with
  | some name =>
    match p.typeInfo? name with
    | some info => return info
    | none => throw (.notFound search [])
  | none => throw (.notFound search (Similar.suggestions wanted names))

end Package

end GoSplice
