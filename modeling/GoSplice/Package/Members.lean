import GoSplice.Source.File
import GoSplice.Transform

/-!
# Finding declarations

A look-up goes through the files in the order of their names, and through each
file from top to bottom, and gives the first declaration that declares what is
sought.  Of constants and variables a group is found if it shares a name with
those sought.
-/

namespace GoSplice

/-- A declaration and the file that holds it. -/
structure Match where
  file : SourceFile
  declaration : Declaration

/-- The files of a package, in the order of their names. -/
abbrev Members := List SourceFile

namespace Members

/-- The first declaration with a property. -/
def find? (files : Members) (p : Declared → Bool) : Option Match :=
  files.findSome? fun f => (f.declarations.find? (p ·.declared)).map (⟨f, ·⟩)

end Members

/-- Whether a declaration declares what a subject names. -/
def Subject.isDeclaredBy (s : Subject) (d : Declared) : Bool :=
  match s, d with
  | .func receiver name, .func name' receiver' _ => receiver' == receiver && name' == name
  | .value kind names, .value kind' names' => kind' == kind && names'.any names.contains
  | .type name, .type names => names.contains name
  | _, _ => false

namespace Members

/-- The declaration that a subject names. -/
def findSubject? (files : Members) (s : Subject) : Option Match := files.find? s.isDeclaredBy

/-- The names that a declaration of types declares. -/
def declaredTypes : Declared → List String
  | .type names => names
  | _ => []

/-- The names of all types, in order and each once. -/
def typeNames (files : Members) : List String :=
  ((files.flatMap fun f => f.declarations.flatMap (declaredTypes ·.declared)).eraseDups).mergeSort
    fun a b => a ≤ b

/-- The file of a name. -/
def file? (files : Members) (name : String) : Option SourceFile :=
  List.find? (·.filename = name) files

end Members

end GoSplice
