import GoSplice.Source.File
import GoSplice.Text.LineEnds
import GoSplice.Transform

/-!
# Snippets

A snippet is the text of a source file without a package clause.  It stands for
one transform for each of its imports and declarations, in source order.  A
snippet is read behind a package clause of its own, which positions in errors
do not count.
-/

namespace GoSplice.Snippet

/-- The package clause behind which a snippet is read. -/
def header : String := "package snippet__\n\n"

def headerBytes : Nat := 19

def headerLines : Nat := 2

/-- The text of a declaration with its doc comment, which ends its line. -/
def declarationText (source : Bytes) (d : Declaration) : String :=
  let code := slice source d.start d.stop
  match d.doc with
  | none => textOf code
  | some r =>
    let doc := slice source r.start r.stop
    let gap := if doc.getLast? = some LineIndex.lineFeed then [] else [LineIndex.lineFeed]
    textOf (doc ++ gap ++ code)

/-- The transforms that a declaration stands for. -/
def transformsOf (filename : String) (source : Bytes) (d : Declaration) :
    Except PatchError (List Transform) :=
  let addition (subject : Subject) : List Transform :=
    [.add ⟨filename, subject, declarationText source d, false⟩]
  match d.declared with
  | .imports specs _ => .ok (specs.map fun s => .addImport ⟨filename, s.name, s.path⟩)
  | .func name receiver simple =>
    if simple then .ok (addition (.func receiver name))
    else .error (.receiver filename receiver name)
  | .value kind names => .ok (addition (.value kind names))
  | .type names =>
    match names with
    | [name] => .ok (addition (.type name))
    | _ => .error (.typeNames filename names)
  | .other kind => .error (.unsupported filename kind)

/-- An error in a snippet, without the header that it was read behind. -/
def withoutHeader : PatchError → PatchError
  | .sourceSyntax e => .sourceSyntax (e.shifted headerBytes headerLines)
  | e => e

/-- The transforms that a snippet stands for, all with one target file. -/
def parse (filename snippet : String) : Except PatchError (List Transform) := do
  let source := bytesOf (header ++ snippet)
  let file ← (SourceFile.parse filename source false).mapError withoutHeader
  if 1 < file.clauseCount then .error (.unsupported filename "package_clause")
  else
    let groups ← file.declarations.mapM (transformsOf filename source)
    return groups.flatten

/-! ## Text files -/

/-- The transforms that the text of a snippet file stands for, replacing or not. -/
def parseText (filename text : String) (replace : Bool) : Except PatchError (List Transform) := do
  let ts ← parse filename (String.ofList (Text.lineFeedsOnly text.toList))
  return if replace then ts.map Transform.replacing else ts

end GoSplice.Snippet
