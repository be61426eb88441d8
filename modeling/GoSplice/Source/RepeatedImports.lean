import GoSplice.Source.Splice

/-!
# Repeated imports

An import that repeats a path imported before it in the file is deleted, and a
declaration that imports nothing new is deleted as a whole.  Nothing else of
the file changes:

    withoutRepeatedImports f = the source of f without its repeated ranges
-/

namespace GoSplice

namespace RepeatedImports

/-- The specs whose paths were seen before, given the paths seen so far. -/
def repeated : List String → List ImportSpec → List ImportSpec
  | _, [] => []
  | seen, s :: ss =>
    if seen.contains s.path then s :: repeated seen ss else repeated (s.path :: seen) ss

/-- The ranges to delete of an import declaration. -/
def rangesOf (seen : List String) (d : Declaration) (specs : List ImportSpec) : List Splice.Range :=
  let again := repeated seen specs
  if again.length = specs.length then [⟨d.start, d.stop⟩]
  else again.map fun s => ⟨s.start, s.stop⟩

/-- The ranges to delete of all import declarations. -/
def ranges (seen : List String) : List Declaration → List Splice.Range
  | [] => []
  | d :: ds =>
    match d.declared with
    | .imports specs _ => rangesOf seen d specs ++ ranges (specs.map (·.path) ++ seen) ds
    | _ => ranges seen ds

end RepeatedImports

/-- The source of a file without imports of a path that was imported before. -/
def SourceFile.withoutRepeatedImports (f : SourceFile) : Bytes :=
  Splice.delete f.source 0 (RepeatedImports.ranges [] f.declarations)

end GoSplice
