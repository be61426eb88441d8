import GoSplice.Diff.Unified
import GoSplice.Layer

/-!
# Differences between layers

What an output layer changes of an input layer: a unified diff for each file of
some directories that is not the same in both.  A file that the input layer
does not have counts as empty there.
-/

namespace GoSplice

namespace Diff

/-- The diff of the file at a path, unless both layers have the same bytes. -/
def file? (input output : Layer) (path : String) : Except PatchError (Option String) := do
  let after ← output.read path
  let before := (← ifFound (input.read path)).getD []
  if before = after then return none
  else return some (UnifiedDiff.text path (Utf8.decodeLossy before) (Utf8.decodeLossy after))

/-- The diffs of named files of a directory. -/
def files (input output : Layer) (directory : String) :
    List String → Except PatchError (List (String × String))
  | [] => return []
  | name :: names => do
    let path ← (Path.clean (Path.concat directory name)).mapError .escape
    let diff ← file? input output path
    let rest ← files input output directory names
    return (diff.map (path, ·)).toList ++ rest

/-- The diffs of all files of a directory of the output layer, none if it has no such directory. -/
def directory (input output : Layer) (directory : String) :
    Except PatchError (List (String × String)) := do
  match ← ifFound (output.list directory) with
  | none => return []
  | some names => files input output directory names

end Diff

/-- The diffs of the files of some directories, by path; a file that two of the
directories show is listed once. -/
def Layer.diff (input output : Layer) (directories : List String) :
    Except PatchError (List (String × String)) := do
  let groups ← directories.mapM (Diff.directory input output)
  return groups.flatten.eraseDups

end GoSplice
