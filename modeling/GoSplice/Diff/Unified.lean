import GoSplice.Diff.Lines
import GoSplice.Diff.Matching

/-!
# Unified diffs

The difference of two texts as edits of lines: stretches that stay, and changes
that put some lines in the place of others.  A unified diff shows the changes in
hunks, with three lines that stay on each side; changes with at most six
lines between them share a hunk:

    before (script a b) = a        after (script a b) = b
-/

namespace GoSplice

/-! ## Edits -/

inductive LineEdit (α : Type) where
  | keep (lines : List α)
  /-- Lines removed and lines put in their place; not both are empty. -/
  | change (removed added : List α)
  deriving Repr, DecidableEq

namespace LineEdit

variable {α : Type}

/-- The lines before an edit. -/
def before : LineEdit α → List α
  | .keep ls => ls
  | .change removed _ => removed

/-- The lines after an edit. -/
def after : LineEdit α → List α
  | .keep ls => ls
  | .change _ added => added

def isKeep : LineEdit α → Bool
  | .keep _ => true
  | .change .. => false

/-- A change, unless there is nothing to change. -/
def changeOf (removed added : List α) : List (LineEdit α) :=
  if removed.isEmpty && added.isEmpty then [] else [.change removed added]

/-- The edits between two sequences that begin at positions `i` and `j`, given
their matching blocks. -/
def ofBlocks (i j : Nat) (a b : List α) : List Block → List (LineEdit α)
  | [] => changeOf a b
  | k :: ks =>
    let skipA := k.left - i
    let skipB := k.right - j
    changeOf (a.take skipA) (b.take skipB) ++
      .keep ((a.drop skipA).take k.length) ::
        ofBlocks (k.left + k.length) (k.right + k.length) (a.drop (skipA + k.length))
          (b.drop (skipB + k.length)) ks

/-- The edits that make `b` of `a`. -/
def script [DecidableEq α] (a b : List α) : List (LineEdit α) :=
  ofBlocks 0 0 a b (Matching.matchingBlocks a b)

end LineEdit

/-! ## Hunks -/

/-- Edits that are shown together, with the number of lines before them on both sides. -/
structure Hunk (α : Type) where
  left : Nat
  right : Nat
  edits : List (LineEdit α)

namespace Hunk

variable {α : Type}

/-- How many lines that stay are shown on each side of a change. -/
def context : Nat := 3

def lastLines (n : Nat) (ls : List α) : List α := ls.drop (ls.length - n)

/-- A hunk with one edit more at its front. -/
def cons (i j : Nat) (e : LineEdit α) (h : Hunk α) : Hunk α := ⟨i, j, e :: h.edits⟩

/-- The hunks of edits that begin at positions `i` and `j`; the first goes on
from what was shown before. -/
def group : Nat → Nat → List (LineEdit α) → List (Hunk α)
  | i, j, [] => [⟨i, j, []⟩]
  | i, j, e :: es =>
    let rest := group (i + e.before.length) (j + e.after.length) es
    match e with
    | .keep ls =>
      if es.isEmpty then [⟨i, j, [.keep (ls.take context)]⟩]
      else if 2 * context < ls.length then
        let skip := ls.length - context
        ⟨i, j, [.keep (ls.take context)]⟩ ::
          match rest with
          | [] => []
          | h :: hs => cons (i + skip) (j + skip) (.keep (lastLines context ls)) h :: hs
      else
        match rest with
        | [] => []
        | h :: hs => cons i j e h :: hs
    | .change .. =>
      match rest with
      | [] => []
      | h :: hs => cons i j e h :: hs

/-- The edits without the lines at their front that are too far from any change,
and how many these are. -/
def trimFront : List (LineEdit α) → Nat × List (LineEdit α)
  | .keep ls :: es => (ls.length - context, .keep (lastLines context ls) :: es)
  | es => (0, es)

/-- The hunks that show all changes of some edits. -/
def ofEdits (es : List (LineEdit α)) : List (Hunk α) :=
  let (skipped, es) := trimFront es
  (group skipped skipped es).filter fun h => h.edits.any fun e => !e.isKeep

def leftLength (h : Hunk α) : Nat := h.edits.foldl (fun n e => n + e.before.length) 0

def rightLength (h : Hunk α) : Nat := h.edits.foldl (fun n e => n + e.after.length) 0

end Hunk

/-! ## Text -/

namespace UnifiedDiff

abbrev Line := List Char

/-- A range of lines: the number of the first, or of the line before where there
are none, and how many there are unless it is one. -/
def rangeText (start length : Nat) : String :=
  if length = 1 then toString (start + 1)
  else if length = 0 then toString start ++ ",0"
  else toString (start + 1) ++ "," ++ toString length

def headerText (h : Hunk Line) : String :=
  "@@ -" ++ rangeText h.left h.leftLength ++ " +" ++ rangeText h.right h.rightLength ++ " @@\n"

/-- Lines behind a mark each. -/
def marked (mark : Char) (ls : List Line) : List Char := ls.flatMap (mark :: ·)

def editText : LineEdit Line → List Char
  | .keep ls => marked ' ' ls
  | .change removed added => marked '-' removed ++ marked '+' added

def hunkText (h : Hunk Line) : String := headerText h ++ String.ofList (h.edits.flatMap editText)

/-- The unified diff of two texts; empty, if no line differs. -/
def text (path : String) (before after : List Char) : String :=
  let hunks := Hunk.ofEdits (LineEdit.script (Lines.split before) (Lines.split after))
  if hunks.isEmpty then ""
  else "--- a/" ++ path ++ "\n+++ b/" ++ path ++ "\n" ++ String.join (hunks.map hunkText)

end UnifiedDiff

end GoSplice
