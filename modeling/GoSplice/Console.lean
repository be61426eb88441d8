import GoSplice.Text.LineEnds

/-!
# Console output

What reaches the console of a text.  Control characters that would ring or move
the cursor are left out, and tabs are expanded to columns: eight apart in
messages, four apart in source text, where a carriage return ends a line.
-/

namespace GoSplice.Console

/-- Control characters that are not printed. -/
def isDropped (c : Char) : Bool :=
  c = '\x07' || c = '\x08' || c = '\x0b' || c = '\x0c' || c = '\r'

/-- The text with tabs expanded, beginning at a column. -/
def expandTabs (width : Nat) : Nat → List Char → List Char
  | _, [] => []
  | column, c :: r =>
    if c = '\t' then
      let n := width - column % width
      List.replicate n ' ' ++ expandTabs width (column + n) r
    else if c = '\n' ∨ c = '\r' then c :: expandTabs width 0 r
    else c :: expandTabs width (column + 1) r

/-- The columns between tab stops in messages. -/
def messageTabs : Nat := 8

/-- The columns between tab stops in source text. -/
def sourceTabs : Nat := 4

/-- A message, with its line end. -/
def message (s : String) : String :=
  String.ofList (expandTabs messageTabs 0 (s.toList.filter (!isDropped ·))) ++ "\n"

/-- A source text, with a line end of its own behind the last. -/
def source (s : String) : String :=
  let shown := (Text.lineFeedsOnly (expandTabs sourceTabs 0 s.toList)).filter (!isDropped ·)
  String.ofList shown ++ "\n"

end GoSplice.Console
