import GoSplice.Text.Utf8

/-!
# Lines of a byte sequence

A line index holds the offsets at which lines begin.  Rows and columns count
from zero; columns count bytes.

    position? o = (line feeds before o, bytes since the last of them)
    offset? row column = start of the row + column, at most the size
-/

namespace GoSplice

/-- A row and a column. -/
structure Position where
  row : Nat
  column : Nat
  deriving Repr, DecidableEq

/-- The line starts of some bytes, ascending, the first of them 0, and their number of bytes. -/
structure LineIndex where
  starts : List Nat
  size : Nat
  deriving Repr, DecidableEq

namespace LineIndex

def lineFeed : UInt8 := 10

/-- The offsets behind the line feeds of bytes that begin at offset `pos`. -/
def startsAfter (pos : Nat) : Bytes → List Nat
  | [] => []
  | b :: r => if b = lineFeed then (pos + 1) :: startsAfter (pos + 1) r else startsAfter (pos + 1) r

def ofBytes (source : Bytes) : LineIndex := ⟨0 :: startsAfter 0 source, source.length⟩

def lineCount (l : LineIndex) : Nat := l.starts.length

/-- The row of an offset: one less than the number of lines that begin at or before it. -/
def row (l : LineIndex) (offset : Nat) : Nat := l.starts.countP (· ≤ offset) - 1

def position (l : LineIndex) (offset : Nat) : Position :=
  let row := l.row offset
  ⟨row, offset - l.starts.getD row 0⟩

/-- The position of an offset inside the bytes, or at their end. -/
def position? (l : LineIndex) (offset : Int) : Option Position :=
  if offset < 0 ∨ (l.size : Int) < offset then none else some (l.position offset.toNat)

/-- The offset of a column in a row that exists, no further than the end of the bytes. -/
def offset? (l : LineIndex) (row column : Int) : Option Int :=
  if row < 0 then none
  else (l.starts[row.toNat]?).map fun start => min (start + column) l.size

end LineIndex

end GoSplice
