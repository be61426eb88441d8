import GoSplice.Source.File

/-!
# Splicing source text

A file is changed by cutting ranges out of its bytes, or by putting an import
between them.  All other bytes stay as they are and in order:

    cut source d                  without a declaration and its doc comment
    delete source 0 ranges        without some ranges
    importInside source o text    before the parenthesis at an offset
    importBelow source o text     on the line below an offset
    importAfterClause source o text
                                  two lines below an offset
-/

namespace GoSplice.Splice

/-! ## Cutting -/

/-- The source without a declaration and its doc comment. -/
def cut (source : Bytes) (d : Declaration) : Bytes :=
  source.take d.spliceStart ++ source.drop d.stop

/-- A range of bytes. -/
structure Range where
  start : Nat
  stop : Nat
  deriving Repr, DecidableEq

/-- The bytes from `pos` on, without the given ranges, which lie behind `pos` and in order. -/
def delete (source : Bytes) (pos : Nat) : List Range → Bytes
  | [] => source.drop pos
  | r :: rs => slice source pos r.start ++ delete source r.stop rs

/-! ## Imports -/

/-- The bytes with a line feed at their end. -/
def endingLine (bs : Bytes) : Bytes :=
  if bs.getLast? = some LineIndex.lineFeed then bs else bs ++ [LineIndex.lineFeed]

/-- The source with an import in the parentheses that close at an offset. -/
def importInside (source : Bytes) (close : Nat) (text : Bytes) : Bytes :=
  endingLine (source.take close) ++ bytesOf "\t" ++ text ++ [LineIndex.lineFeed] ++
    source.drop close

/-- The source with an import on the line below the declaration that ends at an offset. -/
def importBelow (source : Bytes) (stop : Nat) (text : Bytes) : Bytes :=
  let rest := source.drop stop
  let rest := if rest.head? = some LineIndex.lineFeed then rest.drop 1 else rest
  endingLine (source.take stop) ++ bytesOf "import " ++ text ++ [LineIndex.lineFeed] ++ rest

/-- The source with an import below the line that ends at an offset. -/
def importAfterClause (source : Bytes) (pos : Nat) (text : Bytes) : Bytes :=
  source.take pos ++ bytesOf "\n\nimport " ++ text ++ [LineIndex.lineFeed] ++ source.drop pos

/-! ## Places for imports -/

/-- The end of the line that an offset lies on. -/
def lineEnd (source : Bytes) (offset : Nat) : Nat :=
  offset + ((source.drop offset).takeWhile (· ≠ LineIndex.lineFeed)).length

/-- White space of ASCII. -/
def isSpaceByte (b : UInt8) : Bool := b = 32 || (9 ≤ b && b ≤ 13)

/-- The length of a package line that begins some bytes: white space, the word
`package`, white space and the rest of the line. -/
def packageLine? (bs : Bytes) : Option Nat :=
  let word := bytesOf "package"
  let before := (bs.takeWhile isSpaceByte).length
  let rest := bs.drop before
  if word.isPrefixOf rest then
    let behind := rest.drop word.length
    let space := (behind.takeWhile isSpaceByte).length
    some (lineEnd bs (before + word.length + space))
  else none

/-- The end of the first package line, where the bytes begin at an offset. -/
def packageLineEnd? (pos : Nat) (lineStart : Bool) : Bytes → Option Nat
  | [] => none
  | b :: r =>
    (if lineStart then (packageLine? (b :: r)).map (pos + ·) else none).or
      (packageLineEnd? (pos + 1) (b = LineIndex.lineFeed) r)

/-- The end and the closing parenthesis of the last import declaration of a file. -/
def lastImport? (f : SourceFile) : Option (Nat × Option Nat) :=
  f.declarations.reverse.findSome? fun d =>
    match d.declared with
    | .imports _ close => some (d.stop, close)
    | _ => none

end GoSplice.Splice
