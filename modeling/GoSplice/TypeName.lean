import GoSplice.Text.Case

/-!
# Spellings of type names

A type name is spelled in lower case with its words set apart, as in file names:
`SomeThing` with the separator `-` is `some-thing`.  A run of capitals is one
word, except for its last letter when a letter that is no capital follows it.
-/

namespace GoSplice.TypeName

/-- What has been spelled so far, last piece first, and the character before. -/
structure Spelling where
  pieces : List (List Char)
  last : Option Char

/-- One character more.  A separator goes before the last piece if that came
from a capital and the character is none. -/
def step (separator : List Char) (s : Spelling) (c : Char) : Spelling :=
  let afterCapital := match s.last with
    | none => true
    | some l => Text.isUpper l
  let pieces :=
    if !Text.isUpper c && afterCapital then
      match s.pieces with
      | [] => []
      | prior :: before => prior :: (separator.map fun x => [x]).reverse ++ before
    else s.pieces
  ⟨Text.lowerChar c :: pieces, some c⟩

def spellChars (name separator : List Char) : List Char :=
  let text := (name.foldl (step separator) ⟨[], none⟩).pieces.reverse.flatten
  if separator.isPrefixOf text then text.drop separator.length else text

/-- The words of a type name in lower case, with a separator between them. -/
def spell (name separator : String) : String :=
  String.ofList (spellChars name.toList separator.toList)

end GoSplice.TypeName
