import GoSplice.Text.Ranges

/-!
# Blank characters

Blank are the characters of the bidirectional classes WS, B and S and of the
category Zs: all that separates words in running text.
-/

namespace GoSplice.Text

/-- The blank characters. -/
def blankRanges : Array (Nat × Nat) := #[
  (0x9, 0xD), (0x1C, 0x20), (0x85, 0x85), (0xA0, 0xA0), (0x1680, 0x1680), (0x2000, 0x200A),
  (0x2028, 0x2029), (0x202F, 0x202F), (0x205F, 0x205F), (0x3000, 0x3000)]

/-- Whether a character is blank. -/
def isBlank (c : Char) : Bool := inRanges blankRanges c.toNat

/-- The text without blank characters at its two ends. -/
def trimBlank (s : List Char) : List Char :=
  ((s.dropWhile isBlank).reverse.dropWhile isBlank).reverse

end GoSplice.Text
