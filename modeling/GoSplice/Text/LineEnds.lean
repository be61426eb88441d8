/-!
# Line ends

Texts from other systems end their lines with a carriage return, or with a
carriage return and a line feed.  `lineFeedsOnly` gives every line a line feed.
-/

namespace GoSplice.Text

/-- The text with a line feed for every line end. -/
def lineFeedsOnly : List Char → List Char
  | [] => []
  | '\r' :: '\n' :: r => '\n' :: lineFeedsOnly r
  | c :: r => (if c = '\r' then '\n' else c) :: lineFeedsOnly r

end GoSplice.Text
