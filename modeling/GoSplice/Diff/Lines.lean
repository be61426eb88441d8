/-!
# Lines of a text

Lines end with a line feed, a carriage return, both in this order, or one of
the other characters that end lines or paragraphs.  Each line keeps its end,
so the lines of a text joined are the text.
-/

namespace GoSplice.Lines

/-- Characters other than the carriage return that end a line. -/
def isBreak (c : Char) : Bool :=
  c = '\n' || c = '\x0b' || c = '\x0c' || c = '\x1c' || c = '\x1d' || c = '\x1e' ||
    c = '\u0085' || c = '\u2028' || c = '\u2029'

/-- Puts a character in front of the first of some lines. -/
def consFirst (c : Char) : List (List Char) → List (List Char)
  | [] => [[c]]
  | l :: ls => (c :: l) :: ls

/-- The lines of a text, with their ends. -/
def split : List Char → List (List Char)
  | [] => []
  | '\r' :: '\n' :: r => ['\r', '\n'] :: split r
  | c :: r => if c = '\r' || isBreak c then [c] :: split r else consFirst c (split r)

end GoSplice.Lines
