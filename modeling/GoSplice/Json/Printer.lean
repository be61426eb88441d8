import GoSplice.Json.Value
import GoSplice.Text.Quoted

/-!
# Writing JSON

Values are written in one of two layouts: compact, without any space, or
indented by two for each level of nesting.  Empty containers are written
without space in both.  Inside strings only quotes, backslashes and control
characters below U+0020 are escaped.
-/

namespace GoSplice.Json

/-! ## Strings -/

def escapeChar (c : Char) : List Char :=
  match c with
  | '"' => ['\\', '"']
  | '\\' => ['\\', '\\']
  | '\x08' => ['\\', 'b']
  | '\t' => ['\\', 't']
  | '\n' => ['\\', 'n']
  | '\x0c' => ['\\', 'f']
  | '\r' => ['\\', 'r']
  | c => if c.toNat < 0x20 then '\\' :: 'u' :: Text.hexPadded 4 c.toNat else [c]

def stringText (s : String) : String :=
  String.ofList ('"' :: s.toList.flatMap escapeChar ++ ['"'])

/-! ## Numbers -/

def numberText : Number → String
  | .integer n => toString n
  | .decimal negative digits exponent =>
    (if negative then "-" else "") ++ digits.repr ++ "e" ++ toString exponent
  | .infinite negative => if negative then "-Infinity" else "Infinity"
  | .nan => "NaN"

/-! ## Layouts -/

inductive Layout where
  | compact
  | indented
  deriving Repr, DecidableEq

namespace Layout

/-- What stands between a bracket or comma and an item `depth` levels deep. -/
def lineBreak (l : Layout) (depth : Nat) : String :=
  match l with
  | .compact => ""
  | .indented => "\n" ++ String.ofList (List.replicate (2 * depth) ' ')

/-- What stands between the name and the value of a member. -/
def colon : Layout → String
  | .compact => ":"
  | .indented => ": "

end Layout

/-- Items between brackets, as a container at a depth. -/
def bracketed (l : Layout) (depth : Nat) (opening closing : String) (items : List String) :
    String :=
  if items.isEmpty then opening ++ closing
  else
    opening ++ l.lineBreak (depth + 1) ++
      String.intercalate ("," ++ l.lineBreak (depth + 1)) items ++ l.lineBreak depth ++ closing

mutual

def textAt (l : Layout) (depth : Nat) : Value → String
  | .null => "null"
  | .bool b => if b then "true" else "false"
  | .number n => numberText n
  | .string s => stringText s
  | .array items => bracketed l depth "[" "]" (itemTexts l (depth + 1) items)
  | .object members => bracketed l depth "\x7b" "\x7d" (memberTexts l (depth + 1) members)

def itemTexts (l : Layout) (depth : Nat) : List Value → List String
  | [] => []
  | v :: vs => textAt l depth v :: itemTexts l depth vs

def memberTexts (l : Layout) (depth : Nat) : List (String × Value) → List String
  | [] => []
  | (name, v) :: ms => (stringText name ++ l.colon ++ textAt l depth v) :: memberTexts l depth ms

end

/-- The text of a value. -/
def text (l : Layout) (v : Value) : String := textAt l 0 v

end GoSplice.Json
