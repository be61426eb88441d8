/-!
# Bytes and characters

File contents are byte sequences; text is a list of characters.  `pieces` cuts
any byte sequence into characters and ill-formed stretches, each stretch as
long as a well-formed sequence could still begin there.  The three readings
are views of that one cut:

    decode? bs        all characters, if no piece is ill-formed
    firstInvalid? bs  the offset of the first ill-formed piece
    decodeLossy bs    U+FFFD in the place of each ill-formed piece
-/

namespace GoSplice

/-- The contents of a file, or of a stream. -/
abbrev Bytes := List UInt8

namespace Utf8

/-! ## Encoding -/

/-- The bytes of a text. -/
def encode (s : List Char) : Bytes := s.flatMap String.utf8EncodeChar

/-! ## Cutting bytes into characters -/

/-- A character, or an ill-formed stretch of some number of bytes. -/
inductive Piece where
  | char (c : Char)
  | bad (width : Nat)
  deriving Repr, DecidableEq

/-- The number of bytes a piece covers. -/
def Piece.width : Piece → Nat
  | .char c => c.utf8Size
  | .bad n => n

/-- Where a reader stands: between two characters, or inside one, with the bits
and the bytes taken so far, the number of bytes to come and the bounds of the
next one. -/
inductive State where
  | between
  | inside (bits taken need lo hi : Nat)
  deriving Repr, DecidableEq

/-- Start of a character at byte `b`.  The bounds of the second byte exclude
overlong forms, surrogates and values above U+10FFFF. -/
def start (b : Nat) : List Piece × State :=
  if b < 0x80 then ([.char (Char.ofNat b)], .between)
  else if b < 0xC2 then ([.bad 1], .between)
  else if b < 0xE0 then ([], .inside (b - 0xC0) 1 1 0x80 0xBF)
  else if b < 0xF0 then
    ([], .inside (b - 0xE0) 1 2 (if b = 0xE0 then 0xA0 else 0x80) (if b = 0xED then 0x9F else 0xBF))
  else if b < 0xF5 then
    ([], .inside (b - 0xF0) 1 3 (if b = 0xF0 then 0x90 else 0x80) (if b = 0xF4 then 0x8F else 0xBF))
  else ([.bad 1], .between)

/-- One byte more. -/
def feed : State → Nat → List Piece × State
  | .between, b => start b
  | .inside bits taken need lo hi, b =>
    if lo ≤ b ∧ b ≤ hi then
      if need ≤ 1 then ([.char (Char.ofNat (bits * 64 + (b - 0x80)))], .between)
      else ([], .inside (bits * 64 + (b - 0x80)) (taken + 1) (need - 1) 0x80 0xBF)
    else (.bad taken :: (start b).1, (start b).2)

def piecesFrom : State → Bytes → List Piece
  | .between, [] => []
  | .inside _ taken _ _ _, [] => [.bad taken]
  | st, b :: r => (feed st b.toNat).1 ++ piecesFrom (feed st b.toNat).2 r

/-- The characters and ill-formed stretches of a byte sequence, in order. -/
def pieces (bs : Bytes) : List Piece := piecesFrom .between bs

/-! ## Readings -/

def charsOf? : List Piece → Option (List Char)
  | [] => some []
  | .char c :: r => (charsOf? r).map (c :: ·)
  | .bad _ :: _ => none

/-- The text of a byte sequence without ill-formed stretches. -/
def decode? (bs : Bytes) : Option (List Char) := charsOf? (pieces bs)

def firstBad? : Nat → List Piece → Option Nat
  | _, [] => none
  | pos, .char c :: r => firstBad? (pos + c.utf8Size) r
  | pos, .bad _ :: _ => some pos

/-- The offset at which the first ill-formed stretch begins. -/
def firstInvalid? (bs : Bytes) : Option Nat := firstBad? 0 (pieces bs)

/-- The text with U+FFFD in the place of each ill-formed stretch. -/
def decodeLossy (bs : Bytes) : List Char :=
  (pieces bs).map fun
    | .char c => c
    | .bad _ => '\uFFFD'

end Utf8

/-- The bytes of a string. -/
def bytesOf (s : String) : Bytes := Utf8.encode s.toList

/-- The text of some bytes, ill-formed stretches replaced by U+FFFD. -/
def textOf (bs : Bytes) : String := String.ofList (Utf8.decodeLossy bs)

end GoSplice
