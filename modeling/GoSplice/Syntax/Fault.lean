import GoSplice.Syntax.Items

/-!
# What is wrong with a file

A file whose items cannot be read to the end gets one fault.  A closing mark is
missing if the file reads to its end once that mark stands where reading
stopped.  Otherwise the token there is the fault.  A file that only lacks its
last terminator is blamed on its first statement, or as a whole.
-/

namespace GoSplice.Syntax

inductive Fault where
  /-- A mark is missing at this offset. -/
  | missing (mark : String) (offset : Nat)
  /-- These bytes are not expected. -/
  | unexpected (start stop : Nat)
  deriving Repr, DecidableEq

namespace Fault

/-- The tokens with a string literal in the place of an unclosed one. -/
def closeText : List Token → Option (Char × Nat × List Token)
  | [] => none
  | t :: r =>
    match t.kind with
    | .unclosed q => some (q, t.stop, { t with kind := .text } :: r)
    | _ => (closeText r).map fun (q, o, r') => (q, o, t :: r')

/-- A quote that closes the first open literal, if that mends the file. -/
def missingQuote? (s : Scanned) : Option Fault :=
  match closeText s.tokens with
  | some (q, offset, tokens) =>
    if (itemsOf tokens s.lastBreak).refusal.isNone then some (.missing q.toString offset) else none
  | none => none

/-- The tokens with one more of the given kind at an offset, one byte wide as far
as matching is concerned.  A line end before the offset stays before the new token. -/
def insertAt (k : Kind) (offset : Nat) (s : Scanned) : List Token × Option Nat :=
  let before := s.tokens.takeWhile (·.stop ≤ offset)
  let passed (b : Option Nat) : Option Nat := b.filter (· ≤ offset)
  let ahead (b : Option Nat) : Option Nat := b.filter (offset < ·)
  match s.tokens.dropWhile (·.stop ≤ offset) with
  | [] => (before ++ [⟨k, offset, offset + 1, passed s.lastBreak⟩], ahead s.lastBreak)
  | t :: r =>
    (before ++ ⟨k, offset, offset + 1, passed t.lineBreak⟩ ::
        { t with lineBreak := ahead t.lineBreak } :: r,
      s.lastBreak)

/-- The marks that close a bracket. -/
def closers : List (String × Operator) :=
  [(")", .rightParen), ("]", .rightBracket), ("\x7d", .rightBrace)]

/-- A closing bracket at the offset where reading stopped, if that mends the file. -/
def missingCloser? (s : Scanned) (offset : Nat) : Option Fault :=
  (closers.find? fun (_, o) =>
    let (tokens, lastBreak) := insertAt (.operator o) offset s
    (itemsOf tokens lastBreak).refusal.isNone).map fun (mark, _) => .missing mark offset

/-- The first byte of a file that is not blank. -/
def contentStart (s : Scanned) : Nat :=
  let first := s.tokens.head?.map (·.start)
  let comment := s.comments.head?.map (·.start)
  match first, comment with
  | some a, some b => min a b
  | some a, none => a
  | none, some b => b
  | none, none => 0

/-- Whether an item is a declaration, an import or a package clause. -/
def isDeclaration (t : Node) : Bool :=
  [Label.packageClause, .importDecl, .function, .method, .constDecl, .varDecl, .typeDecl].contains
    t.label

/-- The fault of a file of `size` bytes whose items were refused. -/
def ofRefusal (s : Scanned) (size : Nat) (nodes : List Node) : Refusal → Fault
  | .unterminated =>
    match nodes.find? (!isDeclaration ·) with
    | some t => .unexpected t.start t.stop
    | none => .unexpected (contentStart s) size
  | .stuck offset =>
    ((missingQuote? s).or (missingCloser? s offset)).getD <|
      match s.tokens.find? (offset ≤ ·.start) with
      | some t => .unexpected t.start t.stop
      | none => .unexpected (contentStart s) size

end Fault

end GoSplice.Syntax
