import GoSplice.Syntax.Grammar
import GoSplice.Syntax.Scan

/-!
# The items of a file

A file is a sequence of items, each followed by a terminator.  At the end of the
file the terminator may be missing behind a package clause, an import, a
function, a method, and behind a statement that ends with a value.
-/

namespace GoSplice.Syntax

abbrev Node := Tree Label

/-! ## Nodes -/

mutual
/-- Whether a node, or one inside it, has the label and ends at the offset. -/
def Tree.hasEnding (l : Label) (stop : Nat) : Tree Label → Bool
  | .node l' _ e cs => (l' == l && e == stop) || anyEnding l stop cs
def anyEnding (l : Label) (stop : Nat) : List (Tree Label) → Bool
  | [] => false
  | t :: ts => t.hasEnding l stop || anyEnding l stop ts
end

/-- Whether an item may end its file without a terminator. -/
def mayEndFile (t : Node) : Bool :=
  [Label.packageClause, .importDecl, .function, .method].contains t.label ||
    t.hasEnding .value t.stop

/-! ## Sequences of items -/

/-- Why the items of a file end before the file does. -/
inductive Refusal where
  /-- The last item lacks its terminator. -/
  | unterminated
  /-- No item, or no terminator, can be read beyond this offset. -/
  | stuck (offset : Nat)
  deriving Repr, DecidableEq

/-- The items read, and the reason if the file goes on behind them. -/
structure Items where
  nodes : List Node
  refusal : Option Refusal

/-- More steps than any match over so many tokens takes: a token is at most some
hundred rules and alternatives away from the one before. -/
def stepBound (tokens : List Token) : Nat := 512 * (tokens.length + 1)

/-- The first item at a place, and the place behind it. -/
def item? (c : Place) : Option (Node × Place) :=
  match find? Grammar.rules (stepBound c.tokens) Grammar.item c with
  | some ⟨t :: _, c'⟩ => some (t, c')
  | _ => none

def itemReach (c : Place) : Nat := furthest Grammar.rules (stepBound c.tokens) Grammar.item c

/-- The place behind a terminator. -/
def afterTerminator? (c : Place) : Option Place :=
  match c.lineBreak with
  | some b => some (c.afterBreak b)
  | none =>
    match c.tokens with
    | t :: r => if t.kind = .operator .semicolon then some ⟨t.stop, r, c.lastBreak⟩ else none
    | [] => none

def itemsWithin : Nat → Place → Items
  | 0, c => ⟨[], some (.stuck c.offset)⟩
  | fuel + 1, c =>
    if c.tokens.isEmpty then ⟨[], none⟩
    else match item? c with
      | none => ⟨[], some (.stuck (itemReach c))⟩
      | some (t, c') =>
        match afterTerminator? c' with
        | some c'' =>
          let rest := itemsWithin fuel c''
          ⟨t :: rest.nodes, rest.refusal⟩
        | none =>
          if c'.tokens.isEmpty then
            ⟨[t], if mayEndFile t then none else some .unterminated⟩
          else ⟨[t], some (.stuck (max c'.offset (itemReach c)))⟩

/-- The items of a token sequence.  Each takes a token at least. -/
def itemsOf (tokens : List Token) (lastBreak : Option Nat) : Items :=
  itemsWithin (tokens.length + 1) ⟨0, tokens, lastBreak⟩

end GoSplice.Syntax
