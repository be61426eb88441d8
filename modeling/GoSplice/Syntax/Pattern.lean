import GoSplice.Syntax.Token

/-!
# Patterns over tokens

A pattern describes stretches of tokens and says which of them become tree
nodes.  Choice is ordered and repetition is greedy, so `find` gives each
pattern at most one match at a place.  Line ends are part of the description:
`.lineEnd` takes one, `.sameLine` refuses one, and a token test passes over it.

A grammar is a function from rule names to patterns; rules may refer to each
other freely, and `find` follows them for a number of steps that its caller bounds.
-/

namespace GoSplice.Syntax

/-! ## Trees -/

/-- A stretch of source bytes of a given kind, with the stretches marked inside it. -/
inductive Tree (L : Type) where
  | node (label : L) (start stop : Nat) (children : List (Tree L))
  deriving Repr

namespace Tree

variable {L : Type}

def label : Tree L → L
  | .node l _ _ _ => l

def start : Tree L → Nat
  | .node _ s _ _ => s

def stop : Tree L → Nat
  | .node _ _ e _ => e

def children : Tree L → List (Tree L)
  | .node _ _ _ cs => cs

end Tree

/-! ## Patterns -/

inductive Pattern (R L : Type) where
  /-- No token. -/
  | empty
  /-- One token of one of the kinds. -/
  | token (kinds : List Kind)
  /-- No token, and no line end before the next one. -/
  | sameLine
  /-- A line end. -/
  | lineEnd
  | seq (first second : Pattern R L)
  /-- The first alternative that matches. -/
  | alt (first second : Pattern R L)
  /-- As many matches as possible, one after the other. -/
  | star (p : Pattern R L)
  | rule (r : R)
  /-- A match that takes a token at least, made a node. -/
  | node (label : L) (p : Pattern R L)
  /-- A match whose nodes are dropped. -/
  | hidden (p : Pattern R L)
  /-- No token, where the pattern matches. -/
  | ahead (p : Pattern R L)
  /-- No token, where the pattern does not match. -/
  | absent (p : Pattern R L)

namespace Pattern

variable {R L : Type}

/-- The patterns one after the other. -/
def all : List (Pattern R L) → Pattern R L
  | [] => .empty
  | [p] => p
  | p :: ps => .seq p (all ps)

/-- The first of the patterns that matches; a pattern of its own if there is only one. -/
def any : List (Pattern R L) → Pattern R L
  | [] => .token []
  | [p] => p
  | p :: ps => .alt p (any ps)

/-- The pattern, or nothing. -/
def optional (p : Pattern R L) : Pattern R L := .alt p .empty

def operator (o : Operator) : Pattern R L := .token [.operator o]

def keyword (k : Keyword) : Pattern R L := .token [.keyword k]

end Pattern

/-! ## Matching -/

/-- A place between two tokens: the offset behind the last thing taken, the
tokens to come, and the line end behind the last of them. -/
structure Place where
  offset : Nat
  tokens : List Token
  lastBreak : Option Nat
  deriving Repr

namespace Place

/-- The line end before the next token, or before the end of the file. -/
def lineBreak (c : Place) : Option Nat :=
  match c.tokens with
  | t :: _ => t.lineBreak
  | [] => c.lastBreak

/-- The place behind a line end that ends at offset `b`. -/
def afterBreak (c : Place) (b : Nat) : Place :=
  match c.tokens with
  | t :: r => ⟨b, { t with lineBreak := none } :: r, c.lastBreak⟩
  | [] => ⟨b, [], none⟩

end Place

/-- The nodes of a match and the place behind it. -/
structure Found (L : Type) where
  trees : List (Tree L)
  place : Place

variable {R L : Type}

/-- The node over a match, if the match took a token. -/
def nodeOver? (l : L) (c : Place) (f : Found L) : Option (Found L) :=
  match c.tokens with
  | [] => none
  | t :: _ =>
    if t.start < f.place.offset then some ⟨[.node l t.start f.place.offset f.trees], f.place⟩
    else none

/-- The match of a pattern at a place.  Each step into a part of the pattern, a
rule or a further repetition takes one from `fuel`. -/
def find? (grammar : R → Pattern R L) : Nat → Pattern R L → Place → Option (Found L)
  | 0, _, _ => none
  | fuel + 1, p, c =>
    match p with
    | .empty => some ⟨[], c⟩
    | .token kinds =>
      match c.tokens with
      | t :: r => if kinds.contains t.kind then some ⟨[], ⟨t.stop, r, c.lastBreak⟩⟩ else none
      | [] => none
    | .sameLine => if c.lineBreak.isNone then some ⟨[], c⟩ else none
    | .lineEnd => c.lineBreak.map fun b => ⟨[], c.afterBreak b⟩
    | .seq p q =>
      match find? grammar fuel p c with
      | none => none
      | some f => match find? grammar fuel q f.place with
        | none => none
        | some g => some ⟨f.trees ++ g.trees, g.place⟩
    | .alt p q =>
      match find? grammar fuel p c with
      | some f => some f
      | none => find? grammar fuel q c
    | .star p =>
      match find? grammar fuel p c with
      | none => some ⟨[], c⟩
      | some f => match find? grammar fuel (.star p) f.place with
        | none => none
        | some g => some ⟨f.trees ++ g.trees, g.place⟩
    | .rule r => find? grammar fuel (grammar r) c
    | .node l p => (find? grammar fuel p c).bind (nodeOver? l c)
    | .hidden p => (find? grammar fuel p c).map fun f => ⟨[], f.place⟩
    | .ahead p => (find? grammar fuel p c).map fun _ => ⟨[], c⟩
    | .absent p => if (find? grammar fuel p c).isNone then some ⟨[], c⟩ else none

/-! ## How far a match gets -/

/-- The greatest offset at which a token test fails while the pattern is tried. -/
def furthest (grammar : R → Pattern R L) : Nat → Pattern R L → Place → Nat
  | 0, _, c => c.offset
  | fuel + 1, p, c =>
    match p with
    | .empty => 0
    | .token _ | .sameLine | .lineEnd => if (find? grammar 1 p c).isSome then 0 else c.offset
    | .seq p q =>
      match find? grammar fuel p c with
      | none => furthest grammar fuel p c
      | some f => max (furthest grammar fuel p c) (furthest grammar fuel q f.place)
    | .alt p q => max (furthest grammar fuel p c)
      (if (find? grammar fuel p c).isSome then 0 else furthest grammar fuel q c)
    | .star p =>
      match find? grammar fuel p c with
      | none => furthest grammar fuel p c
      | some f => max (furthest grammar fuel p c) (furthest grammar fuel (.star p) f.place)
    | .rule r => furthest grammar fuel (grammar r) c
    | .node _ p | .hidden p | .ahead p => furthest grammar fuel p c
    | .absent _ => 0

end GoSplice.Syntax
