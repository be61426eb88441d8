import GoSplice.Error
import GoSplice.Source.ImportPath

/-!
# Top-level declarations

A declaration has a byte range, and a doc comment if a group of comments ends on
the line above it.  What it declares is read off its node:

    func      name and receiver
    value     names of a `const` or `var` group
    type      names of a `type` group
    specs     of an import
    other     a statement; its kind

`ofNodes` gives the declarations of a file in source order.
-/

namespace GoSplice

open Syntax

/-! ## What is declared -/

inductive ValueKind where
  | const | var
  deriving Repr, DecidableEq

def ValueKind.name : ValueKind → String
  | .const => "const"
  | .var => "var"

structure ImportSpec where
  /-- The local name, empty if none is given. -/
  name : String
  path : String
  start : Nat
  stop : Nat
  deriving Repr, DecidableEq

inductive Declared where
  /-- With `simple`, the receiver is empty, `T` or `*T`; otherwise it is the text
  of a type or of a parameter list. -/
  | func (name receiver : String) (simple : Bool)
  /-- In a `const` group the commas between the names count as names. -/
  | value (kind : ValueKind) (names : List String)
  | type (names : List String)
  /-- `closeParen` is the offset of the closing parenthesis of a group. -/
  | imports (specs : List ImportSpec) (closeParen : Option Nat)
  | other (kind : String)
  deriving Repr, DecidableEq

/-- The byte range of a doc comment. -/
structure DocRange where
  start : Nat
  stop : Nat
  deriving Repr, DecidableEq

structure Declaration where
  start : Nat
  stop : Nat
  doc : Option DocRange
  declared : Declared
  deriving Repr, DecidableEq

/-- Where a declaration begins, its doc comment included. -/
def Declaration.spliceStart (d : Declaration) : Nat :=
  match d.doc with
  | some r => r.start
  | none => d.start

/-! ## Reading nodes -/

/-- The bytes from one offset to another. -/
def slice (source : Bytes) (start stop : Nat) : Bytes := (source.take stop).drop start

namespace Declaration

def nodeText (source : Bytes) (t : Node) : String := textOf (slice source t.start t.stop)

def withLabel (l : Label) (t : Node) : List Node := t.children.filter (·.label == l)

/-- The texts of the children with one of the labels. -/
def childTexts (source : Bytes) (ls : List Label) (t : Node) : List String :=
  (t.children.filter (ls.contains ·.label)).map (nodeText source)

def childText (source : Bytes) (l : Label) (t : Node) : String :=
  (childTexts source [l] t).headD ""

/-- The receiver that a receiver list stands for, and whether it is a simple one. -/
def receiverOf (source : Bytes) (comments : List Comment) (list : Node) : String × Bool :=
  match withLabel .parameter list with
  | [p] =>
    match p.children with
    | t :: _ =>
      match t.label, t.children with
      | .plainType, _ => (nodeText source t, true)
      | .pointerType, [inner] =>
        if comments.any fun c => t.start ≤ c.start && c.start < t.stop then
          (nodeText source t, false)
        else ("*" ++ nodeText source inner, true)
      | _, _ => (nodeText source t, false)
    | [] => (nodeText source p, false)
  | _ => (nodeText source list, false)

def importSpecOf (source : Bytes) (t : Node) : Except PatchError ImportSpec :=
  match ImportPath.ofLiteral? (childText source .importPath t).toList with
  | some path => .ok ⟨childText source .importName t, String.ofList path, t.start, t.stop⟩
  | none => .error .importLiteral

/-- The name of the kind of a statement. -/
def statementKind (t : Node) : String :=
  match t.label with
  | .simple =>
    match t.children.head?.map Tree.label with
    | some .define => "short_var_declaration"
    | some .assign => "assignment_statement"
    | some .increment => "inc_statement"
    | some .decrement => "dec_statement"
    | some .send => "send_statement"
    | _ => "expression_statement"
  | .labeled => "labeled_statement"
  | .returning => "return_statement"
  | .going => "go_statement"
  | .deferring => "defer_statement"
  | .breaking => "break_statement"
  | .continuing => "continue_statement"
  | .goingTo => "goto_statement"
  | .fallingThrough => "fallthrough_statement"
  | .conditional => "if_statement"
  | .loop => "for_statement"
  | .typeSwitching => "type_switch_statement"
  | .switching => "expression_switch_statement"
  | .selecting => "select_statement"
  | .block => "block"
  | _ => "empty_statement"

/-- What an item declares. -/
def declaredBy (source : Bytes) (comments : List Comment) (t : Node) : Except PatchError Declared :=
  match t.label with
  | .function => .ok (.func (childText source .name t) "" true)
  | .method =>
    let (receiver, simple) := match withLabel .receiver t with
      | list :: _ => receiverOf source comments list
      | [] => ("", false)
    .ok (.func (childText source .name t) receiver simple)
  | .constDecl =>
    .ok (.value .const ((withLabel .spec t).flatMap (childTexts source [.name, .comma])))
  | .varDecl => .ok (.value .var ((withLabel .spec t).flatMap (childTexts source [.name])))
  | .typeDecl => .ok (.type ((withLabel .spec t).map (childText source .name)))
  | .importDecl => do
    let specs ← (withLabel .importSpec t).mapM (importSpecOf source)
    return .imports specs ((withLabel .closeParen t).head?.map (·.start))
  | _ => .ok (.other (statementKind t))

/-! ## Comments between items -/

/-- An item, or a comment outside of all items. -/
inductive Sibling where
  | comment (c : Comment)
  | item (t : Node)

def Sibling.start : Sibling → Nat
  | .comment c => c.start
  | .item t => t.start

def Sibling.stop : Sibling → Nat
  | .comment c => c.stop
  | .item t => t.stop

/-- Items and the comments outside of them, in source order. -/
def siblings : List Node → List Comment → List Sibling
  | [], cs => cs.map .comment
  | t :: ts, cs =>
    (cs.takeWhile (·.start < t.start)).map .comment ++
      .item t :: siblings ts (cs.dropWhile (·.start < t.stop))

/-- Where the comment group above a row begins, given what stands before that
row, nearest first.  A comment on the line on which an item ends belongs to that
item. -/
def docStart? (lines : LineIndex) (row : Nat) : List Sibling → Option Nat
  | .comment c :: before =>
    if lines.row c.stop + 1 < row then none
    else
      let trailing := match before with
        | .item t :: _ => lines.row t.stop == lines.row c.start
        | _ => false
      if trailing then none
      else (docStart? lines (lines.row c.start) before).or (some c.start)
  | _ => none

/-- The doc comment of an item that begins at an offset. -/
def docRange? (lines : LineIndex) (start : Nat) (before : List Sibling) : Option DocRange :=
  match docStart? lines (lines.row start) before, before with
  | some first, last :: _ => some ⟨first, last.stop⟩
  | _, _ => none

/-! ## All declarations of a file -/

/-- The declarations among siblings, given the siblings before them, nearest first. -/
def ofSiblings (source : Bytes) (comments : List Comment) (lines : LineIndex) :
    List Sibling → List Sibling → Except PatchError (List Declaration)
  | _, [] => .ok []
  | before, s :: after =>
    match s with
    | .comment _ => ofSiblings source comments lines (s :: before) after
    | .item t =>
      if t.label = .packageClause then ofSiblings source comments lines (s :: before) after
      else do
        let declared ← declaredBy source comments t
        let rest ← ofSiblings source comments lines (s :: before) after
        return ⟨t.start, t.stop, docRange? lines t.start before, declared⟩ :: rest

/-- The declarations of a file, in source order; package clauses are none. -/
def ofNodes (source : Bytes) (lines : LineIndex) (nodes : List Node) (comments : List Comment) :
    Except PatchError (List Declaration) :=
  ofSiblings source comments lines [] (siblings nodes comments)

end Declaration

end GoSplice
