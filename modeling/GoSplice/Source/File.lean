import GoSplice.Source.Declaration

/-!
# Source files

A source file is read in four steps, and the first that fails gives the error:
its bytes are text, the text is a sequence of items, one item is a package
clause, and, where that is asked for, no item is a statement.
-/

namespace GoSplice

open Syntax

structure SourceFile where
  filename : String
  source : Bytes
  packageName : String
  /-- The end of the first package clause. -/
  clauseEnd : Nat
  /-- How many package clauses there are. -/
  clauseCount : Nat
  lines : LineIndex
  declarations : List Declaration

namespace SourceFile

/-- The number of bytes of a token that messages show. -/
def shownBytes : Nat := 32

/-- The text of a token for messages: its first line, cut short. -/
def shownToken (source : Bytes) (start stop : Nat) : String :=
  textOf (((slice source start stop).takeWhile (· ≠ LineIndex.lineFeed)).take shownBytes)

/-- The error for a file whose items were refused. -/
def refusalError (filename : String) (source : Bytes) (lines : LineIndex) (scanned : Scanned)
    (nodes : List Node) (r : Refusal) : SyntaxError :=
  match Fault.ofRefusal scanned source.length nodes r with
  | .missing mark offset => .ofOffset filename lines offset (.missing mark)
  | .unexpected start stop =>
    .ofOffset filename lines start (.unexpected (shownToken source start stop))

/-- Reads a file.  A strict reading refuses statements among the items. -/
def parse (filename : String) (source : Bytes) (strict : Bool) : Except PatchError SourceFile :=
  let lines := LineIndex.ofBytes source
  match Utf8.decode? source with
  | none =>
    let offset := (Utf8.firstInvalid? source).getD 0
    .error (.sourceSyntax (.ofOffset filename lines offset .illegalEncoding))
  | some text =>
    let scanned := scan text
    let items := itemsOf scanned.tokens scanned.lastBreak
    match items.refusal with
    | some r => .error (.sourceSyntax (refusalError filename source lines scanned items.nodes r))
    | none =>
      match items.nodes.find? (·.label == .packageClause) with
      | none => .error (.sourceSyntax ⟨filename, 1, 1, 0, .noPackageClause⟩)
      | some clause =>
        match if strict then items.nodes.find? (!Fault.isDeclaration ·) else none with
        | some t => .error (.sourceSyntax
            (.ofOffset filename lines t.start (.statement (shownToken source t.start t.stop))))
        | none => do
          let declarations ← Declaration.ofNodes source lines items.nodes scanned.comments
          return {
            filename, source, lines, declarations
            packageName := Declaration.childText source .name clause
            clauseEnd := clause.stop
            clauseCount := items.nodes.countP (·.label == .packageClause) }

end SourceFile

end GoSplice
