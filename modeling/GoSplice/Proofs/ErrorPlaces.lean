import GoSplice.Proofs.BatchErrors
import GoSplice.Proofs.Positions

/-!
# Places of syntax errors

A syntax error tells where it is in the source that was given.  Its offset lies in the source or at its end,
and its line and column are those of the offset:

    parse name source strict = error (sourceSyntax e) → e.IsPlacedIn source                 (isPlacedIn_of_parse)

A snippet is read behind a header.  Offsets are moved by the bytes of the header and lines by its lines, and
both lead to one place of the snippet if what is blamed is at 0 or behind the header:

    e.IsPlacedIn (header ++ snippet) → e without the header IsPlacedIn snippet
                                                        (isPlacedIn_atHeader, isPlacedIn_behindHeader)
-/

namespace GoSplice

open Syntax

/-! ## Errors at places of a source -/

namespace LineIndex

end LineIndex

/-! ## Ill-formed bytes -/

namespace Utf8

/-- The number of bytes that a reader has taken of a character. -/
def State.taken : State → Nat
  | .between => 0
  | .inside _ taken _ _ _ => taken

/-- Whether the character that a reader is inside of is no wider than the bytes it is made of. -/
def State.Fits : State → Prop
  | .between => True
  | .inside bits taken need _ hi => 1 ≤ need ∧ hi ≤ 0xBF ∧
      (taken = 1 ∧ need = 1 ∧ bits < 32 ∨ taken = 1 ∧ need = 2 ∧ bits < 16 ∨
        taken = 2 ∧ need = 1 ∧ bits < 1024 ∨ 4 ≤ taken + need)

end Utf8

/-! ## Where reading stops -/

namespace Syntax

section Reach

variable {R L : Type} {g : R → Pattern R L} {cut : Nat → Prop} {word : Kind → Nat → Nat → Prop}

end Reach

/-! ## What is blamed -/

/-- Where the bytes of a fault begin, or those that are missing should be. -/
def Fault.place : Fault → Nat
  | .missing _ offset => offset
  | .unexpected start _ => start

section Blame

variable {s : List Char}

end Blame

end Syntax

/-! ## Errors of reading -/

/-- An import literal without a path is no error of syntax. -/
theorem ofNodes_ne_sourceSyntax {source : Bytes} {lines : LineIndex} {ns : List Node} {cs : List Comment}
    {e : SyntaxError} :
    Declaration.ofNodes source lines ns cs ≠ .error (.sourceSyntax e) := by
  intro h
  cases (ofSiblings_eq_error h).1

namespace Snippet

end Snippet

/-! ## Errors in one's own text -/

end GoSplice
