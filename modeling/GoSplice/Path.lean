import GoSplice.Text.Quoted

/-!
# Paths

Slash separated paths.  `normalize` removes empty and `.` segments and lets each
`..` take the segment before it; a leading slash is kept, and so are exactly two.
A layer path is a normalized path below the layer's root, which is `.` itself:

    clean p   the layer path of any spelling of it, backslashes included,
              or an error if the path climbs above the root
-/

namespace GoSplice.Path

/-! ## Segments -/

/-- The texts between slashes. -/
def segments : List Char → List (List Char)
  | [] => [[]]
  | c :: r =>
    if c = '/' then [] :: segments r
    else match segments r with
      | [] => [[c]]
      | s :: ss => (c :: s) :: ss

/-- Segments with slashes between them. -/
def join : List (List Char) → List Char
  | [] => []
  | [s] => s
  | s :: ss => s ++ '/' :: join ss

def dotDot : List Char := ['.', '.']

/-- The segments kept so far, last first, and one segment more.  Below a root
there is nothing for `..` to climb to. -/
def push (rooted : Bool) (kept : List (List Char)) (s : List Char) : List (List Char) :=
  if s = [] ∨ s = ['.'] then kept
  else if s = dotDot then
    match kept with
    | [] => if rooted then [] else [dotDot]
    | t :: r => if t = dotDot then dotDot :: kept else r
  else s :: kept

/-- The segments of a normalized path. -/
def collapse (rooted : Bool) (ss : List (List Char)) : List (List Char) :=
  (ss.foldl (push rooted) []).reverse

/-! ## Normal form -/

/-- The number of slashes that a normalized path begins with. -/
def rootSlashes (p : List Char) : Nat :=
  match p with
  | '/' :: '/' :: '/' :: _ => 1
  | '/' :: '/' :: _ => 2
  | '/' :: _ => 1
  | _ => 0

/-- A path, or `.` if it is empty. -/
def orDot (p : List Char) : List Char := if p = [] then ['.'] else p

def normalizeChars (p : List Char) : List Char :=
  let slashes := rootSlashes p
  orDot (List.replicate slashes '/' ++ join (collapse (slashes != 0) (segments p)))

/-- The shortest spelling of a path, read as text alone. -/
def normalize (p : String) : String := String.ofList (normalizeChars p.toList)

/-! ## Parts -/

/-- The characters behind the last slash. -/
def baseChars (p : List Char) : List Char :=
  (p.reverse.takeWhile (· ≠ '/')).reverse

/-- The characters before the last slash, without the slashes that end them,
unless they are nothing but slashes. -/
def dirChars (p : List Char) : List Char :=
  let head := (p.reverse.dropWhile (· ≠ '/')).reverse
  if head.all (· = '/') then head else (head.reverse.dropWhile (· = '/')).reverse

/-- The last name of a path. -/
def baseName (p : String) : String := String.ofList (baseChars p.toList)

/-- All of a path but its last name. -/
def dirName (p : String) : String := String.ofList (dirChars p.toList)

/-- The directory that holds `p`, where a path of one name lies in `.`. -/
def parent (p : String) : String := String.ofList (orDot (dirChars p.toList))

def concatChars (a b : List Char) : List Char :=
  if b.head? = some '/' then b
  else if a = [] ∨ a.getLast? = some '/' then a ++ b
  else a ++ '/' :: b

/-- `b` seen from `a`: `b` itself if it begins with a slash. -/
def concat (a b : String) : String := String.ofList (concatChars a.toList b.toList)

/-- The names of a path below the root. -/
def names (p : String) : List (List Char) :=
  (segments p.toList).filter fun s => s ≠ [] && s ≠ ['.']

/-- The length of the longest common beginning. -/
def commonLength : List (List Char) → List (List Char) → Nat
  | a :: r, b :: s => if a = b then commonLength r s + 1 else 0
  | _, _ => 0

/-- The way from one layer path to another. -/
def relative (target start : String) : String :=
  let i := commonLength (names start) (names target)
  String.ofList (orDot (join
    (List.replicate ((names start).length - i) dotDot ++ (names target).drop i)))

/-! ## Layer paths -/

/-- A path that climbs above the root of its layer. -/
structure Escape where
  path : String
  deriving Repr, DecidableEq

/-- Slashes for backslashes. -/
def forwardSlashes (p : List Char) : List Char := p.map fun c => if c = '\\' then '/' else c

/-- Whether a normalized path begins with `..`. -/
def climbs (p : List Char) : Bool := p = dotDot || (dotDot ++ ['/']).isPrefixOf p

def cleanChars (p : List Char) : List Char :=
  orDot ((normalizeChars (forwardSlashes p)).dropWhile (· = '/'))

/-- The layer path that `p` spells. -/
def clean (p : String) : Except Escape String :=
  let c := cleanChars p.toList
  if climbs c then .error ⟨p⟩ else .ok (String.ofList c)

/-- The layer path of the directory that holds `p`. -/
def cleanParent (p : String) : Except Escape String := (clean p).map parent

/-! ## Trailing directories -/

/-- Whether the text of a normalized directory ends with that of another. -/
def hasSuffix (directory suffix : String) : Bool :=
  (normalizeChars suffix.toList).isSuffixOf (normalizeChars directory.toList)

/-- A directory that lacks the suffix it should be resolved from. -/
structure SuffixMismatch where
  directory : String
  /-- The suffix in normal form. -/
  suffix : String
  deriving Repr, DecidableEq

/-- The directory with `target` in the place of its trailing `suffix`. -/
def resolveTo (directory suffix target : String) : Except SuffixMismatch String :=
  if hasSuffix directory suffix then
    let dir := normalizeChars directory.toList
    let head := dir.take (dir.length - (normalizeChars suffix.toList).length)
    let resolved := normalizeChars (concatChars head (normalizeChars target.toList))
    .ok (String.ofList (if directory.toList.head? = some '/' then resolved
      else if resolved.head? = some '/' then resolved.drop 1 else resolved))
  else .error ⟨directory, normalize suffix⟩

end GoSplice.Path
