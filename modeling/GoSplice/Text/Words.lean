import GoSplice.Error

/-!
# Words of a command line

A command line is cut into words at spaces, tabs and line ends.  Text between
single quotes stands for itself.  Between double quotes a backslash escapes a
double quote or a backslash and is itself elsewhere.  Outside of quotes it
escapes any character.
-/

namespace GoSplice.Words

def isSeparator (c : Char) : Bool := c = ' ' || c = '\t' || c = '\r' || c = '\n'

/-- Where a reader of words stands. -/
inductive State where
  | between
  | word
  | single
  | double
  | escape
  | escapeInDouble
  deriving Repr, DecidableEq

/-- Words of a text, where `word` holds the word begun so far, last character first. -/
def wordsFrom : State → List Char → List Char → Except WordsProblem (List String)
  | .between, _, [] => .ok []
  | .word, w, [] => .ok [String.ofList w.reverse]
  | .single, _, [] | .double, _, [] => .error .openQuotation
  | .escape, _, [] | .escapeInDouble, _, [] => .error .openEscape
  | .between, _, c :: r =>
    if isSeparator c then wordsFrom .between [] r
    else if c = '\\' then wordsFrom .escape [] r
    else if c = '\'' then wordsFrom .single [] r
    else if c = '"' then wordsFrom .double [] r
    else wordsFrom .word [c] r
  | .word, w, c :: r =>
    if isSeparator c then (wordsFrom .between [] r).map (String.ofList w.reverse :: ·)
    else if c = '\\' then wordsFrom .escape w r
    else if c = '\'' then wordsFrom .single w r
    else if c = '"' then wordsFrom .double w r
    else wordsFrom .word (c :: w) r
  | .single, w, c :: r => if c = '\'' then wordsFrom .word w r else wordsFrom .single (c :: w) r
  | .double, w, c :: r =>
    if c = '"' then wordsFrom .word w r
    else if c = '\\' then wordsFrom .escapeInDouble w r
    else wordsFrom .double (c :: w) r
  | .escape, w, c :: r => wordsFrom .word (c :: w) r
  | .escapeInDouble, w, c :: r =>
    if c = '"' ∨ c = '\\' then wordsFrom .double (c :: w) r
    else wordsFrom .double (c :: '\\' :: w) r

/-- The words of a command line. -/
def ofText (s : String) : Except WordsProblem (List String) := wordsFrom .between [] s.toList

end GoSplice.Words
