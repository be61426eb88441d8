import GoSplice.Number.Shortest
import GoSplice.Text.Blank
import GoSplice.Error

/-!
# Formatters

A formatter is a program that reads a source file and writes it anew.  Here it
is what it answers to each run: the number of runs before, the command, the
time limit and the input decide.  An answer of a program that ends well and is
as long as the shortest source file is taken as it is.
-/

namespace GoSplice

/-- One run of a formatter. -/
structure FormatRun where
  command : List String
  timeout : Binary64
  input : Bytes
  deriving Repr, DecidableEq

inductive FormatReply where
  | exited (status : Int) (output errors : Bytes)
  | timedOut
  /-- The program does not exist. -/
  | missing
  /-- The system refuses to run it. -/
  | refused (e : LayerError)
  deriving Repr, DecidableEq

/-- The answer to a run, given the number of runs before it. -/
abbrev Formatter := Nat → FormatRun → FormatReply

namespace Formatter

/-- The shortest source file; nothing shorter can be a formatted one. -/
def shortestFile : Bytes := bytesOf "package a\n"

/-- What a reply means for the file that was formatted. -/
def outcome (filename : String) (run : FormatRun) : FormatReply → Except PatchError Bytes
  | .missing => .error (.formatter filename (.missingProgram (run.command.headD "")) "")
  | .timedOut => .error (.formatter filename (.timedOut run.timeout.text) "")
  | .refused e => .error (.layer e)
  | .exited status output errors =>
    if status ≠ 0 then
      .error (.formatter filename (.exited status)
        (String.ofList (Text.trimBlank (Utf8.decodeLossy errors))))
    else if output.length < shortestFile.length then
      .error (.formatter filename .tooShort (textOf output))
    else .ok output

end Formatter

end GoSplice
