import GoSplice.Number.Shortest
import GoSplice.Number.Numeral
import GoSplice.Text.Words
import GoSplice.Validation

/-!
# Settings

How the formatter is called and how type names are spelled in file names.
Settings come from three variables of the environment, or from given values;
what is not given has a value of its own.
-/

namespace GoSplice

open Json (Value)

structure Settings where
  /-- The formatter and its arguments; not empty. -/
  formatter : List String
  /-- How many seconds the formatter may take. -/
  timeout : Binary64
  /-- What stands between the words of a type name in a file name. -/
  separator : String
  deriving Repr, DecidableEq

namespace Settings

def standard : Settings := ⟨["gofmt"], .ofInt 30, "-"⟩

/-! ## Given values -/

/-- A command has at least one word. -/
def command (path : List Step) (v : Value) : Checked (List String) :=
  match Checked.strings path v with
  | .valid [] => Checked.fail .tooShort path
  | checked => checked

/-- The number of seconds that a value gives; NaN is none. -/
def seconds? (path : List Step) : Value → Checked (Option Binary64)
  | .bool b => .valid (some (.ofInt (if b then 1 else 0)))
  | .number (.integer n) =>
    let x := Binary64.ofInt n
    if x.magnitude = .infinite then Checked.fail .floatType path else .valid (some x)
  | .number (.decimal negative digits exponent) =>
    .valid (some ⟨negative, .ofDecimal digits exponent⟩)
  | .number (.infinite negative) => .valid (some ⟨negative, .infinite⟩)
  | .number .nan => .valid none
  | .string s =>
    match Numeral.read? s.toList with
    | some .nan => .valid none
    | some (.number x) => .valid (some x)
    | none => Checked.fail .floatParsing path
  | _ => Checked.fail .floatType path

/-- A time limit is a positive number. -/
def timeLimit (path : List Step) (v : Value) : Checked Binary64 :=
  match seconds? path v with
  | .valid (some x) => if x.isPositive then .valid x else Checked.fail .notPositive path
  | .valid none => Checked.fail .notPositive path
  | .faulty issues => .faulty issues

/-- Settings from given values; values of other names do not count. -/
def ofValues (values : List (String × Value)) : Checked Settings :=
  Settings.mk <$> Checked.optional values [] "gofmt_command" standard.formatter command
    <*> Checked.optional values [] "format_timeout" standard.timeout timeLimit
    <*> Checked.optional values [] "file_separator" standard.separator Checked.string

/-! ## Environment -/

/-- The value of a variable, with a text to use where it is not set. -/
def lookUp (environment : List (String × String)) (name default : String) : String :=
  ((environment.find? (·.1 = name)).map (·.2)).getD default

/-- Settings from the environment.  The command is cut into words before anything is checked. -/
def ofEnvironment (environment : List (String × String)) : Except PatchError Settings :=
  match Words.ofText (lookUp environment "SRCPATCH_GOFMT" "gofmt") with
  | .error p => .error (.words p)
  | .ok words =>
    (ofValues [("gofmt_command", .array (words.map Value.string)),
      ("format_timeout", .string (lookUp environment "SRCPATCH_FORMAT_TIMEOUT" "30")),
      ("file_separator", .string (lookUp environment "SRCPATCH_FILE_SEPARATOR" "-"))]).orThrow

end Settings

end GoSplice
