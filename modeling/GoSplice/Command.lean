/-!
# Commands

The commands of the program and how they are spelled on a command line.
Options may stand before and behind the other words of a command; the last of
those that exclude each other counts, and behind `--` there are none.

    ofWords? ws = none   the words spell no command
-/

namespace GoSplice

/-- How snippets are applied. -/
structure ApplyOptions where
  /-- The package directory, seen from the working directory. -/
  package : String
  /-- The file to write to; by default each snippet names its own. -/
  file : Option String
  replace : Bool
  dryRun : Bool
  noFormat : Bool
  deriving Repr, DecidableEq

inductive Command where
  /-- Applies the transforms of some files to a package. -/
  | apply (sources : List String) (options : ApplyOptions)
  /-- Shows the transforms of a snippet. -/
  | transforms (snippet : String) (file : Option String)
  /-- Shows where a type is declared. -/
  | findType (name package : String) (loose : Bool)
  deriving Repr, DecidableEq

namespace Command

/-! ## Options -/

/-- What an option says. -/
inductive Switch where
  | package | file | replace | keep | dryRun | noFormat | loose | exact | verbose
  deriving Repr, DecidableEq

/-- A spelling of an option, and whether a value follows it. -/
structure Spelling where
  word : String
  option : Switch
  takesValue : Bool

/-- Options as they were given, with their values. -/
abbrev Given := List (Switch × String)

/-- Options and the other words of a command line. -/
abbrev Reading := Option (Given × List String)

def programOptions : List Spelling := [⟨"--verbose", .verbose, false⟩, ⟨"-v", .verbose, false⟩]

def packageOptions : List Spelling := [⟨"--package", .package, true⟩, ⟨"-p", .package, true⟩]

def applyOptions : List Spelling :=
  packageOptions ++ [⟨"--file", .file, true⟩, ⟨"--replace", .replace, false⟩,
    ⟨"--no-replace", .keep, false⟩, ⟨"--dry-run", .dryRun, false⟩, ⟨"--no-fmt", .noFormat, false⟩]

def transformsOptions : List Spelling := [⟨"--file", .file, true⟩]

def findOptions : List Spelling :=
  packageOptions ++ [⟨"--loose", .loose, false⟩, ⟨"--no-loose", .exact, false⟩]

def spelling? (spellings : List Spelling) (word : List Char) : Option Spelling :=
  spellings.find? (·.word.toList = word)

/-! ## Reading options -/

/-- What one word of options gives: options, and one more that takes the next word. -/
structure WordReading where
  given : Given
  needsValue : Option Switch

/-- Letters behind a single dash: options without value, up to one that takes
the rest of the word, or else the next word, as its value. -/
def letters? (spellings : List Spelling) : List Char → Option WordReading
  | [] => some ⟨[], none⟩
  | c :: r => do
    let s ← spelling? spellings ['-', c]
    if s.takesValue then
      return if r.isEmpty then ⟨[], some s.option⟩ else ⟨[(s.option, String.ofList r)], none⟩
    else
      let rest ← letters? spellings r
      return { rest with given := (s.option, "") :: rest.given }

/-- A word behind two dashes, with its value behind an equals sign. -/
def long? (spellings : List Spelling) (word : List Char) : Option WordReading := do
  let name := word.takeWhile (· ≠ '=')
  let s ← spelling? spellings name
  match word.drop name.length with
  | [] => return if s.takesValue then ⟨[], some s.option⟩ else ⟨[(s.option, "")], none⟩
  | _ :: value => if s.takesValue then return ⟨[(s.option, String.ofList value)], none⟩ else none

/-- Whether a word is one of options. -/
def isOptionWord (word : List Char) : Bool :=
  match word with
  | '-' :: _ :: _ => true
  | _ => false

def optionWord? (spellings : List Spelling) (word : List Char) : Option WordReading :=
  match word with
  | '-' :: '-' :: _ => long? spellings word
  | _ => letters? spellings (word.drop 1)

/-- Options in front of other words. -/
def before (given : Given) (r : Reading) : Reading := r.map fun (g, ws) => (given ++ g, ws)

/-- Reads the words of a command; without `mixed`, options end at the first
other word.  `pending` is an option that waits for its value. -/
def read (spellings : List Spelling) (mixed : Bool) : Option Switch → List String → Reading
  | some _, [] => none
  | none, [] => some ([], [])
  | some o, w :: ws => before [(o, w)] (read spellings mixed none ws)
  | none, w :: ws =>
    if w = "--" then some ([], ws)
    else if isOptionWord w.toList then
      match optionWord? spellings w.toList with
      | none => none
      | some r => before r.given (read spellings mixed r.needsValue ws)
    else if mixed then (read spellings mixed none ws).map fun (g, rest) => (g, w :: rest)
    else some ([], w :: ws)

/-! ## Commands -/

/-- The last value given to an option. -/
def lastValue? (given : Given) (o : Switch) : Option String := given.reverse.lookup o

/-- Whether `yes` was given, and `no` not behind it. -/
def isOn (given : Given) (yes no : Switch) : Bool :=
  (given.reverse.find? fun (o, _) => o = yes || o = no).any (·.1 = yes)

/-- The value of an option that names a file; an empty one names none. -/
def file? (given : Given) : Option String := (lastValue? given .file).filter (!·.isEmpty)

def package (given : Given) : String := (lastValue? given .package).getD "."

/-- The command of a name, with its words. -/
def ofCommand? (name : String) (words : List String) : Option Command :=
  match name with
  | "apply" => do
    let (g, sources) ← read applyOptions true none words
    let options : ApplyOptions := {
      package := package g, file := file? g, replace := isOn g .replace .keep
      dryRun := isOn g .dryRun .dryRun, noFormat := isOn g .noFormat .noFormat }
    if sources.isEmpty then none else return .apply sources options
  | "transforms" =>
    match read transformsOptions true none words with
    | some (g, [snippet]) => some (.transforms snippet (file? g))
    | _ => none
  | "find-type" =>
    match read findOptions true none words with
    | some (g, [name]) => some (.findType name (package g) (isOn g .loose .exact))
    | _ => none
  | _ => none

/-- The command that the words of a command line spell. -/
def ofWords? (words : List String) : Option Command :=
  match read programOptions false none words with
  | some (_, name :: rest) => ofCommand? name rest
  | _ => none

end Command

end GoSplice
