/-
# Command-line options

The program takes an optional file to read from and a switch that leaves out the farewell.  An
option has a long name, after two hyphens, and a short one, after one hyphen; short names may be
put together in one word.  The file may stand in the same word as its option, after a long name
with an equals sign and after a short one with or without, or it may be the next word, which
then must not look like an option.

The words are read from left to right, and reading ends at the first thing that decides: a
request for the help text or the version, or a misuse.  The misuses are an unknown option, an
option given twice, a switch with a value, a file option without one or with an empty one, and
any word that is no option; a word of two hyphens alone says that no option follows, so after it
every word is a misuse.
-/

namespace SignedSum

/-- What a run of the program is told: the file to read from instead of the standard input, and
whether to leave out the farewell. -/
structure Options where
  file : Option String := none
  quiet : Bool := false
deriving DecidableEq

/-- What the command line asks for: a session, the help text, the version, or nothing that the
program knows. -/
inductive Request where
  | session (options : Options)
  | help
  | version
  | misuse
deriving DecidableEq

/-! ## Words -/

/-- One option of a word. -/
inductive Switch where
  | quiet
  | help
  | version
  /-- A file option with the file in the same word. -/
  | file (path : List Char)
  /-- A file option whose file is to be the next word. -/
  | fileAhead
  | unknown
deriving DecidableEq

namespace Switch

/-- The option with a long name. -/
def ofLong (name : List Char) : Switch :=
  if name = "quiet".toList then quiet
  else if name = "help".toList then help
  else if name = "version".toList then version
  else if name = "file".toList then fileAhead
  else if "file=".toList.isPrefixOf name then file (name.drop 5)
  else unknown

/-- The options with short names; a file option takes the rest of the word. -/
def ofShorts : List Char → List Switch
  | [] => []
  | 'q' :: rest => quiet :: ofShorts rest
  | 'h' :: rest => help :: ofShorts rest
  | 'V' :: rest => version :: ofShorts rest
  | 'f' :: rest =>
    match rest with
    | [] => [fileAhead]
    | '=' :: path => [file path]
    | path => [file path]
  | _ :: _ => [unknown]

end Switch

/-- A word of the command line: some options, the end of the options, or anything else. -/
inductive Word where
  | switches (l : List Switch)
  | closing
  | plain
deriving DecidableEq

/-- What a word is, by its hyphens. -/
def Word.ofChars : List Char → Word
  | ['-', '-'] => closing
  | '-' :: '-' :: name => switches [.ofLong name]
  | '-' :: c :: rest => switches (Switch.ofShorts (c :: rest))
  | _ => plain

/-! ## Reading the words -/

/-- What has been read of the command line. -/
structure Scan where
  options : Options := {}
  /-- Whether a file option waits for its file. -/
  waiting : Bool := false
  /-- Whether the options have been closed. -/
  closed : Bool := false
deriving DecidableEq

namespace Scan

/-- Takes a file. -/
def takeFile (s : Scan) (path : List Char) : Except Request Scan :=
  if path = [] ∨ s.options.file.isSome then .error .misuse
  else .ok { s with options.file := some (String.ofList path), waiting := false }

/-- Takes an option. -/
def takeSwitch (s : Scan) : Switch → Except Request Scan
  | .quiet =>
    if s.options.quiet then .error .misuse else .ok { s with options.quiet := true }
  | .help => .error .help
  | .version => .error .version
  | .file path => s.takeFile path
  | .fileAhead =>
    if s.options.file.isSome then .error .misuse else .ok { s with waiting := true }
  | .unknown => .error .misuse

/-- Takes a word.  A file option that waits takes a plain word and nothing else. -/
def takeWord (s : Scan) (word : String) : Except Request Scan :=
  match Word.ofChars word.toList with
  | .plain =>
    if s.waiting ∧ ¬ s.closed then s.takeFile word.toList else .error .misuse
  | .switches l =>
    if s.waiting ∨ s.closed then .error .misuse else l.foldlM takeSwitch s
  | .closing =>
    if s.waiting ∨ s.closed then .error .misuse else .ok { s with closed := true }

end Scan

/-- What the words of a command line ask for. -/
def Request.ofWords (words : List String) : Request :=
  match words.foldlM Scan.takeWord {} with
  | .error request => request
  | .ok s => if s.waiting then .misuse else .session s.options

/-- The version, as it is printed. -/
def versionText : String := "additive 0.1.0"

/-- The help text, line by line. -/
def usageLines : List String :=
  ["Interpreter for left-to-right additive integer expressions with variables",
    "",
    "Usage: additive [OPTIONS]",
    "",
    "Options:",
    "  -f, --file <FILE>  Reads session lines from a file instead of standard input",
    "  -q, --quiet        Does not print the farewell message when the session ends",
    "  -h, --help         Print help",
    "  -V, --version      Print version"]

end SignedSum
