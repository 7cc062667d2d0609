/-
# Runs of the program

A run reads lines from its input, hands them to a session and prints the replies, a line for
each.  It ends with the input, with the command to exit or with a line that cannot be read, and
then says farewell, unless it has been told to be quiet.

A run is described by `dispatch`, which says whether there is a session at all, by `turn`, which
says what becomes of one line, and by `converse`, which goes through all of them.  What a run does
to the world is a transcript: what it prints on the two output channels, and its exit code.
-/
import SignedSum.Options
import SignedSum.Session
import SignedSum.Text.Lines

namespace SignedSum
namespace Console

/-! ## The conversation -/

/-- What becomes of one line. -/
inductive Turn where
  /-- The session goes on, after a text has been printed, if there is one. -/
  | goOn (session : Session) (shown : Option String)
  /-- The conversation is over, because of a fault, if there is one. -/
  | over (trouble : Option ReadFault)
deriving DecidableEq

/-- Takes one line, or the news that it cannot be read. -/
def turn (s : Session) : Except ReadFault String → Turn
  | .error fault => .over (some fault)
  | .ok line =>
    let response := s.handle line
    match response.reply with
    | .silence => .goOn response.session none
    | .text shown => .goOn response.session (some shown)
    | .stop => .over none

/-- A whole conversation: the texts that have been printed, the session at the end, and the fault
that ended it, if one did. -/
structure Talk where
  shown : List String
  session : Session
  trouble : Option ReadFault
deriving DecidableEq

/-- Takes lines until one of them ends the conversation. -/
def converse (s : Session) : List (Except ReadFault String) → Talk
  | [] => ⟨[], s, none⟩
  | line :: rest =>
    match turn s line with
    | .over trouble => ⟨[], s, trouble⟩
    | .goOn next shown =>
      let later := converse next rest
      { later with shown := shown.toList ++ later.shown }

section Converse

variable {s next : Session} {line : Except ReadFault String} {shown : Option String}
  {trouble : Option ReadFault} {rest : List (Except ReadFault String)}

@[simp] theorem converse_nil : converse s [] = ⟨[], s, none⟩ := rfl

/-- What follows the end of a conversation does not matter. -/
theorem converse_over (h : turn s line = .over trouble) :
    converse s (line :: rest) = ⟨[], s, trouble⟩ := by
  rw [converse, h]

theorem converse_goOn (h : turn s line = .goOn next shown) :
    converse s (line :: rest) =
      { converse next rest with shown := shown.toList ++ (converse next rest).shown } := by
  rw [converse, h]

end Converse

/-! ## The transcript -/

/-- What a run does: its exit code and what it prints on its two channels. -/
structure Transcript where
  code : Nat
  out : String
  err : String
deriving DecidableEq

/-- Texts as they are printed, one on each line. -/
def printed (texts : List String) : String := String.join (texts.map (· ++ "\n"))

/-- What is printed at the end. -/
def closing (quiet : Bool) : List String := if quiet then [] else [Session.farewell]

/-- The transcript of a session that is read from the given lines. -/
def transcript (quiet : Bool) (lines : List (Except ReadFault String)) : Transcript :=
  let talk := converse {} lines
  { code := 0
    out := printed (talk.shown ++ closing quiet)
    err := printed (talk.trouble.toList.map ReadFault.message) }

/-- What stands where a file is looked for. -/
inductive Source where
  | missing
  | folder
  | file (bytes : List UInt8)
deriving DecidableEq

/-- What is printed about a file that cannot be opened. -/
def missingText (path : String) : String :=
  "Failed to read the input file '" ++ path ++ "'. Perhaps this file does not exist?"

/-- The transcript of a run that cannot open its file. -/
def unopened (path : String) : Transcript := ⟨1, "", printed [missingText path]⟩

/-- The transcript of a session that is read from a source with the given name. -/
def transcriptOf (quiet : Bool) (path : String) : Source → Transcript
  | .missing => unopened path
  | .folder => transcript quiet [.error .folder]
  | .file bytes => transcript quiet (Text.readLines bytes)

/-! ## Runs -/

/-- What a request leads to: the options of a session, or, for any other request, the whole
transcript of the run.  A misused command line is answered with the lines of the help text on the
error channel and the exit code 2; what is wrong with it is not said. -/
def dispatch : Request → Except Transcript Options
  | .help => .error ⟨0, printed usageLines, ""⟩
  | .version => .error ⟨0, printed [versionText], ""⟩
  | .misuse => .error ⟨2, "", printed usageLines⟩
  | .session options => .ok options

/-- The transcript of a run: from its command line, its standard input and the files that it
finds. -/
def run (words : List String) (input : List UInt8) (look : String → Source) : Transcript :=
  match dispatch (Request.ofWords words) with
  | .error done => done
  | .ok options =>
    match options.file with
    | none => transcript options.quiet (Text.readLines input)
    | some path => transcriptOf options.quiet path (look path)

section Run

variable {words : List String} {input : List UInt8} {look : String → Source} {quiet : Bool}
  {path : String}

/-- A session without a file is read from the standard input. -/
theorem run_of_input (h : Request.ofWords words = .session ⟨none, quiet⟩) :
    run words input look = transcript quiet (Text.readLines input) := by
  rw [run, h]
  rfl

/-- A session with a file is read from what stands there. -/
theorem run_of_file (h : Request.ofWords words = .session ⟨some path, quiet⟩) :
    run words input look = transcriptOf quiet path (look path) := by
  rw [run, h]
  rfl

end Run

end Console
end SignedSum
