/-
# The command line

The outer layer of the program: it reads words, bytes and files, and prints what `Console` says.
A session is carried out line by line, so that every reply appears before the next line is read;
any other transcript is printed at once.
-/
import SignedSum.Console

namespace SignedSum

open Console

/-- Reads up to the next line feed, or to the end of the input. -/
partial def nextPiece (input : IO.FS.Stream) (sofar : List UInt8) : IO (List UInt8) := do
  match (← input.read 1).toList with
  | [] => return sofar.reverse
  | b :: _ =>
    if b = Text.lineFeed then return (b :: sofar).reverse
    else nextPiece input (b :: sofar)

/-- The next line of the input, or nothing at its end. -/
def nextLine (input : IO.FS.Stream) : IO (Option (Except ReadFault String)) := do
  try
    match ← nextPiece input [] with
    | [] => return none
    | piece => return some (Text.readPiece piece)
  -- what could be opened can also be read, unless it is a folder
  catch _ => return some (.error .folder)

/-- Carries on a conversation until it is over. -/
partial def carryOn (input : IO.FS.Stream) (s : Session) : IO Unit := do
  let some line ← nextLine input | return
  match turn s line with
  | .goOn next shown =>
    shown.forM IO.println
    (← IO.getStdout).flush
    carryOn input next
  | .over trouble => trouble.forM fun fault => IO.eprintln fault.message

/-- Prints a transcript and gives its exit code. -/
def play (done : Transcript) : IO UInt32 := do
  IO.print done.out
  IO.eprint done.err
  return UInt32.ofNat done.code

/-- A whole session. -/
def hold (quiet : Bool) (input : IO.FS.Stream) : IO UInt32 := do
  carryOn input {}
  (closing quiet).forM IO.println
  return 0

/-- A session as the options say. -/
def start (options : Options) : IO UInt32 := do
  match options.file with
  | none => hold options.quiet (← IO.getStdin)
  | some path =>
    let opened ← (IO.FS.Handle.mk path .read).toBaseIO
    match opened with
    | .ok handle => hold options.quiet (IO.FS.Stream.ofHandle handle)
    | .error _ => play (unopened path)

end SignedSum

def main (words : List String) : IO UInt32 := do
  match SignedSum.Console.dispatch (SignedSum.Request.ofWords words) with
  | .error done => SignedSum.play done
  | .ok options => SignedSum.start options
