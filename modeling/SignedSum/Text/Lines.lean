/-
# Lines of bytes

Input is a sequence of bytes.  A line feed ends a line, and a carriage return right before it is
dropped with it; what stands after the last line feed is a line too, unless it is empty, and
keeps all its bytes.

A line is read as UTF-8, and one that is not valid cannot be read.  Whether it can is decided
line by line, so a line in front of such a one is not affected by it.
-/

namespace SignedSum

/-- Why a line cannot be read: the input is a folder, or the line is not valid UTF-8. -/
inductive ReadFault where
  | folder
  | notUtf8
deriving DecidableEq

/-- The sentence that is printed. -/
def ReadFault.message : ReadFault → String
  | folder => "Failed to read input: Is a directory (os error 21)"
  | notUtf8 => "Failed to read input: stream did not contain valid UTF-8"

namespace Text

/-- The byte that ends a line. -/
def lineFeed : UInt8 := 10

/-- The byte that may stand before the end of a line. -/
def carriageReturn : UInt8 := 13

/-- Cuts bytes after every line feed.  Every piece ends in a line feed, but for the last one,
which may also lack it; none is empty. -/
def pieces : List UInt8 → List (List UInt8)
  | [] => []
  | b :: rest =>
    if b = lineFeed then [b] :: pieces rest
    else match pieces rest with
      | [] => [[b]]
      | piece :: later => (b :: piece) :: later

/-- The bytes of a line: a piece without its line feed and the carriage return before that. -/
def lineOfPiece (piece : List UInt8) : List UInt8 :=
  if piece.getLast? = some lineFeed then
    if piece.dropLast.getLast? = some carriageReturn then piece.dropLast.dropLast
    else piece.dropLast
  else piece

/-- The text of a line. -/
def decode (line : List UInt8) : Except ReadFault String :=
  match String.fromUTF8? line.toByteArray with
  | some s => .ok s
  | none => .error .notUtf8

/-- The line that a piece holds. -/
def readPiece (piece : List UInt8) : Except ReadFault String := decode (lineOfPiece piece)

/-- The lines of some bytes, each with what comes of reading it. -/
def readLines (bytes : List UInt8) : List (Except ReadFault String) :=
  (pieces bytes).map readPiece

end Text
end SignedSum
