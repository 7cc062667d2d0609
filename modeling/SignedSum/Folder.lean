/-
# Folders

A folder given by the files in it, for runs of the program that are to be carried out or
reasoned about without a file system.  All that is known of the world outside the folder is that
other folders are there: the parent of every folder, and the root.

A path is followed step by step.  An empty step and a single dot stay where they are, two dots
lead outside, and a name leads to a file of the folder.  No step leads on from a file.
-/
import SignedSum.Console

namespace SignedSum

/-- The files of a folder, by name. -/
structure Folder where
  files : List (String × List UInt8) := []
deriving DecidableEq

namespace Folder

/-- Where a path leads. -/
inductive Place where
  | inside
  | outside
  | file (bytes : List UInt8)
deriving DecidableEq

/-- Follows one step of a path. -/
def follow (folder : Folder) (place : Place) (step : List Char) : Option Place :=
  match place with
  | .file _ => none
  | .inside =>
    if step = [] ∨ step = ['.'] then some .inside
    else if step = ['.', '.'] then some .outside
    else (folder.files.lookup (String.ofList step)).map Place.file
  | .outside =>
    if step = [] ∨ step = ['.'] ∨ step = ['.', '.'] then some .outside else none

/-- What a path leads to. -/
def look (folder : Folder) (path : String) : Console.Source :=
  let start : Place := if path.toList.head? = some '/' then .outside else .inside
  match (path.toList.splitOn '/').foldlM folder.follow start with
  | none => .missing
  | some (.file bytes) => .file bytes
  | some _ => .folder

end Folder
end SignedSum
