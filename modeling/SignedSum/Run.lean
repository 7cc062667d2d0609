/-
# Runs of characters

A line is cut into runs, at every change from one group of characters to another.  Digits form
a group, letters form one, the two signs together form one, and so do the equals sign and the
space.  So a run is as long as it can be, and a space always ends one.  A character that belongs to
none of these groups is a run by itself.

A run of digits or letters is a token with the run as its text.  A run of signs or of equals
signs is one operator.  A run of spaces is nothing.  A character that belongs nowhere is a fault,
and since the runs are read from left to right, the fault of a line names the first such character,
whatever else the line holds.

The groups are those of the rules by which a line is cut.  The kinds of single characters are a
classification of their own, and `Group.ofChar_eq` says that the two agree.
-/
import SignedSum.Fault

namespace SignedSum

/-! ## Groups of characters -/

/-- The groups of characters that make up runs: the digits, the letters, the two signs, the equals
sign, the space, and everything else. -/
inductive Group where
  | digit
  | letter
  | sign
  | equals
  | space
  | foreign
deriving DecidableEq

namespace Group

/-- The group of a character; digits and letters are those of ASCII. -/
def ofChar (c : Char) : Group :=
  if c = ' ' then space
  else if c.isDigit then digit
  else if c.isAlpha then letter
  else if c = '+' ∨ c = '-' then sign
  else if c = '=' then equals
  else foreign

/-- Whether a character goes on with the run of the one before it.  A character that belongs
nowhere starts no run that could go on. -/
def same (c d : Char) : Bool := ofChar c = ofChar d ∧ ofChar c ≠ foreign

/-- The group of the characters of a kind. -/
def ofKind : Kind → Group
  | .numeral => digit
  | .name => letter
  | .sign _ => sign
  | .equals => equals
  | .foreign => foreign

/-- **Groups and kinds agree.**  The space has a group of its own and is of no kind; the group of
any other character is that of its kind. -/
theorem ofChar_eq (c : Char) :
    ofChar c = if c = ' ' then space else ofKind (Kind.ofChar c) := by
  unfold ofChar Kind.ofChar
  grind [ofKind]

/-- A character that belongs to no group is of no kind. -/
theorem kind_of_foreign {c : Char} (h : ofChar c = foreign) : Kind.ofChar c = .foreign := by
  rw [ofChar_eq] at h
  split at h
  · cases h
  · cases hk : Kind.ofChar c with
    | foreign => rfl
    | numeral | name | sign | equals => rw [hk] at h; cases h

end Group

/-- The runs of a line, from left to right. -/
def runs (line : List Char) : List (List Char) := line.splitBy Group.same

/-! ## Operators -/

/-- The operator that a run stands for: a nonempty run of equals signs is one equals sign, and a
run of signs, even an empty one, is their product. -/
def Kind.ofRun (run : List Char) : Except FormFault Kind :=
  if run ≠ [] ∧ run.all (· = '=') then .ok .equals
  else if run.all (· = '+') then .ok (.sign .plus)
  else if run.all fun c => c = '+' ∨ c = '-' then .ok (.sign (Sign.ofRun run))
  else .error (.mixedRun (String.ofList run))

/-! ## From a line to its tokens -/

/-- The fault of a run that belongs nowhere.  It names the first character of the run that is of
no kind, or else the first character of the run. -/
def FormFault.ofRun (line : String) (run : List Char) : FormFault :=
  .foreignChar (((run.find? (Kind.ofChar · = .foreign)).or run.head?).getD '\x00') line

/-- The tokens of a run of the given line: one, or none if the run is of spaces. -/
def Token.ofRun (line : String) (run : List Char) : Except FormFault (List Token) :=
  match run with
  | [] => .ok []
  | c :: _ =>
    match Group.ofChar c with
    | .digit => .ok [⟨.numeral, String.ofList run⟩]
    | .letter => .ok [⟨.name, String.ofList run⟩]
    | .sign | .equals => do
      let kind ← Kind.ofRun run
      match Token.operator? kind with
      | some token => return [token]
      | none => .error (.mixedRun (String.ofList run))
    | .space => .ok []
    | .foreign => .error (.ofRun line run)

/-- The tokens of a line. -/
def tokenize (line : String) : Except FormFault (List Token) := do
  let parts ← (runs line.toList).mapM (Token.ofRun line)
  return parts.flatten

end SignedSum
