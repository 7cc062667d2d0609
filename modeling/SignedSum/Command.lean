/-
# Commands

A line whose first character, blanks apart, is a slash is a command, whatever follows: one of
the three that there are, or one that is not supported.  Blanks around a command do not matter.
-/
import SignedSum.Text.Blank

namespace SignedSum

/-- A line that starts with a slash: a request for the help text, one for the listing of the
variables, the end of the session, or any other text, which is kept without the blanks around
it. -/
inductive Command where
  | help
  | vars
  | exit
  | unsupported (text : String)
deriving DecidableEq

/-- The command that a line is, if it is one. -/
def Command.ofLine? (line : String) : Option Command :=
  let word := Text.trim line
  if word.toList.head? = some '/' then
    some (
      if word = "/help" then help
      else if word = "/vars" then vars
      else if word = "/exit" then exit
      else unsupported word)
  else none

/-- A command is not blank. -/
theorem Command.trim_ne_empty {line : String} {command : Command}
    (h : Command.ofLine? line = some command) : Text.trim line ≠ "" := by
  intro hb
  rw [Command.ofLine?, hb] at h
  exact absurd h (by simp)

end SignedSum
