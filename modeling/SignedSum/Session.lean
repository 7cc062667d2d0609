/-
# Sessions

A session reads lines one after the other and keeps the table of variables between them.  A
blank line gets no reply.  A command is carried out.  Any other line is evaluated, and the reply
is its answer or the fault that it has.

A line is evaluated as it stands, with the blanks around it: they only decide whether the line
is blank or a command.
-/
import SignedSum.Command
import SignedSum.Statement

namespace SignedSum

/-- What a session does in reply to a line: nothing, or it prints a text, or it ends. -/
inductive Reply where
  | silence
  | text (s : String)
  | stop
deriving DecidableEq

/-- The state of a session: the variables with their values. -/
structure Session where
  table : Table := ∅
deriving DecidableEq

/-- What comes of a line: the reply, the session afterwards, and what has been recorded. -/
structure Response where
  reply : Reply
  session : Session
  log : List Event
deriving DecidableEq

namespace Session

/-- The reply to `/help`. -/
def helpText : String :=
  "Program calculates the expressions like these: 4 + 6 - 8, 2 - 3 - 4 and so on. " ++
    "It supports both unary and binary minuses. Enter '/exit' to terminate program. " ++
    "Enter '/vars' to show variables."

/-- The reply to a command that is not supported. -/
def unsupportedText : String := "Unsupported command"

/-- What is printed when a session is over. -/
def farewell : String := "Bye!"

/-- Carries out a command. -/
def obey (s : Session) : Command → Response
  | .help => ⟨.text helpText, s, []⟩
  | .vars => ⟨.text s.table.text, s, []⟩
  | .exit => ⟨.stop, s, []⟩
  | .unsupported command => ⟨.text unsupportedText, s, [.unsupported command]⟩

/-- Evaluates a line on the table of the session. -/
def calculate (s : Session) (line : String) : Response :=
  let done := evaluateLine line s.table
  match done.outcome with
  | .ok answer => ⟨.text answer.text, ⟨done.table⟩, done.log⟩
  | .error fault => ⟨.text fault.message, ⟨done.table⟩, done.log ++ [.failed line fault]⟩

/-- Handles a line. -/
def handle (s : Session) (line : String) : Response :=
  if Text.trim line = "" then ⟨.silence, s, []⟩
  else match Command.ofLine? line with
    | some command => s.obey command
    | none => s.calculate line

/-- Handles lines one after the other. -/
def handleAll (s : Session) : List String → List Response
  | [] => []
  | line :: rest =>
    let response := s.handle line
    response :: response.session.handleAll rest

variable {s : Session} {line : String} {command : Command}

/-! ## The three sorts of line -/

theorem handle_blank (h : Text.trim line = "") : s.handle line = ⟨.silence, s, []⟩ := by
  rw [handle, if_pos h]

theorem handle_command (h : Command.ofLine? line = some command) :
    s.handle line = s.obey command := by
  rw [handle, if_neg (Command.trim_ne_empty h), h]

theorem handle_sum (hb : Text.trim line ≠ "") (h : Command.ofLine? line = none) :
    s.handle line = s.calculate line := by
  rw [handle, if_neg hb, h]

/-- A command leaves the table as it is. -/
@[simp] theorem session_obey : (s.obey command).session = s := by cases command <;> rfl

/-- The texts that commands print. -/
theorem eq_of_reply_obey {text : String} (h : (s.obey command).reply = .text text) :
    text = helpText ∨ text = s.table.text ∨ text = unsupportedText := by
  cases command with
  | help => exact Or.inl (Reply.text.inj h).symm
  | vars => exact Or.inr (Or.inl (Reply.text.inj h).symm)
  | exit => cases h
  | unsupported => exact Or.inr (Or.inr (Reply.text.inj h).symm)

end Session
end SignedSum
