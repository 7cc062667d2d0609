/-
# Events

What happens to a line is recorded as a list of events, in the order in which they happen.  An
event has a level, a message and named fields; the level tells the single steps of a sum, of
which there may be many, from the rest.
-/
import SignedSum.Fault

namespace SignedSum

/-- How much detail an event is. -/
inductive Level where
  | debug
  | trace
deriving DecidableEq

/-- The name of a level. -/
def Level.text : Level → String
  | debug => "DEBUG"
  | trace => "TRACE"

/-- Something that happens to a line. -/
inductive Event where
  /-- The line has a form: its tokens, spaced, and the name that it assigns to. -/
  | parsed (line tokens : String) (target : Option String)
  /-- The tokens to be evaluated have been put in order: the tokens, spaced. -/
  | ordered (tokens : String)
  /-- A sign has been applied. -/
  | applied (left : Value) (sign : String) (right result : Value)
  /-- A name has got a value. -/
  | assigned (name : String) (value : Value)
  /-- The line looks like a command but is none. -/
  | unsupported (command : String)
  /-- The line has no answer. -/
  | failed (line : String) (fault : Fault)
deriving DecidableEq

/-- The content of a field. -/
inductive Datum where
  | text (s : String)
  | value (v : Value)
deriving DecidableEq

namespace Event

/-- The level of an event. -/
def level : Event → Level
  | applied .. => .trace
  | _ => .debug

/-- The message of an event. -/
def message : Event → String
  | parsed .. => "parsed expression"
  | ordered _ => "converted to postfix"
  | applied .. => "applied operator"
  | assigned .. => "assigned variable"
  | unsupported _ => "unsupported command"
  | failed .. => "evaluation failed"

/-- The target of an assignment, if there is one, as the log shows it. -/
def shownTarget : Option String → String
  | none => "None"
  | some name => "Some(" ++ Text.quoted name ++ ")"

/-- The fields of an event. -/
def fields : Event → List (String × Datum)
  | parsed line tokens target =>
    [("line", .text line), ("infix", .text tokens), ("target", .text (shownTarget target))]
  | ordered tokens => [("postfix", .text tokens)]
  | applied left sign right result =>
    [("operand2", .value left), ("op", .text sign), ("operand1", .value right),
      ("result", .value result)]
  | assigned name value => [("name", .text name), ("value", .value value)]
  | unsupported command => [("command", .text command)]
  | failed line fault => [("line", .text line), ("error", .text fault.shown)]

/-- Whether a log of the given level shows an event. -/
def shownAt (l : Level) (e : Event) : Bool := l = .trace || e.level = .debug

end Event
end SignedSum
