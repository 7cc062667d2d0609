/-
# Statements

A line that has a form is a statement: a sum, or an assignment of a sum to a name.  It can be
evaluated on any table, any number of times.

To evaluate a sum, the names in it give way to their values, the tokens are put in postfix order
and the stack machine reads them.  An assignment of a single numeral takes a shorter way: the
numeral is read as it stands.

An evaluation writes to the table only once the value is there, so one that fails leaves the table
as it was.  All that it does to the table can be read off its outcome, as `Table.after` does: an
answer with a name gives its value to that name, and nothing else happens (`table_evaluate`,
`table_evaluateLine`).
-/
import SignedSum.Machine
import SignedSum.Postfix
import SignedSum.Run
import SignedSum.Shape
import SignedSum.Substitution

namespace SignedSum

/-- A line that has a form: its tokens, and what it assigns to, if it is an assignment. -/
structure Statement where
  tokens : List Token
  target : Option Target
deriving DecidableEq

/-- What a line comes to: its value, and the name that gets it, if the line is an assignment. -/
structure Answer where
  value : Value
  name : Option String
deriving DecidableEq

/-- An answer as it is printed. -/
def Answer.text (a : Answer) : String :=
  match a.name with
  | some name => name ++ " = " ++ a.value.text
  | none => a.value.text

/-- What comes of an evaluation: what is recorded, the answer or a fault, and the table
afterwards. -/
@[ext] structure Evaluation (ε : Type) extends Logged ε Answer where
  table : Table

namespace Statement

/-- The form of a line. -/
def ofLine (line : String) : Logged FormFault Statement := do
  let tokens ← tokenize line
  let target ← checkShape tokens
  Logged.note (.parsed line (Token.spaced tokens) (target.map (·.name)))
  return ⟨tokens, target⟩

/-- The tokens that are evaluated: those to the right of the equals sign, or all of them. -/
def operands (s : Statement) : List Token :=
  match s.target with
  | some target => s.tokens.drop target.bodyStart
  | none => s.tokens

/-- The value of some tokens by way of postfix order and the stack machine. -/
def compute (table : Table) (tokens : List Token) : Logged ValueFault Value := do
  let substituted ← table.substitute tokens
  let ordered ← Postfix.ofTokens substituted
  Logged.note (.ordered (Token.spaced ordered))
  Postfix.evaluate ordered

/-- The literal that is all that an assignment evaluates, if it is one. -/
def literal? (s : Statement) : Option String :=
  match s.target, s.operands with
  | some _, [⟨.numeral, text⟩] => some text
  | _, _ => none

/-- The value of a statement. -/
def value (s : Statement) (table : Table) : Logged ValueFault Value :=
  match s.literal? with
  | some text => .quiet (Value.ofLiteral text)
  | none => compute table s.operands

/-- Evaluates a statement: finds its value and then, in an assignment, gives it to the target. -/
def evaluate (s : Statement) (table : Table) : Evaluation ValueFault :=
  let found := s.value table
  match found.outcome, s.target with
  | .error fault, _ => { log := found.log, outcome := .error fault, table }
  | .ok v, none => { log := found.log, outcome := .ok ⟨v, none⟩, table }
  | .ok v, some target =>
    { log := found.log ++ [.assigned target.name v]
      outcome := .ok ⟨v, some target.name⟩
      table := table.insert target.name v }

/-- Evaluates a statement `n` times in a row: each outcome, with the table after it. -/
def evaluateTimes (s : Statement) (table : Table) : Nat → List (Except ValueFault Answer × Table)
  | 0 => []
  | n + 1 =>
    let done := s.evaluate table
    (done.outcome, done.table) :: s.evaluateTimes done.table n

end Statement

/-! ## Lines -/

/-- Evaluates a line. -/
def evaluateLine (line : String) (table : Table) : Evaluation Fault :=
  let form := Statement.ofLine line
  match form.outcome with
  | .error fault => { log := form.log, outcome := .error (.form fault), table }
  | .ok s =>
    let done := s.evaluate table
    { log := form.log ++ done.log, outcome := done.outcome.mapError .value, table := done.table }

/-- Evaluates lines on one table, in order: each outcome, with the table after it. -/
def evaluateLines (table : Table) : List String → List (Except Fault Answer × Table)
  | [] => []
  | line :: rest =>
    let done := evaluateLine line table
    (done.outcome, done.table) :: evaluateLines done.table rest

variable {s : Statement} {line : String} {table : Table} {v : Value} {target : Target}

/-! ## What an evaluation does -/

namespace Statement

theorem evaluate_of_error {f : ValueFault} (h : (s.value table).outcome = .error f) :
    s.evaluate table = { log := (s.value table).log, outcome := .error f, table } := by
  simp only [evaluate, h]

theorem evaluate_of_sum (h : (s.value table).outcome = .ok v) (ht : s.target = none) :
    s.evaluate table = { log := (s.value table).log, outcome := .ok ⟨v, none⟩, table } := by
  simp only [evaluate, h, ht]

theorem evaluate_of_assignment (h : (s.value table).outcome = .ok v) (ht : s.target = some target) :
    s.evaluate table =
      { log := (s.value table).log ++ [.assigned target.name v]
        outcome := .ok ⟨v, some target.name⟩
        table := table.insert target.name v } := by
  simp only [evaluate, h, ht]

/-- What is recorded, and the outcome: those of the value, and then what the target adds. -/
theorem toLogged_evaluate (s : Statement) (table : Table) :
    (s.evaluate table).toLogged = s.value table >>= fun v =>
      ⟨(s.target.map fun target => .assigned target.name v).toList,
        .ok ⟨v, s.target.map (·.name)⟩⟩ := by
  cases h : (s.value table).outcome with
  | error f => simp only [evaluate_of_error h, bind, h]
  | ok v =>
    cases ht : s.target with
    | none =>
      simp only [evaluate_of_sum h ht, bind, h, Option.map_none, Option.toList_none,
        List.append_nil]
    | some target =>
      simp only [evaluate_of_assignment h ht, bind, h, Option.map_some, Option.toList_some]

end Statement

theorem evaluateLine_of_error {f : FormFault} (h : (Statement.ofLine line).outcome = .error f)
    (table : Table) :
    evaluateLine line table =
      { log := (Statement.ofLine line).log, outcome := .error (.form f), table } := by
  simp only [evaluateLine, h]

theorem evaluateLine_of_ok (h : (Statement.ofLine line).outcome = .ok s) (table : Table) :
    evaluateLine line table =
      { log := (Statement.ofLine line).log ++ (s.evaluate table).log
        outcome := (s.evaluate table).outcome.mapError .value
        table := (s.evaluate table).table } := by
  simp only [evaluateLine, h]

/-! ## What becomes of the table -/

namespace Table

/-- The table after an answer: the name that the answer gives, if any, has the value. -/
def record (t : Table) (a : Answer) : Table :=
  match a.name with
  | some name => t.insert name a.value
  | none => t

/-- The table after an outcome; a fault leaves the table as it was. -/
def after {ε : Type} (t : Table) : Except ε Answer → Table
  | .ok a => t.record a
  | .error _ => t

theorem after_mapError {ε δ : Type} (t : Table) (f : ε → δ) (outcome : Except ε Answer) :
    t.after (outcome.mapError f) = t.after outcome := by
  cases outcome <;> rfl

end Table

/-- **The outcome of an evaluation tells what becomes of the table.** -/
theorem table_evaluate (s : Statement) (table : Table) :
    (s.evaluate table).table = table.after (s.evaluate table).outcome := by
  cases h : (s.value table).outcome with
  | error f => rw [Statement.evaluate_of_error h, Table.after]
  | ok v =>
    cases ht : s.target with
    | none => rw [Statement.evaluate_of_sum h ht]; rfl
    | some target => rw [Statement.evaluate_of_assignment h ht]; rfl

/-- An evaluation that fails leaves the table as it was. -/
theorem table_evaluate_of_error {f : ValueFault} (h : (s.evaluate table).outcome = .error f) :
    (s.evaluate table).table = table := by
  rw [table_evaluate, h, Table.after]

/-- **The outcome of a line tells what becomes of the table.** -/
theorem table_evaluateLine (line : String) (table : Table) :
    (evaluateLine line table).table = table.after (evaluateLine line table).outcome := by
  cases h : (Statement.ofLine line).outcome with
  | error f => rw [evaluateLine_of_error h, Table.after]
  | ok s => rw [evaluateLine_of_ok h, Table.after_mapError, table_evaluate]

/-- A line that fails leaves the table as it was. -/
theorem table_evaluateLine_of_error {f : Fault} (h : (evaluateLine line table).outcome = .error f) :
    (evaluateLine line table).table = table := by
  rw [table_evaluateLine, h, Table.after]

end SignedSum
