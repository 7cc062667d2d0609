/-
# Arithmetic with faults

Reading a literal and combining two values, as the evaluation of a line does it: an outcome that
is not a value is a fault, which names the literal or the sum that is out of range.  Both
operations say nothing new about numbers; `Value.ofLiteral_eq_ok` and `Sign.combine_eq_ok` lead
back to the integers.
-/
import SignedSum.Fault

namespace SignedSum

/-- The value of a literal.  A text that is no decimal number is out of range too. -/
def Value.ofLiteral (text : String) : Except ValueFault Value :=
  match Value.read? text with
  | some v => .ok v
  | none => .error (.outOfRange (.literal text))

/-- The sum or difference of two values. -/
def Sign.combine (s : Sign) (left right : Value) : Except ValueFault Value :=
  match s.combine? left right with
  | some v => .ok v
  | none => .error (.outOfRange (.step s left right))

theorem Value.ofLiteral_eq_ok {text : String} {v : Value} :
    Value.ofLiteral text = .ok v ↔ Value.read? text = some v := by
  rw [Value.ofLiteral]
  cases Value.read? text <;> simp

@[simp] theorem Value.ofLiteral_text (v : Value) : Value.ofLiteral v.text = .ok v :=
  Value.ofLiteral_eq_ok.2 (Value.read?_text v)

theorem Sign.combine_eq_ok {s : Sign} {left right v : Value} :
    s.combine left right = .ok v ↔ v.toInt = s.apply left.toInt right.toInt := by
  rw [← Sign.combine?_eq_some, Sign.combine]
  cases s.combine? left right <;> simp

end SignedSum
