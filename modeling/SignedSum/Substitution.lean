/-
# Substitution

Before a sum is evaluated, every name in it gives way to the numeral of its value.  The first
name without a value is a fault, wherever it stands and whatever is wrong besides.

The numeral of a value may be negative, which no numeral of a line is; reading it gives the value
back all the same.
-/
import SignedSum.Fault
import SignedSum.Table

namespace SignedSum

/-- The token with the value of its name in place of the name. -/
def Token.resolve (table : Table) (t : Token) : Except ValueFault Token :=
  if t.kind = .name then
    match table.get? t.text with
    | some v => .ok (Token.ofValue v)
    | none => .error (.unbound t.text)
  else .ok t

/-- The tokens with values in place of names. -/
def Table.substitute (table : Table) (tokens : List Token) : Except ValueFault (List Token) :=
  tokens.mapM (Token.resolve table)

variable {table : Table} {t : Token} {v : Value}

theorem Token.resolve_of_ne (h : t.kind ≠ .name) : t.resolve table = .ok t := by
  rw [resolve, if_neg h]

theorem Token.resolve_bound (h : t.kind = .name) (hv : table.get? t.text = some v) :
    t.resolve table = .ok (ofValue v) := by
  rw [resolve, if_pos h, hv]

theorem Token.resolve_unbound (h : t.kind = .name) (hv : table.get? t.text = none) :
    t.resolve table = .error (.unbound t.text) := by
  rw [resolve, if_pos h, hv]

@[simp] theorem Table.substitute_nil : table.substitute [] = .ok [] := rfl

theorem Table.substitute_cons (ts : List Token) :
    table.substitute (t :: ts) = do
      let u ← t.resolve table
      let us ← table.substitute ts
      return u :: us := by
  rw [substitute, List.mapM_cons]
  rfl

end SignedSum
