/-
# Substitution as a map

Names give way to values one token at a time, so unless some name has no value, substitution is
a map (`Token.resolved`); otherwise the first such name is the fault, wherever it stands.
-/
import SignedSum.Substitution

namespace SignedSum

namespace Token

/-- The token with the value of its name in place of the name, if it has one. -/
def resolved (table : Table) (t : Token) : Token :=
  if t.kind = .name then ((table.get? t.text).map ofValue).getD t else t

/-- Whether the token is a name without a value. -/
def isUnbound (table : Table) (t : Token) : Bool :=
  decide (t.kind = .name) && (table.get? t.text).isNone

variable {table : Table} {t : Token}

theorem isUnbound_iff : t.isUnbound table = true ↔ t.kind = .name ∧ t.text ∉ table.names := by
  rw [isUnbound, Bool.and_eq_true, decide_eq_true_eq, Option.isNone_iff_eq_none,
    ← Option.not_isSome_iff_eq_none, Table.get?_isSome]

theorem resolve_eq (table : Table) (t : Token) :
    t.resolve table =
      if t.isUnbound table then .error (.unbound t.text) else .ok (t.resolved table) := by
  by_cases hk : t.kind = .name
  · cases hv : table.get? t.text with
    | none => rw [resolve_unbound hk hv, if_pos (by simp [isUnbound, hk, hv])]
    | some v =>
      rw [resolve_bound hk hv, if_neg (by simp [isUnbound, hv]), resolved, if_pos hk, hv]
      rfl
  · rw [resolve_of_ne hk, if_neg (by simp [isUnbound, hk]), resolved, if_neg hk]

/-- What takes the place of a token is a sign exactly if the token is one. -/
theorem isSign_kind_resolved : (t.resolved table).kind.isSign = t.kind.isSign := by
  unfold resolved
  split
  · next hk =>
    rw [hk]
    cases hv : table.get? t.text with
    | none => simp [hk]
    | some v => rfl
  · rfl

end Token

/-- **Substitution is a map, or fails at the first name without a value.** -/
theorem Table.substitute_eq (table : Table) (ts : List Token) :
    table.substitute ts =
      match ts.find? (Token.isUnbound table) with
      | some t => .error (.unbound t.text)
      | none => .ok (ts.map (Token.resolved table)) := by
  induction ts with
  | nil => rfl
  | cons t ts ih =>
    rw [substitute_cons, Token.resolve_eq, ih]
    by_cases h : t.isUnbound table = true
    · rw [if_pos h, List.find?_cons_of_pos h]
      rfl
    · rw [if_neg h, List.find?_cons_of_neg h]
      cases ts.find? (Token.isUnbound table) <;> rfl

end SignedSum
