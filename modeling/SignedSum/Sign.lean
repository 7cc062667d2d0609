/-
# Signs

The two operators of the calculator are the signs `+` and `-`.  A sign is used in two ways.

Between two values it is an operation, `Sign.combine?`, which has no result when the exact sum
or difference is not a value.

In a run of sign characters, such as `--+-`, it is a factor: a run stands for one sign, the
product of its characters, which is `-` exactly when the run holds an odd number of `-`
(`Sign.ofRun`).  By `ofRun_append` the sign of a run is the product of the signs of its parts, so
any part of a run may be replaced by the sign that the part stands for.
-/
import SignedSum.Value

namespace SignedSum

/-- One of the two operators. -/
inductive Sign where
  | plus
  | minus
deriving DecidableEq

namespace Sign

/-- The character that a sign is written with. -/
def symbol : Sign → Char
  | plus => '+'
  | minus => '-'

/-! ## Signs as operations -/

/-- The integer that a sign makes of two integers. -/
def apply : Sign → Int → Int → Int
  | plus, a, b => a + b
  | minus, a, b => a - b

/-- The value that a sign makes of two values, or `none` if the exact result is no value. -/
def combine? (s : Sign) (a b : Value) : Option Value := Value.ofInt? (s.apply a.toInt b.toInt)

theorem combine?_eq_some {s : Sign} {a b v : Value} :
    s.combine? a b = some v ↔ v.toInt = s.apply a.toInt b.toInt := Value.ofInt?_eq_some

theorem combine?_eq_none {s : Sign} {a b : Value} :
    s.combine? a b = none ↔
      s.apply a.toInt b.toInt < -2147483648 ∨ 2147483647 < s.apply a.toInt b.toInt :=
  Value.ofInt?_eq_none

/-! ## Signs as factors -/

/-- The product of two signs: equal signs give `+`, different ones `-`. -/
instance : Mul Sign where
  mul
    | plus, s => s
    | minus, plus => minus
    | minus, minus => plus

@[simp] theorem plus_mul (s : Sign) : plus * s = s := rfl

@[simp] theorem mul_plus (s : Sign) : s * plus = s := by cases s <;> rfl

@[simp] theorem mul_self (s : Sign) : s * s = plus := by cases s <;> rfl

/-- The sign that a run of sign characters stands for: `-` if the number of `-` is odd. -/
def ofRun (run : List Char) : Sign := if run.count '-' % 2 = 0 then plus else minus

@[simp] theorem ofRun_nil : ofRun [] = plus := rfl

@[simp] theorem ofRun_symbol (s : Sign) : ofRun [s.symbol] = s := by cases s <;> rfl

/-- A run without `-` stands for `+`. -/
theorem ofRun_of_pluses {run : List Char} (h : ∀ c ∈ run, c = '+') : ofRun run = plus := by
  have hcount : run.count '-' = 0 := List.count_eq_zero.2 fun hc => absurd (h _ hc) (by decide)
  rw [ofRun, hcount]
  rfl

/-- **The sign of a run is the product of the signs of its parts.** -/
theorem ofRun_append (r t : List Char) : ofRun (r ++ t) = ofRun r * ofRun t := by
  rw [ofRun, List.count_append]
  by_cases hr : r.count '-' % 2 = 0
  · have h : (r.count '-' + t.count '-') % 2 = t.count '-' % 2 := by omega
    rw [h, show ofRun r = plus from if_pos hr, plus_mul, ofRun]
  · rw [show ofRun r = minus from if_neg hr]
    by_cases ht : t.count '-' % 2 = 0
    · have h : (r.count '-' + t.count '-') % 2 ≠ 0 := by omega
      rw [if_neg h, show ofRun t = plus from if_pos ht, mul_plus]
    · have h : (r.count '-' + t.count '-') % 2 = 0 := by omega
      rw [if_pos h, show ofRun t = minus from if_neg ht, mul_self]

theorem ofRun_eq_plus {run : List Char} : ofRun run = plus ↔ run.count '-' % 2 = 0 := by
  by_cases h : run.count '-' % 2 = 0 <;> simp [ofRun, h]

theorem ofRun_eq_minus {run : List Char} : ofRun run = minus ↔ run.count '-' % 2 = 1 := by
  by_cases h : run.count '-' % 2 = 0
  · simp [ofRun, h]
  · have h1 : run.count '-' % 2 = 1 := by omega
    simp [ofRun, h1]

end Sign
end SignedSum
