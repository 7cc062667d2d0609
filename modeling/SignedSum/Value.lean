/-
# Values

Every number of the calculator is a value: an integer of the signed 32-bit range.  Arithmetic
on values is integer arithmetic that gives no result when the result would leave the range;
nothing wraps around and nothing is cut off.  `Value.ofInt?` is the one place where the range
is tested, and `Value.ofInt?_eq_some` is all that the rest of the library needs to know of it:
what it returns is the integer it was given.
-/
import SignedSum.Decimal

namespace SignedSum

/-- An integer from `-2^31` to `2^31 - 1`. -/
@[ext] structure Value where
  /-- The integer itself. -/
  toInt : Int
  least_le : -2147483648 ≤ toInt := by decide
  le_greatest : toInt ≤ 2147483647 := by decide
deriving DecidableEq

namespace Value

def zero : Value where
  toInt := 0

instance : Inhabited Value := ⟨zero⟩

/-- The integer `n` as a value, or `none` if it is out of range. -/
def ofInt? (n : Int) : Option Value :=
  if h : -2147483648 ≤ n ∧ n ≤ 2147483647 then some ⟨n, h.1, h.2⟩ else none

/-- The decimal text of a value. -/
def text (v : Value) : String := String.ofList (Decimal.print v.toInt)

/-- The value that a decimal text stands for, or `none` if the text is no decimal number or the
number is out of range. -/
def read? (s : String) : Option Value := (Decimal.read? s.toList).bind ofInt?

@[simp] theorem toInt_zero : zero.toInt = 0 := rfl

theorem ofInt?_eq_some {n : Int} {v : Value} : ofInt? n = some v ↔ v.toInt = n := by
  have hl := v.least_le
  have hg := v.le_greatest
  by_cases h : -2147483648 ≤ n ∧ n ≤ 2147483647
  · rw [ofInt?, dif_pos h, Option.some.injEq, Value.ext_iff]
    exact eq_comm
  · rw [ofInt?, dif_neg h]
    simp only [reduceCtorEq, false_iff]
    omega

theorem ofInt?_eq_none {n : Int} : ofInt? n = none ↔ n < -2147483648 ∨ 2147483647 < n := by
  by_cases h : -2147483648 ≤ n ∧ n ≤ 2147483647
  · rw [ofInt?, dif_pos h]
    simp only [reduceCtorEq, false_iff]
    omega
  · rw [ofInt?, dif_neg h]
    simp only [true_iff]
    omega

@[simp] theorem ofInt?_toInt (v : Value) : ofInt? v.toInt = some v := ofInt?_eq_some.2 rfl

@[simp] theorem toList_text (v : Value) : v.text.toList = Decimal.print v.toInt :=
  String.toList_ofList

/-- **A value survives being written and read.** -/
@[simp] theorem read?_text (v : Value) : read? v.text = some v := by
  rw [read?, toList_text, Decimal.read?_print]
  exact ofInt?_toInt v

theorem text_injective {v w : Value} (h : v.text = w.text) : v = w := by
  have hv := read?_text v
  rw [h, read?_text w] at hv
  exact (Option.some.inj hv).symm

end Value
end SignedSum
