/-
# Decimal text

An integer is written with as few digits as possible, after a minus sign if it is negative.
It is read more freely: one sign of either sort may stand in front, zeros may lead, and any
number of digits may follow, as long as there is one.

So reading accepts many spellings of one integer and writing chooses one of them, and
`read?_print` says that the chosen one reads back.  The fewest-digits part is the library's
`Nat.toDigits`; what is added here is the sign.
-/

namespace SignedSum
namespace Decimal

/-- The decimal text of an integer. -/
def print : Int → List Char
  | .ofNat n => Nat.toDigits 10 n
  | .negSucc n => '-' :: Nat.toDigits 10 (n + 1)

/-- The number that a nonempty list of digits stands for. -/
def readDigits? (ds : List Char) : Option Nat :=
  if ds ≠ [] ∧ ds.all Char.isDigit then some (Nat.ofDigitChars 10 ds 0) else none

/-- The integer that a decimal text stands for: at most one sign, then digits alone. -/
def read? : List Char → Option Int
  | '+' :: ds => (readDigits? ds).map Int.ofNat
  | '-' :: ds => (readDigits? ds).map fun n => -Int.ofNat n
  | ds => (readDigits? ds).map Int.ofNat

/-! ## Digits -/

theorem readDigits?_eq_some {ds : List Char} {n : Nat} :
    readDigits? ds = some n ↔
      (ds ≠ [] ∧ ∀ c ∈ ds, c.isDigit = true) ∧ n = Nat.ofDigitChars 10 ds 0 := by
  by_cases h : ds ≠ [] ∧ ds.all Char.isDigit = true
  · rw [readDigits?, if_pos h, Option.some.injEq]
    exact ⟨fun hn => ⟨⟨h.1, List.all_eq_true.1 h.2⟩, hn.symm⟩, fun hn => hn.2.symm⟩
  · rw [readDigits?, if_neg h]
    exact ⟨fun hn => (by cases hn), fun hn => absurd ⟨hn.1.1, List.all_eq_true.2 hn.1.2⟩ h⟩

theorem isDigit_of_mem_toDigits {c : Char} {n : Nat} (h : c ∈ Nat.toDigits 10 n) :
    c.isDigit = true :=
  Nat.isDigit_of_mem_toDigits (by decide) (by decide) h

theorem readDigits?_toDigits (n : Nat) : readDigits? (Nat.toDigits 10 n) = some n := by
  refine readDigits?_eq_some.2 ⟨⟨Nat.toDigits_ne_nil, fun c hc => isDigit_of_mem_toDigits hc⟩, ?_⟩
  rw [Nat.ofDigitChars_toDigits (by decide) (by decide)]

/-! ## The sign -/

/-- Without a sign in front the whole text is digits. -/
theorem read?_unsigned {ds : List Char} (h : ∀ c ∈ ds, c.isDigit = true) :
    read? ds = (readDigits? ds).map Int.ofNat := by
  cases ds with
  | nil => rfl
  | cons c ds =>
    have hc : c.isDigit = true := h c (by simp)
    have hplus : c ≠ '+' := by rintro rfl; exact absurd hc (by decide)
    have hminus : c ≠ '-' := by rintro rfl; exact absurd hc (by decide)
    rw [read?]
    · intro _ he; exact hplus (List.cons.inj he).1
    · intro _ he; exact hminus (List.cons.inj he).1

theorem print_ne_nil (n : Int) : print n ≠ [] := by
  cases n with
  | ofNat n => exact Nat.toDigits_ne_nil
  | negSucc n => exact List.cons_ne_nil _ _

/-- What is written are digits and a minus sign. -/
theorem isDigit_or_eq_minus_of_mem_print {c : Char} {n : Int} (h : c ∈ print n) :
    c.isDigit = true ∨ c = '-' := by
  cases n with
  | ofNat n => exact Or.inl (isDigit_of_mem_toDigits h)
  | negSucc n =>
    rcases List.mem_cons.1 h with h | h
    · exact Or.inr h
    · exact Or.inl (isDigit_of_mem_toDigits h)

/-- **What is written reads back.** -/
theorem read?_print (n : Int) : read? (print n) = some n := by
  cases n with
  | ofNat n =>
    rw [print, read?_unsigned fun c hc => isDigit_of_mem_toDigits hc, readDigits?_toDigits]
    rfl
  | negSucc n =>
    rw [print, read?, readDigits?_toDigits]
    rfl

end Decimal
end SignedSum
