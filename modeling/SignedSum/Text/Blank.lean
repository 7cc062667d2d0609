/-
# Blank characters

The characters with Unicode's property `White_Space`, and the trimming of a string by them.  A
line that consists of such characters alone is blank.  The zero-width space, the byte order mark
and the ASCII separators below the space do not have the property.
-/

namespace SignedSum
namespace Text

/-- The characters with the property `White_Space`. -/
def isBlank (c : Char) : Bool :=
  let n := c.toNat
  (0x09 ≤ n && n ≤ 0x0d) || n == 0x20 || n == 0x85 || n == 0xa0 || n == 0x1680 ||
    (0x2000 ≤ n && n ≤ 0x200a) || n == 0x2028 || n == 0x2029 || n == 0x202f || n == 0x205f ||
    n == 0x3000

/-- A list of characters without the blank characters at its two ends. -/
def trimChars (cs : List Char) : List Char :=
  ((cs.dropWhile isBlank).reverse.dropWhile isBlank).reverse

/-- A string without the blank characters at its two ends. -/
def trim (s : String) : String := String.ofList (trimChars s.toList)

@[simp] theorem toList_trim (s : String) : (trim s).toList = trimChars s.toList :=
  String.toList_ofList

theorem dropWhile_isBlank_eq_nil {cs : List Char} :
    cs.dropWhile isBlank = [] ↔ ∀ c ∈ cs, isBlank c = true := by
  induction cs with
  | nil => simp
  | cons c cs ih =>
    by_cases hc : isBlank c = true
    · rw [List.dropWhile_cons_of_pos hc, ih]
      simp [hc]
    · rw [List.dropWhile_cons_of_neg hc]
      simp [hc]

/-- Trimming leaves nothing exactly of what is blank throughout. -/
theorem trimChars_eq_nil {cs : List Char} : trimChars cs = [] ↔ ∀ c ∈ cs, isBlank c = true := by
  rw [trimChars, List.reverse_eq_nil_iff, dropWhile_isBlank_eq_nil]
  constructor
  · intro h
    by_cases hd : cs.dropWhile isBlank = []
    · exact dropWhile_isBlank_eq_nil.1 hd
    · -- the character at which dropping stopped is not blank, yet it is still there
      have hb := h _ (List.mem_reverse.2 (List.head_mem hd))
      rw [List.head_dropWhile_not isBlank hd] at hb
      exact absurd hb Bool.false_ne_true
  · intro h c hc
    rw [dropWhile_isBlank_eq_nil.2 h] at hc
    exact absurd hc List.not_mem_nil

/-- Trimming keeps a first character that is not blank. -/
theorem head?_trimChars {c : Char} {cs : List Char} (hc : isBlank c = false) :
    (trimChars (c :: cs)).head? = some c := by
  have hkeep : ¬ isBlank c = true := ne_true_of_eq_false hc
  rw [trimChars, List.dropWhile_cons_of_neg hkeep, List.reverse_cons, List.dropWhile_append,
    List.dropWhile_cons_of_neg hkeep]
  split
  · rfl
  · rw [List.reverse_append]
    rfl

end Text
end SignedSum
