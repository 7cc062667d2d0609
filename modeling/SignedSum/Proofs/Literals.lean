/-
# Literals

A literal is a decimal number as it may be written: at most one sign, and digits, of which the
first ones may be zeros.  It stands for an integer (`Literal.toInt`), by the places of its digits.

* `Decimal.read?_eq_some_iff`: what is read of a text is the integer of the literal that the text
  is.
* `Value.ofLiteral_eq_ok_iff`: it is a value if it is in the range of values.
* `literals_carry_values`: with it, that a value which takes the place of a name comes unchanged
  onto the stack, although its literal may have a sign, as no numeral of a line has.
-/
import Mathlib.Data.Nat.Digits.Defs
import SignedSum.Machine
import SignedSum.Proofs.Reading
import SignedSum.Proofs.SettledTokens

namespace SignedSum

/-- The number that a digit stands for. -/
def digitValue (c : Char) : Nat := c.toNat - '0'.toNat

/-- A decimal number as it is written: at most one sign, and at least one digit. -/
structure Literal where
  /-- The sign, if there is one. -/
  sign : Option Sign
  /-- The digits, the highest one first. -/
  digits : List Char
  ne_nil : digits ≠ []
  isDigit : ∀ c ∈ digits, c.isDigit = true

namespace Literal

/-- The characters of a literal. -/
def chars (l : Literal) : List Char := (l.sign.map Sign.symbol).toList ++ l.digits

/-- The number of the digits: their sum, each times the power of ten of its place. -/
def magnitude (l : Literal) : Nat := Nat.ofDigits 10 (l.digits.reverse.map digitValue)

/-- The integer that a literal stands for. -/
def toInt (l : Literal) : Int := (l.sign.getD .plus).apply 0 l.magnitude

end Literal

/-- A numeral of a line is a literal without a sign. -/
theorem IsNumeral.exists_unsigned {s : String} (h : IsNumeral s) :
    ∃ l : Literal, l.sign = none ∧ s.toList = l.chars :=
  ⟨⟨none, s.toList, fun hnil => h.1 (String.toList_eq_nil_iff.1 hnil), h.2⟩, rfl, rfl⟩

/-! ## Reading -/

/-- Reading digits from the left gives each the place that it has from the right. -/
theorem ofDigitChars_eq_ofDigits (ds : List Char) :
    Nat.ofDigitChars 10 ds 0 = Nat.ofDigits 10 (ds.reverse.map digitValue) := by
  induction ds using List.reverseRecOn with
  | nil => rfl
  | append_singleton ds c ih =>
    rw [Nat.ofDigitChars_append, Nat.ofDigitChars_cons, Nat.ofDigitChars_nil, ih,
      List.reverse_concat, List.map_cons, Nat.ofDigits_cons, Nat.add_comm]
    rfl

namespace Decimal

theorem readDigits?_digits (l : Literal) : readDigits? l.digits = some l.magnitude :=
  readDigits?_eq_some.2 ⟨⟨l.ne_nil, l.isDigit⟩, (ofDigitChars_eq_ofDigits l.digits).symm⟩

/-- Every literal is read as its integer. -/
theorem read?_chars (l : Literal) : read? l.chars = some l.toInt := by
  have hdigits := readDigits?_digits l
  rw [Literal.chars, Literal.toInt]
  match l.sign with
  | none =>
    rw [Option.map_none, Option.toList_none, List.nil_append, read?_unsigned l.isDigit, hdigits]
    exact congrArg some (Int.zero_add _).symm
  | some .plus =>
    show (readDigits? l.digits).map Int.ofNat = _
    rw [hdigits]
    exact congrArg some (Int.zero_add _).symm
  | some .minus =>
    show (readDigits? l.digits).map (fun n => -Int.ofNat n) = _
    rw [hdigits]
    exact congrArg some (Int.zero_sub _).symm

/-- Digits that are read are those of a literal, with any sign or none. -/
theorem exists_literal {ds : List Char} {k : Nat} (h : readDigits? ds = some k)
    (sign : Option Sign) :
    ∃ l : Literal, (sign.map Sign.symbol).toList ++ ds = l.chars ∧
      l.toInt = (sign.getD .plus).apply 0 k := by
  obtain ⟨⟨hne, hd⟩, rfl⟩ := readDigits?_eq_some.1 h
  rw [ofDigitChars_eq_ofDigits]
  exact ⟨⟨sign, ds, hne, hd⟩, rfl, rfl⟩

/-- **A text is read as an integer exactly if it is a literal of the integer.** -/
theorem read?_eq_some_iff {cs : List Char} {n : Int} :
    read? cs = some n ↔ ∃ l : Literal, cs = l.chars ∧ l.toInt = n := by
  constructor
  · intro h
    unfold read? at h
    split at h
    · obtain ⟨k, hk, rfl⟩ := Option.map_eq_some_iff.1 h
      obtain ⟨l, hchars, hint⟩ := exists_literal hk (some .plus)
      exact ⟨l, hchars, hint.trans (Int.zero_add _)⟩
    · obtain ⟨k, hk, rfl⟩ := Option.map_eq_some_iff.1 h
      obtain ⟨l, hchars, hint⟩ := exists_literal hk (some .minus)
      exact ⟨l, hchars, hint.trans (Int.zero_sub _)⟩
    · obtain ⟨k, hk, rfl⟩ := Option.map_eq_some_iff.1 h
      obtain ⟨l, hchars, hint⟩ := exists_literal hk none
      exact ⟨l, hchars, hint.trans (Int.zero_add _)⟩
  · rintro ⟨l, rfl, rfl⟩
    exact read?_chars l

end Decimal

namespace Value

variable {text : String} {v : Value} {n : Int}

theorem ofLiteral_eq_ok_iff :
    ofLiteral text = .ok v ↔ ∃ l : Literal, text.toList = l.chars ∧ l.toInt = v.toInt := by
  rw [ofLiteral_eq_ok, read?, Option.bind_eq_some_iff]
  simp only [ofInt?_eq_some, Decimal.read?_eq_some_iff]
  constructor
  · rintro ⟨n, ⟨l, hchars, rfl⟩, hv⟩
    exact ⟨l, hchars, hv.symm⟩
  · rintro ⟨l, hchars, hv⟩
    exact ⟨l.toInt, ⟨l, hchars, rfl⟩, hv.symm⟩

/-- **The value of a text is the integer of the literal that it is, if that is in range.** -/
theorem exists_ofLiteral_iff :
    (∃ v, ofLiteral text = .ok v ∧ v.toInt = n) ↔
      InRange n ∧ ∃ l : Literal, text.toList = l.chars ∧ l.toInt = n := by
  constructor
  · rintro ⟨v, hv, rfl⟩
    exact ⟨v.inRange, ofLiteral_eq_ok_iff.1 hv⟩
  · rintro ⟨⟨hleast, hgreatest⟩, hl⟩
    exact ⟨⟨n, hleast, hgreatest⟩, ofLiteral_eq_ok_iff.2 hl, rfl⟩

/-- The only fault of a text is that it is no literal in the range of values. -/
theorem ofLiteral_eq_error_iff {f : ValueFault} :
    ofLiteral text = .error f ↔
      f = .outOfRange (.literal text) ∧
        ∀ l : Literal, text.toList = l.chars → ¬ InRange l.toInt := by
  have hnone : read? text = none ↔ ∀ l : Literal, text.toList = l.chars → ¬ InRange l.toInt := by
    constructor
    · intro hread l hchars hrange
      obtain ⟨v, hv, -⟩ := exists_ofLiteral_iff.2 ⟨hrange, l, hchars, rfl⟩
      rw [ofLiteral_eq_ok, hread] at hv
      cases hv
    · intro h
      cases hread : read? text with
      | none => rfl
      | some v =>
        obtain ⟨l, hchars, hv⟩ := ofLiteral_eq_ok_iff.1 (ofLiteral_eq_ok.2 hread)
        exact absurd (hv ▸ v.inRange) (h l hchars)
  rw [← hnone, ofLiteral]
  cases read? text with
  | none => simp [eq_comm]
  | some v => simp

end Value

/-! ## From the table to the stack -/

variable {table : Table} {ts us : List Token} {t u : Token} {v : Value}

theorem Table.exists_getElem?_of_substitute {i : Nat} (h : table.substitute ts = .ok us)
    (ht : ts[i]? = some t) : ∃ u, us[i]? = some u ∧ t.StandsFor table u := by
  rw [substitute_eq_ok_iff] at h
  obtain ⟨hi, rfl⟩ := List.getElem?_eq_some_iff.1 ht
  have hi' : i < us.length := h.length_eq ▸ hi
  exact ⟨us[i], List.getElem?_eq_getElem hi', h.get hi hi'⟩

/-- The numeral in the place of a name pushes the value of the name. -/
theorem outcome_step_of_standsFor {m : Machine} (h : t.StandsFor table u) (hk : t.kind = .name)
    (hv : table.get? t.text = some v) :
    (m.step u).outcome = .ok { m with stack := v :: m.stack } := by
  cases h with
  | name _ hv' =>
    cases hv.symm.trans hv'
    rw [Machine.outcome_step_numeral (Token.kind_ofValue v), Token.text_ofValue,
      Value.ofLiteral_text]
    rfl
  | other hne => exact absurd hk hne

/-- **Literals carry values without loss.**

A text is read as an integer exactly if it is a literal of the integer, of any length, and the
integer is in the range of values; otherwise the fault quotes the text as it stands.  The text that
is put in the place of a name is read as the value of the name: whatever tokens a name stands
among, when substitution succeeds there is a token in its place that pushes the value of the name,
on any stack.  Among these texts are some with a sign; a numeral of a line has none. -/
theorem literals_carry_values :
    (∀ text n, (∃ v, Value.ofLiteral text = .ok v ∧ v.toInt = n) ↔
      InRange n ∧ ∃ l : Literal, text.toList = l.chars ∧ l.toInt = n) ∧
    (∀ text f, Value.ofLiteral text = .error f ↔
      f = .outOfRange (.literal text) ∧
        ∀ l : Literal, text.toList = l.chars → ¬ InRange l.toInt) ∧
    (∀ v : Value, Value.ofLiteral (Token.ofValue v).text = .ok v) ∧
    (∀ (table : Table) ts us, table.substitute ts = .ok us →
      ∀ (i : Nat) t v, ts[i]? = some t → t.kind = .name → table.get? t.text = some v →
        ∃ u, us[i]? = some u ∧
          ∀ m : Machine, (m.step u).outcome = .ok { m with stack := v :: m.stack }) ∧
    ∀ line ts, tokenize line = .ok ts → ∀ t ∈ ts, t.kind = .numeral →
      ∃ l : Literal, l.sign = none ∧ t.text.toList = l.chars := by
  refine ⟨fun _ _ => Value.exists_ofLiteral_iff, fun _ _ => Value.ofLiteral_eq_error_iff,
    Value.ofLiteral_text, ?_, ?_⟩
  · intro table ts us hsub i t v ht hk hv
    obtain ⟨u, hu, hstands⟩ := Table.exists_getElem?_of_substitute hsub ht
    exact ⟨u, hu, fun m => outcome_step_of_standsFor hstands hk hv⟩
  · intro line ts hline t ht hk
    exact IsNumeral.exists_unsigned ((canonical_of_tokenize hline t ht).isNumeral hk)

/-- The least value and a text next to it, a literal with a sign and zeros in front, and a name of
the least value between an operand and a sign. -/
theorem literals_carry_values_of_least :
    let least : Value := ⟨-2147483648, by decide, by decide⟩
    let table := Table.ofList [("x", least)]
    let ts : List Token := [⟨.numeral, "5"⟩, ⟨.name, "x"⟩, ⟨.sign .minus, "-"⟩]
    let us : List Token := [⟨.numeral, "5"⟩, Token.ofValue least, ⟨.sign .minus, "-"⟩]
    Value.ofLiteral "-2147483648" = .ok least ∧
    Value.ofLiteral "-2147483649" = .error (.outOfRange (.literal "-2147483649")) ∧
    (∃ v, Value.ofLiteral "+007" = .ok v ∧ v.toInt = 7) ∧
    table.substitute ts = .ok us ∧
    (∃ u, us[1]? = some u ∧
      (Machine.start.step u).outcome = .ok ⟨[least, Machine.seed], false⟩) ∧
    tokenize "5+x" = .ok [⟨.numeral, "5"⟩, ⟨.sign .plus, "+"⟩, ⟨.name, "x"⟩] ∧
    ∃ l : Literal, l.sign = none ∧ "5".toList = l.chars := by
  intro least table ts us
  obtain ⟨hok, -, hcarried, hsub, hline⟩ := literals_carry_values
  have hsubstitute : table.substitute ts = .ok us := rfl
  have htokens : tokenize "5+x" = .ok [⟨.numeral, "5"⟩, ⟨.sign .plus, "+"⟩, ⟨.name, "x"⟩] := by
    decide +kernel
  obtain ⟨u, hu, hpushed⟩ := hsub table ts us hsubstitute 1 ⟨.name, "x"⟩ least rfl rfl rfl
  let seven : Literal := ⟨some .plus, ['0', '0', '7'], by decide, List.all_eq_true.1 rfl⟩
  have hseven : ∃ l : Literal, "+007".toList = l.chars ∧ l.toInt = 7 :=
    ⟨seven, by decide, by decide⟩
  exact ⟨hcarried least, by decide +kernel, (hok "+007" 7).2 ⟨by decide, hseven⟩, hsubstitute,
    ⟨u, hu, hpushed Machine.start⟩, htokens, hline "5+x" _ htokens _ List.mem_cons_self rfl⟩

end SignedSum
