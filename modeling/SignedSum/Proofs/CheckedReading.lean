/-
# Reading with faults

The reading of a sum as a computation that stops at its first fault.  It goes through the links
of the sum and carries two things (`Progress`): the sum so far, as a value, and whether an empty
gap has been met.

The main statements say that this computation decides what `Reading` describes in integers: it
comes to the total exactly if the reading is sound (`read_eq_ok`), and otherwise to the first
fault (`read_eq_error`).
-/
import SignedSum.Arithmetic
import SignedSum.Proofs.Reading

namespace SignedSum

variable {table : Table}

/-! ## Literals and steps -/

/-- The value of a numeral, if it is not too large. -/
theorem Value.read?_numeral {digits : String} (h : IsNumeral digits) :
    Value.read? digits = Value.ofInt? (decimal digits) := by
  have hne : digits.toList ≠ [] := fun hnil => h.1 (String.toList_eq_nil_iff.1 hnil)
  have hread : Decimal.readDigits? digits.toList = some (decimal digits) :=
    Decimal.readDigits?_eq_some.2 ⟨⟨hne, h.2⟩, rfl⟩
  rw [Value.read?, Decimal.read?_unsigned h.2, hread]
  rfl

theorem Value.ofLiteral_eq_error {digits : String} (h : IsNumeral digits) {f : ValueFault} :
    Value.ofLiteral digits = .error f ↔
      2147483647 < decimal digits ∧ f = .outOfRange (.literal digits) := by
  rw [Value.ofLiteral, Value.read?_numeral h]
  cases hv : Value.ofInt? (decimal digits) with
  | none =>
    rw [Value.ofInt?_eq_none] at hv
    constructor
    · intro hf
      exact ⟨by omega, (Except.error.inj hf).symm⟩
    · rintro ⟨-, rfl⟩
      rfl
  | some v =>
    rw [Value.ofInt?_eq_some] at hv
    have hrange := v.inRange
    constructor
    · intro hf
      cases hf
    · rintro ⟨hlt, -⟩
      exact absurd hrange.2 (by omega)

theorem Sign.combine_eq_error {s : Sign} {left right : Value} {f : ValueFault} :
    s.combine left right = .error f ↔
      ¬ InRange (s.apply left.toInt right.toInt) ∧ f = .outOfRange (.step s left right) := by
  rw [Sign.combine]
  cases hv : s.combine? left right with
  | none =>
    rw [Sign.combine?_eq_none] at hv
    constructor
    · intro hf
      exact ⟨fun hr => by have h1 := hr.1; have h2 := hr.2; omega, (Except.error.inj hf).symm⟩
    · rintro ⟨-, rfl⟩
      rfl
  | some v =>
    rw [Sign.combine?_eq_some] at hv
    constructor
    · intro hf
      cases hf
    · rintro ⟨hr, -⟩
      exact absurd (hv ▸ v.inRange) hr

/-! ## Operands -/

namespace Operand

/-- The value of an operand. -/
def value (table : Table) : Operand → Except ValueFault Value
  | literal digits _ => Value.ofLiteral digits
  | name letters _ =>
    match table.get? letters with
    | some v => .ok v
    | none => .error (.unbound letters)

variable {x : Operand} {v : Value} {f : ValueFault}

theorem exists_get?_of_bound {letters : String} {h : IsName letters}
    (hb : (name letters h).Bound table) : ∃ v, table.get? letters = some v :=
  Option.isSome_iff_exists.1 (Table.get?_isSome.2 hb)

theorem value_eq_ok (hb : x.Bound table) :
    x.value table = .ok v ↔ x.Fits ∧ v.toInt = x.toInt table := by
  cases x with
  | literal digits h =>
    rw [value, Value.ofLiteral_eq_ok, Value.read?_numeral h, Value.ofInt?_eq_some]
    refine ⟨fun hv => ⟨?_, hv⟩, fun hv => hv.2⟩
    have hrange := v.inRange
    rw [hv] at hrange
    have hle := hrange.2
    show decimal digits ≤ 2147483647
    omega
  | name letters h =>
    obtain ⟨w, hw⟩ := exists_get?_of_bound hb
    simp only [value, toInt, hw, Except.ok.injEq, Fits, true_and, Option.map_some,
      Option.getD_some]
    exact ⟨fun hvw => hvw ▸ rfl, fun hvw => (Value.ext hvw).symm⟩

/-- An operand that has a value, if it is not too large, fails only if it is. -/
theorem value_eq_error (hb : x.Bound table) :
    x.value table = .error f ↔ ∃ digits h, x = literal digits h ∧
      2147483647 < decimal digits ∧ f = .outOfRange (.literal digits) := by
  cases x with
  | literal digits h =>
    rw [value, Value.ofLiteral_eq_error h]
    constructor
    · rintro ⟨hlt, rfl⟩
      exact ⟨digits, h, rfl, hlt, rfl⟩
    · rintro ⟨digits', h', heq, hlt, rfl⟩
      cases heq
      exact ⟨hlt, rfl⟩
  | name letters h =>
    obtain ⟨w, hw⟩ := exists_get?_of_bound hb
    constructor
    · intro hf
      rw [value, hw] at hf
      cases hf
    · rintro ⟨digits, h', heq, -⟩
      cases heq

end Operand

/-! ## Links -/

/-- How far a sum has been read. -/
structure Progress where
  /-- The sum so far. -/
  value : Value
  /-- Whether an empty gap has been met. -/
  gapMet : Bool

namespace Progress

/-- Reads one more sign and the gap after it. -/
def take (table : Table) (p : Progress) (l : Link) : Except ValueFault Progress :=
  match l.2 with
  | some x => do
    let v ← x.value table
    let result ← l.1.combine p.value v
    return ⟨result, p.gapMet⟩
  | none =>
    if p.gapMet then .error (.unbalanced (.missingOperand (String.singleton l.1.symbol)))
    else do
      let result ← l.1.combine .zero p.value
      return ⟨result, true⟩

variable {p p' : Progress} {l : Link} {s : Sign} {x : Operand} {v : Value} {f : ValueFault}

theorem take_operand (h : x.value table = .ok v) :
    p.take table (s, some x) = (s.combine p.value v).map fun result => ⟨result, p.gapMet⟩ := by
  simp only [take, h]
  cases hc : s.combine p.value v <;> simp [bind, Except.bind, pure, Except.pure, Except.map, hc]

theorem take_operand_of_error (h : x.value table = .error f) :
    p.take table (s, some x) = .error f := by
  simp only [take, h]
  rfl

/-- The first empty gap: the sum so far goes to the right of the sign. -/
theorem take_gap (h : p.gapMet = false) :
    p.take table (s, none) = (s.combine .zero p.value).map fun result => ⟨result, true⟩ := by
  simp only [take, h, Bool.false_eq_true, if_false]
  cases s.combine .zero p.value <;> rfl

theorem take_gap_of_met (h : p.gapMet = true) :
    p.take table (s, none) =
      .error (.unbalanced (.missingOperand (String.singleton s.symbol))) := by
  simp only [take, h, if_true]

theorem combine_map_eq_ok {o : Sign} {left right result : Value} {met met' : Bool} :
    (o.combine left right).map (fun v => (⟨v, met⟩ : Progress)) = .ok ⟨result, met'⟩ ↔
      result.toInt = o.apply left.toInt right.toInt ∧ met' = met := by
  simp only [map_eq_ok, Sign.combine_eq_ok, Progress.mk.injEq]
  constructor
  · rintro ⟨w, hw, rfl, hmet⟩
    exact ⟨hw, hmet.symm⟩
  · rintro ⟨hresult, hmet⟩
    exact ⟨result, hresult, rfl, hmet.symm⟩

theorem take_eq_ok (hb : ∀ x ∈ l.2, x.Bound table) :
    p.take table l = .ok p' ↔
      (l.2 = none → p.gapMet = false) ∧ (∀ x ∈ l.2, x.Fits) ∧
        p'.value.toInt = l.apply table p.value.toInt ∧ p'.gapMet = (p.gapMet || l.2.isNone) := by
  obtain ⟨s, g⟩ := l
  obtain ⟨result, met⟩ := p'
  cases g with
  | some x =>
    have hbx : x.Bound table := hb x rfl
    simp only [Link.apply, reduceCtorEq, false_implies, true_and, Option.mem_some_iff,
      forall_eq', Option.isNone_some, Bool.or_false]
    cases hx : x.value table with
    | error f =>
      obtain ⟨digits, h, rfl, hlt, -⟩ := (Operand.value_eq_error hbx).1 hx
      have hfits : ¬ (Operand.literal digits h).Fits := Nat.not_le.2 hlt
      simp only [take_operand_of_error hx, reduceCtorEq, hfits, false_and]
    | ok v =>
      obtain ⟨hfits, hvx⟩ := (Operand.value_eq_ok hbx).1 hx
      simp only [take_operand hx, combine_map_eq_ok, hvx, hfits, true_and]
  | none =>
    simp only [Link.apply, true_implies, Option.isNone_none, Bool.or_true, Option.mem_def,
      reduceCtorEq, false_implies, implies_true, true_and]
    cases hg : p.gapMet with
    | true => simp [take_gap_of_met hg]
    | false =>
      simp only [take_gap hg, combine_map_eq_ok, Value.toInt_zero, true_and]

/-- What `p` records is true of the sum `P`. -/
def Of (table : Table) (p : Progress) (P : GappedSum) : Prop :=
  p.value.toInt = P.total table ∧ p.gapMet = decide (P.emptyGaps ≠ 0)

/-- A sign with an operand after it fails to be read just if it has a fault. -/
theorem take_operand_eq_error {P : GappedSum} (hp : p.Of table P) (hb : x.Bound table) :
    p.take table (s, some x) = .error f ↔ GappedSum.LinkFault table P (s, some x) f := by
  obtain ⟨hvalue, -⟩ := hp
  constructor
  · intro h
    cases hx : x.value table with
    | error f' =>
      rw [take_operand_of_error hx] at h
      obtain ⟨digits, hd, rfl, hlt, rfl⟩ := (Operand.value_eq_error hb).1 hx
      cases h
      exact .literal hlt
    | ok v =>
      obtain ⟨hfits, hvx⟩ := (Operand.value_eq_ok hb).1 hx
      rw [take_operand hx, map_eq_error] at h
      obtain ⟨hrange, rfl⟩ := Sign.combine_eq_error.1 h
      exact .operand hfits hvalue hvx hrange
  · intro h
    cases h with
    | literal hlt => exact take_operand_of_error ((Value.ofLiteral_eq_error ‹_›).2 ⟨hlt, rfl⟩)
    | @operand _ _ left right hfits hleft hright hrange =>
      have hpl : p.value = left := Value.ext (hvalue.trans hleft.symm)
      rw [take_operand ((Operand.value_eq_ok hb).2 ⟨hfits, hright⟩), map_eq_error, hpl]
      exact Sign.combine_eq_error.2 ⟨hrange, rfl⟩

/-- So does a sign with nothing after it. -/
theorem take_gap_eq_error {P : GappedSum} (hp : p.Of table P) :
    p.take table (s, none) = .error f ↔ GappedSum.LinkFault table P (s, none) f := by
  obtain ⟨hvalue, hgap⟩ := hp
  constructor
  · intro h
    by_cases hzero : P.emptyGaps = 0
    · rw [take_gap (by simp [hgap, hzero]), map_eq_error] at h
      obtain ⟨hrange, rfl⟩ := Sign.combine_eq_error.1 h
      exact .turn hzero hvalue hrange
    · rw [take_gap_of_met (by simp [hgap, hzero])] at h
      cases h
      exact .gap hzero
  · intro h
    cases h with
    | @turn _ right hzero hright hrange =>
      have hpr : p.value = right := Value.ext (hvalue.trans hright.symm)
      rw [take_gap (by simp [hgap, hzero]), map_eq_error, hpr]
      exact Sign.combine_eq_error.2 ⟨hrange, rfl⟩
    | gap hne => exact take_gap_of_met (by simp [hgap, hne])

/-- **A link fails to be read just if it has a fault.** -/
theorem take_eq_error {P : GappedSum} (hp : p.Of table P) (hb : ∀ x ∈ l.2, x.Bound table) :
    p.take table l = .error f ↔ GappedSum.LinkFault table P l f := by
  obtain ⟨s, g⟩ := l
  cases g with
  | some x => exact take_operand_eq_error hp (hb x rfl)
  | none => exact take_gap_eq_error hp

end Progress

/-! ## Sums -/

namespace GappedSum

/-- Reads the first gap of a sum. -/
def opening (table : Table) (S : GappedSum) : Except ValueFault Progress :=
  match S.first with
  | some x => (x.value table).map fun v => ⟨v, false⟩
  | none => .ok ⟨.zero, true⟩

/-- Reads a sum. -/
def read (table : Table) (S : GappedSum) : Except ValueFault Progress := do
  let p ← S.opening table
  S.rest.foldlM (Progress.take table) p

variable {S : GappedSum} {p : Progress} {f : ValueFault}

theorem sound_nil {first : Gap} :
    Sound table ⟨first, []⟩ ↔ (∀ x ∈ first, x.Fits) ∧ InRange (total table ⟨first, []⟩) := by
  constructor
  · intro h
    exact ⟨fun x hx => h.fits x (mem_operands_of_first hx), h.inRange_total⟩
  · rintro ⟨hfits, hrange⟩
    refine ⟨?_, fun x hx => hfits x (by simpa [operands, gaps] using hx), fun n hn => ?_⟩
    · cases first <;> simp [emptyGaps, gaps]
    · have hn : n = total table ⟨first, []⟩ := by simpa [partials] using hn
      rwa [hn]

theorem opening_eq_ok (hb : ∀ x ∈ S.first, x.Bound table) :
    S.opening table = .ok p ↔ Sound table ⟨S.first, []⟩ ∧ p.Of table ⟨S.first, []⟩ := by
  rw [sound_nil]
  obtain ⟨value, gapMet⟩ := p
  cases hfirst : S.first with
  | some x =>
    simp only [opening, hfirst]
    rw [map_eq_ok]
    constructor
    · rintro ⟨v, hv, hp⟩
      cases hp
      obtain ⟨hfits, hvx⟩ := (Operand.value_eq_ok (hb x hfirst)).1 hv
      refine ⟨⟨by simpa using hfits, ?_⟩, hvx, rfl⟩
      rw [total_nil, Option.map_some, Option.getD_some, ← hvx]
      exact value.inRange
    · rintro ⟨⟨hfits, -⟩, hvalue, hgap⟩
      refine ⟨value, (Operand.value_eq_ok (hb x hfirst)).2 ⟨hfits x rfl, hvalue⟩, ?_⟩
      cases hgap
      rfl
  | none =>
    simp only [opening, hfirst]
    constructor
    · intro h
      cases h
      exact ⟨⟨by simp, Value.zero.inRange⟩, rfl, rfl⟩
    · rintro ⟨-, hvalue, hgap⟩
      have hzero : value = Value.zero := Value.ext hvalue
      cases hgap
      rw [hzero]

/-- One more link is read after all the others. -/
theorem read_concat {first : Gap} {rest : List Link} {l : Link} :
    read table ⟨first, rest ++ [l]⟩ = read table ⟨first, rest⟩ >>= fun p => p.take table l := by
  simp only [read, List.foldlM_append, List.foldlM_cons, List.foldlM_nil, bind_pure, bind_assoc]
  rfl

/-- **The checked reading comes to a value exactly if the reading is sound**, and then to the
total. -/
theorem read_eq_ok (hb : ∀ x ∈ S.operands, x.Bound table) :
    S.read table = .ok p ↔ S.Sound table ∧ p.Of table S := by
  obtain ⟨first, rest⟩ := S
  induction rest using List.reverseRecOn generalizing p with
  | nil =>
    have hfirst : ∀ x ∈ first, x.Bound table := fun x hx => hb x (mem_operands_of_first hx)
    rw [← opening_eq_ok (S := ⟨first, []⟩) hfirst, read]
    simp only [List.foldlM_nil, bind_pure]
  | append_singleton rest l ih =>
    have hbl : ∀ x ∈ l.2, x.Bound table := fun x hx => hb x (mem_operands_concat.2 (Or.inr hx))
    have ih := fun p => ih (p := p) fun x hx => hb x (mem_operands_concat.2 (Or.inl hx))
    rw [read_concat, bind_eq_ok, sound_concat]
    constructor
    · rintro ⟨q, hq, htake⟩
      obtain ⟨hsound, hvalue, hgap⟩ := (ih q).1 hq
      obtain ⟨hgapMet, hfits, hresult, hlast⟩ := (Progress.take_eq_ok hbl).1 htake
      rw [hvalue] at hresult
      refine ⟨⟨hsound, fun hl => ?_, hfits, hresult ▸ p.value.inRange⟩, ?_, ?_⟩
      · have hfalse := hgapMet hl
        rw [hgap] at hfalse
        simpa using hfalse
      · rw [total_concat, hresult]
      · rw [hlast, hgap, emptyGaps_concat]
        cases l.2 <;> simp
    · -- the sum in front of the link is read first, and comes to its own total
      rintro ⟨⟨hsound, hgaps, hfits, hrange⟩, hvalue, hgap⟩
      have hq := hsound.inRange_total
      refine ⟨⟨⟨total table ⟨first, rest⟩, hq.1, hq.2⟩, decide (emptyGaps ⟨first, rest⟩ ≠ 0)⟩,
        (ih _).2 ⟨hsound, rfl, rfl⟩, (Progress.take_eq_ok hbl).2 ⟨?_, hfits, ?_, ?_⟩⟩
      · intro hl
        simpa using hgaps hl
      · rw [hvalue, total_concat]
      · rw [hgap, emptyGaps_concat]
        cases l.2 <;> simp

theorem read_of_sound (hb : ∀ x ∈ S.operands, x.Bound table) (h : S.Sound table) :
    ∃ v, S.read table = .ok ⟨v, decide (S.emptyGaps ≠ 0)⟩ := by
  have hrange := h.inRange_total
  exact ⟨⟨S.total table, hrange.1, hrange.2⟩, (read_eq_ok hb).2 ⟨h, rfl, rfl⟩⟩

/-- Whatever is bound in a sum is bound up to a link of it, and in the link. -/
theorem bound_of_split {before after : List Link} {l : Link} (hb : ∀ x ∈ S.operands, x.Bound table)
    (h : S.rest = before ++ l :: after) :
    (∀ x ∈ operands ⟨S.first, before⟩, x.Bound table) ∧ ∀ x ∈ l.2, x.Bound table := by
  obtain ⟨first, rest⟩ := S
  subst h
  exact ⟨fun x hx => hb x (mem_operands_append.2 (Or.inl hx)),
    fun x hx => hb x (mem_operands_append.2 (Or.inr ⟨l, List.mem_cons_self, hx⟩))⟩

theorem opening_eq_error (hb : ∀ x ∈ S.operands, x.Bound table) :
    S.opening table = .error f ↔
      ∃ digits h, S.first = some (.literal digits h) ∧ 2147483647 < decimal digits ∧
        f = .outOfRange (.literal digits) := by
  cases hg : S.first with
  | none => simp [opening, hg]
  | some x =>
    have hx : x.Bound table := hb x (mem_operands_of_first hg)
    simp only [opening, hg, map_eq_error, Operand.value_eq_error hx, Option.some.injEq]

/-- **The checked reading fails with the first fault of the sum.** -/
theorem read_eq_error (hb : ∀ x ∈ S.operands, x.Bound table) :
    S.read table = .error f ↔ S.FirstFault table f := by
  rw [read, bind_eq_error, opening_eq_error hb, FirstFault]
  refine or_congr_right ?_
  simp only [foldlM_eq_error]
  constructor
  · rintro ⟨p, hp, before, l, after, q, hrest, hbefore, htake⟩
    obtain ⟨hbs, hbl⟩ := bound_of_split hb hrest
    have hread : read table ⟨S.first, before⟩ = .ok q := bind_eq_ok.2 ⟨p, hp, hbefore⟩
    obtain ⟨hsound, hof⟩ := (read_eq_ok hbs).1 hread
    exact ⟨before, l, after, hrest, hsound, (Progress.take_eq_error hof hbl).1 htake⟩
  · rintro ⟨before, l, after, hrest, hsound, hfault⟩
    obtain ⟨hbs, hbl⟩ := bound_of_split hb hrest
    obtain ⟨v, hread⟩ := read_of_sound hbs hsound
    obtain ⟨-, hof⟩ := (read_eq_ok hbs).1 hread
    obtain ⟨p, hp, hbefore⟩ := bind_eq_ok.1 hread
    exact ⟨p, hp, before, l, after, _, hrest, hbefore,
      (Progress.take_eq_error hof hbl).2 hfault⟩

end GappedSum
end SignedSum
