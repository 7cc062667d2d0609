/-
# Reading a sum from left to right

A sum with gaps is read without any stack.  The sum so far starts with the first operand, or
with zero if the first gap is empty.  A sign and an operand are applied to it as they stand; a
sign with an empty gap after it takes the sum so far to its right, and zero to its left:

    4 + 6 - 8    is    (4 + 6) - 8
    - 5 + 3      is    (0 - 5) + 3
    4 - + 3      is    (0 - 4) + 3

All this is integer arithmetic, in which nothing can fail (`GappedSum.total`).  The reading is
sound (`GappedSum.Sound`) if at most one gap is empty and all literals and all partial results
are in the range of values.  If it is not sound, the first fault (`GappedSum.FirstFault`) is that
of the first operand, or of the first sign up to which the reading is sound.
-/
import SignedSum.Proofs.GappedSum
import Mathlib.Data.List.Infix

namespace SignedSum

/-- The integers that are values. -/
def InRange (n : Int) : Prop := -2147483648 ≤ n ∧ n ≤ 2147483647

instance (n : Int) : Decidable (InRange n) := inferInstanceAs (Decidable (_ ∧ _))

theorem Value.inRange (v : Value) : InRange v.toInt := ⟨v.least_le, v.le_greatest⟩

/-- The number that a string of digits stands for. -/
def decimal (digits : String) : Nat := Nat.ofDigitChars 10 digits.toList 0

namespace Operand

/-- The integer that an operand stands for.  A name without a value stands for zero. -/
def toInt (table : Table) : Operand → Int
  | literal digits _ => decimal digits
  | name letters _ => ((table.get? letters).map Value.toInt).getD 0

/-- The operand has a value unless it is too large: it is a literal, or a name in the table. -/
def Bound (table : Table) : Operand → Prop
  | literal _ _ => True
  | name letters _ => letters ∈ table.names

/-- The operand is not too large: it is a name, or a literal in the range of values. -/
def Fits : Operand → Prop
  | literal digits _ => decimal digits ≤ 2147483647
  | name _ _ => True

instance (table : Table) : (x : Operand) → Decidable (x.Bound table)
  | literal _ _ => inferInstanceAs (Decidable True)
  | name letters _ => inferInstanceAs (Decidable (letters ∈ table.names))

instance : (x : Operand) → Decidable x.Fits
  | literal digits _ => inferInstanceAs (Decidable (decimal digits ≤ 2147483647))
  | name _ _ => inferInstanceAs (Decidable True)

end Operand

/-- The sum after one more sign and gap, where `a` is the sum so far. -/
def Link.apply (table : Table) (a : Int) (l : Link) : Int :=
  match l.2 with
  | some x => l.1.apply a (x.toInt table)
  | none => l.1.apply 0 a

namespace GappedSum

/-- The sum before the first sign. -/
def start (table : Table) (S : GappedSum) : Int := (S.first.map (Operand.toInt table)).getD 0

/-- The integer that a sum comes to. -/
def total (table : Table) (S : GappedSum) : Int :=
  S.rest.foldl (Link.apply table) (S.start table)

/-- The sum of everything in front of a sign, for each sign, and in the end the whole sum. -/
def partials (table : Table) (S : GappedSum) : List Int :=
  S.rest.inits.map fun before => total table ⟨S.first, before⟩

/-- Signs with an operand after each of them, applied from left to right. -/
def leftFold (table : Table) (a : Int) (os : List (Sign × Operand)) : Int :=
  os.foldl (fun a p => p.1.apply a (p.2.toInt table)) a

/-- Signs with an operand after each of them, as links. -/
def filled (os : List (Sign × Operand)) : List Link := os.map fun p => (p.1, some p.2)

/-- The three ways in which a sum is read, by where its empty gap is, if it has one. -/
inductive Reads (table : Table) : GappedSum → Int → Prop
  | full (x : Operand) (os : List (Sign × Operand)) :
      Reads table ⟨some x, filled os⟩ (leftFold table (x.toInt table) os)
  | leading (os : List (Sign × Operand)) : Reads table ⟨none, filled os⟩ (leftFold table 0 os)
  | later (x : Operand) (before : List (Sign × Operand)) (s : Sign)
      (after : List (Sign × Operand)) :
      Reads table ⟨some x, filled before ++ (s, none) :: filled after⟩
        (leftFold table (s.apply 0 (leftFold table (x.toInt table) before)) after)

/-- The reading comes to a value: at most one gap is empty, and all literals and all partial
results are in the range of values. -/
structure Sound (table : Table) (S : GappedSum) : Prop where
  emptyGaps_le : S.emptyGaps ≤ 1
  fits : ∀ x ∈ S.operands, x.Fits
  inRange : ∀ n ∈ S.partials table, InRange n

/-- The fault that a sign and the gap after it have when the sum `P` in front of them has been
read: the literal is too large, the result is out of range, or the gap is empty and is not the
first such gap. -/
inductive LinkFault (table : Table) (P : GappedSum) : Link → ValueFault → Prop
  | literal {s : Sign} {digits : String} {h : IsNumeral digits} :
      2147483647 < decimal digits →
      LinkFault table P (s, some (.literal digits h)) (.outOfRange (.literal digits))
  | operand {s : Sign} {x : Operand} {left right : Value} :
      x.Fits → left.toInt = P.total table → right.toInt = x.toInt table →
      ¬ InRange (s.apply left.toInt right.toInt) →
      LinkFault table P (s, some x) (.outOfRange (.step s left right))
  | turn {s : Sign} {right : Value} :
      P.emptyGaps = 0 → right.toInt = P.total table → ¬ InRange (s.apply 0 right.toInt) →
      LinkFault table P (s, none) (.outOfRange (.step s .zero right))
  | gap {s : Sign} :
      P.emptyGaps ≠ 0 →
      LinkFault table P (s, none) (.unbalanced (.missingOperand (String.singleton s.symbol)))

/-- The first fault that the reading meets: the first operand is a literal that is too large, or
everything in front of a sign is sound and the sign with the gap after it is not. -/
def FirstFault (table : Table) (S : GappedSum) (f : ValueFault) : Prop :=
  (∃ digits h, S.first = some (.literal digits h) ∧ 2147483647 < decimal digits ∧
    f = .outOfRange (.literal digits)) ∨
  ∃ before l after, S.rest = before ++ l :: after ∧ Sound table ⟨S.first, before⟩ ∧
    LinkFault table ⟨S.first, before⟩ l f

/-! ## One link more -/

variable {table : Table} {first : Gap} {rest : List Link} {l : Link}

@[simp] theorem total_nil : total table ⟨first, []⟩ = (first.map (Operand.toInt table)).getD 0 :=
  rfl

@[simp] theorem total_concat :
    total table ⟨first, rest ++ [l]⟩ = l.apply table (total table ⟨first, rest⟩) := by
  simp only [total, start, List.foldl_append, List.foldl_cons, List.foldl_nil]

theorem gaps_concat : gaps ⟨first, rest ++ [l]⟩ = gaps ⟨first, rest⟩ ++ [l.2] := by
  simp [gaps]

theorem emptyGaps_concat :
    emptyGaps ⟨first, rest ++ [l]⟩ = emptyGaps ⟨first, rest⟩ + if l.2 = none then 1 else 0 := by
  obtain ⟨s, g⟩ := l
  rw [emptyGaps, gaps_concat, List.countP_append]
  cases g <;> rfl

theorem mem_operands {x : Operand} :
    x ∈ operands ⟨first, rest⟩ ↔ first = some x ∨ ∃ l ∈ rest, l.2 = some x := by
  simp [operands, gaps]

theorem mem_operands_append {rest' : List Link} {x : Operand} :
    x ∈ operands ⟨first, rest ++ rest'⟩ ↔
      x ∈ operands ⟨first, rest⟩ ∨ ∃ l ∈ rest', l.2 = some x := by
  simp only [mem_operands, List.mem_append, or_and_right, exists_or, or_assoc]

theorem mem_operands_concat {x : Operand} :
    x ∈ operands ⟨first, rest ++ [l]⟩ ↔ x ∈ operands ⟨first, rest⟩ ∨ l.2 = some x := by
  simp [mem_operands_append]

theorem mem_operands_of_first {x : Operand} (h : first = some x) : x ∈ operands ⟨first, rest⟩ :=
  mem_operands.2 (Or.inl h)

theorem mem_operands_of_rest {x : Operand} (hl : l ∈ rest) (h : l.2 = some x) :
    x ∈ operands ⟨first, rest⟩ :=
  mem_operands.2 (Or.inr ⟨l, hl, h⟩)

theorem mem_partials_concat {n : Int} :
    n ∈ partials table ⟨first, rest ++ [l]⟩ ↔
      n ∈ partials table ⟨first, rest⟩ ∨ n = l.apply table (total table ⟨first, rest⟩) := by
  simp only [partials, List.mem_map, List.mem_inits, List.prefix_concat_iff]
  constructor
  · rintro ⟨before, rfl | hbefore, rfl⟩
    · exact Or.inr total_concat
    · exact Or.inl ⟨before, hbefore, rfl⟩
  · rintro (⟨before, hbefore, rfl⟩ | rfl)
    · exact ⟨before, Or.inr hbefore, rfl⟩
    · exact ⟨_, Or.inl rfl, total_concat⟩

/-- The reading stays sound if the gap does not become the second empty one, its literal is not
too large and the result is in range. -/
theorem sound_concat :
    Sound table ⟨first, rest ++ [l]⟩ ↔
      Sound table ⟨first, rest⟩ ∧ (l.2 = none → emptyGaps ⟨first, rest⟩ = 0) ∧
        (∀ x ∈ l.2, x.Fits) ∧ InRange (l.apply table (total table ⟨first, rest⟩)) := by
  constructor
  · rintro ⟨hgaps, hfits, hrange⟩
    rw [emptyGaps_concat] at hgaps
    refine ⟨⟨by omega, fun x hx => hfits x (mem_operands_concat.2 (Or.inl hx)), fun n hn => ?_⟩,
      ?_, ?_, ?_⟩
    · exact hrange n (mem_partials_concat.2 (Or.inl hn))
    · intro hl
      rw [if_pos hl] at hgaps
      omega
    · intro x hx
      exact hfits x (mem_operands_concat.2 (Or.inr hx))
    · exact hrange _ (mem_partials_concat.2 (Or.inr rfl))
  · rintro ⟨⟨hgaps, hfits, hrange⟩, hgap, hfit, hlast⟩
    refine ⟨?_, fun x hx => ?_, fun n hn => ?_⟩
    · rw [emptyGaps_concat]
      split
      · next hl =>
        have hzero := hgap hl
        omega
      · omega
    · rcases mem_operands_concat.1 hx with hx | hx
      · exact hfits x hx
      · exact hfit x hx
    · rcases mem_partials_concat.1 hn with hn | rfl
      · exact hrange n hn
      · exact hlast

/-- What comes later does not make a reading sound. -/
theorem Sound.of_append {rest' : List Link} (h : Sound table ⟨first, rest ++ rest'⟩) :
    Sound table ⟨first, rest⟩ := by
  induction rest' using List.reverseRecOn with
  | nil => rwa [List.append_nil] at h
  | append_singleton rest' l ih =>
    rw [← List.append_assoc] at h
    exact ih (sound_concat.1 h).1

/-! ## Where the empty gap is -/

theorem foldl_filled {a : Int} {os : List (Sign × Operand)} :
    (filled os).foldl (Link.apply table) a = leftFold table a os := by
  rw [filled, List.foldl_map]
  rfl

theorem forall_ne_none_of_countP (h : (rest.map Prod.snd).countP Option.isNone = 0) :
    ∀ l ∈ rest, l.2 ≠ none := by
  intro l hl hn
  exact List.countP_eq_zero.1 h l.2 (List.mem_map_of_mem hl) (by rw [hn]; rfl)

theorem exists_filled (h : ∀ l ∈ rest, l.2 ≠ none) : ∃ os, rest = filled os := by
  induction rest with
  | nil => exact ⟨[], rfl⟩
  | cons l rest ih =>
    obtain ⟨os, rfl⟩ := ih fun l' hl' => h l' (List.mem_cons_of_mem l hl')
    obtain ⟨s, g⟩ := l
    cases g with
    | none => exact absurd rfl (h _ List.mem_cons_self)
    | some x => exact ⟨(s, x) :: os, rfl⟩

/-- Links with at most one empty gap hold only operands, or have one sign with an empty gap. -/
theorem exists_filled_or_split (h : (rest.map Prod.snd).countP Option.isNone ≤ 1) :
    (∃ os, rest = filled os) ∨
      ∃ before s after, rest = filled before ++ (s, none) :: filled after := by
  induction rest with
  | nil => exact Or.inl ⟨[], rfl⟩
  | cons l rest ih =>
    obtain ⟨s, g⟩ := l
    rw [List.map_cons, List.countP_cons] at h
    cases g with
    | some x =>
      rcases ih (by simpa using h) with ⟨os, rfl⟩ | ⟨before, s', after, rfl⟩
      · exact Or.inl ⟨(s, x) :: os, rfl⟩
      · exact Or.inr ⟨(s, x) :: before, s', after, rfl⟩
    | none =>
      -- this is the empty gap, so all the others hold operands
      have hzero : (rest.map Prod.snd).countP Option.isNone = 0 := by
        rw [Option.isNone_none, if_pos rfl] at h
        omega
      obtain ⟨os, rfl⟩ := exists_filled (forall_ne_none_of_countP hzero)
      exact Or.inr ⟨[], s, os, rfl⟩

/-- **A sum with at most one empty gap is read in one of the three ways.** -/
theorem reads_total {S : GappedSum} (h : S.emptyGaps ≤ 1) : S.Reads table (S.total table) := by
  obtain ⟨first, rest⟩ := S
  have h : (first :: rest.map Prod.snd).countP Option.isNone ≤ 1 := h
  rw [List.countP_cons] at h
  cases first with
  | none =>
    have hzero : (rest.map Prod.snd).countP Option.isNone = 0 := by
      rw [Option.isNone_none, if_pos rfl] at h
      omega
    obtain ⟨os, rfl⟩ := exists_filled (forall_ne_none_of_countP hzero)
    have ht : total table ⟨none, filled os⟩ = leftFold table 0 os := foldl_filled
    rw [ht]
    exact .leading os
  | some x =>
    have hrest : (rest.map Prod.snd).countP Option.isNone ≤ 1 := by simpa using h
    rcases exists_filled_or_split hrest with
      ⟨os, rfl⟩ | ⟨before, s, after, rfl⟩
    · have ht : total table ⟨some x, filled os⟩ = leftFold table (x.toInt table) os :=
        foldl_filled
      rw [ht]
      exact .full x os
    · have ht : total table ⟨some x, filled before ++ (s, none) :: filled after⟩ =
          leftFold table (s.apply 0 (leftFold table (x.toInt table) before)) after := by
        rw [total, List.foldl_append, foldl_filled, List.foldl_cons, foldl_filled]
        rfl
      rw [ht]
      exact .later x before s after

theorem Sound.inRange_total {S : GappedSum} (h : S.Sound table) : InRange (S.total table) :=
  h.inRange _ (List.mem_map.2 ⟨S.rest, by simp, rfl⟩)

end GappedSum
end SignedSum
