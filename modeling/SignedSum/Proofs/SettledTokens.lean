/-
# Settled tokens

What substitution puts in the place of a token is given by a relation, `Token.StandsFor`, and
substitution succeeds with exactly the list that stands for its tokens one by one.  No name is
among what stands for a token, and a list without names is settled: it stands for itself on every
table.

* `substitute_eq_ok_iff`, `substitute_eq_error_iff`: the outcome of substitution.
* `compute_substituted`: the value of settled tokens depends on no table.
* `substitution_settles`: both, and that substitution does nothing the second time.
-/
import Mathlib.Data.List.Forall2
import SignedSum.Proofs.FirstFailure
import SignedSum.Proofs.Substituted
import SignedSum.Statement

namespace SignedSum

/-- What stands in the place of a token once names have given way to their values on a table: for
a name the numeral of its value, and for any other token the token itself. -/
inductive Token.StandsFor (table : Table) (t : Token) : Token → Prop
  | name {v : Value} (hk : t.kind = .name) (hv : table.get? t.text = some v) :
      StandsFor table t (.ofValue v)
  | other (hk : t.kind ≠ .name) : StandsFor table t t

variable {table : Table} {t u : Token} {ts us : List Token}

/-! ## One token -/

namespace Token

theorem resolve_eq_ok_iff : t.resolve table = .ok u ↔ t.StandsFor table u := by
  constructor
  · intro h
    by_cases hk : t.kind = .name
    · cases hv : table.get? t.text with
      | none =>
        rw [resolve_unbound hk hv] at h
        cases h
      | some v =>
        rw [resolve_bound hk hv] at h
        exact Except.ok.inj h ▸ .name hk hv
    · rw [resolve_of_ne hk] at h
      exact Except.ok.inj h ▸ .other hk
  · intro h
    cases h with
    | name hk hv => exact resolve_bound hk hv
    | other hk => exact resolve_of_ne hk

theorem StandsFor.kind_ne_name (h : t.StandsFor table u) : u.kind ≠ .name := by
  cases h with
  | name _ _ => rw [kind_ofValue]; decide
  | other hk => exact hk

end Token

/-! ## Lists of tokens -/

namespace Table

/-- **Substitution succeeds with what stands for its tokens one by one.** -/
theorem substitute_eq_ok_iff :
    table.substitute ts = .ok us ↔ List.Forall₂ (Token.StandsFor table) ts us := by
  induction ts generalizing us with
  | nil =>
    rw [substitute_nil, Except.ok.injEq, List.forall₂_nil_left_iff]
    exact eq_comm
  | cons t ts ih =>
    rw [substitute_cons]
    constructor
    · intro h
      obtain ⟨u, hu, h⟩ := bind_eq_ok.1 h
      obtain ⟨rest, hrest, h⟩ := bind_eq_ok.1 h
      exact Except.ok.inj h ▸ .cons (Token.resolve_eq_ok_iff.1 hu) (ih.1 hrest)
    · intro h
      cases h with
      | cons hu hrest => rw [Token.resolve_eq_ok_iff.2 hu, ih.2 hrest]; rfl

/-- Substitution succeeds if all names have values. -/
theorem exists_substitute_eq_ok_iff :
    (∃ us, table.substitute ts = .ok us) ↔ ∀ t ∈ ts, t.kind = .name → t.text ∈ table.names := by
  have hfind : (∃ us, table.substitute ts = .ok us) ↔
      ts.find? (Token.isUnbound table) = none := by
    rw [substitute_eq]
    cases ts.find? (Token.isUnbound table) <;> simp
  rw [hfind, List.find?_eq_none]
  simp only [Token.isUnbound_iff, not_and, not_not]

/-- Substitution fails with the first name that has no value, wherever it stands. -/
theorem substitute_eq_error_iff {f : ValueFault} :
    table.substitute ts = .error f ↔
      ∃ before t after, ts = before ++ t :: after ∧ (t.kind = .name ∧ t.text ∉ table.names) ∧
        (∀ u ∈ before, u.kind = .name → u.text ∈ table.names) ∧ f = .unbound t.text := by
  have hfind : table.substitute ts = .error f ↔
      ∃ t, ts.find? (Token.isUnbound table) = some t ∧ f = .unbound t.text := by
    rw [substitute_eq]
    cases ts.find? (Token.isUnbound table) with
    | none => simp
    | some t => simp [eq_comm]
  simp only [hfind, List.find?_eq_some_iff_append, Bool.not_eq_true', ← Bool.not_eq_true,
    Token.isUnbound_iff, not_and, not_not]
  constructor
  · rintro ⟨t, ⟨hunbound, before, after, hts, hbefore⟩, hf⟩
    exact ⟨before, t, after, hts, hunbound, hbefore, hf⟩
  · rintro ⟨before, t, after, hts, hunbound, hbefore, hf⟩
    exact ⟨t, ⟨hunbound, before, after, hts, hbefore⟩, hf⟩

/-- No name is left, so another substitution finds nothing to do, on any table. -/
theorem substitute_substituted (h : table.substitute ts = .ok us) (other : Table) :
    other.substitute us = .ok us := by
  rw [substitute_eq_ok_iff] at h ⊢
  induction h with
  | nil => exact .nil
  | cons hu _ ih => exact .cons (.other hu.kind_ne_name) ih

end Table

/-- The value of tokens, and what is recorded on the way to it, depends only on what they are once
names have given way to values. -/
theorem Statement.compute_substituted (h : table.substitute ts = .ok us) (other : Table) :
    compute other us = compute table ts := by
  unfold compute
  rw [Table.substitute_substituted h other, h]

/-- **Substitution settles all names at once.**

It succeeds exactly if every name has a value.  Then each token gives way to what stands for it,
in its place, and the fault otherwise is the first name without a value.  A second substitution
changes nothing, whatever the table is, and hence the tokens come to the same value or fault as
what stands for them does on any other table. -/
theorem substitution_settles (table : Table) (ts : List Token) :
    ((∃ us, table.substitute ts = .ok us) ↔ ∀ t ∈ ts, t.kind = .name → t.text ∈ table.names) ∧
    (∀ us, table.substitute ts = .ok us ↔ List.Forall₂ (Token.StandsFor table) ts us) ∧
    (∀ f, table.substitute ts = .error f ↔
      ∃ before t after, ts = before ++ t :: after ∧ (t.kind = .name ∧ t.text ∉ table.names) ∧
        (∀ u ∈ before, u.kind = .name → u.text ∈ table.names) ∧ f = .unbound t.text) ∧
    ∀ us, table.substitute ts = .ok us → ∀ other : Table,
      other.substitute us = .ok us ∧ Statement.compute other us = Statement.compute table ts :=
  ⟨Table.exists_substitute_eq_ok_iff, fun _ => Table.substitute_eq_ok_iff,
    fun _ => Table.substitute_eq_error_iff,
    fun _ h other => ⟨Table.substitute_substituted h other, Statement.compute_substituted h other⟩⟩

/-- Two names around tokens that no line would hold next to them, and two names without values. -/
theorem substitution_settles_of_two_names :
    let a : Value := ⟨-4, by decide, by decide⟩
    let table := Table.ofList [("a", a)]
    let between : List Token := [⟨.sign .minus, "plus"⟩, ⟨.foreign, "a"⟩]
    let ts := ⟨.name, "a"⟩ :: between ++ [⟨.name, "a"⟩]
    let us := Token.ofValue a :: between ++ [Token.ofValue a]
    table.substitute ts = .ok us ∧ (∅ : Table).substitute us = .ok us ∧
      Statement.compute ∅ us = Statement.compute table ts ∧
      table.substitute (ts ++ [⟨.name, "b"⟩, ⟨.name, "c"⟩]) = .error (.unbound "b") := by
  intro a table between ts us
  obtain ⟨-, hok, -, hagain⟩ := substitution_settles table ts
  obtain ⟨-, -, herror, -⟩ := substitution_settles table (ts ++ [⟨.name, "b"⟩, ⟨.name, "c"⟩])
  have hsub : table.substitute ts = .ok us :=
    (hok us).2 (.cons (.name rfl rfl) (.cons (.other (by decide))
      (.cons (.other (by decide)) (.cons (.name rfl rfl) .nil))))
  obtain ⟨hsame, hcompute⟩ := hagain us hsub ∅
  refine ⟨hsub, hsame, hcompute, (herror _).2 ⟨ts, _, [⟨.name, "c"⟩], rfl, ?_, ?_, rfl⟩⟩
  · decide
  · decide

end SignedSum
