/-
# The first failure

A computation that may fail and goes through a list stops at the first element that makes it
fail.  So its failures are described by a split of the list: everything in front of the element
went well, and what follows the element does not matter.  This file says so for folds and for
maps, and gives the inversion of a sequence of two computations, from which later files take
such computations apart.
-/

namespace SignedSum

variable {ε δ α β : Type}

/-! ## Two computations in a row -/

theorem bind_eq_ok {x : Except ε α} {f : α → Except ε β} {b : β} :
    x >>= f = .ok b ↔ ∃ a, x = .ok a ∧ f a = .ok b := by
  cases x with
  | error e => exact ⟨fun h => (by cases h), fun ⟨a, ha, _⟩ => (by cases ha)⟩
  | ok a => exact ⟨fun h => ⟨a, rfl, h⟩, fun ⟨a', ha, h⟩ => (by cases ha; exact h)⟩

theorem bind_eq_error {x : Except ε α} {f : α → Except ε β} {e : ε} :
    x >>= f = .error e ↔ x = .error e ∨ ∃ a, x = .ok a ∧ f a = .error e := by
  cases x with
  | error e' =>
    constructor
    · intro h
      cases h
      exact Or.inl rfl
    · rintro (h | ⟨a, ha, _⟩)
      · cases h
        rfl
      · cases ha
  | ok a =>
    constructor
    · exact fun h => Or.inr ⟨a, rfl, h⟩
    · rintro (h | ⟨a', ha, h⟩)
      · cases h
      · cases ha
        exact h

theorem map_eq_ok {x : Except ε α} {f : α → β} {b : β} :
    x.map f = .ok b ↔ ∃ a, x = .ok a ∧ f a = b := by
  cases x <;> simp [Except.map]

theorem map_eq_error {x : Except ε α} {f : α → β} {e : ε} :
    x.map f = .error e ↔ x = .error e := by
  cases x <;> simp [Except.map]

theorem mapError_eq_ok {x : Except ε α} {f : ε → δ} {a : α} :
    x.mapError f = .ok a ↔ x = .ok a := by
  cases x with
  | error e => exact ⟨fun h => (by cases h), fun h => (by cases h)⟩
  | ok b => exact ⟨fun h => (by cases h; rfl), fun h => (by cases h; rfl)⟩

theorem mapError_eq_error {x : Except ε α} {f : ε → δ} {d : δ} :
    x.mapError f = .error d ↔ ∃ e, x = .error e ∧ f e = d := by
  cases x with
  | error e =>
    constructor
    · exact fun h => ⟨e, rfl, Except.error.inj h⟩
    · rintro ⟨e', he, rfl⟩
      cases he
      rfl
  | ok a => exact ⟨fun h => (by cases h), fun ⟨e, he, _⟩ => (by cases he)⟩

/-! ## Folds -/

/-- A fold fails exactly when one of its steps does, after all the steps before it went well. -/
theorem foldlM_eq_error {f : β → α → Except ε β} {l : List α} {b : β} {e : ε} :
    l.foldlM f b = .error e ↔
      ∃ before a after c, l = before ++ a :: after ∧ before.foldlM f b = .ok c ∧
        f c a = .error e := by
  constructor
  · intro h
    induction l generalizing b with
    | nil => cases h
    | cons a rest ih =>
      rw [List.foldlM_cons] at h
      rcases bind_eq_error.1 h with h | ⟨c, hc, h⟩
      · exact ⟨[], a, rest, b, rfl, rfl, h⟩
      · obtain ⟨before, a', after, c', rfl, hb, he⟩ := ih h
        refine ⟨a :: before, a', after, c', rfl, ?_, he⟩
        rw [List.foldlM_cons, hc]
        exact hb
  · rintro ⟨before, a, after, c, rfl, hb, he⟩
    rw [List.foldlM_append, hb]
    show (a :: after).foldlM f c = .error e
    rw [List.foldlM_cons, he]
    rfl

/-- One more step at the end of a fold that has come to `c`. -/
theorem foldlM_concat_of_ok {f : β → α → Except ε β} {l : List α} {a : α} {b c : β}
    (h : l.foldlM f b = .ok c) : (l ++ [a]).foldlM f b = f c a := by
  rw [List.foldlM_append, h]
  exact bind_pure (f c a)

/-- One more step at the end of a fold. -/
theorem foldlM_concat_eq_ok {f : β → α → Except ε β} {l : List α} {a : α} {b c : β} :
    (l ++ [a]).foldlM f b = .ok c ↔ ∃ d, l.foldlM f b = .ok d ∧ f d a = .ok c := by
  rw [List.foldlM_append, bind_eq_ok]
  simp only [List.foldlM_cons, List.foldlM_nil, bind_pure]

end SignedSum
