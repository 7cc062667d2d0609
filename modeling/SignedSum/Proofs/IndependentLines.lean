/-
# Lines that do not depend on each other

Two lines are independent if neither reads the target of the other one and if they do not assign
to the same name.  Then it does not matter which of them comes first.

Each line comes to the same in both orders, because what the other one writes is nothing that it
reads (`evaluateLine_after`).  The tables that are left hold the same entries.  Writes to two names
can be exchanged unless both names are new (`Table.insert_comm`); two new names stand at the end of
the table in the order in which they came (`Table.entries_insert_insert`), and this is all that the
order of the lines decides (`evaluateLines_swap`).
-/
import SignedSum.Proofs.Footprint

namespace SignedSum

/-- Neither statement reads the target of the other one, and the two targets are not one name. -/
structure Statement.Independent (s₁ s₂ : Statement) : Prop where
  first_unread : ∀ target ∈ s₁.target, target.name ∉ s₂.reads
  second_unread : ∀ target ∈ s₂.target, target.name ∉ s₁.reads
  targets_ne : ∀ target₁ ∈ s₁.target, ∀ target₂ ∈ s₂.target, target₁.name ≠ target₂.name

theorem Statement.Independent.symm {s₁ s₂ : Statement} (h : s₁.Independent s₂) :
    s₂.Independent s₁ where
  first_unread := h.second_unread
  second_unread := h.first_unread
  targets_ne := fun target₂ h₂ target₁ h₁ => (h.targets_ne target₁ h₁ target₂ h₂).symm

/-! ## Two writes -/

variable {n n₁ n₂ : String} {v v₁ v₂ : Value} {l : List (String × Value)} {table : Table}

/-- A new name comes last. -/
theorem insertEntry_of_notMem (h : n ∉ l.map Prod.fst) : insertEntry n v l = l ++ [(n, v)] := by
  induction l with
  | nil => rfl
  | cons e rest ih =>
    obtain ⟨m, w⟩ := e
    obtain ⟨hne, hrest⟩ := List.ne_and_not_mem_of_not_mem_cons h
    rw [insertEntry, if_neg hne.symm, ih hrest, List.cons_append]

/-- Writes to two names can be exchanged if one of the names is there. -/
theorem insertEntry_comm (hne : n₁ ≠ n₂) (h : n₁ ∈ l.map Prod.fst ∨ n₂ ∈ l.map Prod.fst) :
    insertEntry n₂ v₂ (insertEntry n₁ v₁ l) = insertEntry n₁ v₁ (insertEntry n₂ v₂ l) := by
  induction l with
  | nil => simp at h
  | cons e rest ih =>
    obtain ⟨m, w⟩ := e
    by_cases h₁ : m = n₁
    · subst h₁
      simp only [insertEntry, if_true, if_neg hne]
    · by_cases h₂ : m = n₂
      · subst h₂
        simp only [insertEntry, if_true, if_neg h₁]
      · -- the entry is neither of the two, so one of them is among the others
        have hrest : n₁ ∈ rest.map Prod.fst ∨ n₂ ∈ rest.map Prod.fst := by
          simpa [Ne.symm h₁, Ne.symm h₂] using h
        simp only [insertEntry, if_neg h₁, if_neg h₂, ih hrest]

namespace Table

theorem entries_insert_of_notMem (h : n ∉ table.names) :
    (table.insert n v).entries = table.entries ++ [(n, v)] :=
  insertEntry_of_notMem h

/-- Two new names come last, in the order in which they come. -/
theorem entries_insert_insert (hne : n₁ ≠ n₂) (h₁ : n₁ ∉ table.names) (h₂ : n₂ ∉ table.names) :
    ((table.insert n₁ v₁).insert n₂ v₂).entries = table.entries ++ [(n₁, v₁), (n₂, v₂)] := by
  have hnew : n₂ ∉ (table.insert n₁ v₁).names := by
    rw [mem_names_insert]
    rintro (h | h)
    · exact hne h.symm
    · exact h₂ h
  rw [entries_insert_of_notMem hnew, entries_insert_of_notMem h₁, List.append_assoc]
  rfl

theorem insert_comm (hne : n₁ ≠ n₂) (h : n₁ ∈ table.names ∨ n₂ ∈ table.names) :
    (table.insert n₁ v₁).insert n₂ v₂ = (table.insert n₂ v₂).insert n₁ v₁ :=
  Table.ext (insertEntry_comm hne h)

/-! ## Two outcomes -/

variable {ε : Type} {r₁ r₂ : Except ε Answer}

/-- The entry that an outcome adds to the table, if it assigns to a name that the table does not
have. -/
def added? (table : Table) : Except ε Answer → Option (String × Value)
  | .ok ⟨v, some name⟩ => if name ∈ table.names then none else some (name, v)
  | _ => none

/-- **Two outcomes that do not assign to one name leave the same table in both orders**, unless
both add an entry to it; then these two entries come last, in the order of the outcomes. -/
theorem after_after (hne : ∀ n₁ v₁ n₂ v₂, r₁ = .ok ⟨v₁, some n₁⟩ → r₂ = .ok ⟨v₂, some n₂⟩ → n₁ ≠ n₂)
    (table : Table) :
    match table.added? r₁, table.added? r₂ with
    | some e₁, some e₂ =>
      ((table.after r₁).after r₂).entries = table.entries ++ [e₁, e₂] ∧
        ((table.after r₂).after r₁).entries = table.entries ++ [e₂, e₁]
    | _, _ => (table.after r₁).after r₂ = (table.after r₂).after r₁ := by
  rcases r₁ with f₁ | ⟨v₁, _ | n₁⟩
  · rfl
  · rfl
  · rcases r₂ with f₂ | ⟨v₂, _ | n₂⟩
    · cases added? table (.ok ⟨v₁, some n₁⟩ : Except ε Answer) <;> rfl
    · cases added? table (.ok ⟨v₁, some n₁⟩ : Except ε Answer) <;> rfl
    · have hne := hne n₁ v₁ n₂ v₂ rfl rfl
      by_cases h₁ : n₁ ∈ table.names
      · simp only [added?, if_pos h₁]
        exact insert_comm hne (Or.inl h₁)
      · by_cases h₂ : n₂ ∈ table.names
        · simp only [added?, if_neg h₁, if_pos h₂]
          exact insert_comm hne (Or.inr h₂)
        · simp only [added?, if_neg h₁, if_neg h₂]
          exact ⟨entries_insert_insert hne h₁ h₂, entries_insert_insert hne.symm h₂ h₁⟩

/-- Two such outcomes leave the same entries in both orders. -/
theorem entries_after_after_perm
    (hne : ∀ n₁ v₁ n₂ v₂, r₁ = .ok ⟨v₁, some n₁⟩ → r₂ = .ok ⟨v₂, some n₂⟩ → n₁ ≠ n₂)
    (table : Table) :
    ((table.after r₁).after r₂).entries.Perm ((table.after r₂).after r₁).entries := by
  have h := after_after hne table
  split at h
  · next e₁ e₂ _ _ =>
    rw [h.1, h.2]
    exact (List.Perm.swap e₂ e₁ []).append_left table.entries
  · rw [h]

end Table

/-! ## Two lines -/

variable {line line₁ line₂ : String} {s s₁ s₂ : Statement}

theorem name_of_evaluateLine {a : Answer} (hs : (Statement.ofLine line).outcome = .ok s)
    (h : (evaluateLine line table).outcome = .ok a) : a.name = s.target.map (·.name) := by
  rw [outcome_evaluateLine hs, mapError_eq_ok, outcome_evaluate, map_eq_ok] at h
  obtain ⟨v, -, rfl⟩ := h
  rfl

/-- A line comes to the same before and after a line that writes nothing that it reads. -/
theorem evaluateLine_after (h₁ : (Statement.ofLine line₁).outcome = .ok s₁)
    (h₂ : (Statement.ofLine line₂).outcome = .ok s₂) (h : s₁.Independent s₂) (table : Table) :
    (evaluateLine line₂ (evaluateLine line₁ table).table).toLogged =
      (evaluateLine line₂ table).toLogged := by
  refine evaluateLine_congr fun name hname => ?_
  rw [readsOfLine_of_ok h₂] at hname
  rw [evaluateLine_of_ok h₁]
  refine get?_after_evaluate fun target htarget => ?_
  rintro rfl
  exact h.first_unread target htarget hname

/-- Of two independent lines, the second one comes to what it comes to alone. -/
theorem evaluateLines_pair (h₁ : (Statement.ofLine line₁).outcome = .ok s₁)
    (h₂ : (Statement.ofLine line₂).outcome = .ok s₂) (h : s₁.Independent s₂) (table : Table) :
    evaluateLines table [line₁, line₂] =
      [((evaluateLine line₁ table).outcome, table.after (evaluateLine line₁ table).outcome),
        ((evaluateLine line₂ table).outcome,
          (table.after (evaluateLine line₁ table).outcome).after
            (evaluateLine line₂ table).outcome)] := by
  have houtcome := congrArg Logged.outcome (evaluateLine_after h₁ h₂ h table)
  rw [table_evaluateLine] at houtcome
  simp only [evaluateLines, table_evaluateLine, houtcome]

/-- The answers of independent lines do not give values to one name. -/
theorem Statement.Independent.names_ne (h₁ : (Statement.ofLine line₁).outcome = .ok s₁)
    (h₂ : (Statement.ofLine line₂).outcome = .ok s₂) (h : s₁.Independent s₂)
    (ho₁ : (evaluateLine line₁ table).outcome = .ok ⟨v₁, some n₁⟩)
    (ho₂ : (evaluateLine line₂ table).outcome = .ok ⟨v₂, some n₂⟩) : n₁ ≠ n₂ := by
  obtain ⟨target₁, ht₁, rfl⟩ := Option.map_eq_some_iff.1 (name_of_evaluateLine h₁ ho₁).symm
  obtain ⟨target₂, ht₂, rfl⟩ := Option.map_eq_some_iff.1 (name_of_evaluateLine h₂ ho₂).symm
  exact h.targets_ne target₁ ht₁ target₂ ht₂

/-- **Independent lines can be exchanged.**  Each of them comes to the same in both orders, and the
two tables that are left hold the same entries.  They are equal unless each line adds an entry;
then these two entries come last, in the order of the lines. -/
theorem evaluateLines_swap (h₁ : (Statement.ofLine line₁).outcome = .ok s₁)
    (h₂ : (Statement.ofLine line₂).outcome = .ok s₂) (h : s₁.Independent s₂) (table : Table) :
    ∃ r₁ r₂ middle middle' last last',
      evaluateLines table [line₁, line₂] = [(r₁, middle), (r₂, last)] ∧
      evaluateLines table [line₂, line₁] = [(r₂, middle'), (r₁, last')] ∧
      last.entries.Perm last'.entries ∧
      match table.added? r₁, table.added? r₂ with
      | some e₁, some e₂ =>
        last.entries = table.entries ++ [e₁, e₂] ∧ last'.entries = table.entries ++ [e₂, e₁]
      | _, _ => last = last' := by
  have hne : ∀ n₁ v₁ n₂ v₂, (evaluateLine line₁ table).outcome = .ok ⟨v₁, some n₁⟩ →
      (evaluateLine line₂ table).outcome = .ok ⟨v₂, some n₂⟩ → n₁ ≠ n₂ :=
    fun _ _ _ _ ho₁ ho₂ => h.names_ne h₁ h₂ ho₁ ho₂
  exact ⟨_, _, _, _, _, _, evaluateLines_pair h₁ h₂ h table, evaluateLines_pair h₂ h₁ h.symm table,
    Table.entries_after_after_perm hne table, Table.after_after hne table⟩

/-- Both lines read `a` and assign to new names, which come last in the order of the lines. -/
theorem evaluateLines_swap_of_new_names :
    ∃ s₁ s₂ middle middle' last last', (Statement.ofLine "x = a + 1").outcome = .ok s₁ ∧
      (Statement.ofLine "y = a - 2").outcome = .ok s₂ ∧ s₁.Independent s₂ ∧
      evaluateLines (Table.ofList [("a", ⟨5, by decide, by decide⟩)]) ["x = a + 1", "y = a - 2"] =
        [(.ok ⟨⟨6, by decide, by decide⟩, some "x"⟩, middle),
          (.ok ⟨⟨3, by decide, by decide⟩, some "y"⟩, last)] ∧
      evaluateLines (Table.ofList [("a", ⟨5, by decide, by decide⟩)]) ["y = a - 2", "x = a + 1"] =
        [(.ok ⟨⟨3, by decide, by decide⟩, some "y"⟩, middle'),
          (.ok ⟨⟨6, by decide, by decide⟩, some "x"⟩, last')] ∧
      last.names = ["a", "x", "y"] ∧ last'.names = ["a", "y", "x"] := by
  let table := Table.ofList [("a", ⟨5, by decide, by decide⟩)]
  let s₁ : Statement := ⟨[⟨.name, "x"⟩, .equalsSign, ⟨.name, "a"⟩, .ofSign .plus,
    ⟨.numeral, "1"⟩], some ⟨"x", 2⟩⟩
  let s₂ : Statement := ⟨[⟨.name, "y"⟩, .equalsSign, ⟨.name, "a"⟩, .ofSign .minus,
    ⟨.numeral, "2"⟩], some ⟨"y", 2⟩⟩
  have h₁ : (Statement.ofLine "x = a + 1").outcome = .ok s₁ := by decide +kernel
  have h₂ : (Statement.ofLine "y = a - 2").outcome = .ok s₂ := by decide +kernel
  have hs : s₁.Independent s₂ := ⟨by decide, by decide, by decide⟩
  obtain ⟨r₁, r₂, middle, middle', last, last', hrun, hrun', -, hlast⟩ :=
    evaluateLines_swap h₁ h₂ hs table
  -- what the first line of each order comes to is known, and the other order has it second
  have hx : (evaluateLine "x = a + 1" table).outcome = r₁ :=
    congrArg Prod.fst (List.cons.inj hrun).1
  have hy : (evaluateLine "y = a - 2" table).outcome = r₂ :=
    congrArg Prod.fst (List.cons.inj hrun').1
  have hx' : (evaluateLine "x = a + 1" table).outcome =
      .ok ⟨⟨6, by decide, by decide⟩, some "x"⟩ := by decide +kernel
  have hy' : (evaluateLine "y = a - 2" table).outcome =
      .ok ⟨⟨3, by decide, by decide⟩, some "y"⟩ := by decide +kernel
  obtain rfl := hx.symm.trans hx'
  obtain rfl := hy.symm.trans hy'
  refine ⟨s₁, s₂, middle, middle', last, last', h₁, h₂, hs, hrun, hrun', ?_, ?_⟩
  · exact (congrArg (List.map Prod.fst) hlast.1).trans (by decide)
  · exact (congrArg (List.map Prod.fst) hlast.2).trans (by decide)

end SignedSum
