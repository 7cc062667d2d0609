/-
# Statements that are evaluated again and again

A statement can be evaluated any number of times, each time on the table that the time before has
left.  What comes of it is decided by whether the table stays as it is: an evaluation that leaves
the table as it found it is repeated by all later ones (`evaluateTimes_of_stays`).

* A fault leaves the table as it is, so the first one is the fault of all later evaluations, on
  the table that the last success has left (`exists_evaluateTimes_eq`).
* A second write of the value that a name has leaves the table as it is (`Table.after_after_self`),
  so a statement that does not read its own target always comes to the same
  (`evaluateTimes_of_unread`).
* `evaluateTimes_repeats`: both, and that a statement stands for the line that it is the form of.
-/
import SignedSum.Proofs.IndependentLines

namespace SignedSum

variable {table t : Table} {s : Statement} {line name : String} {v w : Value} {a : Answer}
  {f : ValueFault} {outcome : Except ValueFault Answer} {n : Nat}

/-! ## Writing twice -/

/-- Of two writes to one name the second one counts. -/
theorem insertEntry_insertEntry (name : String) (v w : Value) (l : List (String × Value)) :
    insertEntry name w (insertEntry name v l) = insertEntry name w l := by
  induction l with
  | nil => simp [insertEntry]
  | cons e rest ih =>
    obtain ⟨m, u⟩ := e
    by_cases hm : m = name
    · simp [insertEntry, hm]
    · simp only [insertEntry, if_neg hm, ih]

namespace Table

theorem insert_insert : (table.insert name v).insert name w = table.insert name w :=
  Table.ext (insertEntry_insertEntry name v w table.entries)

/-- **Recording an outcome a second time changes nothing.** -/
theorem after_after_self {ε : Type} (table : Table) (outcome : Except ε Answer) :
    (table.after outcome).after outcome = table.after outcome := by
  rcases outcome with e | ⟨v, _ | name⟩
  · rfl
  · rfl
  · exact insert_insert

end Table

/-! ## One evaluation after the other -/

namespace Statement

theorem evaluateTimes_succ (s : Statement) (table : Table) (n : Nat) :
    s.evaluateTimes table (n + 1) =
      ((s.evaluate table).outcome, (s.evaluate table).table) ::
        s.evaluateTimes (s.evaluate table).table n := rfl

/-- **An evaluation that leaves the table as it is is repeated by all later ones.** -/
theorem evaluateTimes_of_stays (h : (s.evaluate table).outcome = outcome)
    (hstays : (s.evaluate table).table = table) (n : Nat) :
    s.evaluateTimes table n = List.replicate n (outcome, table) := by
  induction n with
  | zero => rfl
  | succ n ih => rw [evaluateTimes_succ, h, hstays, ih, List.replicate_succ]

/-- After a fault nothing but the fault comes. -/
theorem evaluateTimes_of_error (h : (s.evaluate table).outcome = .error f) (n : Nat) :
    s.evaluateTimes table n = List.replicate n (.error f, table) :=
  evaluateTimes_of_stays h (table_evaluate_of_error h) n

/-- **A statement that does not read its target always comes to the same.** -/
theorem evaluateTimes_of_unread (h : ∀ target ∈ s.target, target.name ∉ s.reads) (table : Table)
    (n : Nat) :
    s.evaluateTimes table n = List.replicate n
      ((s.evaluate table).outcome, (s.evaluate table).table) := by
  cases n with
  | zero => rfl
  | succ n =>
    have hagree : Table.AgreeOn s.reads (s.evaluate table).table table := by
      intro name hname
      refine get?_after_evaluate fun target htarget => ?_
      rintro rfl
      exact h target htarget hname
    have hsame := congrArg Logged.outcome (evaluate_congr hagree)
    -- the second evaluation writes what the first one has written
    have hstays : (s.evaluate (s.evaluate table).table).table = (s.evaluate table).table := by
      rw [table_evaluate s (s.evaluate table).table, hsame, table_evaluate s table,
        Table.after_after_self]
    rw [evaluateTimes_succ, List.replicate_succ, evaluateTimes_of_stays hsame hstays]

/-- The line of a statement comes to the same as the statement, any number of times. -/
theorem evaluateLines_replicate (h : (Statement.ofLine line).outcome = .ok s) (table : Table)
    (n : Nat) :
    evaluateLines table (List.replicate n line) =
      (s.evaluateTimes table n).map fun x => (x.1.mapError Fault.value, x.2) := by
  induction n generalizing table with
  | zero => rfl
  | succ n ih =>
    rw [List.replicate_succ, evaluateLines, evaluateLine_of_ok h, ih, evaluateTimes_succ,
      List.map_cons]

/-! ## Up to the first fault -/

/-- The table after some evaluations that have started on the given one. -/
def tableAfter (table : Table) (done : List (Except ValueFault Answer × Table)) : Table :=
  (done.getLast?.map Prod.snd).getD table

theorem tableAfter_cons (x : Except ValueFault Answer × Table)
    (done : List (Except ValueFault Answer × Table)) :
    tableAfter table (x :: done) = tableAfter x.2 done := by
  rw [tableAfter, List.getLast?_cons, Option.map_some, Option.getD_some, tableAfter,
    Option.getD_map]

/-- **The evaluations up to the first fault succeed, and all others have that fault** and leave the
table as the last success has left it. -/
theorem exists_evaluateTimes_eq (h : ∃ t, (.error f, t) ∈ s.evaluateTimes table n) :
    ∃ done m, 0 < m ∧
      s.evaluateTimes table n = done ++ List.replicate m (.error f, tableAfter table done) ∧
      ∀ x ∈ done, ∃ a, x.1 = .ok a := by
  induction n generalizing table with
  | zero =>
    obtain ⟨t, ht⟩ := h
    cases ht
  | succ n ih =>
    obtain ⟨t, ht⟩ := h
    cases ho : (s.evaluate table).outcome with
    | error g =>
      rw [evaluateTimes_of_error ho] at ht ⊢
      obtain ⟨-, heq⟩ := List.mem_replicate.1 ht
      cases heq
      exact ⟨[], n + 1, Nat.succ_pos n, rfl, by simp⟩
    | ok a =>
      rw [evaluateTimes_succ, ho] at ht ⊢
      rcases List.mem_cons.1 ht with heq | ht
      · cases heq
      · obtain ⟨done, m, hm, hdone, hok⟩ := ih ⟨t, ht⟩
        refine ⟨(.ok a, (s.evaluate table).table) :: done, m, hm, ?_, ?_⟩
        · rw [hdone, tableAfter_cons, List.cons_append]
        · exact List.forall_mem_cons.2 ⟨⟨a, rfl⟩, hok⟩

/-- Every success leaves its value with the target. -/
theorem get?_of_mem_evaluateTimes {target : Target} (ht : target ∈ s.target)
    (h : (.ok a, t) ∈ s.evaluateTimes table n) : t.get? target.name = some a.value := by
  induction n generalizing table with
  | zero => cases h
  | succ n ih =>
    rw [evaluateTimes_succ] at h
    rcases List.mem_cons.1 h with heq | h
    · obtain ⟨ho, rfl⟩ := Prod.mk.inj heq
      rw [table_evaluate, ← ho]
      rcases evaluate_cases s table with ⟨f, hf⟩ | ⟨v, hnone, -⟩ | ⟨v, target', hsome, hv⟩
      · rw [hf] at ho
        cases ho
      · rw [hnone] at ht
        cases ht
      · rw [hv] at ho
        cases ho
        cases hsome.symm.trans ht
        exact Table.get?_insert_self
    · exact ih h

/-- **Evaluating a statement again and again.**

The statement of a line comes to the same as the line, each of the `n` times.  If it has no target
or does not read it, it always comes to the same, and its table stays what it was after the first
time.  If it has a fault at some time, then it succeeds up to some time and has that fault from
there on, and the table stays what the last success has left: the target, if there is one, keeps
the last value that it got. -/
theorem evaluateTimes_repeats (h : (Statement.ofLine line).outcome = .ok s) (table : Table)
    (n : Nat) :
    evaluateLines table (List.replicate n line) =
        (s.evaluateTimes table n).map (fun x => (x.1.mapError Fault.value, x.2)) ∧
      ((∀ target ∈ s.target, target.name ∉ s.reads) →
        s.evaluateTimes table n = List.replicate n
          ((s.evaluate table).outcome, (s.evaluate table).table)) ∧
      ∀ f, (∃ t, (.error f, t) ∈ s.evaluateTimes table n) →
        ∃ done m, 0 < m ∧
          s.evaluateTimes table n = done ++ List.replicate m (.error f, tableAfter table done) ∧
          (∀ x ∈ done, ∃ a, x.1 = .ok a) ∧
          ∀ a t, done.getLast? = some (.ok a, t) → ∀ target ∈ s.target,
            (tableAfter table done).get? target.name = some a.value := by
  refine ⟨evaluateLines_replicate h table n, fun hunread => evaluateTimes_of_unread hunread table n,
    fun f hf => ?_⟩
  obtain ⟨done, m, hm, hdone, hok⟩ := exists_evaluateTimes_eq hf
  refine ⟨done, m, hm, hdone, hok, fun a t hlast target htarget => ?_⟩
  have hmem : (.ok a, t) ∈ s.evaluateTimes table n := by
    rw [hdone]
    exact List.mem_append_left _ (List.mem_of_getLast? hlast)
  rw [tableAfter, hlast]
  exact get?_of_mem_evaluateTimes htarget hmem

/-- From 100000000 on, `x = x + 2000000000` succeeds once; `y = 5 - x` always comes to the same. -/
theorem evaluateTimes_repeats_of_overflow :
    ∃ (s s' : Statement) (table : Table) (f : ValueFault)
      (done : List (Except ValueFault Answer × Table)) (m : Nat),
      (Statement.ofLine "x = x + 2000000000").outcome = .ok s ∧
      (∃ t, (.error f, t) ∈ s.evaluateTimes table 3) ∧ 0 < m ∧
      s.evaluateTimes table 3 = done ++ List.replicate m (.error f, tableAfter table done) ∧
      (Statement.ofLine "y = 5 - x").outcome = .ok s' ∧
      (∀ target ∈ s'.target, target.name ∉ s'.reads) ∧
      s'.evaluateTimes table 3 = List.replicate 3
        ((s'.evaluate table).outcome, (s'.evaluate table).table) := by
  let s : Statement := ⟨[⟨.name, "x"⟩, .equalsSign, ⟨.name, "x"⟩, .ofSign .plus,
    ⟨.numeral, "2000000000"⟩], some ⟨"x", 2⟩⟩
  let s' : Statement := ⟨[⟨.name, "y"⟩, .equalsSign, ⟨.numeral, "5"⟩, .ofSign .minus,
    ⟨.name, "x"⟩], some ⟨"y", 2⟩⟩
  let high : Value := ⟨2100000000, by decide, by decide⟩
  let table := Table.ofList [("x", ⟨100000000, by decide, by decide⟩)]
  let f : ValueFault := .outOfRange (.step .plus high ⟨2000000000, by decide, by decide⟩)
  have hline : (Statement.ofLine "x = x + 2000000000").outcome = .ok s := by decide +kernel
  have hline' : (Statement.ofLine "y = 5 - x").outcome = .ok s' := by decide +kernel
  have hfault : (.error f, Table.ofList [("x", high)]) ∈ s.evaluateTimes table 3 := by
    decide +kernel
  have hunread : ∀ target ∈ s'.target, target.name ∉ s'.reads := by decide
  obtain ⟨-, -, hfaults⟩ := evaluateTimes_repeats hline table 3
  obtain ⟨-, hsame, -⟩ := evaluateTimes_repeats hline' table 3
  obtain ⟨done, m, hm, hdone, -⟩ := hfaults f ⟨_, hfault⟩
  exact ⟨s, s', table, f, done, m, hline, ⟨_, hfault⟩, hm, hdone, hline', hunread, hsame hunread⟩

end Statement
end SignedSum
