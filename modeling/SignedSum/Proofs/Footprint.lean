/-
# What an evaluation reads and writes

A statement reads the values of the names that it evaluates (`Statement.reads`), and nothing else
of the table: not the other entries, not the order of the entries, and not the value of its own
target, unless the target is one of the names that it evaluates.  The table is read in one place,
where names give way to their values, so tables that agree on these names cannot be told apart by
anything that follows (`evaluate_congr`).

An answer writes one entry at most, that of the target.  All other entries stay as they are and
where they are.

* `evaluate_footprint`: what one evaluation reads and writes.
* `evaluateLines_agree`: lines that are evaluated one after the other, on tables that agree on
  everything that the lines read, have the same outcomes, and the tables go on to agree.
-/
import SignedSum.Proofs.Assignment

namespace SignedSum

/-- The names that a statement evaluates, in order. -/
def Statement.reads (s : Statement) : List String :=
  (s.operands.filter (·.kind = .name)).map (·.text)

/-- Each of the names has the same value in both tables, or none in either. -/
def Table.AgreeOn (names : List String) (table table' : Table) : Prop :=
  ∀ name ∈ names, table.get? name = table'.get? name

variable {table table' : Table} {names : List String} {name : String} {s : Statement}

theorem Statement.text_mem_reads {t : Token} (ht : t ∈ s.operands) (hk : t.kind = .name) :
    t.text ∈ s.reads :=
  List.mem_map_of_mem (List.mem_filter.2 ⟨ht, decide_eq_true hk⟩)

/-! ## Reading -/

theorem Token.resolve_congr {t : Token}
    (h : t.kind = .name → table.get? t.text = table'.get? t.text) :
    t.resolve table = t.resolve table' := by
  by_cases hk : t.kind = .name
  · rw [resolve, resolve, h hk]
  · rw [resolve_of_ne hk, resolve_of_ne hk]

theorem Table.substitute_congr {ts : List Token}
    (h : ∀ t ∈ ts, t.kind = .name → table.get? t.text = table'.get? t.text) :
    table.substitute ts = table'.substitute ts := by
  induction ts with
  | nil => rfl
  | cons t ts ih =>
    obtain ⟨ht, hts⟩ := List.forall_mem_cons.1 h
    rw [substitute_cons, substitute_cons, Token.resolve_congr ht, ih hts]

/-- **Tables that agree on the names of a statement cannot be told apart by its evaluation**, not
even by what it records. -/
theorem evaluate_congr (h : Table.AgreeOn s.reads table table') :
    (s.evaluate table).toLogged = (s.evaluate table').toLogged := by
  have hsubstitute : table.substitute s.operands = table'.substitute s.operands :=
    Table.substitute_congr fun t ht hk => h t.text (Statement.text_mem_reads ht hk)
  have hvalue : s.value table = s.value table' := by
    unfold Statement.value Statement.compute
    rw [hsubstitute]
  rw [Statement.toLogged_evaluate, Statement.toLogged_evaluate, hvalue]

/-! ## Writing -/

/-- Writing to a name leaves all other entries, in their order. -/
theorem filter_insertEntry (name : String) (v : Value) (l : List (String × Value)) :
    (insertEntry name v l).filter (·.1 ≠ name) = l.filter (·.1 ≠ name) := by
  induction l with
  | nil => simp [insertEntry]
  | cons e rest ih =>
    obtain ⟨n, w⟩ := e
    by_cases hn : n = name
    · rw [insertEntry, if_pos hn]
      simp [hn]
    · rw [insertEntry, if_neg hn, List.filter_cons, List.filter_cons, ih]

/-- All that can come of an evaluation: a fault, a value, or a value and a write of it to the
target. -/
theorem evaluate_cases (s : Statement) (table : Table) :
    (∃ f, (s.evaluate table).outcome = .error f) ∨
    (∃ v, s.target = none ∧ (s.evaluate table).outcome = .ok ⟨v, none⟩) ∨
    ∃ v target, s.target = some target ∧
      (s.evaluate table).outcome = .ok ⟨v, some target.name⟩ := by
  rw [outcome_evaluate]
  cases (Statement.compute table s.operands).outcome with
  | error f => exact Or.inl ⟨f, rfl⟩
  | ok v =>
    cases s.target with
    | none => exact Or.inr (Or.inl ⟨v, rfl, rfl⟩)
    | some target => exact Or.inr (Or.inr ⟨v, target, rfl, rfl⟩)

/-- An evaluation changes the value of its target at most. -/
theorem get?_after_evaluate (h : ∀ target ∈ s.target, name ≠ target.name) :
    (s.evaluate table).table.get? name = table.get? name := by
  rw [table_evaluate]
  rcases evaluate_cases s table with ⟨f, ho⟩ | ⟨v, -, ho⟩ | ⟨v, target, htarget, ho⟩
  · rw [ho, Table.after]
  · rw [ho]
    rfl
  · rw [ho]
    exact Table.get?_insert_of_ne (h target htarget)

/-- **What an evaluation reads and writes.**  On tables that agree on the names that it evaluates,
a statement comes to the same, with the same record.  Without an answer the table stays as it is;
an answer without a target leaves it as it is too, and an answer with a target writes its value to
the target and leaves all other entries as they are, in their order. -/
theorem evaluate_footprint (s : Statement) (h : Table.AgreeOn s.reads table table') :
    (s.evaluate table).toLogged = (s.evaluate table').toLogged ∧
      match (s.evaluate table).outcome, s.target with
      | .error _, _ => (s.evaluate table).table = table
      | .ok a, none => a.name = none ∧ (s.evaluate table).table = table
      | .ok a, some target =>
        a.name = some target.name ∧
          table.Writes (s.evaluate table).table target.name a.value ∧
          (s.evaluate table).table.entries.filter (·.1 ≠ target.name) =
            table.entries.filter (·.1 ≠ target.name) := by
  refine ⟨evaluate_congr h, ?_⟩
  rw [table_evaluate]
  rcases evaluate_cases s table with ⟨f, ho⟩ | ⟨v, htarget, ho⟩ | ⟨v, target, htarget, ho⟩
  · rw [ho, Table.after]
  · rw [ho, htarget]
    exact ⟨rfl, rfl⟩
  · rw [ho, htarget]
    exact ⟨rfl, table.writes_insert target.name v, filter_insertEntry target.name v table.entries⟩

/-- `x = a - 3` reads only `a`: neither the old value of `x`, nor `b`, nor the order matters. -/
theorem evaluate_footprint_of_assignment :
    ∃ (s : Statement) (table table' : Table), (Statement.ofLine "x = a - 3").outcome = .ok s ∧
      table.names = ["b", "x", "a"] ∧ table'.names = ["a"] ∧
      Table.AgreeOn s.reads table table' ∧
      (s.evaluate table).toLogged = (s.evaluate table').toLogged ∧
      (s.evaluate table).table.names = ["b", "x", "a"] ∧
      (s.evaluate table).table.get? "x" = some ⟨4, by decide, by decide⟩ := by
  let s : Statement := ⟨[⟨.name, "x"⟩, .equalsSign, ⟨.name, "a"⟩, .ofSign .minus,
    ⟨.numeral, "3"⟩], some ⟨"x", 2⟩⟩
  let table := Table.ofList [("b", .zero), ("x", .zero), ("a", ⟨7, by decide, by decide⟩)]
  let table' := Table.ofList [("a", ⟨7, by decide, by decide⟩)]
  have hline : (Statement.ofLine "x = a - 3").outcome = .ok s := by decide +kernel
  have hagree : Table.AgreeOn s.reads table table' := List.forall_mem_singleton.2 rfl
  have ho : (s.evaluate table).outcome = .ok ⟨⟨4, by decide, by decide⟩, some "x"⟩ := by
    decide +kernel
  obtain ⟨hsame, heffect⟩ := evaluate_footprint s hagree
  rw [ho] at heffect
  obtain ⟨-, hwrites, -⟩ := heffect
  exact ⟨s, table, table', hline, by decide, by decide, hagree, hsame,
    hwrites.names_eq.trans (by decide), (hwrites.get?_eq "x").trans (by decide)⟩

/-! ## Lines one after the other -/

/-- The names that a line evaluates, if it has a form. -/
def readsOfLine (line : String) : List String :=
  match (Statement.ofLine line).outcome with
  | .ok s => s.reads
  | .error _ => []

theorem readsOfLine_of_ok {line : String} (h : (Statement.ofLine line).outcome = .ok s) :
    readsOfLine line = s.reads := by
  rw [readsOfLine, h]

theorem evaluateLine_congr {line : String}
    (h : Table.AgreeOn (readsOfLine line) table table') :
    (evaluateLine line table).toLogged = (evaluateLine line table').toLogged := by
  cases hs : (Statement.ofLine line).outcome with
  | error f => rw [evaluateLine_of_error hs, evaluateLine_of_error hs]
  | ok s =>
    rw [readsOfLine_of_ok hs] at h
    rw [evaluateLine_of_ok hs, evaluateLine_of_ok hs, evaluate_congr h]

/-- What is recorded in both tables does not drive them apart. -/
theorem Table.AgreeOn.after {ε : Type} (h : Table.AgreeOn names table table')
    (outcome : Except ε Answer) :
    Table.AgreeOn names (table.after outcome) (table'.after outcome) := by
  intro name hname
  rcases outcome with f | ⟨v, _ | n⟩
  · exact h name hname
  · exact h name hname
  · show (table.insert n v).get? name = (table'.insert n v).get? name
    rw [Table.get?_insert, Table.get?_insert, h name hname]

/-- **Lines come to the same on tables that agree on all that they read**, and the tables agree
after every line. -/
theorem evaluateLines_agree {lines : List String}
    (hreads : ∀ line ∈ lines, readsOfLine line ⊆ names) (h : Table.AgreeOn names table table') :
    List.Forall₂ (fun x y => x.1 = y.1 ∧ Table.AgreeOn names x.2 y.2)
      (evaluateLines table lines) (evaluateLines table' lines) := by
  induction lines generalizing table table' with
  | nil => exact .nil
  | cons line rest ih =>
    obtain ⟨hline, hrest⟩ := List.forall_mem_cons.1 hreads
    have hsame : (evaluateLine line table).outcome = (evaluateLine line table').outcome :=
      congrArg Logged.outcome (evaluateLine_congr fun name hname => h name (hline hname))
    have hafter : Table.AgreeOn names (evaluateLine line table).table
        (evaluateLine line table').table := by
      rw [table_evaluateLine, table_evaluateLine, hsame]
      exact h.after _
    exact .cons ⟨hsame, hafter⟩ (ih hrest hafter)

end SignedSum
