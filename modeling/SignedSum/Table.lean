/-
# The table of variables

A table gives values to finitely many names.  It remembers the order in which the names got
their first value, and a name that gets another value keeps its place.  No name is ever removed.

The table is seen through two views: `get?`, the value of a name, and `names`, the names in
their order.  Each operation is described by what it does to the two.
-/
import SignedSum.Value

namespace SignedSum

/-- Replaces the value at the first entry of `name`, or appends an entry if there is none. -/
def insertEntry (name : String) (v : Value) : List (String × Value) → List (String × Value)
  | [] => [(name, v)]
  | (n, w) :: rest => if n = name then (n, v) :: rest else (n, w) :: insertEntry name v rest

theorem map_fst_insertEntry (name : String) (v : Value) (l : List (String × Value)) :
    (insertEntry name v l).map Prod.fst =
      if name ∈ l.map Prod.fst then l.map Prod.fst else l.map Prod.fst ++ [name] := by
  induction l with
  | nil => rfl
  | cons e rest ih =>
    obtain ⟨n, w⟩ := e
    by_cases hn : n = name
    · simp [insertEntry, hn]
    · have hn' : ¬ name = n := fun h => hn h.symm
      rw [insertEntry, if_neg hn, List.map_cons, ih]
      by_cases hm : name ∈ rest.map Prod.fst
      · rw [if_pos hm, if_pos (by simp [hm])]
        rfl
      · rw [if_neg hm, if_neg (by simp [hn', hm])]
        rfl

theorem lookup_cons_self (name : String) (v : Value) (l : List (String × Value)) :
    ((name, v) :: l).lookup name = some v := by
  rw [List.lookup_cons, beq_self_eq_true]

theorem lookup_cons_of_ne {name n : String} (h : n ≠ name) (v : Value)
    (l : List (String × Value)) : ((name, v) :: l).lookup n = l.lookup n := by
  rw [List.lookup_cons, beq_eq_false_iff_ne.2 h]

theorem lookup_insertEntry (name : String) (v : Value) (l : List (String × Value)) (n : String) :
    (insertEntry name v l).lookup n = if n = name then some v else l.lookup n := by
  induction l with
  | nil =>
    by_cases h : n = name
    · rw [insertEntry, if_pos h, h, lookup_cons_self]
    · rw [insertEntry, if_neg h, lookup_cons_of_ne h]
  | cons e rest ih =>
    obtain ⟨m, w⟩ := e
    by_cases hm : m = name
    · subst hm
      rw [insertEntry, if_pos rfl]
      by_cases h : n = m
      · rw [if_pos h, h, lookup_cons_self]
      · rw [if_neg h, lookup_cons_of_ne h, lookup_cons_of_ne h]
    · rw [insertEntry, if_neg hm]
      by_cases h : n = m
      · subst h
        rw [lookup_cons_self, if_neg hm, lookup_cons_self]
      · rw [lookup_cons_of_ne h, ih, lookup_cons_of_ne h]

/-- Names and their values, in the order in which the names first got one. -/
@[ext] structure Table where
  /-- The names with their values. -/
  entries : List (String × Value)
  /-- No name has two places. -/
  nodup : (entries.map Prod.fst).Nodup := by decide
deriving DecidableEq

namespace Table

instance : EmptyCollection Table where
  emptyCollection := { entries := [] }

instance : Inhabited Table := ⟨∅⟩

/-- The value of a name, if it has one. -/
def get? (t : Table) (name : String) : Option Value := t.entries.lookup name

/-- The names that have a value, in their order. -/
def names (t : Table) : List String := t.entries.map Prod.fst

/-- Gives a value to a name. -/
def insert (t : Table) (name : String) (v : Value) : Table where
  entries := insertEntry name v t.entries
  nodup := by
    rw [map_fst_insertEntry]
    by_cases h : name ∈ t.entries.map Prod.fst
    · rw [if_pos h]
      exact t.nodup
    · rw [if_neg h]
      exact List.nodup_append.2 ⟨t.nodup, by simp, fun a ha b hb hab =>
        h (List.mem_singleton.1 hb ▸ hab ▸ ha)⟩

/-- The table that arises when the names get their values one after the other. -/
def ofList (l : List (String × Value)) : Table := l.foldl (fun t e => t.insert e.1 e.2) ∅

/-- The listing of a table. -/
def text (t : Table) : String :=
  if t.entries.isEmpty then "Variables are not set"
  else "Variables: " ++ " ".intercalate (t.entries.map fun e => e.1 ++ " = " ++ e.2.text)

variable {t : Table} {name n : String} {v : Value}

@[simp] theorem entries_empty : (∅ : Table).entries = [] := rfl

@[simp] theorem get?_empty : (∅ : Table).get? n = none := rfl

@[simp] theorem names_empty : (∅ : Table).names = [] := rfl

theorem nodup_names (t : Table) : t.names.Nodup := t.nodup

theorem get?_insert : (t.insert name v).get? n = if n = name then some v else t.get? n :=
  lookup_insertEntry name v t.entries n

@[simp] theorem get?_insert_self : (t.insert name v).get? name = some v := by
  rw [get?_insert, if_pos rfl]

theorem get?_insert_of_ne (h : n ≠ name) : (t.insert name v).get? n = t.get? n := by
  rw [get?_insert, if_neg h]

theorem names_insert :
    (t.insert name v).names = if name ∈ t.names then t.names else t.names ++ [name] :=
  map_fst_insertEntry name v t.entries

theorem mem_names_insert : n ∈ (t.insert name v).names ↔ n = name ∨ n ∈ t.names := by
  rw [names_insert]
  by_cases h : name ∈ t.names
  · rw [if_pos h]
    exact ⟨Or.inr, fun hn => hn.elim (fun he => he ▸ h) id⟩
  · rw [if_neg h, List.mem_append, List.mem_singleton, or_comm]

theorem get?_isSome : (t.get? n).isSome = true ↔ n ∈ t.names := by
  rw [get?, names]
  induction t.entries with
  | nil => simp
  | cons e rest ih =>
    obtain ⟨m, w⟩ := e
    rw [List.map_cons, List.mem_cons]
    by_cases h : n = m
    · subst h
      rw [lookup_cons_self]
      exact ⟨fun _ => Or.inl rfl, fun _ => rfl⟩
    · rw [lookup_cons_of_ne h, ih]
      exact ⟨Or.inr, fun hn => hn.resolve_left h⟩

end Table

end SignedSum
