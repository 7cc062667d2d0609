/-
# The listing of a table can be read back

The listing of the variables is made of words with one space between each two: the word at the
start, and for every variable its name, an equals sign and its value (`Table.words`).  None of
these words holds a space, because names are words of letters, so the words are found again by
cutting the listing at its spaces (`splitOn_text`), and a value is found again from its text.  So
tables with the same listing have the same entries in the same order.

* `Table.text_eq_text_iff`: the listing determines the table.
* `Session.reply_vars_eq_iff`, `listing_determines_table`: so does the reply of a session.
-/
import SignedSum.Proofs.PlainReplies

namespace SignedSum

/-- The words that a variable is listed with. -/
def entryWords (e : String × Value) : List String := [e.1, "=", e.2.text]

/-- The words of the listing of a table that is not empty. -/
def Table.words (t : Table) : List String := "Variables:" :: t.entries.flatMap entryWords

variable {t u : Table} {l l' : List (String × Value)} {word : String}

/-! ## The words of a listing -/

theorem intercalate_entryWords (e : String × Value) :
    " ".intercalate (entryWords e) = e.1 ++ " = " ++ e.2.text := by
  rw [← String.toList_inj]
  simp [entryWords]

theorem intercalate_entries (l : List (String × Value)) :
    " ".intercalate (l.map fun e => e.1 ++ " = " ++ e.2.text) =
      " ".intercalate (l.flatMap entryWords) := by
  induction l with
  | nil => rfl
  | cons e rest ih =>
    rw [List.map_cons, List.flatMap_cons, ← intercalate_entryWords]
    by_cases hrest : rest = []
    · simp [hrest]
    · have hwords : rest.flatMap entryWords ≠ [] := by
        obtain ⟨e', rest', rfl⟩ := List.exists_cons_of_ne_nil hrest
        simp [entryWords]
      have hmap : rest.map (fun e => e.1 ++ " = " ++ e.2.text) ≠ [] := by simpa using hrest
      have hentry : entryWords e ≠ [] := List.cons_ne_nil _ _
      rw [String.intercalate_cons_of_ne_nil hmap, ih,
        String.intercalate_append_of_ne_nil hentry hwords]

namespace Table

/-- The listing is the words with one space between each two. -/
theorem text_eq_intercalate (h : t.entries ≠ []) : t.text = " ".intercalate t.words := by
  obtain ⟨e, rest, he⟩ := List.exists_cons_of_ne_nil h
  have hwords : t.entries.flatMap entryWords ≠ [] := by simp [he, entryWords]
  rw [text, if_neg (by simpa using h), intercalate_entries, words,
    String.intercalate_cons_of_ne_nil hwords]
  rfl

/-- No word of a listing holds a space. -/
theorem space_notMem_of_mem_words (ht : ∀ name ∈ t.names, IsName name) (h : word ∈ t.words) :
    ' ' ∉ word.toList := by
  rcases List.mem_cons.1 h with rfl | h
  · decide
  · obtain ⟨e, he, hword⟩ := List.mem_flatMap.1 h
    simp only [entryWords, List.mem_cons, List.not_mem_nil, or_false] at hword
    rcases hword with rfl | rfl | rfl
    · intro hspace
      exact absurd ((ht e.1 (List.mem_map_of_mem he)).2 ' ' hspace) (by decide)
    · decide
    · intro hspace
      rw [Value.toList_text] at hspace
      rcases Decimal.isDigit_or_eq_minus_of_mem_print hspace with hdigit | hminus
      · exact absurd hdigit (by decide)
      · exact absurd hminus (by decide)

/-- **The words are found again by cutting the listing at its spaces.** -/
theorem splitOn_text (ht : ∀ name ∈ t.names, IsName name) (h : t.entries ≠ []) :
    t.text.toList.splitOn ' ' = t.words.map String.toList := by
  rw [text_eq_intercalate h, String.toList_intercalate]
  refine List.splitOn_intercalate ' ' (fun chars hchars => ?_) (by simp [words])
  obtain ⟨word, hword, rfl⟩ := List.mem_map.1 hchars
  exact space_notMem_of_mem_words ht hword

/-! ## From the words to the table -/

/-- Only the table without variables has the listing that says so. -/
theorem text_eq_unset_iff : t.text = "Variables are not set" ↔ t.entries = [] := by
  constructor
  · intro h
    by_contra hne
    rw [text, if_neg (by simpa using hne)] at h
    -- the two texts differ in the character behind the first word
    have hchar := congrArg (·.toList.take 10) h
    simp only [String.toList_append] at hchar
    rw [List.take_append_of_le_length (by decide)] at hchar
    exact absurd hchar (by decide)
  · intro h
    rw [text, h]
    rfl

end Table

/-- Entries are found again from their words. -/
theorem eq_of_flatMap_entryWords (h : l.flatMap entryWords = l'.flatMap entryWords) : l = l' := by
  induction l generalizing l' with
  | nil =>
    cases l' with
    | nil => rfl
    | cons e rest => simp [entryWords] at h
  | cons e rest ih =>
    cases l' with
    | nil => simp [entryWords] at h
    | cons e' rest' =>
      simp only [List.flatMap_cons, entryWords, List.cons_append, List.nil_append,
        List.cons.injEq, true_and] at h
      obtain ⟨hname, hvalue, hrest⟩ := h
      rw [ih hrest, Prod.ext hname (Value.text_injective hvalue)]

/-- **The listing determines the table.** -/
theorem Table.text_eq_text_iff (ht : ∀ name ∈ t.names, IsName name)
    (hu : ∀ name ∈ u.names, IsName name) : t.text = u.text ↔ t.entries = u.entries := by
  constructor
  · intro h
    by_cases hte : t.entries = []
    · rw [hte, text_eq_unset_iff.1 (h ▸ text_eq_unset_iff.2 hte)]
    · have hue : u.entries ≠ [] := fun hue =>
        hte (text_eq_unset_iff.1 (h.trans (text_eq_unset_iff.2 hue)))
      have hwords : t.words.map String.toList = u.words.map String.toList := by
        rw [← splitOn_text ht hte, ← splitOn_text hu hue, h]
      have hlists : t.words = u.words :=
        List.map_injective_iff.2 (fun _ _ => String.toList_injective) hwords
      exact eq_of_flatMap_entryWords (List.cons.inj hlists).2
  · intro h
    rw [Table.ext h]

/-! ## The replies of sessions -/

namespace Session

theorem reply_vars (s : Session) : (s.handle "/vars").reply = .text s.table.text := by
  have hcommand : Command.ofLine? "/vars" = some .vars := by decide +kernel
  rw [handle_command hcommand]
  rfl

/-- Sessions that reply to `/vars` alike have the same table. -/
theorem reply_vars_eq_iff (lines lines' : List String) :
    ((after {} lines).handle "/vars").reply = ((after {} lines').handle "/vars").reply ↔
      (after {} lines).table.entries = (after {} lines').table.entries := by
  rw [reply_vars, reply_vars, Reply.text.injEq]
  exact Table.text_eq_text_iff (isName_of_mem_names lines) (isName_of_mem_names lines')

end Session

/-- **The listing of the variables determines the table.**  Two tables whose names are words of
letters have the same listing exactly if they have the same names with the same values in the same
order, and only the empty table is listed as one in which no variable is set.  So it is with the
listings of sessions, whatever lines they have handled. -/
theorem listing_determines_table (ht : ∀ name ∈ t.names, IsName name)
    (hu : ∀ name ∈ u.names, IsName name) :
    (t.text = u.text ↔ t.entries = u.entries) ∧
      (t.text = "Variables are not set" ↔ t.entries = []) ∧
      ∀ lines lines' : List String,
        ((Session.after {} lines).handle "/vars").reply =
            ((Session.after {} lines').handle "/vars").reply ↔
          (Session.after {} lines).table.entries = (Session.after {} lines').table.entries :=
  ⟨Table.text_eq_text_iff ht hu, Table.text_eq_unset_iff, Session.reply_vars_eq_iff⟩

/-- The same two variables in another order are listed otherwise. -/
theorem listing_determines_table_of_two :
    ∃ t u : Table, t.names = ["b", "a"] ∧ u.names = ["a", "b"] ∧
      (∀ name ∈ t.names, IsName name) ∧ (∀ name ∈ u.names, IsName name) ∧ t.text ≠ u.text ∧
      t.text ≠ "Variables are not set" := by
  let v : Value := ⟨-1, by decide, by decide⟩
  let t := Table.ofList [("b", .zero), ("a", v)]
  let u := Table.ofList [("a", v), ("b", .zero)]
  have ht : ∀ name ∈ t.names, IsName name := by decide
  have hu : ∀ name ∈ u.names, IsName name := by decide
  obtain ⟨hlisting, hunset, -⟩ := listing_determines_table ht hu
  refine ⟨t, u, by decide, by decide, ht, hu, fun h => ?_, fun h => ?_⟩
  · exact absurd (hlisting.1 h) (by decide)
  · exact absurd (hunset.1 h) (by decide)

end SignedSum
