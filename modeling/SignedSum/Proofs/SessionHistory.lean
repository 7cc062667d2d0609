/-
# What a session remembers

All that is left of the lines that a session has handled is its table, and the table is that of
the assignments among them: `Session.assigned?` says what a line assigns, and
`Session.assignments` collects it over a run.

* `assigned?_eq_some_iff`: the reply to a line shows a name and a value as an assignment does
  exactly if the line assigns the value to the name.  So the assignments of a run can be read off
  its replies.
* `table_after_eq_ofList`: the table of a session is the one that arises when its assignments are
  carried out one after the other.
* `session_remembers`: names, values and their order in the table, after any run and across any
  step.
-/
import SignedSum.Session
import SignedSum.Proofs.Reading

namespace SignedSum

/-! ## The table of a list of assignments -/

namespace Table

variable {l : List (String × Value)} {name : String} {v : Value}

theorem ofList_concat : ofList (l ++ [(name, v)]) = (ofList l).insert name v := by
  rw [ofList, List.foldl_append]
  rfl

/-- The names stand in the order in which they come first. -/
theorem names_ofList (l : List (String × Value)) :
    (ofList l).names = (l.map Prod.fst).eraseDups := by
  induction l using List.reverseRecOn with
  | nil => rfl
  | append_singleton l e ih =>
    obtain ⟨name, v⟩ := e
    rw [ofList_concat, names_insert, ih, List.map_append, List.eraseDups_append]
    -- a name that is there keeps its place, and a new one comes last
    by_cases h : name ∈ l.map Prod.fst
    · rw [if_pos (List.mem_eraseDups.2 h)]
      simp [List.removeAll, h]
    · rw [if_neg (fun h' => h (List.mem_eraseDups.1 h'))]
      simp [List.removeAll, h, List.eraseDups_cons]

/-- A name has the value that comes last. -/
theorem get?_ofList (l : List (String × Value)) (name : String) :
    (ofList l).get? name = l.reverse.lookup name := by
  induction l using List.reverseRecOn with
  | nil => rfl
  | append_singleton l e ih =>
    obtain ⟨n, v⟩ := e
    rw [ofList_concat, get?_insert, ih, List.reverse_append, List.reverse_singleton,
      List.singleton_append]
    by_cases h : name = n
    · rw [if_pos h, h, lookup_cons_self]
    · rw [if_neg h, lookup_cons_of_ne h]

end Table

/-! ## What a line assigns -/

/-- The target of an assignment is a name. -/
theorem isName_of_target {line : String} {s : Statement} {target : Target}
    (h : (Statement.ofLine line).outcome = .ok s) (ht : s.target = some target) :
    IsName target.name := by
  obtain ⟨htokens, hshape⟩ := outcome_ofLine.1 h
  have hopens := (shaped_of_checkShape hshape).opens
  rw [ht] at hopens
  obtain ⟨name, sign, rest, hs, hname, -, rfl, -⟩ := hopens
  have hmem : name ∈ s.tokens := hs ▸ List.mem_cons_self
  exact (canonical_of_tokenize htokens name hmem).isName hname

/-- An answer gives a value to nothing but a name. -/
theorem isName_of_evaluateLine {line name : String} {table : Table} {v : Value}
    (h : (evaluateLine line table).outcome = .ok ⟨v, some name⟩) : IsName name := by
  obtain ⟨s, hs, h⟩ := outcome_evaluateLine_eq_ok.1 h
  rw [Statement.toLogged_evaluate, Logged.outcome_bind] at h
  obtain ⟨w, -, h⟩ := bind_eq_ok.1 h
  have hname : s.target.map (·.name) = some name := congrArg Answer.name (Except.ok.inj h)
  obtain ⟨target, ht, rfl⟩ := Option.map_eq_some_iff.1 hname
  exact isName_of_target hs ht

/-- The name and the value that an answer assigns. -/
def Answer.assigned? (a : Answer) : Option (String × Value) := a.name.map (·, a.value)

theorem Answer.assigned?_eq_some {a : Answer} {name : String} {v : Value} :
    a.assigned? = some (name, v) ↔ a = ⟨v, some name⟩ := by
  obtain ⟨w, n⟩ := a
  cases n <;> simp [assigned?, and_comm]

namespace Session

/-- The name and the value that a line assigns when the session handles it, if the line is an
assignment that succeeds. -/
def assigned? (s : Session) (line : String) : Option (String × Value) :=
  if Text.trim line = "" ∨ (Command.ofLine? line).isSome then none
  else match (evaluateLine line s.table).outcome with
    | .ok a => a.assigned?
    | .error _ => none

/-- All the assignments of a run, in order. -/
def assignments (s : Session) : List String → List (String × Value)
  | [] => []
  | line :: rest => (s.assigned? line).toList ++ (s.handle line).session.assignments rest

/-- The session after a run. -/
def after (s : Session) (lines : List String) : Session :=
  ((s.handleAll lines).getLast?.map (·.session)).getD s

variable {s : Session} {line name : String} {v : Value} {a : Answer} {f : Fault}

theorem calculate_of_ok (h : (evaluateLine line s.table).outcome = .ok a) :
    (s.calculate line).reply = .text a.text ∧
      (s.calculate line).session.table = s.table.record a := by
  simp only [calculate, table_evaluateLine, h, Table.after, and_self]

theorem calculate_of_error (h : (evaluateLine line s.table).outcome = .error f) :
    (s.calculate line).reply = .text f.message ∧ (s.calculate line).session.table = s.table := by
  simp only [calculate, table_evaluateLine_of_error h, h, and_self]

/-- The four sorts of line: blank, a command, a line with an answer, a line with a fault. -/
theorem handle_cases (s : Session) (line : String) :
    (s.handle line = ⟨.silence, s, []⟩ ∧ s.assigned? line = none) ∨
    (∃ command, s.handle line = s.obey command ∧ s.assigned? line = none) ∨
    (∃ a, (evaluateLine line s.table).outcome = .ok a ∧ (s.handle line).reply = .text a.text ∧
      (s.handle line).session.table = s.table.record a ∧ s.assigned? line = a.assigned?) ∨
    (∃ f : Fault, (s.handle line).reply = .text f.message ∧
      (s.handle line).session.table = s.table ∧ s.assigned? line = none) := by
  by_cases hb : Text.trim line = ""
  · exact Or.inl ⟨handle_blank hb, if_pos (Or.inl hb)⟩
  · cases hc : Command.ofLine? line with
    | some command =>
      exact Or.inr (Or.inl ⟨command, handle_command hc, if_pos (Or.inr (by rw [hc]; rfl))⟩)
    | none =>
      have hsum : ¬ (Text.trim line = "" ∨ (Command.ofLine? line).isSome = true) := by
        simp [hb, hc]
      rw [handle_sum hb hc, assigned?, if_neg hsum]
      cases ho : (evaluateLine line s.table).outcome with
      | ok a =>
        obtain ⟨hreply, htable⟩ := calculate_of_ok ho
        exact Or.inr (Or.inr (Or.inl ⟨a, rfl, hreply, htable, rfl⟩))
      | error f =>
        obtain ⟨hreply, htable⟩ := calculate_of_error ho
        exact Or.inr (Or.inr (Or.inr ⟨f, hreply, htable, rfl⟩))

/-- **A line changes the table by what it assigns**, and not at all if it assigns nothing. -/
theorem table_handle (s : Session) (line : String) :
    (s.handle line).session.table =
      match s.assigned? line with
      | some (name, v) => s.table.insert name v
      | none => s.table := by
  rcases handle_cases s line with ⟨h, hnone⟩ | ⟨command, h, hnone⟩ | ⟨a, -, -, htable, ha⟩ |
    ⟨f, -, htable, hnone⟩
  · rw [h, hnone]
  · rw [h, hnone, session_obey]
  · rw [htable, ha]
    obtain ⟨v, name⟩ := a
    cases name <;> rfl
  · rw [htable, hnone]

/-- A line that assigns has the assignment as its answer, and the answer is the reply. -/
theorem of_assigned? (h : s.assigned? line = some (name, v)) :
    (evaluateLine line s.table).outcome = .ok ⟨v, some name⟩ ∧
      (s.handle line).reply = .text (Answer.text ⟨v, some name⟩) := by
  rcases handle_cases s line with ⟨-, hnone⟩ | ⟨-, -, hnone⟩ | ⟨a, ho, hreply, -, ha⟩ |
    ⟨-, -, -, hnone⟩
  case inr.inr.inl =>
    rw [ha, Answer.assigned?_eq_some] at h
    subst h
    exact ⟨ho, hreply⟩
  all_goals
    rw [hnone] at h
    cases h

theorem isName_of_assigned? (h : s.assigned? line = some (name, v)) : IsName name :=
  isName_of_evaluateLine (of_assigned? h).1

/-! ## Reading an assignment off its reply -/

/-- Whether a text has an equals sign as its second word after letters, as the answer of an
assignment has. -/
def ShowsEquals (text : String) : Prop :=
  (text.toList.dropWhile Char.isAlpha).take 2 = [' ', '=']

instance (text : String) : Decidable (ShowsEquals text) := inferInstanceAs (Decidable (_ = _))

theorem dropWhile_isAlpha_of_isName {rest : List Char} (h : IsName name) :
    (name.toList ++ ' ' :: rest).dropWhile Char.isAlpha = ' ' :: rest := by
  rw [List.dropWhile_append_of_pos h.2]
  rfl

theorem toList_text_assignment :
    (Answer.text ⟨v, some name⟩).toList = name.toList ++ ' ' :: '=' :: ' ' :: v.text.toList := by
  simp [Answer.text, String.toList_append]

theorem showsEquals_assignment (h : IsName name) : ShowsEquals (Answer.text ⟨v, some name⟩) := by
  rw [ShowsEquals, toList_text_assignment, dropWhile_isAlpha_of_isName h]
  rfl

/-- Whether a text goes on after its letters, and otherwise than the answer of an assignment. -/
def ShowsOther (text : String) : Prop :=
  2 ≤ (text.toList.dropWhile Char.isAlpha).length ∧ ¬ ShowsEquals text

instance (text : String) : Decidable (ShowsOther text) := inferInstanceAs (Decidable (_ ∧ _))

/-- A literal is the text of its characters, so it is enough to look at these. -/
theorem showsOther_ofList {cs : List Char}
    (h : 2 ≤ (cs.dropWhile Char.isAlpha).length ∧ (cs.dropWhile Char.isAlpha).take 2 ≠ [' ', '=']) :
    ShowsOther (String.ofList cs) := by
  rwa [ShowsOther, ShowsEquals, String.toList_ofList]

/-- What a text shows after its letters does not depend on how it ends. -/
theorem ShowsOther.append {start : String} (h : ShowsOther start) (rest : String) :
    ShowsOther (start ++ rest) := by
  obtain ⟨hlength, hshows⟩ := h
  have hne : (start.toList.dropWhile Char.isAlpha).isEmpty = false := by
    rw [List.isEmpty_eq_false_iff]
    intro hnil
    rw [hnil] at hlength
    exact absurd hlength (by decide)
  have hdrop : (start ++ rest).toList.dropWhile Char.isAlpha =
      start.toList.dropWhile Char.isAlpha ++ rest.toList := by
    rw [String.toList_append, List.dropWhile_append, hne]
    rfl
  refine ⟨?_, ?_⟩
  · rw [hdrop, List.length_append]
    exact Nat.le_add_right_of_le hlength
  · rwa [ShowsEquals, hdrop, List.take_append_of_le_length hlength]

theorem showsOther_message (f : Fault) : ShowsOther f.message := by
  rcases f with (⟨c, line⟩ | run | text | - | found | found) |
    (name | - | cause | cause)
  case form.secondEquals | value.empty => exact showsOther_ofList (by decide)
  case form.foreignChar =>
    exact ((ShowsOther.append (showsOther_ofList (by decide)) _).append _).append _
  case form.misplacedEquals | form.missingSign =>
    exact (ShowsOther.append (showsOther_ofList (by decide)) _).append _
  all_goals exact ShowsOther.append (showsOther_ofList (by decide)) _

theorem not_showsEquals_value (v : Value) : ¬ ShowsEquals v.text := by
  obtain ⟨c, rest, hc⟩ := List.exists_cons_of_ne_nil (Decimal.print_ne_nil v.toInt)
  have hmem : c ∈ Decimal.print v.toInt := hc ▸ List.mem_cons_self
  have hfirst : c.isAlpha = false ∧ c ≠ ' ' := by
    rcases Decimal.isDigit_or_eq_minus_of_mem_print hmem with hd | rfl
    · refine ⟨isAlpha_eq_false_of_isDigit hd, ?_⟩
      rintro rfl
      exact absurd hd (by decide)
    · exact ⟨by decide, by decide⟩
  rw [ShowsEquals, Value.toList_text, hc, List.dropWhile_cons_of_neg (by simp [hfirst.1]),
    List.take_succ_cons]
  exact fun h => hfirst.2 (List.cons.inj h).1

theorem not_showsEquals_obey {command : Command} {text : String}
    (h : (s.obey command).reply = .text text) : ¬ ShowsEquals text := by
  rcases eq_of_reply_obey h with rfl | rfl | rfl
  · unfold helpText
    exact ((ShowsOther.append (showsOther_ofList (by decide)) _).append _).2
  · unfold Table.text
    split
    · exact (showsOther_ofList (by decide)).2
    · exact (ShowsOther.append (showsOther_ofList (by decide)) _).2
  · exact (showsOther_ofList (by decide)).2

theorem text_assignment_injective {m : String} {w : Value} (hm : IsName m) (hn : IsName name)
    (h : Answer.text ⟨w, some m⟩ = Answer.text ⟨v, some name⟩) : m = name ∧ w = v := by
  have hlist := congrArg String.toList h
  rw [toList_text_assignment, toList_text_assignment] at hlist
  have hrest := congrArg (List.dropWhile Char.isAlpha) hlist
  rw [dropWhile_isAlpha_of_isName hm, dropWhile_isAlpha_of_isName hn] at hrest
  have hvalue : w.text.toList = v.text.toList := by simpa using hrest
  rw [hvalue] at hlist
  exact ⟨String.toList_inj.1 (List.append_cancel_right hlist),
    Value.text_injective (String.toList_inj.1 hvalue)⟩

/-- Of all replies, only the answer of an assignment shows an equals sign after a word. -/
theorem assigned?_of_reply (hname : IsName name)
    (hshown : (s.handle line).reply = .text (Answer.text ⟨v, some name⟩)) :
    s.assigned? line = some (name, v) := by
  have hequals := showsEquals_assignment (v := v) hname
  rcases handle_cases s line with ⟨h, -⟩ | ⟨command, h, -⟩ | ⟨a, ho, hreply, -, ha⟩ |
    ⟨f, hreply, -, -⟩
  · rw [h] at hshown
    cases hshown
  · rw [h] at hshown
    exact absurd hequals (not_showsEquals_obey hshown)
  · rw [hreply] at hshown
    obtain ⟨w, n⟩ := a
    have htext : Answer.text ⟨w, n⟩ = Answer.text ⟨v, some name⟩ := Reply.text.inj hshown
    cases n with
    | none =>
      rw [← htext] at hequals
      exact absurd hequals (not_showsEquals_value w)
    | some m =>
      obtain ⟨rfl, rfl⟩ := text_assignment_injective (isName_of_evaluateLine ho) hname htext
      exact ha
  · rw [hreply] at hshown
    exact absurd (Reply.text.inj hshown ▸ hequals) (showsOther_message f).2

/-- **What a line assigns can be read off its reply**: it is what the reply shows as the answer
of an assignment. -/
theorem assigned?_eq_some_iff :
    s.assigned? line = some (name, v) ↔
      IsName name ∧ (s.handle line).reply = .text (Answer.text ⟨v, some name⟩) :=
  ⟨fun h => ⟨isName_of_assigned? h, (of_assigned? h).2⟩,
    fun ⟨hname, hshown⟩ => assigned?_of_reply hname hshown⟩

/-! ## Runs -/

theorem after_cons (s : Session) (line : String) (lines : List String) :
    s.after (line :: lines) = (s.handle line).session.after lines := by
  rw [after, handleAll, List.getLast?_cons, Option.map_some, Option.getD_some, after,
    Option.getD_map]

theorem handleAll_concat (s : Session) (lines : List String) (line : String) :
    s.handleAll (lines ++ [line]) = s.handleAll lines ++ [(s.after lines).handle line] := by
  induction lines generalizing s with
  | nil => rfl
  | cons first rest ih =>
    rw [List.cons_append, handleAll, ih, ← after_cons]
    rfl

theorem after_concat (s : Session) (lines : List String) (line : String) :
    s.after (lines ++ [line]) = ((s.after lines).handle line).session := by
  rw [after, handleAll_concat, List.getLast?_concat]
  rfl

theorem assignments_concat (s : Session) (lines : List String) (line : String) :
    s.assignments (lines ++ [line]) =
      s.assignments lines ++ ((s.after lines).assigned? line).toList := by
  induction lines generalizing s with
  | nil => simp [assignments, after, handleAll]
  | cons first rest ih =>
    rw [List.cons_append, assignments, ih, ← after_cons, assignments, List.append_assoc]

/-- **The table after a run is that of its assignments.** -/
theorem table_after_eq_ofList (lines : List String) :
    (after {} lines).table = Table.ofList (assignments {} lines) := by
  induction lines using List.reverseRecOn with
  | nil => rfl
  | append_singleton lines line ih =>
    rw [after_concat, table_handle, assignments_concat]
    cases h : (after {} lines).assigned? line with
    | none => rw [Option.toList_none, List.append_nil, ih]
    | some e =>
      obtain ⟨name, v⟩ := e
      rw [Option.toList_some, Table.ofList_concat, ih]

theorem isName_of_mem_assignments {e : String × Value} (lines : List String)
    (h : e ∈ assignments s lines) : IsName e.1 := by
  induction lines generalizing s with
  | nil => cases h
  | cons line rest ih =>
    rcases List.mem_append.1 h with hfirst | hrest
    · obtain ⟨name, v⟩ := e
      exact isName_of_assigned? (Option.mem_toList.1 hfirst)
    · exact ih hrest

end Session

/-! ## The table of a session -/

/-- What a table keeps of a list of assignments. -/
structure Table.Keeps (t : Table) (done : List (String × Value)) : Prop where
  /-- The names are the targets, in the order in which each was first assigned to. -/
  names_eq : t.names = (done.map Prod.fst).eraseDups
  nodup : t.names.Nodup
  isName : ∀ name ∈ t.names, IsName name
  /-- A name has the value that it was last assigned. -/
  get?_eq : ∀ name, t.get? name = done.reverse.lookup name
  inRange : ∀ name v, t.get? name = some v → InRange v.toInt

theorem Table.keeps_ofList {done : List (String × Value)} (h : ∀ e ∈ done, IsName e.1) :
    (Table.ofList done).Keeps done where
  names_eq := Table.names_ofList done
  nodup := (Table.ofList done).nodup_names
  isName := by
    intro name hname
    rw [Table.names_ofList, List.mem_eraseDups, List.mem_map] at hname
    obtain ⟨e, he, rfl⟩ := hname
    exact h e he
  get?_eq := Table.get?_ofList done
  inRange := fun _ v _ => v.inRange

theorem Table.names_prefix_insert (t : Table) (name : String) (v : Value) :
    t.names <+: (t.insert name v).names ∧
      (t.insert name v).names.length ≤ t.names.length + 1 := by
  rw [Table.names_insert]
  by_cases h : name ∈ t.names
  · rw [if_pos h]
    exact ⟨List.prefix_rfl, Nat.le_succ _⟩
  · rw [if_neg h]
    exact ⟨List.prefix_append _ _, (List.length_append).le⟩

namespace Session

/-- **What a session remembers.**  After any lines the table keeps the assignments among them;
and with any further line what is assigned is what the reply shows as the answer of an
assignment, the names stay where they are and at most one comes after them, and without such a
reply nothing changes at all. -/
theorem session_remembers (lines : List String) (line : String) :
    (after {} lines).table.Keeps (assignments {} lines) ∧
    (∀ name v, (after {} lines).assigned? line = some (name, v) ↔
      IsName name ∧
        ((after {} lines).handle line).reply = .text (Answer.text ⟨v, some name⟩)) ∧
    (after {} lines).table.names <+: (after {} (lines ++ [line])).table.names ∧
    (after {} (lines ++ [line])).table.names.length ≤ (after {} lines).table.names.length + 1 ∧
    ((∃ name v, IsName name ∧
        ((after {} lines).handle line).reply = .text (Answer.text ⟨v, some name⟩)) ∨
      after {} (lines ++ [line]) = after {} lines) := by
  have hkeeps : (after {} lines).table.Keeps (assignments {} lines) := by
    rw [table_after_eq_ofList]
    exact Table.keeps_ofList fun e he => isName_of_mem_assignments lines he
  have hnext : (after {} (lines ++ [line])).table = _ :=
    (congrArg Session.table (after_concat {} lines line)).trans (table_handle _ line)
  refine ⟨hkeeps, fun name v => assigned?_eq_some_iff, ?_⟩
  cases h : (after {} lines).assigned? line with
  | none =>
    rw [h] at hnext
    rw [hnext]
    exact ⟨List.prefix_rfl, Nat.le_succ _, Or.inr (congrArg Session.mk hnext)⟩
  | some e =>
    obtain ⟨name, v⟩ := e
    rw [h] at hnext
    rw [hnext]
    obtain ⟨hnames, hlength⟩ := (after {} lines).table.names_prefix_insert name v
    exact ⟨hnames, hlength, Or.inl ⟨name, v, assigned?_eq_some_iff.1 h⟩⟩

end Session
end SignedSum
