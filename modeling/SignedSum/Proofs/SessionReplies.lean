/-
# What a session replies

The reply to a line is one of four sorts (`Session.Replies`): silence for a blank line, what a
command asks for, the answer of a line, or its fault.  So a session ends only with the command to
exit, and it prints something for every other line that is not blank.

`Session.shown` is what a session prints for some lines.  It is made up of the parts that it
prints for the parts of them (`shown_append`), and its texts are as many as the lines that are
not blank (`length_shown`).
-/
import SignedSum.Proofs.SessionHistory

namespace SignedSum

/-- Whether a line consists of blank characters alone. -/
def Text.isBlankLine (line : String) : Bool := line.toList.all Text.isBlank

theorem Text.isBlankLine_iff {line : String} : isBlankLine line = true ↔ trim line = "" := by
  rw [← String.toList_inj, toList_trim, isBlankLine, List.all_eq_true]
  exact trimChars_eq_nil.symm

theorem Command.ofLine?_eq_exit_iff {line : String} :
    Command.ofLine? line = some .exit ↔ Text.trim line = "/exit" := by
  constructor
  · intro h
    by_contra hexit
    simp only [ofLine?, hexit, if_false] at h
    split_ifs at h <;> simp at h
  · intro h
    rw [ofLine?, h]
    rfl

/-- The text that is printed as a reply. -/
def Reply.text? : Reply → Option String
  | .text s => some s
  | .silence | .stop => none

theorem Reply.text?_eq_some_iff {reply : Reply} {text : String} :
    reply.text? = some text ↔ reply = .text text := by
  cases reply <;> simp [Reply.text?]

namespace Session

variable {s : Session} {line : String} {lines rest : List String} {reply : Reply}

/-! ## One line -/

/-- The replies of a session, with what they are the reply to. -/
inductive Replies (s : Session) (line : String) : Reply → Prop
  | blank : Text.trim line = "" → Replies s line .silence
  | command {command : Command} : Command.ofLine? line = some command →
      Replies s line (s.obey command).reply
  | answer {a : Answer} : Text.trim line ≠ "" → Command.ofLine? line = none →
      (evaluateLine line s.table).outcome = .ok a → Replies s line (.text a.text)
  | fault {f : Fault} : Text.trim line ≠ "" → Command.ofLine? line = none →
      (evaluateLine line s.table).outcome = .error f → Replies s line (.text f.message)

theorem replies_handle (s : Session) (line : String) : s.Replies line (s.handle line).reply := by
  by_cases hb : Text.trim line = ""
  · rw [handle_blank hb]
    exact .blank hb
  · cases hc : Command.ofLine? line with
    | some command =>
      rw [handle_command hc]
      exact .command hc
    | none =>
      rw [handle_sum hb hc]
      cases ho : (evaluateLine line s.table).outcome with
      | ok a => exact (calculate_of_ok ho).1 ▸ .answer hb hc ho
      | error f => exact (calculate_of_error ho).1 ▸ .fault hb hc ho

/-- The session ends with the command to exit, and with nothing else. -/
theorem Replies.eq_stop_iff (h : s.Replies line reply) :
    reply = .stop ↔ Text.trim line = "/exit" := by
  rw [← Command.ofLine?_eq_exit_iff]
  cases h with
  | blank hb =>
    have hne : Command.ofLine? line ≠ some .exit := fun he => Command.trim_ne_empty he hb
    simp [hne]
  | @command command hc => cases command <;> simp [obey, hc]
  | answer _ hc _ | fault _ hc _ => simp [hc]

/-- Nothing is printed for a blank line and for the command to exit. -/
theorem Replies.text?_eq_none_iff (h : s.Replies line reply) :
    reply.text? = none ↔ Text.isBlankLine line = true ∨ Text.trim line = "/exit" := by
  rw [← h.eq_stop_iff, Text.isBlankLine_iff]
  cases h with
  | blank hb => simp [hb, Reply.text?]
  | @command command hc =>
    have hb := Command.trim_ne_empty hc
    cases command <;> simp [obey, hb, Reply.text?]
  | answer hb _ _ | fault hb _ _ => simp [hb, Reply.text?]

theorem reply_eq_stop_iff : (s.handle line).reply = .stop ↔ Text.trim line = "/exit" :=
  (s.replies_handle line).eq_stop_iff

/-- There is a text in reply to any other line. -/
theorem exists_reply_eq_text (hb : ¬ Text.isBlankLine line = true)
    (he : Text.trim line ≠ "/exit") : ∃ text, (s.handle line).reply = .text text := by
  have hsome : (s.handle line).reply.text? ≠ none := by
    rw [Ne, (s.replies_handle line).text?_eq_none_iff, not_or]
    exact ⟨hb, he⟩
  obtain ⟨text, htext⟩ := Option.ne_none_iff_exists'.1 hsome
  exact ⟨text, Reply.text?_eq_some_iff.1 htext⟩

/-! ## Some lines -/

/-- The texts that a session prints in reply to some lines. -/
def shown (s : Session) (lines : List String) : List String :=
  (s.handleAll lines).filterMap (·.reply.text?)

@[simp] theorem shown_nil : s.shown [] = [] := rfl

theorem shown_cons :
    s.shown (line :: lines) =
      (s.handle line).reply.text?.toList ++ (s.handle line).session.shown lines := by
  rw [shown, handleAll, List.filterMap_cons, shown]
  cases (s.handle line).reply.text? <;> rfl

theorem shown_append :
    s.shown (lines ++ rest) = s.shown lines ++ (s.after lines).shown rest := by
  induction lines generalizing s with
  | nil => rfl
  | cons line lines ih =>
    rw [List.cons_append, shown_cons, ih, shown_cons, after_cons, List.append_assoc]

/-- A text that is printed is the reply to one of the lines. -/
theorem exists_of_mem_shown {text : String} (h : text ∈ s.shown lines) :
    ∃ before line after, lines = before ++ line :: after ∧
      ((s.after before).handle line).reply = .text text := by
  induction lines using List.reverseRecOn with
  | nil => cases h
  | append_singleton lines line ih =>
    rw [shown_append, List.mem_append] at h
    rcases h with h | h
    · obtain ⟨before, earlier, after, rfl, hreply⟩ := ih h
      exact ⟨before, earlier, after ++ [line], by simp, hreply⟩
    · rw [shown_cons, shown_nil, List.append_nil, Option.mem_toList] at h
      exact ⟨lines, line, [], rfl, Reply.text?_eq_some_iff.1 h⟩

/-- **A text is printed for every line that is not blank.** -/
theorem length_shown (h : ∀ line ∈ lines, Text.trim line ≠ "/exit") :
    (s.shown lines).length = lines.countP (!Text.isBlankLine ·) := by
  induction lines generalizing s with
  | nil => rfl
  | cons line lines ih =>
    obtain ⟨hline, hlines⟩ := List.forall_mem_cons.1 h
    rw [shown_cons, List.length_append, ih hlines]
    by_cases hb : Text.isBlankLine line = true
    · have hnone := (s.replies_handle line).text?_eq_none_iff.2 (Or.inl hb)
      rw [hnone, List.countP_cons_of_neg (by simp [hb])]
      exact Nat.zero_add _
    · obtain ⟨text, htext⟩ := exists_reply_eq_text (s := s) hb hline
      rw [htext, List.countP_cons_of_pos (by simp [hb])]
      exact Nat.add_comm _ _

end Session
end SignedSum
