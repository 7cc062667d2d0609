/-
# Replay

The text of an answer is a line of the calculator, and as a line it has that answer again.  A
negative value is written with a minus sign in front of its digits and read as a sum that opens
with a sign, so the least value is an exception: its digits alone are too large.

* `outcome_text`, `outcome_text_of_least`: what the text of a value comes to as a line.
* `outcome_answer`, `outcome_answer_of_least`: the same for an answer with or without a name.
* `handleAll_answerLines`, `answers_replay`: the answers of the assignments of a session, handled by
  another one, are their own replies and build up the same table.
-/
import SignedSum.Proofs.Assignment
import SignedSum.Proofs.SessionHistory

namespace SignedSum

/-! ## The text of an integer as a sum -/

/-- The lexeme of the digits of a number. -/
def Lexeme.ofNat (n : Nat) : Lexeme where
  alphabet := .digits
  chars := Nat.toDigits 10 n
  ne_nil := Nat.toDigits_ne_nil
  mem := fun _ hc => Decimal.isDigit_of_mem_toDigits hc

/-- The lexeme of a minus sign. -/
def Lexeme.minusSign : Lexeme where
  alphabet := .signs
  chars := ['-']
  ne_nil := List.cons_ne_nil _ _
  mem := List.forall_mem_singleton.2 (Or.inr rfl)

theorem isNumeral_toDigits (n : Nat) : IsNumeral (String.ofList (Nat.toDigits 10 n)) :=
  isWord_ofList (Lexeme.ofNat n).ne_nil (Lexeme.ofNat n).mem

theorem decimal_toDigits (n : Nat) : decimal (String.ofList (Nat.toDigits 10 n)) = n := by
  rw [decimal, String.toList_ofList, Nat.ofDigitChars_toDigits (by decide) (by decide)]

/-- The operand of the digits of a number. -/
def Operand.ofNat (n : Nat) : Operand :=
  .literal (String.ofList (Nat.toDigits 10 n)) (isNumeral_toDigits n)

theorem Operand.fits_ofNat {n : Nat} : (Operand.ofNat n).Fits ↔ n ≤ 2147483647 := by
  show decimal (String.ofList (Nat.toDigits 10 n)) ≤ 2147483647 ↔ _
  rw [decimal_toDigits]

/-- The sum that the text of an integer is: its digits, behind a sign if it is negative. -/
def GappedSum.ofInt : Int → GappedSum
  | .ofNat n => ⟨some (.ofNat n), []⟩
  | .negSucc n => ⟨none, [(.minus, some (.ofNat (n + 1)))]⟩

variable {table : Table}

theorem tokenize_print (n : Int) :
    tokenize (String.ofList (Decimal.print n)) = .ok (GappedSum.ofInt n).tokens := by
  refine tokenize_eq_ok_iff.2 ?_
  rw [String.toList_ofList]
  cases n with
  | ofNat n => exact ⟨_, Cuts.singleton (.ofNat n), rfl⟩
  | negSucc n =>
    have hends : Lexeme.minusSign.EndsBefore (Nat.toDigits 10 (n + 1)) := by
      intro c hc hsign
      have hdigit := Decimal.isDigit_of_mem_toDigits (List.mem_of_mem_head? hc)
      rcases hsign with rfl | rfl <;> exact absurd hdigit (by decide)
    exact ⟨_, Cuts.lexeme hends (Cuts.singleton (.ofNat (n + 1))), rfl⟩

namespace GappedSum

theorem tokens_ofInt_ne_nil (n : Int) : (ofInt n).tokens ≠ [] := by
  cases n <;> exact List.cons_ne_nil _ _

theorem total_ofInt (n : Int) : (ofInt n).total table = n := by
  cases n with
  | ofNat n => exact congrArg Int.ofNat (decimal_toDigits n)
  | negSucc n =>
    show (0 : Int) - (decimal (String.ofList (Nat.toDigits 10 (n + 1))) : Nat) = _
    rw [decimal_toDigits]
    omega

theorem bound_ofInt (n : Int) : ∀ x ∈ (ofInt n).operands, x.Bound table := by
  cases n <;> exact List.forall_mem_singleton.2 trivial

/-- In front of a leading sign there is nothing to read. -/
theorem sound_leading : Sound table ⟨none, []⟩ := by
  have hzero : InRange 0 := by decide
  exact sound_nil.2 ⟨nofun, hzero⟩

/-- The reading of the text of an integer is sound if its digits are those of a value. -/
theorem sound_ofInt {n : Int} (hn : InRange n) (hleast : n ≠ -2147483648) :
    (ofInt n).Sound table := by
  have htotal : (ofInt n).total table = n := total_ofInt n
  obtain ⟨hlower, hupper⟩ := hn
  cases n with
  | ofNat n =>
    refine sound_nil.2 ⟨fun x hx => ?_, htotal ▸ ⟨hlower, hupper⟩⟩
    cases hx
    exact Operand.fits_ofNat.2 (Int.ofNat_le.1 hupper)
  | negSucc n =>
    refine (@sound_concat table none [] _).2 ⟨sound_leading, nofun, fun x hx => ?_, ?_⟩
    · cases hx
      exact Operand.fits_ofNat.2 (by omega)
    · show InRange (total table (ofInt (Int.negSucc n)))
      rw [htotal]
      exact ⟨hlower, hupper⟩

/-- The digits of the least value are too large for one. -/
theorem firstFault_ofInt_least :
    (ofInt (-2147483648)).FirstFault table (.outOfRange (.literal "2147483648")) := by
  have hdigits : "2147483648" = String.ofList (Nat.toDigits 10 2147483648) := by decide
  have hlarge : 2147483647 < decimal (String.ofList (Nat.toDigits 10 2147483648)) := by
    rw [decimal_toDigits]
    decide
  rw [hdigits]
  exact Or.inr ⟨[], _, [], rfl, sound_leading, .literal hlarge⟩

end GappedSum

/-! ## The text of a value as a line -/

theorem outcome_ofLine_text (v : Value) :
    (Statement.ofLine v.text).outcome = .ok ⟨(GappedSum.ofInt v.toInt).tokens, none⟩ := by
  refine outcome_ofLine.2 ⟨tokenize_print v.toInt, ?_⟩
  cases v.toInt <;> rfl

/-- A value that is not the least one is read back from its text. -/
theorem outcome_text {v : Value} (hv : v.toInt ≠ -2147483648) (table : Table) :
    (evaluateLine v.text table).outcome = .ok ⟨v, none⟩ := by
  rw [outcome_evaluateLine (outcome_ofLine_text v), mapError_eq_ok]
  exact (outcome_evaluate_eq_ok rfl).2 ⟨GappedSum.tokens_ofInt_ne_nil v.toInt,
    GappedSum.bound_ofInt v.toInt, GappedSum.sound_ofInt v.inRange hv,
    (GappedSum.total_ofInt v.toInt).symm, rfl⟩

/-- The digits of the least value are read before the sign in front of them is applied. -/
theorem outcome_text_of_least {v : Value} (hv : v.toInt = -2147483648) (table : Table) :
    (evaluateLine v.text table).outcome =
      .error (.value (.outOfRange (.literal "2147483648"))) := by
  rw [outcome_evaluateLine (outcome_ofLine_text v), mapError_eq_error]
  have hfault : GappedSum.FirstFault table _ _ := GappedSum.firstFault_ofInt_least
  rw [← hv] at hfault
  refine ⟨_, (outcome_evaluate_eq_error (s := ⟨_, none⟩) rfl ?_ ?_).2 hfault, rfl⟩
  · exact GappedSum.bound_ofInt v.toInt
  · exact GappedSum.tokens_ofInt_ne_nil v.toInt

/-! ## The text of an answer as a line -/

theorem text_eq_assignmentLine (v : Value) (name : String) :
    Answer.text ⟨v, some name⟩ = assignmentLine name v.text := rfl

theorem equals_notMem_text (v : Value) : '=' ∉ v.text.toList := by
  rw [Value.toList_text]
  intro h
  rcases Decimal.isDigit_or_eq_minus_of_mem_print h with h | h <;> exact absurd h (by decide)

variable {a : Answer}

/-- **An answer is read back from its text**, with its value and its name. -/
theorem outcome_answer (hname : ∀ name ∈ a.name, IsName name)
    (hv : a.value.toInt ≠ -2147483648) (table : Table) :
    (evaluateLine a.text table).outcome = .ok a := by
  obtain ⟨v, _ | name⟩ := a
  · exact outcome_text hv table
  · have h := outcome_assignment (hname name rfl) (equals_notMem_text v) table
    rw [outcome_text hv] at h
    rw [text_eq_assignmentLine]
    exact h.2

theorem outcome_answer_of_least (hname : ∀ name ∈ a.name, IsName name)
    (hv : a.value.toInt = -2147483648) (table : Table) :
    (evaluateLine a.text table).outcome =
      .error (.value (.outOfRange (.literal "2147483648"))) := by
  obtain ⟨v, _ | name⟩ := a
  · exact outcome_text_of_least hv table
  · have h := outcome_assignment (hname name rfl) (equals_notMem_text v) table
    rw [outcome_text_of_least hv] at h
    obtain ⟨g, hg, hsame⟩ := h
    cases hsame
    rw [text_eq_assignmentLine]
    exact hg

/-! ## The answers of assignments as the lines of a session -/

namespace Session

variable {s : Session} {name : String} {v : Value}

/-- A line that starts with a letter is neither blank nor a command. -/
theorem handle_of_head?_isAlpha {line : String} {c : Char} (hline : line.toList.head? = some c)
    (hc : c.isAlpha = true) : s.handle line = s.calculate line := by
  obtain ⟨hfirst, hlast⟩ := toNat_of_isAlpha hc
  have hblank : Text.isBlank c = false := by
    simp only [Text.isBlank, Bool.or_eq_false_iff, Bool.and_eq_false_imp, decide_eq_true_eq,
      decide_eq_false_iff_not, beq_eq_false_iff_ne]
    omega
  have htrim : (Text.trim line).toList.head? = some c := by
    obtain ⟨rest, hrest⟩ := List.head?_eq_some_iff.1 hline
    rw [Text.toList_trim, hrest, Text.head?_trimChars hblank]
  have hempty : Text.trim line ≠ "" := by
    intro h
    rw [h] at htrim
    cases htrim
  have hcommand : Command.ofLine? line = none := by
    rw [Command.ofLine?, htrim, if_neg]
    rintro ⟨⟩
    exact absurd hc (by decide)
  exact handle_sum hempty hcommand

/-- The answer of an assignment is the reply to itself, in any session. -/
theorem reply_answer (s : Session) (hname : IsName name) (hv : v.toInt ≠ -2147483648) :
    (s.handle (Answer.text ⟨v, some name⟩)).reply = .text (Answer.text ⟨v, some name⟩) := by
  obtain ⟨c, rest, hc⟩ : ∃ c rest, name.toList = c :: rest :=
    List.exists_cons_of_ne_nil (Lexeme.ofName hname).ne_nil
  have halpha : c.isAlpha = true := hname.2 c (hc ▸ List.mem_cons_self)
  have hhead : (Answer.text ⟨v, some name⟩).toList.head? = some c := by
    rw [toList_text_assignment, hc]
    rfl
  rw [handle_of_head?_isAlpha hhead halpha]
  refine (calculate_of_ok (outcome_answer ?_ hv s.table)).1
  rintro _ ⟨⟩
  exact hname

/-- The answers of assignments, as lines. -/
def answerLines (done : List (String × Value)) : List String :=
  done.map fun e => Answer.text ⟨e.2, some e.1⟩

/-- **The answers of assignments are their own replies** in any session, and assign the same
values to the same names. -/
theorem handleAll_answerLines (s : Session) {done : List (String × Value)}
    (h : ∀ e ∈ done, IsName e.1 ∧ e.2.toInt ≠ -2147483648) :
    (s.handleAll (answerLines done)).map (·.reply) = (answerLines done).map .text ∧
      s.assignments (answerLines done) = done := by
  -- every answer is handled by the session that the ones before it have left
  induction done generalizing s with
  | nil => exact ⟨rfl, rfl⟩
  | cons e done ih =>
    obtain ⟨⟨hname, hv⟩, hrest⟩ := List.forall_mem_cons.1 h
    have hreply := reply_answer s hname hv
    have hassigned := assigned?_eq_some_iff.2 ⟨hname, hreply⟩
    obtain ⟨hreplies, hdone⟩ := ih (s.handle (Answer.text ⟨e.2, some e.1⟩)).session hrest
    refine ⟨congrArg₂ List.cons hreply hreplies, ?_⟩
    show (s.assigned? _).toList ++ _ = _
    rw [hassigned]
    exact congrArg _ hdone

/-- The replies of a session to the assignments among some lines, in order. -/
def assignmentReplies (s : Session) : List String → List String
  | [] => []
  | line :: rest =>
    let response := s.handle line
    match s.assigned? line, response.reply with
    | some _, .text answer => answer :: response.session.assignmentReplies rest
    | _, _ => response.session.assignmentReplies rest

theorem assignmentReplies_eq (s : Session) (lines : List String) :
    s.assignmentReplies lines = answerLines (s.assignments lines) := by
  induction lines generalizing s with
  | nil => rfl
  | cons line rest ih =>
    rw [assignmentReplies, assignments, ih]
    cases h : s.assigned? line with
    | none => rfl
    | some e =>
      rw [(assigned?_eq_some_iff.1 h).2]
      rfl

/-- **Answers can be replayed.**  As a line, the text of an answer has that answer on any table,
unless its value is the least one: then its digits are too large, and the table stays as it is.
So if no assignment of a session has the least value, its replies to the assignments, handled as
lines by a new session, are their own replies, and the new session ends as the first one did. -/
theorem answers_replay :
    (∀ (a : Answer) (table : Table), (∀ name ∈ a.name, IsName name) →
      (a.value.toInt ≠ -2147483648 → (evaluateLine a.text table).outcome = .ok a) ∧
      (a.value.toInt = -2147483648 →
        (evaluateLine a.text table).outcome =
          .error (.value (.outOfRange (.literal "2147483648"))) ∧
        (evaluateLine a.text table).table = table)) ∧
    ∀ lines : List String,
      (∀ e ∈ assignments {} lines, e.2.toInt ≠ -2147483648) →
      (handleAll {} (assignmentReplies {} lines)).map (·.reply) =
          (assignmentReplies {} lines).map .text ∧
        after {} (assignmentReplies {} lines) = after {} lines := by
  refine ⟨fun a table hname => ⟨fun hv => outcome_answer hname hv table, fun hv => ?_⟩,
    fun lines hv => ?_⟩
  · have h := outcome_answer_of_least hname hv table
    exact ⟨h, table_evaluateLine_of_error h⟩
  · rw [assignmentReplies_eq]
    obtain ⟨hreplies, hdone⟩ := handleAll_answerLines {} fun e he =>
      ⟨isName_of_mem_assignments lines he, hv e he⟩
    have htable : (after {} (answerLines (assignments {} lines))).table =
        (after {} lines).table := by
      rw [table_after_eq_ofList, hdone, table_after_eq_ofList]
    exact ⟨hreplies, congrArg Session.mk htable⟩

/-- Negative values and a name that is assigned to twice: three of the five lines are replayed. -/
theorem answers_replay_of_five_lines :
    (evaluateLine "x = -7" ∅).outcome = .ok ⟨⟨-7, by decide, by decide⟩, some "x"⟩ ∧
    (evaluateLine "-2147483648" ∅).outcome =
      .error (.value (.outOfRange (.literal "2147483648"))) ∧
    assignmentReplies {} ["x = 5 - 9", "y = x + 1", "/vars", "x = 2", "z"] =
      ["x = -4", "y = -3", "x = 2"] ∧
    (handleAll {} ["x = -4", "y = -3", "x = 2"]).map (·.reply) =
      [.text "x = -4", .text "y = -3", .text "x = 2"] ∧
    after {} ["x = -4", "y = -3", "x = 2"] =
      after {} ["x = 5 - 9", "y = x + 1", "/vars", "x = 2", "z"] := by
  obtain ⟨hanswers, hruns⟩ := answers_replay
  have hnamed := hanswers ⟨⟨-7, by decide, by decide⟩, some "x"⟩ ∅ (by decide)
  have hleast := hanswers ⟨⟨-2147483648, by decide, by decide⟩, none⟩ ∅ (by decide)
  have hreplies : assignmentReplies {} ["x = 5 - 9", "y = x + 1", "/vars", "x = 2", "z"] =
      ["x = -4", "y = -3", "x = 2"] := by decide +kernel
  have hrun := hruns ["x = 5 - 9", "y = x + 1", "/vars", "x = 2", "z"] (by decide +kernel)
  rw [hreplies] at hrun
  exact ⟨hnamed.1 (by decide), (hleast.2 rfl).1, hreplies, hrun.1, hrun.2⟩

end Session
end SignedSum
