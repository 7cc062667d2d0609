/-
# Assignments

The line `x = 7 - x` is the sum `7 - x` with the write of its value to `x` added.  It goes through
the same stages as the sum does alone, with two tokens in front of it, and this file relates the
two runs stage by stage.

* `tokenize_assignment`: the tokens are those of the sum, behind a name and an equals sign.
* `checkShape_assignment`: the two tokens in front do not matter to the check of the others, since
  an equals sign is no operand (`Seen.Alike`).
* `outcome_ofLine_assignment`: so the two lines have the same form or the same fault of it.
* `outcome_assignment`, `assignment_writes`: the two lines have the same value or the same fault,
  and one of them writes the value to the name while the other leaves the table as it is.
-/
import SignedSum.Proofs.Lexemes
import SignedSum.Proofs.LineValue

namespace SignedSum

/-- The line that assigns a sum to a name. -/
def assignmentLine (name body : String) : String := name ++ " = " ++ body

variable {name body : String} {ts : List Token} {t : Token} {cs : List Char} {xs : List Lexeme}

theorem toList_assignmentLine :
    (assignmentLine name body).toList = name.toList ++ ' ' :: '=' :: ' ' :: body.toList := by
  simp [assignmentLine]

/-! ## Tokens -/

/-- The lexeme of a name. -/
def Lexeme.ofName (h : IsName name) : Lexeme where
  alphabet := .letters
  chars := name.toList
  ne_nil := fun hnil => h.1 (String.toList_eq_nil_iff.1 hnil)
  mem := h.2

/-- The lexeme of an equals sign. -/
def Lexeme.equalsSign : Lexeme where
  alphabet := .equals
  chars := ['=']
  ne_nil := List.cons_ne_nil _ _
  mem := List.forall_mem_singleton.2 rfl

theorem cuts_assignmentLine (hn : IsName name) (h : Cuts body.toList xs) :
    Cuts (assignmentLine name body).toList (.ofName hn :: .equalsSign :: xs) := by
  rw [toList_assignmentLine]
  have hequals : Cuts ('=' :: ' ' :: body.toList) (.equalsSign :: xs) :=
    Cuts.lexeme (x := .equalsSign) Lexeme.endsBefore_space h.space
  exact Cuts.lexeme (x := .ofName hn) Lexeme.endsBefore_space hequals.space

/-- A line is illegible where its sum is. -/
theorem find?_assignmentLine (hn : IsName name) :
    (assignmentLine name body).toList.find? (!isLegible ·) =
      body.toList.find? (!isLegible ·) := by
  have hname : name.toList.find? (!isLegible ·) = none :=
    List.find?_eq_none.2 fun c hc => by simp [isLegible, hn.2 c hc]
  rw [toList_assignmentLine, List.find?_append, hname]
  rfl

theorem tokenize_assignment (hn : IsName name) (h : tokenize body = .ok ts) :
    tokenize (assignmentLine name body) = .ok (⟨.name, name⟩ :: .equalsSign :: ts) := by
  obtain ⟨xs, hxs, rfl⟩ := tokenize_eq_ok_iff.1 h
  refine tokenize_eq_ok_iff.2 ⟨_, cuts_assignmentLine hn hxs, ?_⟩
  simp [Lexeme.token, Lexeme.ofName, Lexeme.equalsSign, Token.equalsSign]

/-- The characters of the lexemes are among those of the line. -/
theorem Cuts.mem_of_mem (h : Cuts cs xs) : ∀ x ∈ xs, ∀ c ∈ x.chars, c ∈ cs := by
  induction h with
  | nil => simp
  | space h ih => exact fun x hx c hc => List.mem_cons_of_mem _ (ih x hx c hc)
  | @lexeme x cs xs hends h ih =>
    refine List.forall_mem_cons.2 ⟨fun c hc => List.mem_append_left cs hc, ?_⟩
    exact fun y hy c hc => List.mem_append_right x.chars (ih y hy c hc)

theorem Lexeme.alphabet_of_kind_token {x : Lexeme} (h : x.token.kind = .equals) :
    x.alphabet = .equals := by
  unfold Lexeme.token at h
  cases hx : x.alphabet with
  | equals => rfl
  | digits | letters =>
    rw [hx] at h
    cases h
  | signs =>
    rw [hx] at h
    dsimp only at h
    split at h <;> cases h

/-- A line without the character `=` has no token of the kind. -/
theorem kind_ne_equals (hb : '=' ∉ body.toList) (h : tokenize body = .ok ts) :
    ∀ t ∈ ts, t.kind ≠ .equals := by
  obtain ⟨xs, hxs, rfl⟩ := tokenize_eq_ok_iff.1 h
  intro t ht hk
  obtain ⟨x, hx, rfl⟩ := List.mem_map.1 ht
  have halphabet := Lexeme.alphabet_of_kind_token hk
  obtain ⟨c, hc⟩ := List.exists_mem_of_ne_nil x.chars x.ne_nil
  have hequals : c = '=' := by
    have hmem := x.mem c hc
    rwa [halphabet] at hmem
  exact hb (hequals ▸ hxs.mem_of_mem x hx c hc)

/-! ## The check of the shape -/

namespace Seen

variable {seen seen' : Seen}

/-- The states differ in nothing that matters to a token other than an equals sign. -/
structure Alike (seen seen' : Seen) : Prop where
  endsInOperand : seen'.endsInOperand = seen.endsInOperand
  lastText : seen.endsInOperand = true → seen'.lastText = seen.lastText

theorem alike_next : (seen.next t).Alike (seen'.next t) := ⟨rfl, fun _ => rfl⟩

/-- Two states that are alike take a token or refuse it alike, and keep their targets. -/
theorem Alike.push (h : seen.Alike seen') (ht : t.kind ≠ .equals) :
    (∃ f, seen.push t = .error f ∧ seen'.push t = .error f) ∨
      (seen.push t = .ok (seen.next t) ∧ seen'.push t = .ok (seen'.next t)) := by
  unfold Seen.push
  cases hk : t.kind with
  | equals => exact absurd hk ht
  | foreign => exact Or.inl ⟨_, rfl, rfl⟩
  | sign s => exact Or.inr ⟨rfl, rfl⟩
  | numeral | name =>
    by_cases hend : seen.endsInOperand = true
    · have htext := h.lastText hend
      simp only [h.endsInOperand, hend, htext, if_true]
      exact Or.inl ⟨_, rfl, rfl⟩
    · simp only [h.endsInOperand, hend]
      exact Or.inr ⟨rfl, rfl⟩

/-- Two states that are alike go through the same tokens alike, and keep their targets. -/
theorem Alike.foldlM (h : seen.Alike seen') (hts : ∀ t ∈ ts, t.kind ≠ .equals) :
    (ts.foldlM Seen.push seen').map (·.target) =
      (ts.foldlM Seen.push seen).map fun _ => seen'.target := by
  induction ts generalizing seen seen' with
  | nil => rfl
  | cons t ts ih =>
    obtain ⟨ht, hts⟩ := List.forall_mem_cons.1 hts
    rw [List.foldlM_cons, List.foldlM_cons]
    rcases h.push ht with ⟨f, hf, hf'⟩ | ⟨hok, hok'⟩
    · rw [hf, hf']
      rfl
    · rw [hok, hok']
      exact ih alike_next hts

end Seen

theorem checkShape_eq_map (ts : List Token) :
    checkShape ts = (ts.foldlM Seen.push {}).map (·.target) := by
  rw [checkShape]
  cases ts.foldlM Seen.push {} <;> rfl

/-- Tokens without an equals sign have no target. -/
theorem checkShape_of_ne_equals (hts : ∀ t ∈ ts, t.kind ≠ .equals) :
    checkShape ts = (ts.foldlM Seen.push {}).map fun _ => none := by
  rw [checkShape_eq_map]
  exact Seen.Alike.foldlM ⟨rfl, fun _ => rfl⟩ hts

/-- Behind a name and an equals sign the tokens are checked as they are alone. -/
theorem checkShape_assignment (hts : ∀ t ∈ ts, t.kind ≠ .equals) :
    checkShape (⟨.name, name⟩ :: .equalsSign :: ts) =
      (checkShape ts).map fun _ => some ⟨name, 2⟩ := by
  have halike : Seen.Alike {} { last := some .equalsSign, count := 2, target := some ⟨name, 2⟩ } :=
    ⟨rfl, fun h => by cases h⟩
  rw [checkShape_eq_map, checkShape_of_ne_equals hts]
  show (ts.foldlM Seen.push _).map _ = _
  rw [halike.foldlM hts]
  cases ts.foldlM Seen.push {} <;> rfl

/-! ## The two lines -/

/-- The faults of two lines are the same, except that each line is quoted in its own. -/
inductive SameFault (line line' : String) : Fault → Fault → Prop
  | quoting (c : Char) :
      SameFault line line' (.form (.foreignChar c line)) (.form (.foreignChar c line'))
  | plain {f : Fault} : (∀ c l, f ≠ .form (.foreignChar c l)) → SameFault line line' f f

/-- A fault of the shape quotes no line. -/
theorem ne_foreignChar_of_checkShape {f : FormFault} (h : checkShape ts = .error f) :
    ∀ c l, f ≠ .foreignChar c l := by
  obtain ⟨before, t, after, -, -, hviolates⟩ := checkShape_eq_error_iff.1 h
  rintro c l rfl
  cases hviolates

/-- The line that assigns a sum has the form of the sum, behind two tokens, or a fault of its form
as the sum has. -/
theorem outcome_ofLine_assignment (hn : IsName name) (hb : '=' ∉ body.toList) :
    match (Statement.ofLine body).outcome with
    | .ok s => s.target = none ∧ (Statement.ofLine (assignmentLine name body)).outcome =
        .ok ⟨⟨.name, name⟩ :: .equalsSign :: s.tokens, some ⟨name, 2⟩⟩
    | .error f => ∃ g, (Statement.ofLine (assignmentLine name body)).outcome = .error g ∧
        SameFault body (assignmentLine name body) (.form f) (.form g) := by
  cases htokens : tokenize body with
  | error f =>
    obtain ⟨c, hc, rfl⟩ := tokenize_eq_error_iff.1 htokens
    have hline : tokenize (assignmentLine name body) = .error (.foreignChar c _) :=
      tokenize_eq_error_iff.2 ⟨c, (find?_assignmentLine hn).trans hc, rfl⟩
    rw [outcome_ofLine_eq_error.2 (Or.inl htokens)]
    exact ⟨_, outcome_ofLine_eq_error.2 (Or.inl hline), .quoting c⟩
  | ok ts =>
    have hts := kind_ne_equals hb htokens
    have hline := tokenize_assignment hn htokens
    have hshape : checkShape (⟨.name, name⟩ :: .equalsSign :: ts) = _ := checkShape_assignment hts
    cases hc : checkShape ts with
    | error f =>
      rw [hc] at hshape
      rw [outcome_ofLine_eq_error.2 (Or.inr ⟨ts, htokens, hc⟩)]
      refine ⟨f, outcome_ofLine_eq_error.2 (Or.inr ⟨_, hline, hshape⟩), .plain fun c l hf => ?_⟩
      exact ne_foreignChar_of_checkShape hc c l (Fault.form.inj hf)
    | ok target =>
      have htarget : target = none := by
        rw [checkShape_of_ne_equals hts] at hc
        obtain ⟨_, -, h⟩ := map_eq_ok.1 hc
        exact h.symm
      rw [hc] at hshape
      have hform : (Statement.ofLine body).outcome = .ok ⟨ts, target⟩ :=
        outcome_ofLine.2 ⟨htokens, hc⟩
      rw [hform]
      exact ⟨htarget, outcome_ofLine.2 ⟨hline, hshape⟩⟩

/-- **The line that assigns a sum comes to what the sum comes to.** -/
theorem outcome_assignment (hn : IsName name) (hb : '=' ∉ body.toList) (table : Table) :
    match (evaluateLine body table).outcome with
    | .ok a => a.name = none ∧
        (evaluateLine (assignmentLine name body) table).outcome = .ok ⟨a.value, some name⟩
    | .error f => ∃ g, (evaluateLine (assignmentLine name body) table).outcome = .error g ∧
        SameFault body (assignmentLine name body) f g := by
  have h := outcome_ofLine_assignment hn hb
  cases hform : (Statement.ofLine body).outcome with
  | error f =>
    rw [hform] at h
    obtain ⟨g, hg, hsame⟩ := h
    rw [outcome_evaluateLine_of_form hform]
    exact ⟨.form g, outcome_evaluateLine_of_form hg table, hsame⟩
  | ok s =>
    obtain ⟨ts, target⟩ := s
    rw [hform] at h
    obtain ⟨rfl, hline⟩ := h
    rw [outcome_evaluateLine hform, outcome_evaluateLine hline, outcome_evaluate, outcome_evaluate]
    -- both statements evaluate the tokens of the sum
    rw [show Statement.operands ⟨ts, none⟩ = ts from rfl,
      show Statement.operands ⟨⟨.name, name⟩ :: .equalsSign :: ts, some ⟨name, 2⟩⟩ = ts from rfl]
    cases (Statement.compute table ts).outcome with
    | ok v => exact ⟨rfl, rfl⟩
    | error f => exact ⟨.value f, rfl, .plain fun c l hf => by cases hf⟩

/-! ## The write -/

/-- The second table is the first one with the value written to the name: in the old place of the
name if it has one, and otherwise behind all the others. -/
structure Table.Writes (table table' : Table) (name : String) (v : Value) : Prop where
  names_eq : table'.names = if name ∈ table.names then table.names else table.names ++ [name]
  get?_eq : ∀ n, table'.get? n = if n = name then some v else table.get? n

theorem Table.writes_insert (table : Table) (name : String) (v : Value) :
    table.Writes (table.insert name v) name v :=
  ⟨Table.names_insert, fun _ => Table.get?_insert⟩

/-- **An assignment is an evaluation and one write.**  A sum and the line that assigns it to a name
both have an answer or both have none.  The answers have the same value; the sum leaves the table
as it is and the assignment writes the value to its name, and each says so.  Without an answer the
two lines have the same fault, in which each quotes itself, and neither changes the table. -/
theorem assignment_writes (hn : IsName name) (hb : '=' ∉ body.toList) (table : Table) :
    match (evaluateLine body table).outcome,
      (evaluateLine (assignmentLine name body) table).outcome with
    | .ok a, .ok b =>
      a.name = none ∧ b = ⟨a.value, some name⟩ ∧
        (evaluateLine body table).table = table ∧
        table.Writes (evaluateLine (assignmentLine name body) table).table name a.value
    | .error f, .error g =>
      SameFault body (assignmentLine name body) f g ∧
        (evaluateLine body table).table = table ∧
        (evaluateLine (assignmentLine name body) table).table = table
    | _, _ => False := by
  have h := outcome_assignment hn hb table
  cases hsum : (evaluateLine body table).outcome with
  | error f =>
    rw [hsum] at h
    obtain ⟨g, hg, hsame⟩ := h
    rw [hg]
    exact ⟨hsame, table_evaluateLine_of_error hsum, table_evaluateLine_of_error hg⟩
  | ok a =>
    rw [hsum] at h
    obtain ⟨hnone, hassign⟩ := h
    rw [hassign]
    refine ⟨hnone, rfl, ?_, ?_⟩
    · rw [table_evaluateLine, hsum, Table.after, Table.record, hnone]
    · rw [table_evaluateLine, hassign]
      exact table.writes_insert name a.value

/-- In `x = 7 - x` the name is read before it is written, and it keeps its place. -/
theorem assignment_writes_to_operand :
    ∃ table b, table.names = ["x", "y"] ∧ table.get? "x" = some ⟨3, by decide, by decide⟩ ∧
      (evaluateLine (assignmentLine "x" "7 - x") table).outcome = .ok b ∧
      b.value.toInt = 4 ∧ b.name = some "x" ∧
      (evaluateLine (assignmentLine "x" "7 - x") table).table.names = ["x", "y"] := by
  let table := Table.ofList [("x", ⟨3, by decide, by decide⟩), ("y", .zero)]
  have hsum : (evaluateLine "7 - x" table).outcome = .ok ⟨⟨4, by decide, by decide⟩, none⟩ := by
    decide +kernel
  have h := @assignment_writes "x" "7 - x" (by decide) (by decide) table
  rw [hsum] at h
  cases hassign : (evaluateLine (assignmentLine "x" "7 - x") table).outcome with
  | error f =>
    rw [hassign] at h
    exact h.elim
  | ok b =>
    rw [hassign] at h
    obtain ⟨-, rfl, -, hwrites⟩ := h
    exact ⟨table, _, by decide, by decide, hassign, rfl, rfl, hwrites.names_eq.trans (by decide)⟩

end SignedSum
