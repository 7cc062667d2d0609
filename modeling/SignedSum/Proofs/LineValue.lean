/-
# What a line comes to

The value and the fault of a line, through all the stages of its evaluation: the check of its
shape, substitution, postfix order and the stack machine with its seed.  All of them together
read the sum that the line holds from left to right.

* `evaluate_reads`: a statement has a value exactly if its names have values and its sum is
  sound, and the value is the one that is read.
* `fault_of_line`: which fault a line has.  An unbound name comes before an empty sum, and
  everything else is the first fault of the reading.

The short way that an assignment of a single numeral takes is no exception
(`outcome_value_eq_compute`).
-/
import SignedSum.Proofs.EarliestFault
import SignedSum.Proofs.Simulation

namespace SignedSum

variable {table : Table} {s : Statement} {S : GappedSum}

/-! ## Names without a value -/

theorem GappedSum.mem_tokens {t : Token} :
    t ∈ S.tokens ↔ (∃ x ∈ S.operands, x.token = t) ∨ ∃ l ∈ S.rest, Token.ofSign l.1 = t := by
  obtain ⟨first, rest⟩ := S
  simp only [tokens, operands, gaps, Gap.tokens, Link.tokens, List.mem_append, List.mem_flatMap,
    List.mem_cons, Option.mem_toList, Option.map_eq_some_iff]
  grind

theorem Operand.isUnbound_token {x : Operand} :
    x.token.isUnbound table = true ↔ ¬ x.Bound table := by
  rw [Token.isUnbound_iff]
  cases x with
  | literal digits h => simp [token, Bound]
  | name letters h => simp [token, Bound]

theorem find?_isUnbound_eq_none :
    S.tokens.find? (Token.isUnbound table) = none ↔ ∀ x ∈ S.operands, x.Bound table := by
  rw [List.find?_eq_none]
  constructor
  · intro h x hx
    by_contra hb
    exact h x.token (GappedSum.mem_tokens.2 (Or.inl ⟨x, hx, rfl⟩)) (Operand.isUnbound_token.2 hb)
  · intro h t ht hu
    rcases GappedSum.mem_tokens.1 ht with ⟨x, hx, rfl⟩ | ⟨l, -, rfl⟩
    · exact Operand.isUnbound_token.1 hu (h x hx)
    · exact absurd (Token.isUnbound_iff.1 hu).1 (by simp)

/-! ## The stages together -/

/-- The value of a sum by way of all stages. -/
theorem outcome_compute (table : Table) (S : GappedSum) :
    (Statement.compute table S.tokens).outcome =
      match S.tokens.find? (Token.isUnbound table) with
      | some t => .error (.unbound t.text)
      | none => if S.tokens = [] then .error .empty else (S.read table).map (·.value) := by
  simp only [Statement.compute, Logged.outcome_bind, Logged.outcome_monadLift,
    Logged.outcome_note, Table.substitute_eq]
  cases hu : S.tokens.find? (Token.isUnbound table) with
  | some t => rfl
  | none =>
    have hb := find?_isUnbound_eq_none.1 hu
    by_cases hne : S.tokens = []
    · rw [hne]
      rfl
    · rw [if_neg hne, ← outcome_evaluate_ordered hne hb]
      show Except.bind (Postfix.ofTokens _) _ = _
      rw [Postfix.ofTokens_resolved hne]
      rfl

theorem operands_of_literal? {text : String} (h : s.literal? = some text) :
    s.operands = [⟨.numeral, text⟩] := by
  unfold Statement.literal? at h
  split at h
  · next h' =>
    cases h
    exact h'
  · cases h

/-- The short way of a single numeral comes to the same as the long one. -/
theorem outcome_value_eq_compute (s : Statement) (table : Table) :
    (s.value table).outcome = (Statement.compute table s.operands).outcome := by
  unfold Statement.value
  cases hl : s.literal? with
  | none => rfl
  | some text =>
    rw [operands_of_literal? hl]
    show Value.ofLiteral text = (Postfix.evaluate [⟨.numeral, text⟩]).outcome
    simp only [Postfix.evaluate, Machine.run_cons, Machine.run_nil, bind_pure,
      Logged.outcome_bind, Machine.outcome_step_numeral (t := ⟨.numeral, text⟩) rfl]
    cases Value.ofLiteral text <;> rfl

theorem outcome_evaluate (s : Statement) (table : Table) :
    (s.evaluate table).outcome =
      (Statement.compute table s.operands).outcome.map fun v => ⟨v, s.target.map (·.name)⟩ := by
  rw [Statement.toLogged_evaluate, Logged.outcome_bind, outcome_value_eq_compute]
  cases (Statement.compute table s.operands).outcome <;> rfl

theorem outcome_evaluateLine {line : String} (h : (Statement.ofLine line).outcome = .ok s)
    (table : Table) :
    (evaluateLine line table).outcome = (s.evaluate table).outcome.mapError Fault.value := by
  rw [evaluateLine_of_ok h]

/-- A line without a form fails with that. -/
theorem outcome_evaluateLine_of_form {line : String} {f : FormFault}
    (h : (Statement.ofLine line).outcome = .error f) (table : Table) :
    (evaluateLine line table).outcome = .error (.form f) := by
  rw [evaluateLine_of_error h]

/-! ## Values -/

theorem outcome_evaluate_eq_ok {a : Answer} (hS : S.tokens = s.operands) :
    (s.evaluate table).outcome = .ok a ↔
      s.operands ≠ [] ∧ (∀ x ∈ S.operands, x.Bound table) ∧ S.Sound table ∧
        a.value.toInt = S.total table ∧ a.name = s.target.map (·.name) := by
  obtain ⟨v, name⟩ := a
  rw [outcome_evaluate, ← hS, outcome_compute]
  cases hu : S.tokens.find? (Token.isUnbound table) with
  | some t =>
    have hb : ¬ ∀ x ∈ S.operands, x.Bound table := fun hb => by
      rw [find?_isUnbound_eq_none.2 hb] at hu
      cases hu
    constructor
    · intro h
      cases h
    · rintro ⟨-, h, -⟩
      exact absurd h hb
  | none =>
    have hb := find?_isUnbound_eq_none.1 hu
    by_cases hne : S.tokens = []
    · rw [if_pos hne]
      constructor
      · intro h
        cases h
      · rintro ⟨h, -⟩
        exact absurd hne h
    · rw [if_neg hne, map_eq_ok]
      constructor
      · rintro ⟨w, hw, hvn⟩
        obtain ⟨p, hp, rfl⟩ := map_eq_ok.1 hw
        cases hvn
        obtain ⟨hsound, hvalue, -⟩ := (GappedSum.read_eq_ok hb).1 hp
        exact ⟨hne, hb, hsound, hvalue, rfl⟩
      · rintro ⟨-, -, hsound, hvalue, rfl⟩
        have hread := (GappedSum.read_eq_ok hb (p := ⟨v, _⟩)).2 ⟨hsound, hvalue, rfl⟩
        exact ⟨v, map_eq_ok.2 ⟨_, hread, rfl⟩, rfl⟩

/-- **A statement comes to the value that is read from left to right.**

Its tokens are those of one sum with gaps.  It has a value exactly if there are tokens at all and
at most one gap is empty, every name has a value and no literal is too large, and every partial
result is in the range of values.  The value is the total of the sum, read in one of the three
ways. -/
theorem evaluate_reads {line : String} (h : (Statement.ofLine line).outcome = .ok s)
    (table : Table) :
    ∃ S : GappedSum, (S.tokens = s.operands ∧ ∀ T : GappedSum, T.tokens = s.operands → T = S) ∧
      ((∃ a, (s.evaluate table).outcome = .ok a) ↔
        (s.operands ≠ [] ∧ S.emptyGaps ≤ 1) ∧ (∀ x ∈ S.operands, x.Bound table ∧ x.Fits) ∧
          ∀ n ∈ S.partials table, InRange n) ∧
      ∀ a, (s.evaluate table).outcome = .ok a →
        a.value.toInt = S.total table ∧ S.Reads table a.value.toInt ∧
          a.name = s.target.map (·.name) := by
  obtain ⟨S, hS⟩ := exists_tokens_eq_operands h
  refine ⟨S, ⟨hS, fun T hT => GappedSum.tokens_injective (hT.trans hS.symm)⟩, ?_, ?_⟩
  · constructor
    · rintro ⟨a, ha⟩
      obtain ⟨hne, hb, hsound, -⟩ := (outcome_evaluate_eq_ok hS).1 ha
      exact ⟨⟨hne, hsound.emptyGaps_le⟩, fun x hx => ⟨hb x hx, hsound.fits x hx⟩,
        hsound.inRange⟩
    · rintro ⟨⟨hne, hgaps⟩, hx, hrange⟩
      have hsound : S.Sound table := ⟨hgaps, fun x h => (hx x h).2, hrange⟩
      have htotal := hsound.inRange_total
      exact ⟨⟨⟨S.total table, htotal.1, htotal.2⟩, s.target.map (·.name)⟩,
        (outcome_evaluate_eq_ok hS).2 ⟨hne, fun x h => (hx x h).1, hsound, rfl, rfl⟩⟩
  · intro a ha
    obtain ⟨-, -, hsound, hvalue, hname⟩ := (outcome_evaluate_eq_ok hS).1 ha
    exact ⟨hvalue, hvalue ▸ GappedSum.reads_total hsound.emptyGaps_le, hname⟩

/-- In `7 - + b` the gap after the first sign is empty, so the sum so far is turned around. -/
theorem evaluate_reads_turned :
    ∃ s a, (Statement.ofLine "x = 7 - + b").outcome = .ok s ∧
      (s.evaluate (Table.ofList [("b", ⟨3, by decide, by decide⟩)])).outcome = .ok a ∧
      a.value.toInt = -4 ∧ a.name = some "x" := by
  have hline : (Statement.ofLine "x = 7 - + b").outcome = .ok ⟨[⟨.name, "x"⟩, .equalsSign,
      ⟨.numeral, "7"⟩, .ofSign .minus, .ofSign .plus, ⟨.name, "b"⟩], some ⟨"x", 2⟩⟩ := by
    decide +kernel
  obtain ⟨S, ⟨-, hunique⟩, hok, hvalue⟩ :=
    evaluate_reads hline (Table.ofList [("b", ⟨3, by decide, by decide⟩)])
  obtain rfl : ⟨some (.literal "7" (by decide)),
      [(.minus, none), (.plus, some (.name "b" (by decide)))]⟩ = S := hunique _ rfl
  obtain ⟨a, ha⟩ := hok.2 ⟨by decide, by decide, by decide⟩
  exact ⟨_, a, hline, ha, (hvalue a ha).1.trans (by decide), (hvalue a ha).2.2⟩

/-! ## Faults -/

theorem outcome_evaluate_eq_error {f : ValueFault} (hS : S.tokens = s.operands)
    (hb : ∀ x ∈ S.operands, x.Bound table) (hne : s.operands ≠ []) :
    (s.evaluate table).outcome = .error f ↔ S.FirstFault table f := by
  rw [outcome_evaluate, ← hS, outcome_compute, find?_isUnbound_eq_none.2 hb]
  show Except.map _ (if S.tokens = [] then _ else _) = _ ↔ _
  rw [if_neg (hS ▸ hne), map_eq_error, map_eq_error, GappedSum.read_eq_error hb]

/-- A sum is out of balance only where a sign is missing an operand. -/
theorem GappedSum.FirstFault.of_unbalanced {cause : Imbalance}
    (h : S.FirstFault table (.unbalanced cause)) :
    ∃ o : Sign, cause = .missingOperand (String.singleton o.symbol) := by
  rcases h with ⟨digits, hd, -, -, h⟩ | ⟨before, l, after, -, -, h⟩
  · cases h
  · cases h with
    | @gap o _ => exact ⟨o, rfl⟩

/-- A statement fails for an unbound name, because it is empty, or as its sum does. -/
theorem outcome_evaluate_cases {f : ValueFault} (hS : S.tokens = s.operands)
    (h : (s.evaluate table).outcome = .error f) :
    (∃ t ∈ s.operands, f = .unbound t.text) ∨ f = .empty ∨ S.FirstFault table f := by
  cases hu : s.operands.find? (Token.isUnbound table) with
  | some t =>
    rw [outcome_evaluate, ← hS, outcome_compute, hS, hu] at h
    cases h
    exact Or.inl ⟨t, List.mem_of_find?_eq_some hu, rfl⟩
  | none =>
    rw [← hS] at hu
    have hb := find?_isUnbound_eq_none.1 hu
    by_cases hne : s.operands = []
    · rw [outcome_evaluate, ← hS, outcome_compute, hu, hS, hne] at h
      cases h
      exact Or.inr (Or.inl rfl)
    · exact Or.inr (Or.inr ((outcome_evaluate_eq_error hS hb hne).1 h))

/-- A line without form has a fault of form, but none of an operator or of a foreign word. -/
theorem fault_of_ofLine {line : String} {f : FormFault}
    (h : (Statement.ofLine line).outcome = .error f) :
    (∀ run, f ≠ .mixedRun run) ∧ ∀ text, f ≠ .foreignToken text := by
  rcases outcome_ofLine_eq_error.1 h with h | ⟨tokens, htokens, h⟩
  · obtain ⟨c, rfl⟩ := eq_foreignChar_of_tokenize h
    exact ⟨fun run => by simp, fun text => by simp⟩
  · obtain ⟨before, t, after, rfl, -, hviolates⟩ := checkShape_eq_error_iff.1 h
    have hforeign := (canonical_of_tokenize htokens t (by simp)).kind_ne_foreign
    cases hviolates with
    | foreignToken hk => exact absurd hk hforeign
    | secondEquals | misplacedEquals | missingSign =>
      exact ⟨fun run => by simp, fun text => by simp⟩

/-- Most sorts of fault that could be thought of are none of a line. -/
theorem reachable_of_evaluateLine {line : String} {f : Fault}
    (h : (evaluateLine line table).outcome = .error f) :
    (∀ run, f ≠ .form (.mixedRun run)) ∧ (∀ text, f ≠ .form (.foreignToken text)) ∧
      ∀ cause, f = .value (.unbalanced cause) →
        ∃ o : Sign, cause = .missingOperand (String.singleton o.symbol) := by
  cases hs : (Statement.ofLine line).outcome with
  | error g =>
    -- a fault of form is of one character or of the shape
    rw [outcome_evaluateLine_of_form hs] at h
    obtain rfl := Except.error.inj h
    obtain ⟨hrun, htext⟩ := fault_of_ofLine hs
    exact ⟨fun run h => hrun run (Fault.form.inj h), fun text h => htext text (Fault.form.inj h),
      fun cause h => by cases h⟩
  | ok s =>
    rw [outcome_evaluateLine hs, mapError_eq_error] at h
    obtain ⟨g, hg, rfl⟩ := h
    refine ⟨fun run => by simp, fun text => by simp, fun cause hcause => ?_⟩
    -- what is out of balance is so by the first fault of the reading
    cases hcause
    obtain ⟨S, hS⟩ := exists_tokens_eq_operands hs
    rcases outcome_evaluate_cases hS hg with ⟨t, -, h⟩ | h | h
    · cases h
    · cases h
    · exact h.of_unbalanced

theorem outcome_evaluateLine_of_unbound {line : String} {t : Token}
    (hs : (Statement.ofLine line).outcome = .ok s)
    (ht : s.operands.find? (Token.isUnbound table) = some t) :
    (evaluateLine line table).outcome = .error (.value (.unbound t.text)) := by
  obtain ⟨S, hS⟩ := exists_tokens_eq_operands hs
  rw [outcome_evaluateLine hs, outcome_evaluate, ← hS, outcome_compute, hS, ht]
  rfl

theorem outcome_evaluateLine_eq_empty {line : String}
    (hs : (Statement.ofLine line).outcome = .ok s)
    (hu : s.operands.find? (Token.isUnbound table) = none) :
    (evaluateLine line table).outcome = .error (.value .empty) ↔ s.operands = [] := by
  obtain ⟨S, hS⟩ := exists_tokens_eq_operands hs
  rw [outcome_evaluateLine hs]
  constructor
  · intro h
    by_contra hne
    obtain ⟨g, hg, hempty⟩ := mapError_eq_error.1 h
    cases hempty
    rw [← hS] at hu
    have hfault := (outcome_evaluate_eq_error hS (find?_isUnbound_eq_none.1 hu) hne).1 hg
    rcases hfault with ⟨digits, hd, -, -, h⟩ | ⟨before, l, after, -, -, h⟩ <;> cases h
  · intro hempty
    rw [outcome_evaluate, ← hS, outcome_compute, hS, hu, hempty]
    rfl

theorem outcome_evaluateLine_eq_error {line : String} {f : Fault}
    (hs : (Statement.ofLine line).outcome = .ok s) (hS : S.tokens = s.operands)
    (hu : s.operands.find? (Token.isUnbound table) = none) (hne : s.operands ≠ []) :
    (evaluateLine line table).outcome = .error f ↔ ∃ g, f = .value g ∧ S.FirstFault table g := by
  rw [← hS] at hu
  rw [outcome_evaluateLine hs, mapError_eq_error]
  simp only [outcome_evaluate_eq_error hS (find?_isUnbound_eq_none.1 hu) hne]
  exact ⟨fun ⟨g, hg, h⟩ => ⟨g, h.symm, hg⟩, fun ⟨g, h, hg⟩ => ⟨g, hg, h.symm⟩⟩

/-- **The fault of a line.**

No line is faulty because of an operator, of a foreign word, of a stray token or of the number of
values that are left; what is out of balance is always a sign that is missing an operand.

A line that has a form is faulty because of its leftmost name without a value, if it has one;
otherwise because it is empty, if it is; and otherwise with the first fault that is met when its
sum is read from left to right. -/
theorem fault_of_line (line : String) (table : Table) :
    (∀ f, (evaluateLine line table).outcome = .error f →
      (∀ run, f ≠ .form (.mixedRun run)) ∧ (∀ text, f ≠ .form (.foreignToken text)) ∧
        ∀ cause, f = .value (.unbalanced cause) → ∃ o : Sign,
          cause = .missingOperand (String.singleton o.symbol) ∧
          cause.detail = "operator '" ++ String.singleton o.symbol ++ "' is missing an operand") ∧
    ∀ s, (Statement.ofLine line).outcome = .ok s →
      ∃ S : GappedSum, S.tokens = s.operands ∧
        (∀ t, s.operands.find? (Token.isUnbound table) = some t →
          (evaluateLine line table).outcome = .error (.value (.unbound t.text))) ∧
        (s.operands.find? (Token.isUnbound table) = none →
          ((evaluateLine line table).outcome = .error (.value .empty) ↔ s.operands = []) ∧
          (s.operands ≠ [] → ∀ f, (evaluateLine line table).outcome = .error f ↔
            ∃ g, f = .value g ∧ S.FirstFault table g)) := by
  constructor
  · intro f hf
    obtain ⟨hrun, htext, hcause⟩ := reachable_of_evaluateLine hf
    refine ⟨hrun, htext, fun cause h => ?_⟩
    obtain ⟨o, rfl⟩ := hcause cause h
    exact ⟨o, rfl, rfl⟩
  · intro s hs
    obtain ⟨S, hS⟩ := exists_tokens_eq_operands hs
    refine ⟨S, hS, fun t ht => outcome_evaluateLine_of_unbound hs ht, fun hu => ⟨?_, ?_⟩⟩
    · exact outcome_evaluateLine_eq_empty hs hu
    · exact fun hne f => outcome_evaluateLine_eq_error hs hS hu hne

end SignedSum
