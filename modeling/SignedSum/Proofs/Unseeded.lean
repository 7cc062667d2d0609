/-
# The seed as a leading zero

The ordinary way to evaluate tokens in postfix order starts with an empty stack: numerals are
pushed, a sign takes two values, and at the end one value has to be left (`Unseeded.evaluate`).
The stack machine starts with a seed instead and may leave it out of account at the end.

Step by step the machine works as the ordinary evaluation does, on a stack with the seed at its
bottom (`outcome_step_eq`), and an ordinary run does not look at what lies below its stack
(`run_append`).  So there are two possibilities (`Machine.Mirrors`).  As long as the seed has not
been taken, the ordinary run of the tokens alone has come as far, and its stack lies on the seed.
Once it has been taken, the tokens alone are a fault, and the machine stands where the ordinary
run stands that has a zero in front of the tokens.  At the end exactly one of the two can leave a
single value (`seed_is_leading_zero`).
-/
import SignedSum.Machine
import SignedSum.Proofs.FirstFailure
import Mathlib.Data.List.Induction

namespace SignedSum

/-! ## Ordinary evaluation -/

namespace Unseeded

/-- Reads one token. -/
def step (stack : List Value) (t : Token) : Except ValueFault (List Value) :=
  match t.kind with
  | .numeral => (Value.ofLiteral t.text).map (· :: stack)
  | .sign s =>
    match stack with
    | right :: left :: below => (s.combine left right).map (· :: below)
    | _ => .error (.unbalanced (.missingOperand t.text))
  | _ => .error (.unbalanced (.strayToken t.text))

/-- Reads some tokens, one after the other. -/
def run (stack : List Value) (tokens : List Token) : Except ValueFault (List Value) :=
  tokens.foldlM step stack

/-- The value that tokens in postfix order leave on an empty stack. -/
def evaluate (tokens : List Token) : Except ValueFault Value := do
  match ← run [] tokens with
  | [v] => .ok v
  | [] => .error (.unbalanced .noValue)
  | vs => .error (.unbalanced (.leftover vs.length))

variable {stack stack' below : List Value} {t : Token} {ts : List Token} {v w : Value}

theorem evaluate_eq_ok : evaluate ts = .ok v ↔ run [] ts = .ok [v] := by
  rw [evaluate, bind_eq_ok]
  constructor
  · rintro ⟨stack, hrun, hvalue⟩
    split at hvalue
    · cases hvalue
      exact hrun
    · cases hvalue
    · cases hvalue
  · intro hrun
    exact ⟨[v], hrun, rfl⟩

/-- A zero in front of the tokens is the bottom of the stack. -/
theorem run_zero_cons (ts : List Token) : run [] (.ofValue .zero :: ts) = run [.zero] ts := by
  have hzero : step [] (.ofValue .zero) = .ok [.zero] := by
    simp [step, Except.map]
  rw [run, List.foldlM_cons, hzero]
  rfl

/-- All that can happen when a step goes well. -/
theorem step_eq_ok :
    step stack t = .ok stack' ↔
      (t.kind = .numeral ∧ ∃ v, Value.ofLiteral t.text = .ok v ∧ stack' = v :: stack) ∨
      ∃ s right left below v, t.kind = .sign s ∧ stack = right :: left :: below ∧
        s.combine left right = .ok v ∧ stack' = v :: below := by
  unfold step
  cases hk : t.kind with
  | numeral => simp [map_eq_ok, @eq_comm _ stack']
  | sign s =>
    match stack with
    | [] => simp
    | [_] => simp
    | right :: left :: below =>
      simp only [map_eq_ok]
      constructor
      · rintro ⟨v, hv, rfl⟩
        exact Or.inr ⟨s, right, left, below, v, rfl, rfl, hv, rfl⟩
      · rintro (⟨h, -⟩ | ⟨_, _, _, _, v, hs, hstack, hv, rfl⟩)
        · cases h
        · cases hs
          cases hstack
          exact ⟨v, hv, rfl⟩
  | name | equals | foreign => simp

theorem ne_nil_of_step (h : step stack t = .ok stack') : stack' ≠ [] := by
  rcases step_eq_ok.1 h with ⟨-, v, -, rfl⟩ | ⟨_, _, _, below, v, -, -, -, rfl⟩
  · exact List.cons_ne_nil v stack
  · exact List.cons_ne_nil v below

/-- A step does not look at what lies below the values that it takes. -/
theorem step_append (h : step stack t = .ok stack') (below : List Value) :
    step (stack ++ below) t = .ok (stack' ++ below) := by
  rw [step_eq_ok] at h ⊢
  rcases h with ⟨hk, v, hv, rfl⟩ | ⟨s, right, left, rest, v, hk, rfl, hv, rfl⟩
  · exact Or.inl ⟨hk, v, hv, rfl⟩
  · exact Or.inr ⟨s, right, left, rest ++ below, v, hk, rfl, hv, rfl⟩

/-- Neither does a run. -/
theorem run_append (h : run stack ts = .ok stack') (below : List Value) :
    run (stack ++ below) ts = .ok (stack' ++ below) := by
  induction ts generalizing stack with
  | nil =>
    cases h
    rfl
  | cons t ts ih =>
    rw [run, List.foldlM_cons, bind_eq_ok] at h ⊢
    obtain ⟨next, hstep, hrun⟩ := h
    exact ⟨next ++ below, step_append hstep below, ih hrun⟩

/-- Only a sign that leaves a single value may have needed the lowest one. -/
theorem step_of_append_singleton (h : step (stack ++ [w]) t = .ok stack') :
    (t.kind.isSign = true ∧ stack'.length = 1) ∨
      ∃ stack'', step stack t = .ok stack'' ∧ stack' = stack'' ++ [w] := by
  rcases step_eq_ok.1 h with ⟨hk, v, hv, rfl⟩ | ⟨s, right, left, below, v, hk, hstack, hv, rfl⟩
  · exact Or.inr ⟨v :: stack, step_eq_ok.2 (Or.inl ⟨hk, v, hv, rfl⟩), rfl⟩
  · match stack with
    | [] => cases hstack
    | [_] =>
      cases hstack
      exact Or.inl ⟨by rw [hk]; rfl, rfl⟩
    | _ :: _ :: rest =>
      cases hstack
      have hstep := step_eq_ok.2 (Or.inr ⟨s, right, left, rest, v, hk, rfl, hv, rfl⟩)
      exact Or.inr ⟨v :: rest, hstep, rfl⟩

theorem ne_nil_of_run (hne : ts ≠ []) (h : run stack ts = .ok stack') : stack' ≠ [] := by
  obtain rfl | ⟨ts, t, rfl⟩ := List.eq_nil_or_concat ts
  · exact absurd rfl hne
  · rw [List.concat_eq_append] at h
    obtain ⟨_, -, hstep⟩ := foldlM_concat_eq_ok.1 h
    exact ne_nil_of_step hstep

/-- Tokens that have a value leave two with a zero in front. -/
theorem evaluate_zero_cons_ne (h : evaluate ts = .ok v) :
    evaluate (.ofValue .zero :: ts) ≠ .ok w := by
  intro hzero
  rw [evaluate_eq_ok] at h hzero
  have hrun : run [.zero] ts = .ok [v, .zero] := run_append h [.zero]
  rw [run_zero_cons, hrun] at hzero
  cases hzero

end Unseeded

/-! ## The machine as an ordinary evaluation -/

namespace Machine

variable {m m' : Machine} {t : Token} {ts : List Token} {v : Value}

/-- **A step of the machine is an ordinary step**, and the flag is set by a sign that leaves a
single value. -/
theorem outcome_step_eq (m : Machine) (t : Token) :
    (m.step t).outcome = (Unseeded.step m.stack t).map fun stack =>
      ⟨stack, m.seedTaken || (t.kind.isSign && stack.length == 1)⟩ := by
  cases hk : t.kind with
  | numeral =>
    rw [outcome_step_numeral hk, Unseeded.step, hk]
    cases Value.ofLiteral t.text <;> simp [Except.map, Kind.isSign]
  | sign s =>
    match hs : m.stack with
    | [] | [_] =>
      rw [step_sign_of_length_lt hk (by simp [hs]), Unseeded.step, hk]
      rfl
    | right :: left :: below =>
      have hstep : Unseeded.step (right :: left :: below) t =
          (s.combine left right).map (· :: below) := by
        rw [Unseeded.step, hk]
      rw [outcome_step_sign hk hs, hstep]
      cases s.combine left right with
      | error f => rfl
      | ok v => cases below <;> simp [Except.map, Kind.isSign]
  | name | equals | foreign =>
    rw [step, Unseeded.step, hk]
    rfl

/-- **A run of the machine is an ordinary run on its stack**, with the same faults. -/
theorem outcome_run_stack (m : Machine) (ts : List Token) :
    (m.run ts).outcome.map (·.stack) = Unseeded.run m.stack ts := by
  induction ts generalizing m with
  | nil => rfl
  | cons t ts ih =>
    rw [run_cons, Logged.outcome_bind, outcome_step_eq, Unseeded.run, List.foldlM_cons]
    cases Unseeded.step m.stack t with
    | error f => rfl
    | ok stack => exact ih _

/-- The machine stands as the ordinary evaluation of the tokens that it has read. -/
structure Mirrors (m : Machine) (ts : List Token) : Prop where
  stack_ne_nil : m.stack ≠ []
  /-- As long as the seed is there, it lies under the stack that the tokens leave. -/
  of_kept : m.seedTaken = false →
    ∃ stack, Unseeded.run [] ts = .ok stack ∧ m.stack = stack ++ [seed]
  /-- Once the seed has been taken, the tokens alone are a fault. -/
  of_taken : m.seedTaken = true → ∀ stack, Unseeded.run [] ts ≠ .ok stack
  /-- In any case the stack is the one that they leave with a zero in front. -/
  run_zero_cons : Unseeded.run [] (.ofValue .zero :: ts) = .ok m.stack

theorem mirrors_start : start.Mirrors [] where
  stack_ne_nil := List.cons_ne_nil _ _
  of_kept := fun _ => ⟨[], rfl, rfl⟩
  of_taken := nofun
  run_zero_cons := Unseeded.run_zero_cons []

/-- **One more token.**  A sign that finds the seed and one more value makes the difference: there
the tokens alone are a fault for the first time. -/
theorem Mirrors.step (hm : m.Mirrors ts) (h : (m.step t).outcome = .ok m') :
    m'.Mirrors (ts ++ [t]) := by
  rw [outcome_step_eq, map_eq_ok] at h
  obtain ⟨stack, hstep, rfl⟩ := h
  refine ⟨Unseeded.ne_nil_of_step hstep, fun hkept => ?_, fun htaken => ?_, ?_⟩
  · obtain ⟨hkept, hsign⟩ := Bool.or_eq_false_iff.1 hkept
    obtain ⟨before, hrun, hstack⟩ := hm.of_kept hkept
    rw [hstack] at hstep
    rcases Unseeded.step_of_append_singleton hstep with ⟨ht, hlength⟩ | ⟨after, hafter, rfl⟩
    · simp [ht, hlength] at hsign
    · exact ⟨after, foldlM_concat_eq_ok.2 ⟨before, hrun, hafter⟩, rfl⟩
  · intro after hafter
    obtain ⟨before, hrun, halone⟩ := foldlM_concat_eq_ok.1 hafter
    cases hkept : m.seedTaken with
    | true => exact hm.of_taken hkept before hrun
    | false =>
      -- the ordinary step leaves a value, and the seed would lie under it
      obtain ⟨before', hrun', hstack⟩ := hm.of_kept hkept
      obtain rfl : before = before' := Except.ok.inj (hrun.symm.trans hrun')
      rw [hstack, Unseeded.step_append halone [seed]] at hstep
      obtain rfl := Except.ok.inj hstep
      simp only [hkept, Bool.false_or, Bool.and_eq_true, beq_iff_eq, List.length_append,
        List.length_singleton] at htaken
      have hlength := List.length_pos_iff.2 (Unseeded.ne_nil_of_step halone)
      omega
  · exact foldlM_concat_eq_ok.2 ⟨m.stack, hm.run_zero_cons, hstep⟩

theorem outcome_run_concat :
    (start.run (ts ++ [t])).outcome = .ok m' ↔
      ∃ m, (start.run ts).outcome = .ok m ∧ (m.step t).outcome = .ok m' := by
  rw [run_append, Logged.outcome_bind, bind_eq_ok]
  simp only [run_cons, run_nil, bind_pure]

/-- **After any tokens** the machine stands as their ordinary evaluation. -/
theorem mirrors_of_run (h : (start.run ts).outcome = .ok m) : m.Mirrors ts := by
  induction ts using List.reverseRecOn generalizing m with
  | nil =>
    cases h
    exact mirrors_start
  | append_singleton ts t ih =>
    obtain ⟨before, hbefore, hstep⟩ := outcome_run_concat.1 h
    exact (ih hbefore).step hstep

theorem result_eq_ok : m.result = .ok v ↔ m.counted = [v] := by
  unfold result
  split
  · next w hw => simp [hw]
  · next hnil => simp [hnil]
  · next vs hsingle hnil =>
    simp only [reduceCtorEq, false_iff]
    exact hsingle v

/-- What the machine comes to at the end of some tokens is the value that they have alone or with
a zero in front. -/
theorem Mirrors.result_eq_ok_iff (hm : m.Mirrors ts) (hne : ts ≠ []) :
    m.result = .ok v ↔
      Unseeded.evaluate ts = .ok v ∨ Unseeded.evaluate (.ofValue .zero :: ts) = .ok v := by
  rw [result_eq_ok, counted, Unseeded.evaluate_eq_ok, Unseeded.evaluate_eq_ok, hm.run_zero_cons,
    Except.ok.injEq]
  cases htaken : m.seedTaken with
  | true =>
    rw [if_pos rfl]
    exact (or_iff_right (hm.of_taken htaken [v])).symm
  | false =>
    obtain ⟨stack, hrun, hstack⟩ := hm.of_kept htaken
    have hstack_ne := Unseeded.ne_nil_of_run hne hrun
    rw [if_neg Bool.false_ne_true, hstack, List.dropLast_concat, hrun, Except.ok.injEq]
    refine (or_iff_left fun hsingle => hstack_ne ?_).symm
    simpa using congrArg List.length hsingle

end Machine

/-! ## The seed as a leading zero -/

theorem Postfix.outcome_evaluate_eq_ok_iff {ts : List Token} {v : Value} (hne : ts ≠ []) :
    (Postfix.evaluate ts).outcome = .ok v ↔
      Unseeded.evaluate ts = .ok v ∨ Unseeded.evaluate (.ofValue .zero :: ts) = .ok v := by
  have hmachine : (Postfix.evaluate ts).outcome = .ok v ↔
      ∃ m, (Machine.start.run ts).outcome = .ok m ∧ m.result = .ok v := by
    rw [Postfix.evaluate, Logged.outcome_bind, bind_eq_ok]
    simp only [Logged.outcome_monadLift]
  rw [hmachine]
  constructor
  · rintro ⟨m, hrun, hresult⟩
    exact ((Machine.mirrors_of_run hrun).result_eq_ok_iff hne).1 hresult
  · -- in both cases there is an ordinary run on the seed, so the machine comes to the end
    intro h
    have hstack : ∃ stack, Unseeded.run [.zero] ts = .ok stack := by
      simp only [Unseeded.evaluate_eq_ok, Unseeded.run_zero_cons] at h
      rcases h with h | h
      · exact ⟨_, Unseeded.run_append h [.zero]⟩
      · exact ⟨_, h⟩
    obtain ⟨stack, hstack⟩ := hstack
    obtain ⟨m, hrun, -⟩ := map_eq_ok.1 ((Machine.outcome_run_stack .start ts).trans hstack)
    exact ⟨m, hrun, ((Machine.mirrors_of_run hrun).result_eq_ok_iff hne).2 h⟩

/-- **The seeded machine is the ordinary one, with an optional zero in front.**

Some tokens, of any kinds and with any texts, have a value exactly if they have it in ordinary
evaluation, alone or with a zero in front of them, and they never have a value in both ways.  No
tokens at all are a fault.  After any tokens that are read without a fault there is a value on the
stack, and the flag tells which of the two ordinary evaluations has come as far. -/
theorem seed_is_leading_zero :
    (∀ ts, ts ≠ [] → ∀ v, (Postfix.evaluate ts).outcome = .ok v ↔
      Unseeded.evaluate ts = .ok v ∨ Unseeded.evaluate (.ofValue .zero :: ts) = .ok v) ∧
    (∀ ts v w, ¬ (Unseeded.evaluate ts = .ok v ∧
      Unseeded.evaluate (.ofValue .zero :: ts) = .ok w)) ∧
    (Postfix.evaluate []).outcome = .error (.unbalanced .noValue) ∧
    ∀ ts m, (Machine.start.run ts).outcome = .ok m → 1 ≤ m.stack.length ∧
      (m.seedTaken = false → ∃ stack, Unseeded.run [] ts = .ok stack ∧
        m.stack = stack ++ [Value.zero]) ∧
      (m.seedTaken = true → Unseeded.run [] (.ofValue .zero :: ts) = .ok m.stack) := by
  refine ⟨fun ts hne v => ?_, fun ts v w ⟨halone, hzero⟩ => ?_, rfl, fun ts m hrun => ?_⟩
  · exact Postfix.outcome_evaluate_eq_ok_iff hne
  · exact Unseeded.evaluate_zero_cons_ne halone hzero
  · have hm := Machine.mirrors_of_run hrun
    exact ⟨List.length_pos_iff.2 hm.stack_ne_nil, hm.of_kept, fun _ => hm.run_zero_cons⟩

/-- In `5 - 3 +` the minus sign has only one value in front of it and takes the seed. -/
theorem seed_is_leading_zero_of_minus_five :
    ∃ m v, (Machine.start.run [⟨.numeral, "5"⟩, ⟨.sign .minus, "-"⟩]).outcome = .ok m ∧
      m.seedTaken = true ∧ 1 ≤ m.stack.length ∧ v.toInt = -2 ∧
      (Postfix.evaluate [⟨.numeral, "5"⟩, ⟨.sign .minus, "-"⟩, ⟨.numeral, "3"⟩,
        ⟨.sign .plus, "+"⟩]).outcome = .ok v := by
  obtain ⟨hvalue, -, -, hmirrors⟩ := seed_is_leading_zero
  have hrun : (Machine.start.run [⟨.numeral, "5"⟩, ⟨.sign .minus, "-"⟩]).outcome =
      .ok ⟨[⟨-5, by decide, by decide⟩], true⟩ := by
    decide +kernel
  refine ⟨_, ⟨-2, by decide, by decide⟩, hrun, rfl, (hmirrors _ _ hrun).1, rfl, ?_⟩
  exact (hvalue _ (List.cons_ne_nil _ _) _).2 (Or.inr (by decide +kernel))

end SignedSum
