/-
# The stack machine reads sums from left to right

In postfix order the tokens of a sum with gaps are the same gaps and signs, with each gap in front
of its sign.  So the stack machine takes one link of the sum after the other, and between two
links its stack is known: it holds the sum so far, and below it the seed as long as no gap has
been empty.  That is the invariant (`Progress.machine`); a link takes the machine from one such
state to the next exactly as the checked reading goes on (`outcome_run_link`), and hence so do
all links.

The flag that says whether the seed has been taken is right after every link.  Before the first
one it is not yet right if the first gap is empty, but then there has to be a link.
-/
import SignedSum.Proofs.CheckedReading
import SignedSum.Proofs.Substituted

namespace SignedSum

/-! ## Postfix order -/

/-- The tokens of a sign and the gap after it, in postfix order. -/
def Link.ordered (l : Link) : List Token := Gap.tokens l.2 ++ [.ofSign l.1]

/-- The tokens of a sum in postfix order. -/
def GappedSum.ordered (S : GappedSum) : List Token :=
  Gap.tokens S.first ++ S.rest.flatMap Link.ordered

namespace Postfix

variable {held : Option Token} {s : Sign} {g : Gap} {ts : List Token}

/-- What stands in a gap goes out at once. -/
theorem arrange_gap : arrange held (Gap.tokens g ++ ts) = Gap.tokens g ++ arrange held ts := by
  cases g with
  | none => rfl
  | some x => exact arrange_other x.isSign_kind_token

theorem arrange_links {rest : List Link} :
    arrange (some (.ofSign s)) (Gap.tokens g ++ rest.flatMap Link.tokens) =
      Link.ordered (s, g) ++ rest.flatMap Link.ordered := by
  rw [arrange_gap, Link.ordered, List.append_assoc]
  congr 1
  induction rest generalizing s g with
  | nil => rfl
  | cons l rest ih =>
    rw [List.flatMap_cons, List.flatMap_cons, Link.tokens, List.cons_append, arrange_sign rfl,
      arrange_gap, ih (g := l.2), Link.ordered, List.append_assoc]
    rfl

theorem arrange_tokens (S : GappedSum) : arrange none S.tokens = S.ordered := by
  obtain ⟨first, rest⟩ := S
  rw [GappedSum.tokens, GappedSum.ordered, arrange_gap]
  congr 1
  cases rest with
  | nil => rfl
  | cons l rest =>
    rw [List.flatMap_cons, Link.tokens, List.cons_append, arrange_sign rfl, arrange_links]
    rfl

/-- The order depends only on which tokens are signs. -/
theorem arrange_map {f : Token → Token} (hf : ∀ t, (f t).kind.isSign = t.kind.isSign) :
    arrange (held.map f) (ts.map f) = (arrange held ts).map f := by
  induction ts generalizing held with
  | nil => cases held <;> rfl
  | cons t ts ih =>
    rw [List.map_cons]
    by_cases ht : t.kind.isSign = true
    · rw [arrange_sign ht, arrange_sign ((hf t).trans ht), List.map_append, ← ih]
      cases held <;> rfl
    · have ht : t.kind.isSign = false := by simpa using ht
      rw [arrange_other ht, arrange_other ((hf t).trans ht), List.map_cons, ih]

end Postfix

/-- A sum that is not empty, with its values in place, is put in order as it stands. -/
theorem Postfix.ofTokens_resolved {S : GappedSum} (hne : S.tokens ≠ []) (table : Table) :
    ofTokens (S.tokens.map (Token.resolved table)) =
      .ok (S.ordered.map (Token.resolved table)) := by
  have hmap : S.tokens.map (Token.resolved table) ≠ [] := by simpa using hne
  have horder : arrange none (S.tokens.map (Token.resolved table)) =
      (arrange none S.tokens).map (Token.resolved table) := by
    rw [← arrange_map fun t => Token.isSign_kind_resolved, Option.map_none]
  rw [ofTokens_of_ne_nil hmap, horder, arrange_tokens]

/-! ## States of the machine -/

/-- The machine after the given progress: the sum so far lies on the stack, and the seed below it
unless an empty gap has been met. -/
def Progress.machine (p : Progress) (seedTaken : Bool) : Machine :=
  ⟨if p.gapMet then [p.value] else [p.value, Machine.seed], seedTaken⟩

variable {table : Table} {m : Machine} {p : Progress} {l : Link} {taken : Bool}

/-- The flag and the stack agree on the seed, so the sum so far is the only value that counts. -/
theorem Progress.result_machine : (p.machine p.gapMet).result = .ok p.value := by
  obtain ⟨v, g⟩ := p
  cases g <;> rfl

/-- An operand, with its value in its place, is pushed. -/
theorem outcome_step_operand {x : Operand} (hb : x.Bound table) :
    (m.step (x.token.resolved table)).outcome =
      (x.value table).map fun v => { m with stack := v :: m.stack } := by
  cases x with
  | literal digits h => exact Machine.outcome_step_numeral rfl
  | name letters h =>
    obtain ⟨v, hv⟩ := Operand.exists_get?_of_bound hb
    have hr : (Operand.name letters h).token.resolved table = Token.ofValue v := by
      simp [Token.resolved, Operand.token, hv]
    rw [hr, Machine.outcome_step_numeral rfl, Token.text_ofValue, Value.ofLiteral_text,
      Operand.value, hv]

theorem resolved_ofSign (s : Sign) : (Token.ofSign s).resolved table = Token.ofSign s := rfl

theorem run_ordered_gap (s : Sign) :
    m.run ((Link.ordered (s, none)).map (Token.resolved table)) = m.step (.ofSign s) := by
  simp only [Link.ordered, Gap.tokens, Option.map_none, Option.toList_none, List.nil_append,
    List.map_cons, List.map_nil, resolved_ofSign, Machine.run_cons, Machine.run_nil, bind_pure]

theorem run_ordered_operand (s : Sign) (x : Operand) :
    m.run ((Link.ordered (s, some x)).map (Token.resolved table)) =
      m.step (x.token.resolved table) >>= fun m' => m'.step (.ofSign s) := by
  simp only [Link.ordered, Gap.tokens, Option.map_some, Option.toList_some, List.cons_append,
    List.nil_append, List.map_cons, List.map_nil, resolved_ofSign, Machine.run_cons,
    Machine.run_nil, bind_pure]

/-- A sign with nothing after it takes the machine on as it takes the reading on. -/
theorem outcome_run_gap (s : Sign) :
    ((p.machine taken).run ((Link.ordered (s, none)).map (Token.resolved table))).outcome =
      (p.take table (s, none)).map fun p' => p'.machine p'.gapMet := by
  obtain ⟨a, met⟩ := p
  rw [run_ordered_gap]
  cases met with
  | true =>
    -- the sum so far lies there alone, and the sign has nothing to work on
    rw [Machine.step_sign_of_length_lt (s := s) rfl (by simp [Progress.machine]),
      Progress.take_gap_of_met rfl]
    rfl
  | false =>
    have hstack : (Progress.machine ⟨a, false⟩ taken).stack = [a, .zero] := rfl
    rw [Machine.outcome_step_sign (s := s) rfl hstack, Progress.take_gap rfl]
    cases s.combine .zero a with
    | error f => rfl
    | ok v => simp [Except.map, Progress.machine]

/-- An operand and the sign before it take the machine on as they take the reading on. -/
theorem outcome_run_operand {x : Operand} (s : Sign) (hb : x.Bound table)
    (ht : taken = true → p.gapMet = true) :
    ((p.machine taken).run ((Link.ordered (s, some x)).map (Token.resolved table))).outcome =
      (p.take table (s, some x)).map fun p' => p'.machine p'.gapMet := by
  obtain ⟨a, met⟩ := p
  rw [run_ordered_operand, Logged.outcome_bind, outcome_step_operand hb]
  cases hx : x.value table with
  | error f =>
    rw [Progress.take_operand_of_error hx]
    rfl
  | ok v =>
    -- the operand lies on the sum so far, and below the two lies the seed or nothing
    rw [Progress.take_operand hx]
    cases met with
    | true =>
      show (Machine.step ⟨[v, a], taken⟩ (Token.ofSign s)).outcome = _
      rw [Machine.outcome_step_sign (s := s) rfl rfl]
      cases s.combine a v with
      | error f => rfl
      | ok w => simp [Except.map, Progress.machine]
    | false =>
      have htaken : taken = false := by simpa using ht
      show (Machine.step ⟨[v, a, Machine.seed], taken⟩ (Token.ofSign s)).outcome = _
      rw [Machine.outcome_step_sign (s := s) rfl rfl, htaken]
      cases s.combine a v with
      | error f => rfl
      | ok w => simp [Except.map, Progress.machine]

/-- **A link takes the machine on as it takes the reading on.** -/
theorem outcome_run_link (hb : ∀ x ∈ l.2, x.Bound table)
    (ht : taken = true → p.gapMet = true) :
    ((p.machine taken).run ((Link.ordered l).map (Token.resolved table))).outcome =
      (p.take table l).map fun p' => p'.machine p'.gapMet := by
  obtain ⟨s, g⟩ := l
  cases g with
  | none => exact outcome_run_gap s
  | some x => exact outcome_run_operand s (hb x rfl) ht

/-- Links take the machine on as they take the reading on. -/
theorem outcome_run_links {rest : List Link} (hb : ∀ l ∈ rest, ∀ x ∈ l.2, x.Bound table) :
    ((p.machine p.gapMet).run ((rest.flatMap Link.ordered).map (Token.resolved table))).outcome =
      (rest.foldlM (Progress.take table) p).map fun p' => p'.machine p'.gapMet := by
  induction rest generalizing p with
  | nil => rfl
  | cons l rest ih =>
    rw [List.flatMap_cons, List.map_append, Machine.run_append, Logged.outcome_bind,
      outcome_run_link (hb l List.mem_cons_self) id, List.foldlM_cons]
    cases p.take table l with
    | error f => rfl
    | ok p' => exact ih fun l' hl' => hb l' (List.mem_cons_of_mem l hl')

/-! ## Sums -/

/-- The machine has read a sum of at least one token in postfix order. -/
theorem outcome_run_ordered {S : GappedSum} (hne : S.tokens ≠ [])
    (hb : ∀ x ∈ S.operands, x.Bound table) :
    (Machine.start.run (S.ordered.map (Token.resolved table))).outcome =
      (S.read table).map fun p => p.machine p.gapMet := by
  obtain ⟨first, rest⟩ := S
  have hrest : ∀ l ∈ rest, ∀ x ∈ l.2, x.Bound table := fun l hl x hx =>
    hb x (GappedSum.mem_operands_of_rest hl hx)
  cases first with
  | some x =>
    have hx : x.Bound table := hb x (GappedSum.mem_operands_of_first rfl)
    simp only [GappedSum.ordered, Gap.tokens, Option.map_some, Option.toList_some,
      List.cons_append, List.nil_append, List.map_cons, Machine.run_cons, Logged.outcome_bind,
      outcome_step_operand hx, GappedSum.read, GappedSum.opening]
    cases x.value table with
    | error f => rfl
    | ok v => exact outcome_run_links (p := ⟨v, false⟩) hrest
  | none =>
    cases rest with
    | nil => exact absurd rfl hne
    | cons l rest =>
      have hl := outcome_run_link (p := ⟨.zero, true⟩) (hrest l List.mem_cons_self)
        (fun h : false = true => absurd h (by simp))
      show (Machine.run _ ((List.flatMap Link.ordered (l :: rest)).map _)).outcome =
        Except.map _ ((l :: rest).foldlM (Progress.take table) ⟨.zero, true⟩)
      rw [List.flatMap_cons, List.map_append, Machine.run_append, Logged.outcome_bind,
        List.foldlM_cons]
      show (Machine.run (Progress.machine ⟨.zero, true⟩ false) _).outcome >>= _ = _
      rw [hl]
      cases Progress.take table ⟨.zero, true⟩ l with
      | error f => rfl
      | ok p => exact outcome_run_links fun l' hl' => hrest l' (List.mem_cons_of_mem l hl')

/-- **The value of a sum in postfix order is that of its reading.** -/
theorem outcome_evaluate_ordered {S : GappedSum} (hne : S.tokens ≠ [])
    (hb : ∀ x ∈ S.operands, x.Bound table) :
    (Postfix.evaluate (S.ordered.map (Token.resolved table))).outcome =
      (S.read table).map (·.value) := by
  simp only [Postfix.evaluate, Logged.outcome_bind, Logged.outcome_monadLift,
    outcome_run_ordered hne hb]
  cases S.read table with
  | error f => rfl
  | ok p => exact Progress.result_machine

end SignedSum
