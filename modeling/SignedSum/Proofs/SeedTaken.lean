/-
# Which sign takes the seed

The seed is there for a sign at the very start of a sum, which has nothing to its left.  But the
machine only looks at its stack: a sign with nothing after it finds the sum so far on top of the
seed, just as a sign at the start finds its operand there, and takes the seed as well.

`seedOnlyLeads_iff` says when the seed goes to no other sign than a leading one: if every gap after
the first holds an operand.
-/
import SignedSum.Proofs.LineValue

namespace SignedSum

/-- The token is a sign that has the seed to its left when the machine reads it. -/
def Machine.TakesSeed (m : Machine) (t : Token) : Prop :=
  t.kind.isSign = true ∧ m.seedTaken = false ∧ ∃ right, m.stack = [right, seed]

/-- When the statement is evaluated, the only sign that may take the seed is the first one, and
only if the sum starts with it. -/
def Statement.SeedOnlyLeads (s : Statement) (table : Table) : Prop :=
  ∀ ordered before t after m, (table.substitute s.operands >>= Postfix.ofTokens) = .ok ordered →
    ordered = before ++ t :: after → (Machine.start.run before).outcome = .ok m → m.TakesSeed t →
    (∀ u ∈ before, u.kind.isSign = false) ∧ ∃ first ∈ s.operands.head?, first.kind.isSign = true

variable {table : Table} {s : Statement} {S : GappedSum} {t : Token}

/-! ## Where the signs stand in postfix order -/

/-- A sign does not stand in a gap. -/
theorem exists_eq_of_gap {g : Gap} {ts before after : List Token}
    (h : Gap.tokens g ++ ts = before ++ t :: after) (ht : t.kind.isSign = true) :
    ∃ before', before = Gap.tokens g ++ before' ∧ ts = before' ++ t :: after := by
  rcases List.append_eq_append_iff.1 h with hbefore | ⟨inside, hgap, hafter⟩
  · exact hbefore
  · cases inside with
    | nil => exact ⟨[], by rw [hgap, List.append_nil, List.append_nil], hafter.symm⟩
    | cons u inside =>
      exfalso
      obtain ⟨rfl, -⟩ := List.cons.inj hafter
      have hmem : t ∈ Gap.tokens g := by simp [hgap]
      obtain ⟨x, -, rfl⟩ := Option.map_eq_some_iff.1 (Option.mem_toList.1 hmem)
      rw [x.isSign_kind_token] at ht
      cases ht

/-- In front of a sign that goes out stand the links before its own and the gap after it. -/
theorem exists_split_of_links {rest : List Link} {before after : List Token}
    (h : rest.flatMap Link.ordered = before ++ t :: after) (ht : t.kind.isSign = true) :
    ∃ b l a, rest = b ++ l :: a ∧ before = b.flatMap Link.ordered ++ Gap.tokens l.2 := by
  induction rest generalizing before with
  | nil => simp at h
  | cons l rest ih =>
    rw [List.flatMap_cons, Link.ordered, List.append_assoc] at h
    obtain ⟨inside, rfl, hinside⟩ := exists_eq_of_gap h ht
    cases inside with
    | nil => exact ⟨[], l, rest, rfl, by simp⟩
    | cons u inside =>
      -- the sign of this link goes out first
      obtain ⟨rfl, hrest⟩ := List.cons.inj hinside
      obtain ⟨b, l', a, rfl, rfl⟩ := ih hrest
      exact ⟨l :: b, l', a, rfl, by simp [Link.ordered]⟩

theorem exists_split_of_ordered {before after : List Token}
    (h : S.ordered = before ++ t :: after) (ht : t.kind.isSign = true) :
    ∃ b l a, S.rest = b ++ l :: a ∧ before = GappedSum.ordered ⟨S.first, b⟩ ++ Gap.tokens l.2 := by
  obtain ⟨inside, rfl, hinside⟩ := exists_eq_of_gap h ht
  obtain ⟨b, l, a, hrest, rfl⟩ := exists_split_of_links hinside ht
  exact ⟨b, l, a, hrest, (List.append_assoc _ _ _).symm⟩

theorem ordered_split (first : Gap) (b a : List Link) (l : Link) :
    GappedSum.ordered ⟨first, b ++ l :: a⟩ =
      GappedSum.ordered ⟨first, b⟩ ++ Gap.tokens l.2 ++ .ofSign l.1 :: a.flatMap Link.ordered := by
  simp [GappedSum.ordered, Link.ordered]

/-! ## The seed -/

/-- After the beginning of a sum, the seed lies alone under what comes next only if this beginning
is empty. -/
theorem tokens_eq_nil_of_stack {m : Machine} (hb : ∀ x ∈ S.operands, x.Bound table)
    (hm : (Machine.start.run (S.ordered.map (Token.resolved table))).outcome = .ok m)
    (htaken : m.seedTaken = false) (hstack : m.stack = [Machine.seed]) : S.tokens = [] := by
  by_contra hne
  rw [outcome_run_ordered hne hb] at hm
  obtain ⟨p, -, rfl⟩ := map_eq_ok.1 hm
  obtain ⟨v, g⟩ := p
  have hg : g = false := htaken
  subst hg
  cases hstack

theorem substituted_ordered (hne : S.tokens ≠ []) (hb : ∀ x ∈ S.operands, x.Bound table) :
    (table.substitute S.tokens >>= Postfix.ofTokens) =
      .ok (S.ordered.map (Token.resolved table)) := by
  rw [Table.substitute_eq, find?_isUnbound_eq_none.2 hb]
  exact Postfix.ofTokens_resolved hne table

/-- A sign with nothing after it takes the seed. -/
theorem exists_takesSeed {first : Gap} {before : List Link} {l : Link} (hgap : l.2 = none)
    (hb : ∀ x ∈ GappedSum.operands ⟨first, before⟩, x.Bound table)
    (hsound : GappedSum.Sound table ⟨first, before ++ [l]⟩) :
    ∃ x m, first = some x ∧ m.TakesSeed (.ofSign l.1) ∧
      (Machine.start.run ((GappedSum.ordered ⟨first, before⟩).map
        (Token.resolved table))).outcome = .ok m := by
  obtain ⟨hbefore, hzero, -⟩ := GappedSum.sound_concat.1 hsound
  have hzero := hzero hgap
  cases first with
  | none => simp [GappedSum.emptyGaps, GappedSum.gaps] at hzero
  | some x =>
    -- no gap has been empty, so the seed still lies under the sum so far
    obtain ⟨v, hread⟩ := GappedSum.read_of_sound hb hbefore
    rw [decide_eq_false (not_not.2 hzero)] at hread
    refine ⟨x, Progress.machine ⟨v, false⟩ false, rfl, ⟨rfl, rfl, v, rfl⟩, ?_⟩
    rw [outcome_run_ordered (by simp [GappedSum.tokens, Gap.tokens]) hb, hread]
    rfl

/-- A sign with an operand after it takes the seed only at the start. -/
theorem eq_nil_of_takesSeed {first : Gap} {before : List Link} {x : Operand} {m : Machine}
    (hb : ∀ y ∈ GappedSum.operands ⟨first, before⟩, y.Bound table) (hx : x.Bound table)
    (hrun : (Machine.start.run ((GappedSum.ordered ⟨first, before⟩ ++ [x.token]).map
      (Token.resolved table))).outcome = .ok m) (hseed : m.TakesSeed t) :
    first = none ∧ before = [] := by
  rw [List.map_append, Machine.run_append, Logged.outcome_bind] at hrun
  obtain ⟨m', hm', hpush⟩ := bind_eq_ok.1 hrun
  simp only [List.map_singleton, Machine.run_cons, Machine.run_nil, bind_pure,
    outcome_step_operand hx] at hpush
  obtain ⟨v, -, rfl⟩ := map_eq_ok.1 hpush
  obtain ⟨-, htaken, right, hstack⟩ := hseed
  have hm'stack : m'.stack = [Machine.seed] := (List.cons.inj hstack).2
  exact GappedSum.tokens_eq_nil_iff.1 (tokens_eq_nil_of_stack hb hm' htaken hm'stack)

/-- If the seed goes to a leading sign only, then no gap after the first one is empty: the sign in
front of such a gap would take the seed, and it is not a leading one. -/
theorem ne_none_of_seedOnlyLeads (hS : S.tokens = s.operands) (hne : s.operands ≠ [])
    (hb : ∀ x ∈ S.operands, x.Bound table) (hsound : S.Sound table)
    (hseed : s.SeedOnlyLeads table) {l : Link} (hl : l ∈ S.rest) : l.2 ≠ none := by
  intro hgap
  obtain ⟨first, rest⟩ := S
  unfold Statement.SeedOnlyLeads at hseed
  rw [← hS] at hne hseed
  rw [substituted_ordered hne hb] at hseed
  obtain ⟨before, after, rfl⟩ := List.append_of_mem hl
  have hthrough : GappedSum.Sound table ⟨first, (before ++ [l]) ++ after⟩ := by
    rwa [List.append_assoc]
  obtain ⟨x, m, rfl, htakes, hrun⟩ := exists_takesSeed hgap
    (GappedSum.bound_of_split hb rfl).1 hthrough.of_append
  have hordered := congrArg (List.map (Token.resolved table))
    (ordered_split (some x) before after l)
  rw [hgap, show Gap.tokens none = [] from rfl, List.append_nil, List.map_append,
    List.map_cons, resolved_ofSign] at hordered
  obtain ⟨-, u, hu, hsign⟩ := hseed _ _ _ _ m rfl hordered hrun htakes
  obtain rfl : x.token = u := Option.some.inj hu
  rw [x.isSign_kind_token] at hsign
  cases hsign

/-- If no gap after the first one is empty, the sign that takes the seed has an operand after it
and nothing before it. -/
theorem seedOnlyLeads_of_filled (hS : S.tokens = s.operands) (hne : s.operands ≠ [])
    (hb : ∀ x ∈ S.operands, x.Bound table) (hfilled : ∀ l ∈ S.rest, l.2 ≠ none) :
    s.SeedOnlyLeads table := by
  obtain ⟨first, rest⟩ := S
  intro ordered before t after m hordered hsplit hrun htakes
  rw [← hS] at hne hordered ⊢
  rw [substituted_ordered hne hb] at hordered
  obtain rfl := Except.ok.inj hordered
  obtain ⟨before, later, hlater, rfl, hmap⟩ := List.map_eq_append_iff.1 hsplit
  obtain ⟨t, after, rfl, rfl, -⟩ := List.map_eq_cons_iff.1 hmap
  have hsign : t.kind.isSign = true := Token.isSign_kind_resolved.symm.trans htakes.1
  obtain ⟨b, l, a, rfl, rfl⟩ := exists_split_of_ordered hlater hsign
  obtain ⟨x, hx⟩ := Option.ne_none_iff_exists'.1 (hfilled l (by simp))
  have hgap : Gap.tokens l.2 = [x.token] := by rw [hx]; rfl
  rw [hgap] at hrun ⊢
  obtain ⟨hbs, hbl⟩ := GappedSum.bound_of_split hb rfl
  obtain ⟨rfl, rfl⟩ := eq_nil_of_takesSeed hbs (hbl x hx) hrun htakes
  refine ⟨fun u hu => ?_, .ofSign l.1, rfl, rfl⟩
  obtain rfl : u = x.token.resolved table := List.mem_singleton.1 hu
  rw [Token.isSign_kind_resolved, x.isSign_kind_token]

/-- **The seed goes to a leading sign only, exactly if every gap after the first one holds an
operand.** -/
theorem seedOnlyLeads_iff (hS : S.tokens = s.operands) (hne : s.operands ≠ [])
    (hb : ∀ x ∈ S.operands, x.Bound table) (hsound : S.Sound table) :
    s.SeedOnlyLeads table ↔ ∀ l ∈ S.rest, l.2 ≠ none :=
  ⟨fun hseed _ hl => ne_none_of_seedOnlyLeads hS hne hb hsound hseed hl,
    seedOnlyLeads_of_filled hS hne hb⟩

end SignedSum
