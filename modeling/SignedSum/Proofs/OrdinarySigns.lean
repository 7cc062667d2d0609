/-
# Signs that stand apart

Signs that stand side by side are one sign, the product of them all, when they are written
together.  When spaces part them they stay several tokens, and the reading from left to right does
not multiply them: a sign with nothing after it is applied to the sum so far, and the next one goes
on from there.

    3 -- 2     is    3 + 2
    3 - - 2    is    (0 - 3) - 2

For `+` this makes no difference.  For `-` it takes the sum so far away instead of the next operand
with its sign, so that the result falls short of the ordinary sum by twice the difference of the
two (`GappedSum.total_eq`).

`value_eq_ordinarySum_iff` says when a line nevertheless has its ordinary sum as its value, when
spaces inside a block of signs do not matter to it, and when the seed is left to a leading sign.
-/
import SignedSum.Proofs.OrdinarySum
import SignedSum.Proofs.SeedTaken

namespace SignedSum

theorem Sign.apply_eq_add (s : Sign) (a b : Int) : s.apply a b = a + s.apply 0 b := by
  cases s
  · show a + b = a + (0 + b)
    omega
  · show a - b = a + (0 - b)
    omega

theorem Sign.apply_minus_mul (s : Sign) (b : Int) : (minus * s).apply 0 b = - s.apply 0 b := by
  cases s
  · show 0 - b = -(0 + b)
    omega
  · show 0 + b = -(0 - b)
    omega

/-- By how much a sign and the gap after it fall short of the ordinary sum, where `a` is the sum in
front of the sign and `next` is what the next sign makes of its operand. -/
def Link.shortfall (a next : Int) : Link → Int
  | (.minus, none) => 2 * (a - next)
  | _ => 0

namespace GappedSum

/-- What the next sign makes of its operand; zero if there is none. -/
def nextTerm (table : Table) (rest : List Link) : Int :=
  (rest.head?.map (Link.apply table 0)).getD 0

/-- By how much some links fall short of the ordinary sum, where `a` is the sum in front of them. -/
def shortfallFrom (table : Table) (a : Int) : List Link → Int
  | [] => 0
  | l :: rest =>
    l.shortfall a (nextTerm table rest) + shortfallFrom table (l.apply table a) rest

/-- By how much the total of a sum falls short of the ordinary sum. -/
def shortfall (table : Table) (S : GappedSum) : Int := shortfallFrom table (S.start table) S.rest

/-- At a `-` with nothing after it, the sum in front of it is just what the next sign makes of its
operand, so that it does not matter which of the two is taken away. -/
def Steady (table : Table) (S : GappedSum) : Prop :=
  ∀ before after, S.rest = before ++ (.minus, none) :: after →
    total table ⟨S.first, before⟩ = nextTerm table after

variable {table : Table} {rest before after : List Link} {l : Link} {S : GappedSum} {a : Int}

/-! ## The shortfall of a sum -/

theorem shortfall_of_operand {next : Int} (h : l.2 ≠ none) : l.shortfall a next = 0 := by
  obtain ⟨s, g⟩ := l
  cases g with
  | none => exact absurd rfl h
  | some x => cases s <;> rfl

theorem shortfallFrom_eq_zero (h : ∀ l ∈ rest, l ≠ (.minus, none)) :
    shortfallFrom table a rest = 0 := by
  induction rest generalizing a with
  | nil => rfl
  | cons l rest ih =>
    rw [shortfallFrom, ih fun l' hl' => h l' (List.mem_cons_of_mem l hl')]
    obtain ⟨s, g⟩ := l
    cases g with
    | some x => rw [shortfall_of_operand (by simp), Int.add_zero]
    | none =>
      cases s with
      | plus => rfl
      | minus => exact absurd rfl (h _ List.mem_cons_self)

/-- Links with operands do not add to the shortfall. -/
theorem shortfallFrom_append (h : ∀ l ∈ before, l.2 ≠ none) :
    shortfallFrom table a (before ++ after) =
      shortfallFrom table (before.foldl (Link.apply table) a) after := by
  induction before generalizing a with
  | nil => rfl
  | cons l before ih =>
    rw [List.cons_append, shortfallFrom, shortfall_of_operand (h l List.mem_cons_self),
      Int.zero_add, ih fun l' hl' => h l' (List.mem_cons_of_mem l hl'), List.foldl_cons]

/-- A `-` in front of links with operands only changes the sign of the next term. -/
theorem signedSum_minus (h : ∀ l ∈ rest, l.2 ≠ none) :
    signedSum table .minus (rest.flatMap Link.tokens) =
      signedSum table .plus (rest.flatMap Link.tokens) - 2 * nextTerm table rest := by
  cases rest with
  | nil => rfl
  | cons l rest =>
    obtain ⟨o, g⟩ := l
    obtain ⟨x, rfl⟩ := Option.ne_none_iff_exists'.1 (h _ List.mem_cons_self)
    have hnext : nextTerm table ((o, some x) :: rest) = o.apply 0 (x.toInt table) := rfl
    simp only [List.flatMap_cons, Link.tokens, Gap.tokens, Option.map_some, Option.toList_some,
      List.cons_append, List.nil_append, signedSum_ofSign, signedSum_operand, Sign.plus_mul,
      Sign.apply_minus_mul, hnext]
    omega

/-- Links fall short of their ordinary sum by their shortfall, if at most one gap is empty. -/
theorem foldl_apply_eq (table : Table) (h : (rest.map Prod.snd).countP Option.isNone ≤ 1)
    (a : Int) :
    rest.foldl (Link.apply table) a =
      a + signedSum table .plus (rest.flatMap Link.tokens) - shortfallFrom table a rest := by
  induction rest generalizing a with
  | nil =>
    show a = a + 0 - 0
    omega
  | cons l rest ih =>
    obtain ⟨o, g⟩ := l
    rw [List.map_cons, List.countP_cons] at h
    rw [List.foldl_cons, ih (by omega), List.flatMap_cons, Link.tokens, List.cons_append,
      signedSum_ofSign, Sign.plus_mul, shortfallFrom]
    cases g with
    | some x =>
      have happly := Sign.apply_eq_add o a (x.toInt table)
      rw [shortfall_of_operand (by simp)]
      simp only [Gap.tokens, Option.map_some, Option.toList_some, List.cons_append,
        List.nil_append, signedSum_operand, Link.apply]
      omega
    | none =>
      -- this is the empty gap, and all the links that follow have operands
      have hrest : ∀ l ∈ rest, l.2 ≠ none := by
        rw [Option.isNone_none, if_pos rfl] at h
        exact forall_ne_none_of_countP (by omega)
      have hzero : shortfallFrom table (Link.apply table a (o, none)) rest = 0 :=
        shortfallFrom_eq_zero fun l hl he => hrest l hl (by rw [he])
      rw [hzero]
      cases o with
      | plus =>
        show (0 + a) + _ - 0 = a + signedSum table .plus ([] ++ _) - (0 + 0)
        rw [List.nil_append]
        omega
      | minus =>
        show (0 - a) + _ - 0 = a + signedSum table .minus ([] ++ _) - (2 * (a - _) + 0)
        rw [List.nil_append, signedSum_minus hrest]
        omega

/-- **The total of a sum is its ordinary sum less its shortfall.** -/
theorem total_eq (h : S.emptyGaps ≤ 1) :
    S.total table = signedSum table .plus S.tokens - S.shortfall table := by
  obtain ⟨first, rest⟩ := S
  have hrest : (rest.map Prod.snd).countP Option.isNone ≤ 1 := by
    have hall : (first :: rest.map Prod.snd).countP Option.isNone ≤ 1 := h
    rw [List.countP_cons] at hall
    omega
  have hfold := foldl_apply_eq table hrest (start table ⟨first, rest⟩)
  have htokens : signedSum table .plus (tokens ⟨first, rest⟩) =
      start table ⟨first, rest⟩ + signedSum table .plus (rest.flatMap Link.tokens) := by
    cases first with
    | none => exact (Int.zero_add _).symm
    | some x =>
      show signedSum table .plus (x.token :: rest.flatMap Link.tokens) = x.toInt table + _
      rw [signedSum_operand]
      show (0 + x.toInt table) + _ = _
      omega
  rw [total, shortfall, hfold, htokens]

/-- The shortfall is that of the one `-` with nothing after it. -/
theorem shortfall_of_split (h : S.emptyGaps ≤ 1)
    (hrest : S.rest = before ++ (.minus, none) :: after) :
    S.shortfall table = 2 * (total table ⟨S.first, before⟩ - nextTerm table after) := by
  obtain ⟨first, rest⟩ := S
  subst hrest
  simp only [emptyGaps, gaps, List.map_append, List.map_cons, List.countP_cons,
    List.countP_append, Option.isNone_none, if_true] at h
  have hbefore : ∀ l ∈ before, l.2 ≠ none := forall_ne_none_of_countP (by omega)
  have hafter : ∀ l ∈ after, l.2 ≠ none := forall_ne_none_of_countP (by omega)
  rw [shortfall, shortfallFrom_append hbefore, shortfallFrom,
    shortfallFrom_eq_zero fun l hl he => hafter l hl (by rw [he]), Int.add_zero]
  rfl

theorem shortfall_eq_zero_iff (h : S.emptyGaps ≤ 1) (table : Table) :
    S.shortfall table = 0 ↔ S.Steady table := by
  constructor
  · intro hzero before after hrest
    rw [shortfall_of_split h hrest] at hzero
    omega
  · intro hsteady
    by_cases hmem : (.minus, none) ∈ S.rest
    · obtain ⟨before, after, hrest⟩ := List.append_of_mem hmem
      rw [shortfall_of_split h hrest, hsteady before after hrest, Int.sub_self, Int.mul_zero]
    · exact shortfallFrom_eq_zero fun l hl he => hmem (he ▸ hl)

end GappedSum

/-! ## Lines -/

/-- The value of a line is its ordinary sum less the shortfall of the sum that it holds. -/
theorem value_eq_ordinarySum_sub {line : String} {table : Table} {a : Answer}
    (h : (evaluateLine line table).outcome = .ok a) :
    ∃ (s : Statement) (S : GappedSum),
      (Statement.ofLine line).outcome = .ok s ∧ S.tokens = s.operands ∧ s.operands ≠ [] ∧
      (∀ x ∈ S.operands, x.Bound table) ∧ S.Sound table ∧
      a.value.toInt = ordinarySum table line - S.shortfall table := by
  obtain ⟨s, hs, ha⟩ := outcome_evaluateLine_eq_ok.1 h
  obtain ⟨S, hS⟩ := exists_tokens_eq_operands hs
  obtain ⟨hne, hb, hsound, hvalue, -⟩ := (outcome_evaluate_eq_ok hS).1 ha
  refine ⟨s, S, hs, hS, hne, hb, hsound, ?_⟩
  rw [hvalue, GappedSum.total_eq hsound.emptyGaps_le, ordinarySum_eq_signedSum hs, hS]

/-- **When signs count as in ordinary notation.**

The value of a line is its ordinary sum less the shortfall of the sum that it holds, and so it is
the ordinary sum exactly if that sum is steady.  If spaces come or go inside
a block of signs and both lines have a value, the values are the same exactly if the two sums fall
short by the same, and so whenever both sums are steady.  The seed is left to a leading sign exactly
if every gap after the first one holds an operand. -/
theorem value_eq_ordinarySum_iff {line : String} {table : Table} {a : Answer}
    (h : (evaluateLine line table).outcome = .ok a) :
    ∃ (s : Statement) (S : GappedSum),
      (Statement.ofLine line).outcome = .ok s ∧ S.tokens = s.operands ∧
      a.value.toInt = ordinarySum table line - S.shortfall table ∧
      (a.value.toInt = ordinarySum table line ↔ S.Steady table) ∧
      (∀ line' a', Respaced line line' → (evaluateLine line' table).outcome = .ok a' →
        ∃ (s' : Statement) (S' : GappedSum),
          (Statement.ofLine line').outcome = .ok s' ∧ S'.tokens = s'.operands ∧
          (a'.value = a.value ↔ S'.shortfall table = S.shortfall table) ∧
          (S.Steady table → S'.Steady table → a'.value = a.value)) ∧
      (s.SeedOnlyLeads table ↔ ∀ l ∈ S.rest, l.2 ≠ none) := by
  obtain ⟨s, S, hs, hS, hne, hb, hsound, hvalue⟩ := value_eq_ordinarySum_sub h
  have hsteady := GappedSum.shortfall_eq_zero_iff hsound.emptyGaps_le table
  refine ⟨s, S, hs, hS, hvalue, ?_, fun line' a' hspaces h' => ?_,
    seedOnlyLeads_iff hS hne hb hsound⟩
  · rw [hvalue, ← hsteady]
    omega
  · obtain ⟨s', S', hs', hS', -, -, hsound', hvalue'⟩ := value_eq_ordinarySum_sub h'
    have hsteady' := GappedSum.shortfall_eq_zero_iff hsound'.emptyGaps_le table
    have hiff : a'.value = a.value ↔ S'.shortfall table = S.shortfall table := by
      rw [Value.ext_iff, hvalue, hvalue', ordinarySum_of_respaced hspaces]
      omega
    refine ⟨s', S', hs', hS', hiff, fun hS hS' => hiff.2 ?_⟩
    rw [hsteady.2 hS, hsteady'.2 hS']

/-- In `2 - + 2` the first sign has nothing after it, but the sum in front of it and the next term
are equal. -/
theorem value_eq_ordinarySum_of_equal_terms :
    ∃ a, (evaluateLine "2 - + 2" ∅).outcome = .ok a ∧
      a.value.toInt = ordinarySum ∅ "2 - + 2" := by
  have hvalue : (evaluateLine "2 - + 2" ∅).outcome = .ok ⟨.zero, none⟩ := by decide +kernel
  have hform : (Statement.ofLine "2 - + 2").outcome = .ok ⟨[⟨.numeral, "2"⟩, .ofSign .minus,
      .ofSign .plus, ⟨.numeral, "2"⟩], none⟩ := by decide +kernel
  obtain ⟨s, S, hs, hS, -, hiff, -⟩ := value_eq_ordinarySum_iff hvalue
  obtain rfl := Except.ok.inj (hform.symm.trans hs)
  obtain rfl : S = ⟨some (.literal "2" (by decide)),
      [(.minus, none), (.plus, some (.literal "2" (by decide)))]⟩ :=
    GappedSum.tokens_injective (hS.trans rfl)
  refine ⟨_, hvalue, hiff.2 fun before after hrest => ?_⟩
  cases before with
  | nil =>
    cases hrest
    decide
  | cons l before => simp [List.cons_eq_append_iff] at hrest

/-- In `3 - - 2` they are not, and the value is not that of `3 -- 2`. -/
theorem value_ne_ordinarySum_of_minus_minus :
    (evaluateLine "3 - - 2" ∅).outcome = .ok ⟨⟨-5, by decide, by decide⟩, none⟩ ∧
      ordinarySum ∅ "3 - - 2" = 5 ∧ RespacedAt "3 - - 2" "3 -- 2" ∧
      (evaluateLine "3 -- 2" ∅).outcome = .ok ⟨⟨5, by decide, by decide⟩, none⟩ := by
  refine ⟨by decide +kernel, by decide +kernel, ?_, by decide +kernel⟩
  refine ⟨['3', ' ', '-'], [' '], [], ['-', ' ', '2'], by decide, by decide, by simp, by simp, ?_⟩
  exact ⟨⟨'-', rfl, rfl⟩, '-', rfl, rfl⟩

end SignedSum
