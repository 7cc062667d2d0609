/-
# Sums with gaps

The tokens that a statement evaluates read `g₀ o₁ g₁ o₂ … oₘ gₘ`: signs `o₁ … oₘ` with gaps
around them, where a gap holds one operand or nothing.  A statement may begin or end with a sign
and may hold several signs side by side, so every gap may be empty.

`GappedSum` is that form.  The main statements are that the tokens determine it
(`tokens_injective`) and that every statement of a line has it (`exists_tokens_eq_operands`).
The operands carry the proof that their text is a numeral or a name, so nothing about the line
they come from has to be remembered.
-/
import SignedSum.Statement
import SignedSum.Proofs.Canonical
import SignedSum.Proofs.WellShaped

namespace SignedSum

/-- A numeral or a name. -/
inductive Operand where
  | literal (digits : String) (isNumeral : IsNumeral digits)
  | name (letters : String) (isName : IsName letters)

namespace Operand

/-- The token of an operand. -/
def token : Operand → Token
  | literal digits _ => ⟨.numeral, digits⟩
  | name letters _ => ⟨.name, letters⟩

variable {x y : Operand} {s : Sign}

theorem isOperand_kind_token (x : Operand) : x.token.kind.isOperand = true := by
  cases x <;> rfl

theorem isSign_kind_token (x : Operand) : x.token.kind.isSign = false := by cases x <;> rfl

theorem token_ne_ofSign : x.token ≠ Token.ofSign s := by
  intro h
  have hk := congrArg (fun t => t.kind.isOperand) h
  simp only [isOperand_kind_token, Token.kind_ofSign] at hk
  exact absurd hk (by simp [Kind.isOperand])

theorem token_injective (h : x.token = y.token) : x = y := by
  cases x <;> cases y <;> simp_all [token]

end Operand

/-- A canonical token of the kind of an operand is one. -/
theorem Token.Canonical.exists_operand {t : Token} (h : t.Canonical)
    (hk : t.kind.isOperand = true) : ∃ x : Operand, x.token = t := by
  obtain ⟨kind, text⟩ := t
  cases kind with
  | numeral => exact ⟨.literal text h, rfl⟩
  | name => exact ⟨.name text h, rfl⟩
  | sign s => cases hk
  | equals => cases hk
  | foreign => cases hk

/-! ## Gaps and links -/

/-- What stands between two signs. -/
abbrev Gap : Type := Option Operand

/-- A sign and the gap after it. -/
abbrev Link : Type := Sign × Gap

/-- The tokens in a gap. -/
def Gap.tokens (g : Gap) : List Token := (g.map Operand.token).toList

/-- The tokens of a sign and the gap after it. -/
def Link.tokens (l : Link) : List Token := .ofSign l.1 :: Gap.tokens l.2

/-- The form `g₀ o₁ g₁ o₂ … oₘ gₘ`. -/
@[ext] structure GappedSum where
  /-- The gap in front of the first sign. -/
  first : Gap
  /-- The signs, each with the gap after it. -/
  rest : List Link

namespace GappedSum

/-- The tokens of a sum. -/
def tokens (S : GappedSum) : List Token := Gap.tokens S.first ++ S.rest.flatMap Link.tokens

/-- The gaps of a sum, in order. -/
def gaps (S : GappedSum) : List Gap := S.first :: S.rest.map Prod.snd

/-- The operands of a sum, in order. -/
def operands (S : GappedSum) : List Operand := S.gaps.flatMap Option.toList

/-- How many of the gaps are empty. -/
def emptyGaps (S : GappedSum) : Nat := S.gaps.countP Option.isNone

variable {S T : GappedSum}

/-! ## The tokens determine the sum -/

/-- No sum starts both with a sign and with an operand. -/
theorem flatMap_ne_token_cons {rest : List Link} {x : Operand} {ts : List Token} :
    rest.flatMap Link.tokens ≠ x.token :: ts := by
  intro h
  cases rest with
  | nil => cases h
  | cons l rest => exact Operand.token_ne_ofSign (List.cons.inj h).1.symm

theorem eq_of_gap_append_eq {g g' : Gap} {rest rest' : List Link}
    (h : Gap.tokens g ++ rest.flatMap Link.tokens = Gap.tokens g' ++ rest'.flatMap Link.tokens) :
    g = g' ∧ rest.flatMap Link.tokens = rest'.flatMap Link.tokens := by
  cases g with
  | none =>
    cases g' with
    | none => exact ⟨rfl, h⟩
    | some y => exact absurd h flatMap_ne_token_cons
  | some x =>
    cases g' with
    | none => exact absurd h.symm flatMap_ne_token_cons
    | some y =>
      obtain ⟨hxy, hrest⟩ := List.cons.inj h
      exact ⟨congrArg some (Operand.token_injective hxy), hrest⟩

theorem rest_injective {rest rest' : List Link}
    (h : rest.flatMap Link.tokens = rest'.flatMap Link.tokens) : rest = rest' := by
  induction rest generalizing rest' with
  | nil =>
    cases rest' with
    | nil => rfl
    | cons l rest' => cases h
  | cons l rest ih =>
    cases rest' with
    | nil => cases h
    | cons l' rest' =>
      rw [List.flatMap_cons, List.flatMap_cons] at h
      obtain ⟨hsign, h⟩ := List.cons.inj h
      obtain ⟨hgap, hrest⟩ := eq_of_gap_append_eq h
      have hs : l.1 = l'.1 := Kind.sign.inj (congrArg Token.kind hsign)
      rw [ih hrest, Prod.ext hs hgap]

/-- **A list of tokens is that of one sum at most.** -/
theorem tokens_injective (h : S.tokens = T.tokens) : S = T := by
  obtain ⟨hfirst, hrest⟩ := eq_of_gap_append_eq h
  exact GappedSum.ext hfirst (rest_injective hrest)

theorem tokens_eq_nil_iff : S.tokens = [] ↔ S.first = none ∧ S.rest = [] := by
  constructor
  · intro h
    have hS : S = ⟨none, []⟩ := tokens_injective (h.trans rfl)
    rw [hS]
    exact ⟨rfl, rfl⟩
  · rintro ⟨hfirst, hrest⟩
    rw [tokens, hfirst, hrest]
    rfl

/-! ## Every statement evaluates a sum -/

/-- Signs and operands make up a sum if no two operands stand side by side. -/
theorem exists_tokens_eq {ts : List Token} (hc : ∀ t ∈ ts, t.Canonical)
    (he : ∀ t ∈ ts, t.kind ≠ .equals)
    (ha : ts.IsChain fun t u => ¬ (t.kind.isOperand = true ∧ u.kind.isOperand = true)) :
    ∃ S : GappedSum, S.tokens = ts := by
  induction ts with
  | nil => exact ⟨⟨none, []⟩, rfl⟩
  | cons t ts ih =>
    obtain ⟨S, hS⟩ := ih (fun u hu => hc u (List.mem_cons_of_mem t hu))
      (fun u hu => he u (List.mem_cons_of_mem t hu)) ha.tail
    have htc : t.Canonical := hc t List.mem_cons_self
    by_cases hto : t.kind.isOperand = true
    · -- the next token is no operand, so the sum of the others starts with an empty gap
      obtain ⟨x, rfl⟩ := htc.exists_operand hto
      have hfirst : S.first = none := by
        cases hg : S.first with
        | none => rfl
        | some y =>
          rw [tokens, hg] at hS
          subst hS
          exact absurd ⟨hto, Operand.isOperand_kind_token y⟩ (List.isChain_cons_cons.1 ha).1
      refine ⟨⟨some x, S.rest⟩, ?_⟩
      rw [← hS, tokens, tokens, hfirst]
      rfl
    · -- a sign opens with an empty gap, and the gap after it is the first one of the others
      have hsign : ∃ s, t.kind = .sign s := by
        have hf := htc.kind_ne_foreign
        have heq := he t List.mem_cons_self
        cases hk : t.kind <;> simp_all [Kind.isOperand]
      obtain ⟨s, hs⟩ := hsign
      refine ⟨⟨none, (s, S.first) :: S.rest⟩, ?_⟩
      rw [htc.eq_ofSign hs, ← hS]
      rfl

end GappedSum

/-! ## Statements -/

theorem outcome_ofLine {line : String} {s : Statement} :
    (Statement.ofLine line).outcome = .ok s ↔
      tokenize line = .ok s.tokens ∧ checkShape s.tokens = .ok s.target := by
  unfold Statement.ofLine
  simp only [Logged.outcome_bind, Logged.outcome_monadLift, Logged.outcome_note,
    Logged.outcome_pure]
  constructor
  · intro h
    obtain ⟨tokens, htokens, h⟩ := bind_eq_ok.1 h
    obtain ⟨target, htarget, h⟩ := bind_eq_ok.1 h
    cases h
    exact ⟨htokens, htarget⟩
  · rintro ⟨htokens, htarget⟩
    rw [htokens]
    show (checkShape s.tokens >>= fun _ => _) = _
    rw [htarget]
    rfl

/-- A line without a form fails at its tokens or at their shape. -/
theorem outcome_ofLine_eq_error {line : String} {f : FormFault} :
    (Statement.ofLine line).outcome = .error f ↔
      tokenize line = .error f ∨ ∃ ts, tokenize line = .ok ts ∧ checkShape ts = .error f := by
  unfold Statement.ofLine
  simp only [Logged.outcome_bind, Logged.outcome_monadLift, Logged.outcome_note,
    Logged.outcome_pure]
  constructor
  · intro h
    rcases bind_eq_error.1 h with h | ⟨ts, hts, h⟩
    · exact Or.inl h
    · rcases bind_eq_error.1 h with h | ⟨target, -, h⟩
      · exact Or.inr ⟨ts, hts, h⟩
      · cases h
  · rintro (h | ⟨ts, hts, h⟩)
    · exact bind_eq_error.2 (Or.inl h)
    · exact bind_eq_error.2 (Or.inr ⟨ts, hts, bind_eq_error.2 (Or.inl h)⟩)

/-- A line that has a form is recorded with its tokens and its target. -/
theorem log_ofLine_of_ok {line : String} {s : Statement}
    (h : (Statement.ofLine line).outcome = .ok s) :
    (Statement.ofLine line).log =
      [.parsed line (Token.spaced s.tokens) (s.target.map (·.name))] := by
  obtain ⟨htokens, htarget⟩ := outcome_ofLine.1 h
  unfold Statement.ofLine
  rw [Logged.log_bind_of_ok htokens, Logged.log_bind_of_ok htarget,
    Logged.log_bind_of_ok (Logged.outcome_note _)]
  rfl

theorem outcome_evaluateLine_eq_ok {line : String} {table : Table} {a : Answer} :
    (evaluateLine line table).outcome = .ok a ↔
      ∃ s, (Statement.ofLine line).outcome = .ok s ∧ (s.evaluate table).outcome = .ok a := by
  constructor
  · intro h
    cases hs : (Statement.ofLine line).outcome with
    | error f =>
      rw [evaluateLine_of_error hs] at h
      cases h
    | ok s =>
      rw [evaluateLine_of_ok hs] at h
      exact ⟨s, rfl, mapError_eq_ok.1 h⟩
  · rintro ⟨s, hs, ha⟩
    rw [evaluateLine_of_ok hs]
    exact mapError_eq_ok.2 ha

/-- What a statement evaluates holds no equals sign and no two operands side by side. -/
theorem Shaped.operands {s : Statement} (h : Shaped s.tokens s.target) :
    (∀ t ∈ s.operands, t ∈ s.tokens ∧ t.kind ≠ .equals) ∧
      s.operands.IsChain fun t u => ¬ (t.kind.isOperand = true ∧ u.kind.isOperand = true) := by
  have hopens := h.opens
  have hapart := h.apart
  unfold Statement.operands
  cases ht : s.target with
  | none =>
    rw [ht] at hopens
    exact ⟨fun t hmem => ⟨hmem, hopens t hmem⟩, hapart⟩
  | some target =>
    rw [ht] at hopens
    obtain ⟨name, sign, rest, hs, -, -, rfl, hrest⟩ := hopens
    rw [hs] at hapart ⊢
    refine ⟨fun t hmem => ⟨?_, hrest t hmem⟩, hapart.tail.tail⟩
    exact List.mem_cons_of_mem name (List.mem_cons_of_mem sign hmem)

/-- **The tokens that a statement of a line evaluates are those of a sum.** -/
theorem exists_tokens_eq_operands {line : String} {s : Statement}
    (h : (Statement.ofLine line).outcome = .ok s) : ∃ S : GappedSum, S.tokens = s.operands := by
  obtain ⟨htokens, htarget⟩ := outcome_ofLine.1 h
  obtain ⟨hmem, hapart⟩ := (shaped_of_checkShape htarget).operands
  exact GappedSum.exists_tokens_eq (fun t ht => canonical_of_tokenize htokens t (hmem t ht).1)
    (fun t ht => (hmem t ht).2) hapart

end SignedSum
