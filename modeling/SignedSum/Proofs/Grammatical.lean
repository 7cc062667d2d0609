/-
# The grammar of lines

`Grammatical ts` says by positions which tokens make up a line: no token is foreign, no two
operands stand side by side, and an equals sign stands nowhere but at the second place, after a
name at the first.  `targetOf ts` reads the target off the first two tokens.

The check of a shape goes through the tokens once and carries a state.  It accepts exactly the
grammatical lists and finds exactly this target (`checkShape_eq_ok_iff`).  A grammatical list is
accepted because its beginnings are grammatical too, and the state that the check has reached
holds what the grammar asks of the next token (`exists_push`).
-/
import SignedSum.Proofs.GappedSum

namespace SignedSum

/-- The tokens make up a line. -/
structure Grammatical (ts : List Token) : Prop where
  no_foreign : ∀ t ∈ ts, t.kind ≠ .foreign
  apart : ts.IsChain fun t u => ¬ (t.kind.isOperand = true ∧ u.kind.isOperand = true)
  equals_second : ∀ i t, ts[i]? = some t → t.kind = .equals →
    i = 1 ∧ ∃ name, ts[0]? = some name ∧ name.kind = .name

/-- The target of an assignment: the text of the first token, with two tokens up to the equals
sign, if the second token is one. -/
def targetOf : List Token → Option Target
  | first :: second :: _ => if second.kind = .equals then some ⟨first.text, 2⟩ else none
  | _ => none

variable {ts us : List Token} {t : Token} {target : Option Target} {seen : Seen}

/-! ## What the check establishes -/

theorem targetOf_of_opens (h : Opens ts target) : targetOf ts = target := by
  cases target with
  | none =>
    match ts with
    | [] | [_] => rfl
    | first :: second :: rest =>
      exact if_neg (h second (List.mem_cons_of_mem first List.mem_cons_self))
  | some target =>
    obtain ⟨name, sign, rest, rfl, -, hsign, rfl, -⟩ := h
    exact if_pos hsign

theorem Shaped.grammatical (h : Shaped ts target) : Grammatical ts := by
  refine ⟨h.no_foreign, h.apart, fun i t hi hequals => ?_⟩
  have hopens := h.opens
  cases target with
  | none => exact absurd hequals (hopens t (List.mem_of_getElem? hi))
  | some target =>
    obtain ⟨name, sign, rest, rfl, hname, -, -, hrest⟩ := hopens
    match i with
    | 0 =>
      cases hi
      rw [hname] at hequals
      cases hequals
    | 1 => exact ⟨rfl, name, rfl, hname⟩
    | i + 2 => exact absurd hequals (hrest t (List.mem_of_getElem? hi))

/-! ## What the check accepts -/

/-- The beginning of a grammatical list is grammatical. -/
theorem Grammatical.of_append (h : Grammatical (ts ++ us)) : Grammatical ts := by
  refine ⟨fun t ht => h.no_foreign t (List.mem_append_left us ht), ?_, fun i t hi hequals => ?_⟩
  · exact (List.isChain_append.1 h.apart).1
  · have hlength : i < ts.length := (List.getElem?_eq_some_iff.1 hi).1
    have hwhole : (ts ++ us)[i]? = some t := by rw [List.getElem?_append_left hlength, hi]
    obtain ⟨rfl, name, hname, hkind⟩ := h.equals_second i t hwhole hequals
    rw [List.getElem?_append_left (Nat.zero_lt_of_lt hlength)] at hname
    exact ⟨rfl, name, hname, hkind⟩

/-- An operand that the grammar allows does not stand behind an operand. -/
theorem Seen.Follows.endsInOperand_eq_false (hs : seen.Follows ts) (h : Grammatical (ts ++ [t]))
    (ht : t.kind.isOperand = true) : seen.endsInOperand = false := by
  rw [Seen.endsInOperand, hs.last_eq]
  cases hlast : ts.getLast? with
  | none => rfl
  | some u =>
    have hapart := (List.isChain_append.1 h.apart).2.2 u hlast t rfl
    simpa [ht] using hapart

/-- An equals sign that the grammar allows stands behind a single name. -/
theorem Seen.Follows.eq_singleton (hs : seen.Follows ts) (h : Grammatical (ts ++ [t]))
    (ht : t.kind = .equals) : ∃ name, ts = [name] ∧ name.kind = .name ∧ seen.target = none := by
  obtain ⟨hlength, name, hname, hkind⟩ :=
    h.equals_second ts.length t List.getElem?_concat_length ht
  obtain ⟨u, rfl⟩ := List.length_eq_one_iff.1 hlength
  cases hname
  refine ⟨name, rfl, hkind, ?_⟩
  rw [← targetOf_of_opens hs.shaped.opens]
  rfl

/-- A target opens after a single name. -/
theorem Seen.Follows.opening_of_name {name : Token} (hs : seen.Follows [name])
    (hname : name.kind = .name) : seen.opening = some ⟨name.text, 2⟩ := by
  simp [Seen.opening, hs.last_eq, hs.count_eq, hname]

/-- The check can take a token that the grammar allows behind those already seen. -/
theorem Seen.Follows.exists_push (hs : seen.Follows ts) (h : Grammatical (ts ++ [t])) :
    ∃ seen', seen.push t = .ok seen' := by
  unfold Seen.push
  cases hk : t.kind with
  | foreign => exact absurd hk (h.no_foreign t (List.mem_append_right ts List.mem_cons_self))
  | sign s => exact ⟨_, rfl⟩
  | numeral | name =>
    have hend := hs.endsInOperand_eq_false h (by rw [hk]; rfl)
    exact ⟨_, if_neg (by simp [hend])⟩
  | equals =>
    obtain ⟨name, rfl, hname, htarget⟩ := hs.eq_singleton h hk
    refine ⟨{ seen.next t with target := some ⟨name.text, 2⟩ }, ?_⟩
    simp only [htarget, hs.opening_of_name hname]
    rfl

theorem exists_seen (h : Grammatical ts) : ∃ seen, ts.foldlM Seen.push {} = .ok seen := by
  induction ts using List.reverseRecOn with
  | nil => exact ⟨{}, rfl⟩
  | append_singleton ts t ih =>
    obtain ⟨before, hbefore⟩ := ih h.of_append
    obtain ⟨seen, hpush⟩ := (Seen.follows_of_foldlM hbefore).exists_push h
    exact ⟨seen, foldlM_concat_eq_ok.2 ⟨before, hbefore, hpush⟩⟩

/-- **The check accepts the grammatical lists**, and finds the target that their first two tokens
show. -/
theorem checkShape_eq_ok_iff :
    checkShape ts = .ok target ↔ Grammatical ts ∧ target = targetOf ts := by
  constructor
  · intro h
    have hshaped := shaped_of_checkShape h
    exact ⟨hshaped.grammatical, (targetOf_of_opens hshaped.opens).symm⟩
  · rintro ⟨hts, rfl⟩
    obtain ⟨seen, hseen⟩ := exists_seen hts
    rw [targetOf_of_opens (Seen.follows_of_foldlM hseen).shaped.opens]
    exact bind_eq_ok.2 ⟨seen, hseen, rfl⟩

/-! ## Lines -/

/-- **The grammar of lines.**  Tokens pass the check of their shape exactly if they are
grammatical, with the target that the first two of them show.  So of every line that has a form,
no more tokens are left out than there are, and what is evaluated holds neither an equals sign nor
a foreign word nor two operands side by side. -/
theorem checkShape_grammar :
    (∀ ts target, checkShape ts = .ok target ↔ Grammatical ts ∧ target = targetOf ts) ∧
    ∀ line s, (Statement.ofLine line).outcome = .ok s →
      (∀ target ∈ s.target, target.bodyStart ≤ s.tokens.length) ∧
      (∀ t ∈ s.operands, t.kind ≠ .equals ∧ t.kind ≠ .foreign) ∧
      s.operands.IsChain fun t u => ¬ (t.kind.isOperand = true ∧ u.kind.isOperand = true) := by
  refine ⟨fun ts target => checkShape_eq_ok_iff, fun line s h => ?_⟩
  have hshaped := shaped_of_checkShape (outcome_ofLine.1 h).2
  obtain ⟨hmem, hapart⟩ := hshaped.operands
  refine ⟨fun target ht => ?_, fun t ht => ?_, hapart⟩
  · have hopens := hshaped.opens
    rw [ht] at hopens
    obtain ⟨name, sign, rest, hs, -, -, rfl, -⟩ := hopens
    rw [hs]
    exact Nat.le_add_left 2 rest.length
  · exact ⟨(hmem t ht).2, hshaped.no_foreign t (hmem t ht).1⟩

/-- In `x = - 4` the two tokens to the right of the equals sign are evaluated. -/
theorem checkShape_grammar_of_assignment :
    ∃ s, (Statement.ofLine "x = - 4").outcome = .ok s ∧ Grammatical s.tokens ∧
      targetOf s.tokens = some ⟨"x", 2⟩ ∧ s.operands = [.ofSign .minus, ⟨.numeral, "4"⟩] ∧
      ∀ t ∈ s.operands, t.kind ≠ .equals ∧ t.kind ≠ .foreign := by
  have hline : (Statement.ofLine "x = - 4").outcome = .ok
      ⟨[⟨.name, "x"⟩, .equalsSign, .ofSign .minus, ⟨.numeral, "4"⟩], some ⟨"x", 2⟩⟩ := by
    decide +kernel
  obtain ⟨hcheck, hlines⟩ := checkShape_grammar
  exact ⟨_, hline, ((hcheck _ _).1 (outcome_ofLine.1 hline).2).1, rfl, rfl,
    (hlines _ _ hline).2.1⟩

end SignedSum
