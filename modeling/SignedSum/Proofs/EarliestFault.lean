/-
# The earliest fault of a shape

`Violates ts t f` says what is wrong with a token `t` that stands behind the tokens `ts`, when
these make up a line: it is foreign, it is an equals sign behind another one or behind anything
but a single name, or it is an operand behind an operand.

The check of a shape stops at the first token of which this is so.  What it remembers of a
grammatical beginning is enough to tell (`Seen.Follows.push_eq_error_iff`), so a list is rejected
exactly if it has a grammatical beginning and a token behind it that is wrong there, and what
follows the token does not matter (`checkShape_eq_error_iff`).
-/
import SignedSum.Proofs.Grammatical

namespace SignedSum

variable {ts before after : List Token} {t : Token} {f : FormFault} {seen : Seen}

/-- The text of the last token, or nothing. -/
def lastWord (ts : List Token) : String := (ts.getLast?.map (·.text)).getD ""

/-- The token is wrong behind the others, which make up a line. -/
inductive Violates (ts : List Token) (t : Token) : FormFault → Prop
  | foreignToken : t.kind = .foreign → Violates ts t (.foreignToken t.text)
  | secondEquals : t.kind = .equals → (∃ u ∈ ts, u.kind = .equals) → Violates ts t .secondEquals
  /-- An equals sign that is the first one, but does not stand behind a single name. -/
  | misplacedEquals : t.kind = .equals → (∀ u ∈ ts, u.kind ≠ .equals) →
      (∀ name, ts = [name] → name.kind ≠ .name) →
      Violates ts t (.misplacedEquals (lastWord ts ++ t.text))
  | missingSign {u : Token} : t.kind.isOperand = true → ts.getLast? = some u →
      u.kind.isOperand = true → Violates ts t (.missingSign (u.text ++ t.text))

/-! ## What the state tells of the tokens seen -/

namespace Seen.Follows

theorem lastText_eq (hs : seen.Follows ts) : seen.lastText = lastWord ts := by
  rw [Seen.lastText, hs.last_eq, lastWord]

theorem isSome_target (hs : seen.Follows ts) :
    seen.target.isSome = true ↔ ∃ u ∈ ts, u.kind = .equals := by
  have hopens := hs.shaped.opens
  cases htarget : seen.target with
  | none =>
    rw [htarget] at hopens
    constructor
    · intro h
      cases h
    · rintro ⟨u, hu, hequals⟩
      exact absurd hequals (hopens u hu)
  | some target =>
    rw [htarget] at hopens
    obtain ⟨name, sign, rest, rfl, -, hsign, -, -⟩ := hopens
    exact ⟨fun _ => ⟨sign, by simp, hsign⟩, fun _ => rfl⟩

theorem endsInOperand_iff (hs : seen.Follows ts) :
    seen.endsInOperand = true ↔ ∃ u, ts.getLast? = some u ∧ u.kind.isOperand = true := by
  rw [Seen.endsInOperand, hs.last_eq, Option.any_eq_true]

theorem opening_eq_none (hs : seen.Follows ts) :
    seen.opening = none ↔ ∀ name, ts = [name] → name.kind ≠ .name := by
  constructor
  · rintro hnone name rfl hname
    rw [hs.opening_of_name hname] at hnone
    cases hnone
  · intro h
    rw [Option.eq_none_iff_forall_ne_some]
    intro target hopen
    obtain ⟨name, hts, hname, -⟩ := eq_singleton_of_opening hs hopen
    exact h name hts hname

theorem lastText_eq_of_getLast? {u : Token} (hs : seen.Follows ts) (hu : ts.getLast? = some u) :
    seen.lastText = u.text := by
  rw [hs.lastText_eq, lastWord, hu]
  rfl

/-- A token that the check rejects is wrong behind the tokens seen. -/
theorem violates_of_push (hs : seen.Follows ts) (h : seen.push t = .error f) :
    Violates ts t f := by
  unfold Seen.push at h
  cases hk : t.kind <;> simp only [hk] at h
  case foreign =>
    cases h
    exact .foreignToken hk
  case sign => cases h
  case numeral | name =>
    split at h
    · next hend =>
      cases h
      obtain ⟨u, hu, huo⟩ := hs.endsInOperand_iff.1 hend
      rw [hs.lastText_eq_of_getLast? hu]
      exact .missingSign (by rw [hk]; rfl) hu huo
    · cases h
  case equals =>
    split at h
    · next hsome =>
      cases h
      exact .secondEquals hk (hs.isSome_target.1 hsome)
    · next hnone =>
      split at h
      · cases h
      · next hopen =>
        cases h
        rw [hs.lastText_eq]
        rw [hs.isSome_target] at hnone
        exact .misplacedEquals hk (by simpa using hnone) (hs.opening_eq_none.1 hopen)

/-- A token that is wrong behind the tokens seen is rejected, with the fault that says how. -/
theorem push_of_violates (hs : seen.Follows ts) (h : Violates ts t f) :
    seen.push t = .error f := by
  unfold Seen.push
  cases h with
  | foreignToken hk => simp only [hk]
  | secondEquals hk hequals =>
    simp only [hk]
    exact if_pos (hs.isSome_target.2 hequals)
  | misplacedEquals hk hequals hname =>
    have hnone : ¬ seen.target.isSome = true := by
      rw [hs.isSome_target]
      simpa using hequals
    simp only [hk, if_neg hnone, hs.opening_eq_none.2 hname, hs.lastText_eq]
  | @missingSign u ht hu huo =>
    have hend : seen.endsInOperand = true := hs.endsInOperand_iff.2 ⟨u, hu, huo⟩
    cases hk : t.kind <;> rw [hk] at ht
    case numeral | name => simp only [if_pos hend, hs.lastText_eq_of_getLast? hu]
    all_goals cases ht

/-- **What the check finds wrong with a token** is what is wrong with it behind the tokens seen. -/
theorem push_eq_error_iff (hs : seen.Follows ts) : seen.push t = .error f ↔ Violates ts t f :=
  ⟨hs.violates_of_push, hs.push_of_violates⟩

end Seen.Follows

/-! ## The whole list -/

theorem exists_checkShape_iff : (∃ target, checkShape ts = .ok target) ↔ Grammatical ts := by
  simp [checkShape_eq_ok_iff]

theorem checkShape_eq_error_iff_foldlM :
    checkShape ts = .error f ↔ ts.foldlM Seen.push {} = .error f := by
  rw [checkShape, bind_eq_error]
  simp [pure, Except.pure]

/-- **A list is rejected for its first wrong token**, and what follows that token does not
matter. -/
theorem checkShape_eq_error_iff :
    checkShape ts = .error f ↔
      ∃ before t after, ts = before ++ t :: after ∧ Grammatical before ∧ Violates before t f := by
  rw [checkShape_eq_error_iff_foldlM, foldlM_eq_error]
  constructor
  · rintro ⟨before, t, after, seen, hts, hbefore, hpush⟩
    have hseen := Seen.follows_of_foldlM hbefore
    exact ⟨before, t, after, hts, hseen.shaped.grammatical, hseen.push_eq_error_iff.1 hpush⟩
  · rintro ⟨before, t, after, hts, hbefore, hviolates⟩
    obtain ⟨seen, hseen⟩ := exists_seen hbefore
    have hpush := (Seen.follows_of_foldlM hseen).push_eq_error_iff.2 hviolates
    exact ⟨before, t, after, seen, hts, hseen, hpush⟩

/-- Behind tokens that make up a line, the check of one more token tells what is wrong with it. -/
theorem checkShape_concat_eq_error_iff (h : Grammatical before) :
    checkShape (before ++ [t]) = .error f ↔ Violates before t f := by
  obtain ⟨seen, hseen⟩ := exists_seen h
  rw [checkShape_eq_error_iff_foldlM, foldlM_concat_of_ok hseen]
  exact (Seen.follows_of_foldlM hseen).push_eq_error_iff

/-- **The first violation is the one that is reported.**

A beginning of an accepted list is accepted.  Behind an accepted list a token is rejected exactly
if it is wrong there, with the fault that says how, and then the whole list is rejected with this
fault, whatever follows the token.  There is no other way to be rejected. -/
theorem first_violation_reported :
    (∀ before after target, checkShape (before ++ after) = .ok target →
      ∃ target', checkShape before = .ok target') ∧
    (∀ before target, checkShape before = .ok target → ∀ t f,
      (checkShape (before ++ [t]) = .error f ↔ Violates before t f) ∧
      (checkShape (before ++ [t]) = .error f →
        ∀ after, checkShape (before ++ [t] ++ after) = .error f)) ∧
    ∀ ts f, checkShape ts = .error f → ∃ before t after, ts = before ++ [t] ++ after ∧
      (∃ target, checkShape before = .ok target) ∧ Violates before t f := by
  refine ⟨fun before after target h => ?_, fun before target h t f => ?_, fun ts f h => ?_⟩
  · exact exists_checkShape_iff.2 (exists_checkShape_iff.1 ⟨target, h⟩).of_append
  · have hbefore := exists_checkShape_iff.1 ⟨target, h⟩
    refine ⟨checkShape_concat_eq_error_iff hbefore, fun hlast after => ?_⟩
    rw [checkShape_concat_eq_error_iff hbefore] at hlast
    rw [List.append_assoc]
    exact checkShape_eq_error_iff.2 ⟨before, t, after, rfl, hbefore, hlast⟩
  · obtain ⟨before, t, after, rfl, hbefore, hviolates⟩ := checkShape_eq_error_iff.1 h
    exact ⟨before, t, after, by simp, exists_checkShape_iff.2 hbefore, hviolates⟩

/-- In `x = 3 = 4 5` the second equals sign comes before the operands that stand side by side. -/
theorem first_violation_reported_of_second_equals :
    checkShape [⟨.name, "x"⟩, .equalsSign, ⟨.numeral, "3"⟩] = .ok (some ⟨"x", 2⟩) ∧
    checkShape [⟨.name, "x"⟩, .equalsSign, ⟨.numeral, "3"⟩, .equalsSign, ⟨.numeral, "4"⟩,
      ⟨.numeral, "5"⟩] = .error .secondEquals := by
  have hbefore : checkShape [⟨.name, "x"⟩, .equalsSign, ⟨.numeral, "3"⟩] = .ok (some ⟨"x", 2⟩) := by
    decide +kernel
  obtain ⟨-, hlast, -⟩ := first_violation_reported
  obtain ⟨hviolates, hrest⟩ := hlast _ _ hbefore .equalsSign .secondEquals
  exact ⟨hbefore, hrest (hviolates.2 (.secondEquals rfl ⟨.equalsSign, by simp, rfl⟩))
    [⟨.numeral, "4"⟩, ⟨.numeral, "5"⟩]⟩

end SignedSum
