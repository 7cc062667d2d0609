/-
# Tokens of the right shape

`Shaped ts target` says what the check of a shape is to establish, without the state that it
carries: no token is foreign, no two operands stand side by side, and there is an equals sign
exactly if there is a target, right after the name at the start.

The check goes through the tokens from left to right.  `Seen.Follows` is its invariant: what it
remembers is true of the tokens already looked at, and these have the right shape.
-/
import SignedSum.Shape
import SignedSum.Proofs.FirstFailure
import Mathlib.Data.List.Chain

namespace SignedSum

/-- The tokens assign to the target: they start with its name and an equals sign, the only one.
Without a target they hold no equals sign. -/
def Opens (ts : List Token) : Option Target → Prop
  | none => ∀ t ∈ ts, t.kind ≠ .equals
  | some target => ∃ name sign rest, ts = name :: sign :: rest ∧ name.kind = .name ∧
      sign.kind = .equals ∧ target = ⟨name.text, 2⟩ ∧ ∀ t ∈ rest, t.kind ≠ .equals

/-- The tokens have the right shape, with the given target. -/
structure Shaped (ts : List Token) (target : Option Target) : Prop where
  no_foreign : ∀ t ∈ ts, t.kind ≠ .foreign
  apart : ts.IsChain fun t u => ¬ (t.kind.isOperand = true ∧ u.kind.isOperand = true)
  opens : Opens ts target

namespace Seen

variable {seen seen' : Seen} {t : Token} {ts : List Token}

/-- What is remembered is true of the given tokens, and they have the right shape. -/
structure Follows (seen : Seen) (ts : List Token) : Prop where
  last_eq : seen.last = ts.getLast?
  count_eq : seen.count = ts.length
  shaped : Shaped ts seen.target

theorem follows_nil : Follows {} [] where
  last_eq := rfl
  count_eq := rfl
  shaped := ⟨by simp, List.isChain_nil, by simp [Opens]⟩

/-- What the state becomes when a token is accepted that is no equals sign. -/
def next (seen : Seen) (t : Token) : Seen :=
  { seen with last := some t, count := seen.count + 1 }

/-- All that can happen when a token is accepted. -/
theorem push_eq_ok (h : seen.push t = .ok seen') :
    (t.kind ≠ .foreign ∧ t.kind ≠ .equals ∧
      (t.kind.isOperand = true → seen.endsInOperand = false) ∧ seen' = seen.next t) ∨
    (t.kind = .equals ∧ seen.target = none ∧ ∃ target, seen.opening = some target ∧
      seen' = { seen.next t with target := some target }) := by
  unfold push at h
  cases hk : t.kind <;> simp only [hk] at h
  case foreign => cases h
  case sign => exact Or.inl ⟨by simp, by simp, by simp [Kind.isOperand], (Except.ok.inj h).symm⟩
  case numeral | name =>
    split at h
    · cases h
    · next hend =>
      refine Or.inl ⟨by simp, by simp, fun _ => ?_, (Except.ok.inj h).symm⟩
      exact Bool.not_eq_true _ ▸ hend
  case equals =>
    split at h
    · cases h
    · next hnone =>
      split at h
      · next target htarget =>
        refine Or.inr ⟨rfl, ?_, target, htarget, (Except.ok.inj h).symm⟩
        simpa using hnone
      · cases h

/-- A target opens after a single token, a name. -/
theorem eq_singleton_of_opening {target : Target} (hs : seen.Follows ts)
    (h : seen.opening = some target) :
    ∃ name, ts = [name] ∧ name.kind = .name ∧ target = ⟨name.text, 2⟩ := by
  unfold opening at h
  rw [hs.last_eq, hs.count_eq] at h
  cases hl : ts.getLast? with
  | none =>
    rw [hl] at h
    cases h
  | some name =>
    simp only [hl] at h
    split at h
    · next hc =>
      obtain ⟨u, rfl⟩ := List.length_eq_one_iff.1 hc.2
      have hu : u = name := by simpa using hl
      subst hu
      exact ⟨u, rfl, hc.1, (Option.some.inj h).symm⟩
    · cases h

/-- An operand may follow unless the last token is one. -/
theorem apart_concat (hs : seen.Follows ts)
    (h : t.kind.isOperand = true → seen.endsInOperand = false) :
    (ts ++ [t]).IsChain fun t u => ¬ (t.kind.isOperand = true ∧ u.kind.isOperand = true) := by
  rw [List.isChain_append]
  refine ⟨hs.shaped.apart, List.isChain_singleton t, fun x hx y hy => ?_⟩
  have hy : t = y := by simpa using hy
  subst hy
  rintro ⟨hxo, hto⟩
  have hend := h hto
  rw [endsInOperand, hs.last_eq, hx] at hend
  exact absurd hxo (by simpa using hend)

/-- **What the check remembers stays true when it accepts a token.** -/
theorem Follows.push (hs : seen.Follows ts) (h : seen.push t = .ok seen') :
    seen'.Follows (ts ++ [t]) := by
  rcases push_eq_ok h with ⟨hforeign, hequals, hoperand, rfl⟩ | ⟨hequals, hnone, target, hopen, rfl⟩
  · -- the token is no equals sign, so the target stays as it is
    refine ⟨by simp [next], by simp [next, hs.count_eq], ⟨?_, apart_concat hs hoperand, ?_⟩⟩
    · intro u hu
      rcases List.mem_append.1 hu with hu | hu
      · exact hs.shaped.no_foreign u hu
      · exact List.mem_singleton.1 hu ▸ hforeign
    · have hopens := hs.shaped.opens
      show Opens (ts ++ [t]) seen.target
      cases htarget : seen.target with
      | none =>
        rw [htarget] at hopens
        intro u hu
        rcases List.mem_append.1 hu with hu | hu
        · exact hopens u hu
        · exact List.mem_singleton.1 hu ▸ hequals
      | some target =>
        rw [htarget] at hopens
        obtain ⟨name, sign, rest, rfl, hname, hsign, htgt, hrest⟩ := hopens
        refine ⟨name, sign, rest ++ [t], rfl, hname, hsign, htgt, fun u hu => ?_⟩
        rcases List.mem_append.1 hu with hu | hu
        · exact hrest u hu
        · exact List.mem_singleton.1 hu ▸ hequals
  · -- the token is the equals sign, and the name stands alone in front of it
    obtain ⟨name, rfl, hname, rfl⟩ := eq_singleton_of_opening hs hopen
    refine ⟨by simp [next], by simp [next, hs.count_eq], ⟨?_, apart_concat hs ?_, ?_⟩⟩
    · intro u hu
      rcases List.mem_append.1 hu with hu | hu
      · exact hs.shaped.no_foreign u hu
      · rw [List.mem_singleton.1 hu, hequals]
        simp
    · simp [hequals, Kind.isOperand]
    · exact ⟨name, t, [], rfl, hname, hequals, rfl, by simp⟩

theorem follows_of_foldlM (h : ts.foldlM Seen.push {} = .ok seen) : seen.Follows ts := by
  induction ts using List.reverseRecOn generalizing seen with
  | nil =>
    cases h
    exact follows_nil
  | append_singleton ts t ih =>
    obtain ⟨before, hbefore, hpush⟩ := foldlM_concat_eq_ok.1 h
    exact (ih hbefore).push hpush

end Seen

/-- **Tokens that pass the check have the right shape.** -/
theorem shaped_of_checkShape {ts : List Token} {target : Option Target}
    (h : checkShape ts = .ok target) : Shaped ts target := by
  obtain ⟨seen, hseen, htarget⟩ := bind_eq_ok.1 h
  cases htarget
  exact (Seen.follows_of_foldlM hseen).shaped

end SignedSum
