/-
# The operator of a run

A run stands for an operator if all its characters are equals signs or all of them are signs; any
other run is mixed and a fault.  A run of signs stands for their product.

A run of signs keeps its product when the signs change places, when `+` are put in or left out, and
when `-` are put in or left out two at a time (`Sign.Variant`).  The product is all that these
changes keep: by them every run of signs comes down to the one sign that it stands for
(`Sign.eqvGen_symbol`), since two signs side by side come down to their product.

* `Kind.ofRun_eq_equals_iff`, `Kind.ofRun_eq_sign_iff`, `Kind.ofRun_eq_error_iff`: what a run stands
  for, by its characters.
* `Sign.eqvGen_variant_iff`: two runs of signs are variants exactly if they stand for one sign.
* `runs_of_signs_multiply`: both, and the sign of a run from those of its parts.
-/
import SignedSum.Run
import Mathlib.Logic.Relation

namespace SignedSum

/-- A nonempty run of equals signs. -/
def IsEqualsRun (run : List Char) : Prop := run ≠ [] ∧ ∀ c ∈ run, c = '='

/-- A run of signs, which may be empty. -/
def IsSignRun (run : List Char) : Prop := ∀ c ∈ run, c = '+' ∨ c = '-'

variable {run run' before part after : List Char} {f : FormFault} {s : Sign}

theorem IsEqualsRun.not_isSignRun (h : IsEqualsRun run) : ¬ IsSignRun run := by
  intro hsigns
  obtain ⟨c, hc⟩ := List.exists_mem_of_ne_nil run h.1
  have hce : c = '=' := h.2 c hc
  rcases hsigns c hc with rfl | rfl <;> exact absurd hce (by decide)

theorem isSignRun_append : IsSignRun (run ++ run') ↔ IsSignRun run ∧ IsSignRun run' :=
  List.forall_mem_append

theorem isSignRun_symbol (s : Sign) : IsSignRun [s.symbol] := by
  cases s <;> simp [IsSignRun, Sign.symbol]

/-! ## What a run stands for -/

namespace Kind

theorem ofRun_of_equals (h : IsEqualsRun run) : ofRun run = .ok .equals := by
  have hall : run.all (· = '=') = true :=
    List.all_eq_true.2 fun c hc => decide_eq_true (h.2 c hc)
  rw [ofRun, if_pos ⟨h.1, hall⟩]

/-- A run of signs stands for the product of its signs, and so for `+` if all of them are `+`. -/
theorem ofRun_of_signs (h : IsSignRun run) : ofRun run = .ok (.sign (Sign.ofRun run)) := by
  have hne : ¬ (run ≠ [] ∧ run.all (· = '=') = true) := fun ⟨hnil, hall⟩ =>
    IsEqualsRun.not_isSignRun ⟨hnil, by simpa using hall⟩ h
  have hall : (run.all fun c => c = '+' ∨ c = '-') = true :=
    List.all_eq_true.2 fun c hc => decide_eq_true (h c hc)
  rw [ofRun, if_neg hne, if_pos hall]
  split
  next hplus => rw [Sign.ofRun_of_pluses (by simpa using hplus)]
  next => rfl

/-- A run of any other characters is a fault, which quotes it. -/
theorem ofRun_of_mixed (he : ¬ IsEqualsRun run) (hs : ¬ IsSignRun run) :
    ofRun run = .error (.mixedRun (String.ofList run)) := by
  have hequals : ¬ (run ≠ [] ∧ run.all (· = '=') = true) := fun ⟨hnil, hall⟩ =>
    he ⟨hnil, by simpa using hall⟩
  have hpluses : ¬ run.all (· = '+') = true := fun hall =>
    hs fun c hc => Or.inl (by simpa using List.all_eq_true.1 hall c hc)
  have hsigns : ¬ (run.all fun c => c = '+' ∨ c = '-') = true := fun hall =>
    hs (by simpa [IsSignRun] using hall)
  rw [ofRun, if_neg hequals, if_neg hpluses, if_neg hsigns]

/-- The three sorts of runs, and what they stand for. -/
theorem ofRun_cases (run : List Char) :
    (IsEqualsRun run ∧ ofRun run = .ok .equals) ∨
    (IsSignRun run ∧ ofRun run = .ok (.sign (Sign.ofRun run))) ∨
    (¬ IsEqualsRun run ∧ ¬ IsSignRun run ∧
      ofRun run = .error (.mixedRun (String.ofList run))) := by
  by_cases he : IsEqualsRun run
  · exact Or.inl ⟨he, ofRun_of_equals he⟩
  · by_cases hs : IsSignRun run
    · exact Or.inr (Or.inl ⟨hs, ofRun_of_signs hs⟩)
    · exact Or.inr (Or.inr ⟨he, hs, ofRun_of_mixed he hs⟩)

theorem ofRun_eq_equals_iff : ofRun run = .ok .equals ↔ IsEqualsRun run := by
  refine ⟨fun h => ?_, ofRun_of_equals⟩
  rcases ofRun_cases run with ⟨he, -⟩ | ⟨-, hrun⟩ | ⟨-, -, hrun⟩
  · exact he
  · cases hrun.symm.trans h
  · cases hrun.symm.trans h

theorem ofRun_eq_sign_iff : ofRun run = .ok (.sign s) ↔ IsSignRun run ∧ Sign.ofRun run = s := by
  constructor
  · intro h
    rcases ofRun_cases run with ⟨-, hrun⟩ | ⟨hs, hrun⟩ | ⟨-, -, hrun⟩
    · cases hrun.symm.trans h
    · cases hrun.symm.trans h
      exact ⟨hs, rfl⟩
    · cases hrun.symm.trans h
  · rintro ⟨hs, rfl⟩
    exact ofRun_of_signs hs

theorem ofRun_eq_error_iff :
    ofRun run = .error f ↔
      f = .mixedRun (String.ofList run) ∧ ¬ IsEqualsRun run ∧ ¬ IsSignRun run := by
  constructor
  · intro h
    rcases ofRun_cases run with ⟨-, hrun⟩ | ⟨-, hrun⟩ | ⟨he, hs, hrun⟩
    · cases hrun.symm.trans h
    · cases hrun.symm.trans h
    · exact ⟨(Except.error.inj (hrun.symm.trans h)).symm, he, hs⟩
  · rintro ⟨rfl, he, hs⟩
    exact ofRun_of_mixed he hs

end Kind

/-! ## Variants of a run of signs -/

namespace Sign

/-- The second run has the characters of the first one in another order, or it has one `+` more, or
two `-` more. -/
inductive Variant : List Char → List Char → Prop
  | perm {run run' : List Char} : run.Perm run' → Variant run run'
  | plus (before after : List Char) : Variant (before ++ after) (before ++ '+' :: after)
  | minuses (before between after : List Char) :
      Variant (before ++ between ++ after) (before ++ '-' :: between ++ '-' :: after)

/-- The sign of a run depends only on whether the number of `-` is odd. -/
theorem ofRun_congr (h : run.count '-' % 2 = run'.count '-' % 2) : ofRun run = ofRun run' := by
  rw [ofRun, ofRun, h]

theorem Variant.ofRun_eq (h : Variant run run') : ofRun run = ofRun run' := by
  refine ofRun_congr ?_
  cases h with
  | perm h => rw [h.count_eq]
  | plus before after => simp
  | minuses before between after =>
    simp only [List.count_append, List.count_cons_self]
    omega

theorem Variant.isSignRun_iff (h : Variant run run') : IsSignRun run ↔ IsSignRun run' := by
  cases h with
  | perm h => simp only [IsSignRun, h.mem_iff]
  | plus before after => simp [IsSignRun, or_imp, forall_and]
  | minuses before between after => simp [IsSignRun, or_imp, forall_and]

theorem Variant.cons (c : Char) (h : Variant run run') : Variant (c :: run) (c :: run') := by
  cases h with
  | perm h => exact .perm (h.cons c)
  | plus before after => exact .plus (c :: before) after
  | minuses before between after => exact .minuses (c :: before) between after

theorem eqvGen_cons (c : Char) (h : Relation.EqvGen Variant run run') :
    Relation.EqvGen Variant (c :: run) (c :: run') := by
  induction h with
  | rel _ _ h => exact .rel _ _ (h.cons c)
  | refl _ => exact .refl _
  | symm _ _ _ ih => exact .symm _ _ ih
  | trans _ _ _ _ _ ih ih' => exact .trans _ _ _ ih ih'

/-- Two signs side by side come down to their product. -/
theorem eqvGen_pair (s t : Sign) :
    Relation.EqvGen Variant [s.symbol, t.symbol] [(s * t).symbol] := by
  cases s with
  | plus => exact .symm _ _ (.rel _ _ (.plus [] [t.symbol]))
  | minus =>
    cases t with
    | plus => exact .symm _ _ (.rel _ _ (.plus ['-'] []))
    | minus =>
      -- by way of the empty run
      exact .trans _ _ _ (.symm _ _ (.rel _ _ (.minuses [] [] []))) (.rel _ _ (.plus [] []))

/-- **A run of signs comes down to the sign that it stands for.** -/
theorem eqvGen_symbol (h : IsSignRun run) :
    Relation.EqvGen Variant run [(ofRun run).symbol] := by
  induction run with
  | nil => exact .rel _ _ (.plus [] [])
  | cons c rest ih =>
    obtain ⟨hc, hrest⟩ := List.forall_mem_cons.1 h
    obtain ⟨s, rfl⟩ : ∃ s : Sign, c = s.symbol := by
      rcases hc with rfl | rfl
      · exact ⟨plus, rfl⟩
      · exact ⟨minus, rfl⟩
    have hproduct : ofRun (s.symbol :: rest) = s * ofRun rest := by
      rw [← List.singleton_append, ofRun_append, ofRun_symbol]
    rw [hproduct]
    exact .trans _ _ _ (eqvGen_cons s.symbol (ih hrest)) (eqvGen_pair s (ofRun rest))

theorem of_eqvGen_variant (h : Relation.EqvGen Variant run run') :
    (IsSignRun run ↔ IsSignRun run') ∧ ofRun run = ofRun run' := by
  induction h with
  | rel _ _ h => exact ⟨h.isSignRun_iff, h.ofRun_eq⟩
  | refl _ => exact ⟨Iff.rfl, rfl⟩
  | symm _ _ _ ih => exact ⟨ih.1.symm, ih.2.symm⟩
  | trans _ _ _ _ _ ih ih' => exact ⟨ih.1.trans ih'.1, ih.2.trans ih'.2⟩

/-- **Runs of signs are variants exactly if they stand for one sign.** -/
theorem eqvGen_variant_iff (h : IsSignRun run) :
    Relation.EqvGen Variant run run' ↔ Kind.ofRun run' = Kind.ofRun run := by
  constructor
  · intro hv
    obtain ⟨hsigns, hsign⟩ := of_eqvGen_variant hv
    rw [Kind.ofRun_of_signs h, Kind.ofRun_of_signs (hsigns.1 h), hsign]
  · intro he
    rw [Kind.ofRun_of_signs h, Kind.ofRun_eq_sign_iff] at he
    obtain ⟨hsigns, hsign⟩ := he
    have hdown := eqvGen_symbol hsigns
    rw [hsign] at hdown
    exact .trans _ _ _ (eqvGen_symbol h) (.symm _ _ hdown)

/-- A sign takes the place of the part of a run that stands for it. -/
theorem ofRun_part (before part after : List Char) :
    ofRun (before ++ (ofRun part).symbol :: after) = ofRun (before ++ part ++ after) := by
  rw [← List.singleton_append, ← List.append_assoc]
  simp only [ofRun_append, ofRun_symbol]

end Sign

theorem Kind.exists_ofRun_append (h : IsSignRun run) (h' : IsSignRun run') :
    ∃ s t, Kind.ofRun run = .ok (.sign s) ∧ Kind.ofRun run' = .ok (.sign t) ∧
      Kind.ofRun (run ++ run') = .ok (.sign (s * t)) := by
  refine ⟨_, _, Kind.ofRun_of_signs h, Kind.ofRun_of_signs h', ?_⟩
  rw [Kind.ofRun_of_signs (isSignRun_append.2 ⟨h, h'⟩), Sign.ofRun_append]

theorem Kind.exists_ofRun_part (h : IsSignRun (before ++ part ++ after)) :
    ∃ s, Kind.ofRun part = .ok (.sign s) ∧
      Kind.ofRun (before ++ s.symbol :: after) = Kind.ofRun (before ++ part ++ after) := by
  obtain ⟨⟨hbefore, hpart⟩, hafter⟩ : (IsSignRun before ∧ IsSignRun part) ∧ IsSignRun after := by
    simpa only [isSignRun_append] using h
  refine ⟨_, Kind.ofRun_of_signs hpart, ?_⟩
  have hsigns : IsSignRun (before ++ (Sign.ofRun part).symbol :: after) :=
    isSignRun_append.2 ⟨hbefore, isSignRun_append.2 ⟨isSignRun_symbol _, hafter⟩⟩
  rw [Kind.ofRun_of_signs hsigns, Kind.ofRun_of_signs h, Sign.ofRun_part]

/-- **Runs of operators.**  A run stands for an equals sign exactly if it is a nonempty run of equals
signs, and for a sign exactly if it is a run of signs: for `-` if the number of `-` in it is odd,
for `+` if it is even.  Any other run is a fault that quotes it.

So a run of signs that is put together from two stands for the product of what these stand for.
One run of signs comes from another by changes of the order, of the number of `+` and of the number
of pairs of `-`, any number of times, exactly if both stand for one sign; and any part of a run of
signs stands for a sign and may be replaced by it. -/
theorem runs_of_signs_multiply :
    (∀ run, Kind.ofRun run = .ok .equals ↔ run ≠ [] ∧ ∀ c ∈ run, c = '=') ∧
    (∀ run, Kind.ofRun run = .ok (.sign .minus) ↔ IsSignRun run ∧ run.count '-' % 2 = 1) ∧
    (∀ run, Kind.ofRun run = .ok (.sign .plus) ↔ IsSignRun run ∧ run.count '-' % 2 = 0) ∧
    (∀ run f, Kind.ofRun run = .error f ↔
      f = .mixedRun (String.ofList run) ∧ ¬ (run ≠ [] ∧ ∀ c ∈ run, c = '=') ∧ ¬ IsSignRun run) ∧
    (∀ run run', IsSignRun run → IsSignRun run' →
      ∃ s t, Kind.ofRun run = .ok (.sign s) ∧ Kind.ofRun run' = .ok (.sign t) ∧
        Kind.ofRun (run ++ run') = .ok (.sign (s * t))) ∧
    (∀ run run', IsSignRun run →
      (Relation.EqvGen Sign.Variant run run' ↔ Kind.ofRun run' = Kind.ofRun run)) ∧
    ∀ before part after, IsSignRun (before ++ part ++ after) →
      ∃ s, Kind.ofRun part = .ok (.sign s) ∧
        Kind.ofRun (before ++ s.symbol :: after) = Kind.ofRun (before ++ part ++ after) := by
  refine ⟨fun _ => Kind.ofRun_eq_equals_iff, fun run => ?_, fun run => ?_,
    fun _ _ => Kind.ofRun_eq_error_iff, fun _ _ => Kind.exists_ofRun_append,
    fun _ _ => Sign.eqvGen_variant_iff, fun _ _ _ => Kind.exists_ofRun_part⟩
  · rw [Kind.ofRun_eq_sign_iff, Sign.ofRun_eq_minus]
  · rw [Kind.ofRun_eq_sign_iff, Sign.ofRun_eq_plus]

/-- Three `-` in a run of four signs: put together from two runs, come down to one `-`, and taken
for one `-` beside a fourth. -/
theorem runs_of_signs_multiply_of_three_minuses :
    IsSignRun ['-', '+'] ∧ IsSignRun ['-', '-'] ∧
    Kind.ofRun (['-', '+'] ++ ['-', '-']) = .ok (.sign (.minus * .plus)) ∧
    Relation.EqvGen Sign.Variant ['-', '+', '-', '-'] ['-'] ∧
    IsSignRun (['+'] ++ ['-', '-', '-'] ++ ['-']) ∧
    Kind.ofRun ['-', '-', '-'] = .ok (.sign .minus) ∧
    Kind.ofRun (['+'] ++ '-' :: ['-']) = Kind.ofRun (['+'] ++ ['-', '-', '-'] ++ ['-']) ∧
    Kind.ofRun ['=', '='] = .ok .equals ∧
    Kind.ofRun ['-', '='] = .error (.mixedRun "-=") := by
  obtain ⟨hequals, hminus, hplus, hmixed, happend, hvariant, hpart⟩ := runs_of_signs_multiply
  have hleft : IsSignRun ['-', '+'] := by simp [IsSignRun]
  have hright : IsSignRun ['-', '-'] := by simp [IsSignRun]
  have hall : IsSignRun ['-', '+', '-', '-'] := by simp [IsSignRun]
  have hbeside : IsSignRun (['+'] ++ ['-', '-', '-'] ++ ['-']) := by simp [IsSignRun]
  have hthree : Kind.ofRun ['-', '-', '-'] = .ok (.sign .minus) :=
    (hminus _).2 ⟨by simp [IsSignRun], by decide⟩
  obtain ⟨s, t, hs, ht, hst⟩ := happend _ _ hleft hright
  cases hs.symm.trans ((hminus _).2 ⟨hleft, by decide⟩)
  cases ht.symm.trans ((hplus _).2 ⟨hright, by decide⟩)
  obtain ⟨u, hu, hbesides⟩ := hpart _ _ _ hbeside
  cases hu.symm.trans hthree
  exact ⟨hleft, hright, hst, (hvariant _ _ hall).2 rfl, hbeside, hthree, hbesides,
    (hequals _).2 ⟨by decide, by simp⟩, (hmixed _ _).2 ⟨rfl, by simp, by simp [IsSignRun]⟩⟩

end SignedSum
