/-
# Lines put together

Two lines are put together without anything between them.  A lexeme goes as far as it can, so the
last lexeme of the first line goes on in the second one if the characters at which the lines meet
belong to one group; then the two lexemes there are one, and so are their tokens (`Token.Fuses`).
If the lines are parted (`Parted`), that is, if one of them is empty, a space stands where they
meet, or characters of different groups meet there, no lexeme crosses the border and the tokens are
those of the first line followed by those of the second.

* `Cuts.append`: the lexemes of lines that are parted.
* `Cuts.exists_fused`: the lexemes of lines that are not.
* `tokenize_eq_ok_iff_of_loosened`: spaces where lines are parted do not matter to the tokens.
* `tokenize_append`: the tokens of lines put together, from those of the lines.
-/
import SignedSum.Proofs.Lexemes
import Mathlib.Logic.Relation

namespace SignedSum

/-- No lexeme goes on from the first characters into the second ones: one of the two is empty, a
space stands on one side of the border, or characters of different groups stand there. -/
def Parted (cs cs' : List Char) : Prop :=
  ∀ c ∈ cs.getLast?, ∀ d ∈ cs'.head?, c = ' ' ∨ d = ' ' ∨ Group.ofChar c ≠ Group.ofChar d

/-- Only the two characters at the border are looked at. -/
instance (cs cs' : List Char) : Decidable (Parted cs cs') :=
  decidable_of_iff
    ((cs.getLast?.all fun c => cs'.head?.all fun d =>
      c = ' ' ∨ d = ' ' ∨ Group.ofChar c ≠ Group.ofChar d) = true)
    (by simp only [Parted, Option.all_eq_true, decide_eq_true_eq, Option.mem_def])

/-- The third token is what becomes of the first two when no border is left between them: digits
and letters are joined, signs give their product, and equals signs are one. -/
inductive Token.Fuses : Token → Token → Token → Prop
  | numeral (s s' : String) : Fuses ⟨.numeral, s⟩ ⟨.numeral, s'⟩ ⟨.numeral, s ++ s'⟩
  | name (s s' : String) : Fuses ⟨.name, s⟩ ⟨.name, s'⟩ ⟨.name, s ++ s'⟩
  | sign (o o' : Sign) : Fuses (.ofSign o) (.ofSign o') (.ofSign (o * o'))
  | equals : Fuses .equalsSign .equalsSign .equalsSign

variable {cs cs' before after spaces run run' : List Char} {xs xs' : List Lexeme} {c d : Char}
  {A : Alphabet} {a b line line' : String} {ts us : List Token}

/-! ## Lines that are parted -/

theorem Parted.of_append (h : Parted (before ++ cs) cs') : Parted cs cs' := fun c hc =>
  h c (List.mem_getLast?_append_of_mem_getLast? hc)

/-- **The lexemes of lines that are parted are those of the one and then those of the other.** -/
theorem Cuts.append (h : Cuts cs xs) (h' : Cuts cs' xs') (hparted : Parted cs cs') :
    Cuts (cs ++ cs') (xs ++ xs') := by
  induction h with
  | nil => exact h'
  | @space cs xs _ ih =>
    have hspace : Parted ([' '] ++ cs) cs' := hparted
    exact (ih hspace.of_append).space
  | @lexeme x cs xs hends _ ih =>
    rw [List.append_assoc, List.cons_append]
    refine Cuts.lexeme (fun d hd hmem => ?_) (ih hparted.of_append)
    by_cases hcs : cs = []
    · -- the lexeme reaches up to the border
      subst hcs
      rw [List.append_nil] at hparted
      obtain ⟨c, hc⟩ := Option.ne_none_iff_exists'.1 (mt List.getLast?_eq_none_iff.1 x.ne_nil)
      have hin : c ∈ x.alphabet := x.mem c (List.mem_of_getLast? hc)
      rcases hparted c hc d hd with hspace | hspace | hgroup
      · exact Alphabet.ne_space hin hspace
      · exact Alphabet.ne_space hmem hspace
      · exact hgroup ((Alphabet.mem_iff_group.1 hin).trans (Alphabet.mem_iff_group.1 hmem).symm)
    · rw [List.head?_append_of_ne_nil _ hcs] at hd
      exact hends d hd hmem

/-! ## Lines that are not parted -/

theorem exists_of_not_parted (h : ¬ Parted cs cs') :
    ∃ c ∈ cs.getLast?, ∃ d ∈ cs'.head?,
      c ≠ ' ' ∧ d ≠ ' ' ∧ Group.ofChar c = Group.ofChar d := by
  simpa [Parted] using h

/-- The lexeme of some characters of one alphabet. -/
def Lexeme.ofUniform (h : Uniform A.group run) : Lexeme where
  alphabet := A
  chars := run
  ne_nil := h.1
  mem := fun c hc => Alphabet.mem_iff_group.2 (h.2 c hc)

theorem Lexeme.token_ofUniform_signs (h : Uniform Alphabet.signs.group run) :
    (ofUniform h).token = .ofSign (Sign.ofRun run) := by
  have htokens := (ofUniform h).tokensOfRun_chars
  rw [tokensOfRun_eq (ofUniform h).uniform] at htokens
  exact (List.singleton_inj.1 htokens).symm

/-- The token of two lexemes that are one is made of their tokens. -/
theorem Lexeme.fuses (h : Uniform A.group run) (h' : Uniform A.group run') :
    (ofUniform h).token.Fuses (ofUniform h').token (ofUniform (h.append h')).token := by
  cases A with
  | digits =>
    simp only [token, ofUniform, String.ofList_append]
    exact .numeral _ _
  | letters =>
    simp only [token, ofUniform, String.ofList_append]
    exact .name _ _
  | signs =>
    rw [token_ofUniform_signs, token_ofUniform_signs, token_ofUniform_signs, Sign.ofRun_append]
    exact .sign _ _
  | equals => exact .equals

/-- Characters that are cut into lexemes are legible. -/
theorem Cuts.isLegible (h : Cuts cs xs) : ∀ c ∈ cs, isLegible c = true := by
  intro c hc
  have hnot := not_isLegible c
  rw [decide_eq_false (h.group_ne_foreign c hc)] at hnot
  simpa using hnot

/-- **Where lines are not parted, the last lexeme of the one and the first of the other are one
lexeme**, and the others stay. -/
theorem Cuts.exists_fused (h : Cuts cs xs) (h' : Cuts cs' xs') (hborder : ¬ Parted cs cs') :
    ∃ ys x y zs z, xs = ys ++ [x] ∧ xs' = y :: zs ∧ x.token.Fuses y.token z.token ∧
      Cuts (cs ++ cs') (ys ++ z :: zs) := by
  obtain ⟨c, hc, d, hd, hcs, hds, hgroup⟩ := exists_of_not_parted hborder
  obtain hspace | ⟨A, hA⟩ :=
    eq_space_or_mem_of_isLegible (h.isLegible c (List.mem_of_getLast? hc))
  · exact absurd hspace hcs
  rw [Alphabet.mem_iff_group] at hA
  obtain ⟨before, run, rfl, hrun, hbefore⟩ := exists_append_uniform hc hA
  obtain ⟨run', after, rfl, hrun', hafter⟩ := exists_uniform_append hd (hgroup.symm.trans hA)
  obtain ⟨ys, hys⟩ := exists_cuts fun e he => h.isLegible e (List.mem_append_left run he)
  obtain ⟨zs, hzs⟩ := exists_cuts fun e he => h'.isLegible e (List.mem_append_right run' he)
  have hends : ∀ e ∈ after.head?, e ∉ A := fun e he hmem =>
    hafter e he (Alphabet.mem_iff_group.1 hmem)
  have hparted : ∀ r rest, Uniform A.group r → Parted before (r ++ rest) :=
    fun r rest hr e he d hd =>
      Or.inr (Or.inr fun hg => hbefore e he (hg.trans (hr.head_append hd)))
  have hxs : xs = ys ++ [.ofUniform hrun] := by
    have hlast : Parted before run := by simpa using hparted run [] hrun
    exact (hys.append (Cuts.singleton (.ofUniform hrun)) hlast).unique h
  have hxs' : xs' = .ofUniform hrun' :: zs :=
    (Cuts.lexeme (x := .ofUniform hrun') hends hzs).unique h'
  refine ⟨ys, _, _, zs, .ofUniform (hrun.append hrun'), hxs, hxs', Lexeme.fuses hrun hrun', ?_⟩
  have hfused := Cuts.lexeme (x := .ofUniform (hrun.append hrun')) hends hzs
  rw [List.append_assoc, ← List.append_assoc run]
  exact hys.append hfused (hparted _ after (hrun.append hrun'))

/-! ## Spaces between parted lines -/

theorem cuts_spaces (h : ∀ c ∈ spaces, c = ' ') : Cuts spaces [] := by
  induction spaces with
  | nil => exact .nil
  | cons c spaces ih =>
    obtain ⟨rfl, hspaces⟩ := List.forall_mem_cons.1 h
    exact (ih hspaces).space

/-- The second line has some spaces more, at a place where the first one is parted: at one of its
ends, beside another space, or between characters of different groups. -/
def Loosened (line line' : String) : Prop :=
  ∃ before spaces after : String, line = before ++ after ∧ line' = before ++ spaces ++ after ∧
    (∀ c ∈ spaces.toList, c = ' ') ∧ Parted before.toList after.toList

/-- Spaces part what stands before them from what stands behind them. -/
theorem parted_spaces (h : ∀ c ∈ spaces, c = ' ') : Parted cs spaces := fun _ _ d hd =>
  Or.inr (Or.inl (h d (List.mem_of_mem_head? hd)))

theorem parted_append_spaces (h : ∀ c ∈ spaces, c = ' ') (hparted : Parted cs cs') :
    Parted (cs ++ spaces) cs' := by
  intro c hc d hd
  by_cases hne : spaces = []
  · rw [hne, List.append_nil] at hc
    exact hparted c hc d hd
  · rw [List.getLast?_append_of_ne_nil _ hne] at hc
    exact Or.inl (h c (List.mem_of_getLast? hc))

theorem isLegible_of_tokenize (h : tokenize line = .ok ts) :
    ∀ c ∈ line.toList, isLegible c = true := by
  obtain ⟨xs, hxs, -⟩ := tokenize_eq_ok_iff.1 h
  exact hxs.isLegible

/-- Two such lines have the same lexemes. -/
theorem Loosened.exists_cuts (h : Loosened line line')
    (hlegible : (∀ c ∈ line.toList, isLegible c = true) ∨ ∀ c ∈ line'.toList, isLegible c = true) :
    ∃ xs, Cuts line.toList xs ∧ Cuts line'.toList xs := by
  obtain ⟨before, spaces, after, rfl, rfl, hspaces, hparted⟩ := h
  simp only [String.toList_append, List.mem_append] at hlegible ⊢
  obtain ⟨xs, hxs⟩ : ∃ xs, Cuts before.toList xs := SignedSum.exists_cuts fun c hc =>
    hlegible.elim (fun h => h c (Or.inl hc)) fun h => h c (Or.inl (Or.inl hc))
  obtain ⟨ys, hys⟩ : ∃ ys, Cuts after.toList ys := SignedSum.exists_cuts fun c hc =>
    hlegible.elim (fun h => h c (Or.inr hc)) fun h => h c (Or.inr hc)
  refine ⟨xs ++ ys, hxs.append hys hparted, ?_⟩
  have hwide := hxs.append (cuts_spaces hspaces) (parted_spaces hspaces)
  rw [List.append_nil] at hwide
  exact hwide.append hys (parted_append_spaces hspaces hparted)

/-- **Spaces where a line is parted do not matter to its tokens.** -/
theorem tokenize_eq_ok_iff_of_loosened (h : Loosened line line') :
    tokenize line = .ok ts ↔ tokenize line' = .ok ts := by
  constructor
  · intro htokens
    obtain ⟨xs, hxs, hxs'⟩ := h.exists_cuts (Or.inl (isLegible_of_tokenize htokens))
    rwa [tokenize_of_cuts hxs, ← tokenize_of_cuts hxs'] at htokens
  · intro htokens
    obtain ⟨xs, hxs, hxs'⟩ := h.exists_cuts (Or.inr (isLegible_of_tokenize htokens))
    rwa [tokenize_of_cuts hxs', ← tokenize_of_cuts hxs] at htokens

theorem tokenize_eq_ok_iff_of_eqvGen (h : Relation.EqvGen Loosened line line') :
    tokenize line = .ok ts ↔ tokenize line' = .ok ts := by
  induction h with
  | rel _ _ h => exact tokenize_eq_ok_iff_of_loosened h
  | refl _ => exact Iff.rfl
  | symm _ _ _ ih => exact ih.symm
  | trans _ _ _ _ _ ih ih' => exact ih.trans ih'

/-! ## The tokens of lines put together -/

/-- A fault of either line is a fault of both together, which quotes them together. -/
theorem tokenize_append_of_error {f : FormFault}
    (h : tokenize a = .error f ∨ tokenize b = .error f) :
    ∃ c, (a ++ b).toList.find? (!isLegible ·) = some c ∧
      tokenize (a ++ b) = .error (.foreignChar c (a ++ b)) := by
  cases hfind : (a ++ b).toList.find? (!isLegible ·) with
  | some c => exact ⟨c, rfl, tokenize_eq_error_iff.2 ⟨c, hfind, rfl⟩⟩
  | none =>
    rw [String.toList_append, List.find?_append, Option.or_eq_none_iff] at hfind
    rcases h with h | h
    · obtain ⟨c, hc, -⟩ := tokenize_eq_error_iff.1 h
      rw [hfind.1] at hc
      cases hc
    · obtain ⟨c, hc, -⟩ := tokenize_eq_error_iff.1 h
      rw [hfind.2] at hc
      cases hc

theorem tokenize_append_of_parted (ha : tokenize a = .ok ts) (hb : tokenize b = .ok us)
    (hparted : Parted a.toList b.toList) : tokenize (a ++ b) = .ok (ts ++ us) := by
  obtain ⟨xs, hxs, rfl⟩ := tokenize_eq_ok_iff.1 ha
  obtain ⟨ys, hys, rfl⟩ := tokenize_eq_ok_iff.1 hb
  have hcuts := hxs.append hys hparted
  rw [← String.toList_append] at hcuts
  rw [tokenize_of_cuts hcuts, List.map_append]

theorem exists_tokenize_append_eq (ha : tokenize a = .ok ts) (hb : tokenize b = .ok us)
    (hborder : ¬ Parted a.toList b.toList) :
    ∃ before t u after v, ts = before ++ [t] ∧ us = u :: after ∧ t.Fuses u v ∧
      tokenize (a ++ b) = .ok (before ++ v :: after) := by
  obtain ⟨xs, hxs, rfl⟩ := tokenize_eq_ok_iff.1 ha
  obtain ⟨ys, hys, rfl⟩ := tokenize_eq_ok_iff.1 hb
  obtain ⟨before, x, y, after, z, rfl, rfl, hfuses, hcuts⟩ := hxs.exists_fused hys hborder
  rw [← String.toList_append] at hcuts
  refine ⟨_, _, _, _, _, List.map_append, rfl, hfuses, ?_⟩
  rw [tokenize_of_cuts hcuts, List.map_append, List.map_cons]

/-- **The tokens of two lines put together.**  If both lines have tokens and are parted, these are
the tokens of the one followed by those of the other.  If they are not parted, the last token of
the one and the first token of the other are fused.  If one of the lines has a fault, both together
have the first illegible character of the whole as their fault, with the whole as the line.

So spaces that come or go at the ends of a line, beside other spaces or between characters of
different groups, in any number and at any number of places, leave the tokens of the line as they
are. -/
theorem tokenize_append :
    (∀ a b : String,
      match tokenize a, tokenize b with
      | .ok ts, .ok us =>
        if Parted a.toList b.toList then tokenize (a ++ b) = .ok (ts ++ us)
        else ∃ before t u after v, ts = before ++ [t] ∧ us = u :: after ∧ t.Fuses u v ∧
          tokenize (a ++ b) = .ok (before ++ v :: after)
      | _, _ => ∃ c, (a ++ b).toList.find? (!isLegible ·) = some c ∧
          tokenize (a ++ b) = .error (.foreignChar c (a ++ b))) ∧
    ∀ line line' : String, Relation.EqvGen Loosened line line' →
      ∀ ts, tokenize line = .ok ts ↔ tokenize line' = .ok ts := by
  refine ⟨fun a b => ?_, fun line line' h ts => tokenize_eq_ok_iff_of_eqvGen h⟩
  cases ha : tokenize a with
  | error f => exact tokenize_append_of_error (Or.inl ha)
  | ok ts =>
    cases hb : tokenize b with
    | error f => exact tokenize_append_of_error (Or.inr hb)
    | ok us =>
      dsimp only
      split
      next hparted => exact tokenize_append_of_parted ha hb hparted
      next hborder => exact exists_tokenize_append_eq ha hb hborder

/-- In `3--` and `-2` two runs of signs meet, in `x` and `=7` characters of different groups. -/
theorem tokenize_append_of_signs :
    ∃ ts, tokenize "3--" = .ok [⟨.numeral, "3"⟩, .ofSign .plus] ∧
      tokenize "-2" = .ok [.ofSign .minus, ⟨.numeral, "2"⟩] ∧
      ¬ Parted "3--".toList "-2".toList ∧
      tokenize ("3--" ++ "-2") = .ok [⟨.numeral, "3"⟩, .ofSign .minus, ⟨.numeral, "2"⟩] ∧
      Relation.EqvGen Loosened "x=7" " x =7" ∧ tokenize "x=7" = .ok ts ∧
      tokenize " x =7" = .ok ts := by
  have hfront : Loosened "x=7" " x=7" :=
    ⟨"", " ", "x=7", by decide, by decide, by simp, by decide⟩
  have hinner : Loosened " x=7" " x =7" :=
    ⟨" x", " ", "=7", by decide, by decide, by simp, by decide⟩
  have hloosened : Relation.EqvGen Loosened "x=7" " x =7" :=
    .trans _ _ _ (.rel _ _ hfront) (.rel _ _ hinner)
  have hleft : tokenize "3--" = .ok [⟨.numeral, "3"⟩, .ofSign .plus] := by decide +kernel
  have hright : tokenize "-2" = .ok [.ofSign .minus, ⟨.numeral, "2"⟩] := by decide +kernel
  have hborder : ¬ Parted "3--".toList "-2".toList := by decide
  obtain ⟨hjoin, hspaces⟩ := tokenize_append
  have h := hjoin "3--" "-2"
  rw [hleft, hright] at h
  dsimp only at h
  rw [if_neg hborder] at h
  obtain ⟨before, t, u, after, v, hts, hus, hfuses, h⟩ := h
  have hlast : [⟨.numeral, "3"⟩] ++ [Token.ofSign .plus] = before ++ [t] := hts
  obtain ⟨rfl, ht⟩ := List.append_inj' hlast rfl
  cases ht
  cases hus
  cases hfuses
  have htokens : tokenize "x=7" = .ok [⟨.name, "x"⟩, .equalsSign, ⟨.numeral, "7"⟩] := by
    decide +kernel
  exact ⟨_, hleft, hright, hborder, h, hloosened, htokens, (hspaces _ _ hloosened _).1 htokens⟩

end SignedSum
