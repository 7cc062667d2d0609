/-
# The ordinary sum of a line

In ordinary notation an operand counts with the product of all the signs right in front of it, and
spaces between these signs mean nothing.  `ordinarySum` reads a line that way, straight from its
characters: every operand of the evaluated part is taken together with the block of signs in front
of it (`signedWords`), and counts negatively if the block holds an odd number of `-`.

* `ordinarySum_of_respaced`: spaces that come or go inside a block of signs do not matter.
* `ordinarySum_eq_signedSum`: the ordinary sum of a line can be read off the tokens that its
  statement evaluates.
-/
import SignedSum.Proofs.Reading
import SignedSum.Proofs.RunEnds
import Mathlib.Algebra.Ring.Int.Defs
import Mathlib.Data.List.DropRight
import Mathlib.Logic.Relation

namespace SignedSum

/-! ## Signed words -/

/-- The operands among some runs, each with the block of signs between it and the operand before
it.  Spaces inside a block are skipped; `block` is what has been seen of the first one. -/
def signedWords (block : List Char) : List (List Char) → List (List Char × List Char)
  | [] => []
  | run :: rest =>
    match run.head?.map Group.ofChar with
    | some .sign => signedWords (block ++ run) rest
    | some .digit | some .letter => (block, run) :: signedWords [] rest
    | _ => signedWords block rest

/-- The integer that a word stands for: digits for a number, anything else for the value that it
has in the table. -/
def amount (table : Table) (word : List Char) : Int :=
  if word.all Char.isDigit then decimal (String.ofList word)
  else ((table.get? (String.ofList word)).map Value.toInt).getD 0

/-- The runs that a line evaluates: those behind its last equals sign, or all of them. -/
def evaluatedRuns (line : String) : List (List Char) :=
  (runs line.toList).rtakeWhile fun run => decide (run.head? ≠ some '=')

/-- What a line comes to in ordinary notation. -/
def ordinarySum (table : Table) (line : String) : Int :=
  ((signedWords [] (evaluatedRuns line)).map fun p =>
    (Sign.ofRun p.1).apply 0 (amount table p.2)).sum

variable {block run run' : List Char} {rs rs' rest : List (List Char)} {g : Group}

theorem head?_map_of_uniform (h : Uniform g run) : run.head?.map Group.ofChar = some g := by
  obtain ⟨c, cs, rfl⟩ := List.exists_cons_of_ne_nil h.1
  exact congrArg some (h.2 c List.mem_cons_self)

/-- Only runs of equals signs start with one. -/
theorem Uniform.head?_eq_equals_iff (h : Uniform g run) :
    run.head? = some '=' ↔ g = .equals := by
  obtain ⟨c, cs, rfl⟩ := List.exists_cons_of_ne_nil h.1
  have hc := h.2 c List.mem_cons_self
  constructor
  · intro he
    cases he
    exact hc.symm
  · rintro rfl
    rw [eq_equals_of_group hc]
    rfl

theorem signedWords_of_sign (h : Uniform .sign run) :
    signedWords block (run :: rest) = signedWords (block ++ run) rest := by
  rw [signedWords, head?_map_of_uniform h]

theorem signedWords_of_space (h : Uniform .space run) :
    signedWords block (run :: rest) = signedWords block rest := by
  rw [signedWords, head?_map_of_uniform h]

/-- Runs that do the same to every block do so behind any other runs, too. -/
theorem signedWords_append_congr
    (h : ∀ block, signedWords block rs = signedWords block rs') (pre : List (List Char)) :
    ∀ block, signedWords block (pre ++ rs) = signedWords block (pre ++ rs') := by
  induction pre with
  | nil => exact h
  | cons run pre ih =>
    intro block
    simp only [List.cons_append, signedWords]
    split
    · exact ih _
    · rw [ih]
    · rw [ih]
    · exact ih _

/-! ## Spaces inside a block of signs -/

/-- The lines differ at most in the number of spaces at one place between two signs. -/
def RespacedAt (line line' : String) : Prop :=
  ∃ before between between' after,
    line.toList = before ++ between ++ after ∧ line'.toList = before ++ between' ++ after ∧
    (∀ c ∈ between, c = ' ') ∧ (∀ c ∈ between', c = ' ') ∧
    (∃ c ∈ before.getLast?, Group.ofChar c = .sign) ∧ ∃ c ∈ after.head?, Group.ofChar c = .sign

/-- The lines differ in spaces inside blocks of signs. -/
def Respaced : String → String → Prop := Relation.ReflTransGen RespacedAt

section Middle

variable {start rest between : List Char}

/-- Two runs of signs with nothing between them are one. -/
theorem runs_signs_joined (h : Uniform .sign run) (h' : Uniform .sign run')
    (hstart : ∀ c ∈ start.getLast?, Group.ofChar c ≠ .sign)
    (hrest : ∀ c ∈ rest.head?, Group.ofChar c ≠ .sign) :
    runs (start ++ run ++ (run' ++ rest)) = runs start ++ ([run ++ run'] ++ runs rest) := by
  rw [List.append_assoc, ← List.append_assoc run, runs_around (by decide) (h.append h') hstart hrest]
  rfl

/-- Two runs of signs with spaces between them stay two. -/
theorem runs_signs_spaced (h : Uniform .sign run) (hb : Uniform .space between)
    (h' : Uniform .sign run') (hstart : ∀ c ∈ start.getLast?, Group.ofChar c ≠ .sign)
    (hrest : ∀ c ∈ rest.head?, Group.ofChar c ≠ .sign) :
    runs (start ++ run ++ between ++ (run' ++ rest)) =
      runs start ++ ([run, between, run'] ++ runs rest) := by
  have hlast : runs (run' ++ rest) = run' :: runs rest := runs_uniform_append (by decide) h' hrest
  have hspace : runs (between ++ (run' ++ rest)) = between :: runs (run' ++ rest) := by
    refine runs_uniform_append (by decide) hb fun c hc => ?_
    rw [h'.head_append hc]
    decide
  have hafter : ∀ c ∈ (between ++ (run' ++ rest)).head?, Group.ofChar c ≠ .sign := by
    intro c hc
    rw [hb.head_append hc]
    decide
  rw [List.append_assoc, List.append_assoc, runs_around (by decide) h hstart hafter, hspace, hlast]
  rfl

end Middle

/-- The signs on both sides of some spaces go into one block. -/
theorem signedWords_spaced {between : List Char} (h : Uniform .sign run)
    (hb : Uniform .space between) (h' : Uniform .sign run') :
    signedWords block ([run, between, run'] ++ rest) = signedWords (block ++ (run ++ run')) rest := by
  rw [List.cons_append, signedWords_of_sign h, List.cons_append, signedWords_of_space hb,
    List.cons_append, signedWords_of_sign h', List.append_assoc, List.nil_append]

/-- The runs around some spaces between two signs: only the runs in the middle depend on how many
spaces there are, and they always hold the same signs. -/
theorem exists_runs_respaced {before after : List Char}
    (hbefore : ∃ c ∈ before.getLast?, Group.ofChar c = .sign)
    (hafter : ∃ c ∈ after.head?, Group.ofChar c = .sign) :
    ∃ pre suf signs, ∀ between, (∀ c ∈ between, c = ' ') → ∃ middle,
      runs (before ++ between ++ after) = pre ++ (middle ++ suf) ∧
      (∀ run ∈ middle, run.head? ≠ some '=') ∧
      ∀ block rest, signedWords block (middle ++ rest) = signedWords (block ++ signs) rest := by
  obtain ⟨c, hc, hcg⟩ := hbefore
  obtain ⟨d, hd, hdg⟩ := hafter
  obtain ⟨start, run, rfl, hrun, hstart⟩ := exists_append_uniform hc hcg
  obtain ⟨run', rest, rfl, hrun', hrest⟩ := exists_uniform_append hd hdg
  refine ⟨runs start, runs rest, run ++ run', fun between hspaces => ?_⟩
  by_cases hempty : between = []
  · have hboth := hrun.append hrun'
    refine ⟨[run ++ run'], ?_, ?_, fun block rest => signedWords_of_sign hboth⟩
    · rw [hempty, List.append_nil]
      exact runs_signs_joined hrun hrun' hstart hrest
    · rw [List.forall_mem_singleton, ne_eq, hboth.head?_eq_equals_iff]
      decide
  · have hbetween : Uniform .space between := ⟨hempty, fun c hc => by rw [hspaces c hc]; rfl⟩
    refine ⟨[run, between, run'], runs_signs_spaced hrun hbetween hrun' hstart hrest, ?_,
      fun block rest => signedWords_spaced hrun hbetween hrun'⟩
    simp only [List.forall_mem_cons, ne_eq, hrun.head?_eq_equals_iff,
      hbetween.head?_eq_equals_iff, hrun'.head?_eq_equals_iff]
    simp

theorem rtakeWhile_append {α : Type} (p : α → Bool) (l m : List α) :
    (l ++ m).rtakeWhile p =
      if ∀ a ∈ m, p a = true then l.rtakeWhile p ++ m else m.rtakeWhile p := by
  induction m using List.reverseRecOn with
  | nil => simp
  | append_singleton m a ih =>
    have hall : (∀ b ∈ m ++ [a], p b = true) ↔ (∀ b ∈ m, p b = true) ∧ p a = true := by
      rw [List.forall_mem_append, List.forall_mem_singleton]
    rw [← List.append_assoc, List.rtakeWhile_concat, List.rtakeWhile_concat, ih]
    by_cases ha : p a = true
    · by_cases hm : ∀ b ∈ m, p b = true
      · rw [if_pos ha, if_pos hm, if_pos (hall.2 ⟨hm, ha⟩), List.append_assoc]
      · rw [if_pos ha, if_neg hm, if_neg fun h => hm (hall.1 h).1, if_pos ha]
    · rw [if_neg ha, if_neg fun h => ha (hall.1 h).2, if_neg ha]

theorem ordinarySum_of_respacedAt {line line' : String} (h : RespacedAt line line')
    (table : Table) : ordinarySum table line' = ordinarySum table line := by
  obtain ⟨before, between, between', after, hline, hline', hb, hb', hbefore, hafter⟩ := h
  obtain ⟨pre, suf, signs, hruns⟩ := exists_runs_respaced hbefore hafter
  obtain ⟨middle, hm, hmne, hmwords⟩ := hruns between hb
  obtain ⟨middle', hm', hmne', hmwords'⟩ := hruns between' hb'
  have hwords : signedWords [] (evaluatedRuns line') = signedWords [] (evaluatedRuns line) := by
    have hmiddle : ∀ {m : List (List Char)}, (∀ run ∈ m, run.head? ≠ some '=') →
        ((∀ run ∈ m ++ suf, decide (run.head? ≠ some '=') = true) ↔
          ∀ run ∈ suf, decide (run.head? ≠ some '=') = true) := by
      intro m hm
      simp only [List.forall_mem_append]
      exact ⟨And.right, fun h => ⟨fun run hrun => decide_eq_true (hm run hrun), h⟩⟩
    rw [evaluatedRuns, evaluatedRuns, hline, hline', hm, hm', rtakeWhile_append _ pre,
      rtakeWhile_append _ pre, rtakeWhile_append _ middle, rtakeWhile_append _ middle']
    simp only [hmiddle hmne, hmiddle hmne']
    split
    · refine signedWords_append_congr (fun block => ?_) _ _
      rw [hmwords, hmwords']
    · rfl
  rw [ordinarySum, ordinarySum, hwords]

/-- **Spaces inside blocks of signs do not matter to the ordinary sum.** -/
theorem ordinarySum_of_respaced {line line' : String} (h : Respaced line line') (table : Table) :
    ordinarySum table line' = ordinarySum table line := by
  induction h with
  | refl => rfl
  | tail _ hstep ih => rw [ordinarySum_of_respacedAt hstep, ih]

/-! ## The tokens of the ordinary sum -/

/-- The sum of some tokens in ordinary notation, where `sign` is the product of the signs in front
of them. -/
def signedSum (table : Table) (sign : Sign) : List Token → Int
  | [] => 0
  | t :: ts =>
    match t.kind with
    | .numeral => sign.apply 0 (decimal t.text) + signedSum table .plus ts
    | .name =>
      sign.apply 0 (((table.get? t.text).map Value.toInt).getD 0) + signedSum table .plus ts
    | .sign s => signedSum table (sign * s) ts
    | .equals | .foreign => signedSum table sign ts

variable {table : Table} {sign : Sign} {ts : List Token}

@[simp] theorem signedSum_ofSign (s : Sign) :
    signedSum table sign (.ofSign s :: ts) = signedSum table (sign * s) ts := rfl

@[simp] theorem signedSum_operand (x : Operand) :
    signedSum table sign (x.token :: ts) =
      sign.apply 0 (x.toInt table) + signedSum table .plus ts := by
  cases x <;> rfl

/-- The words of some runs, with their blocks of signs, sum up as the tokens of the runs do. -/
theorem sum_signedWords (hrs : ∀ run ∈ rs, ∃ g, Uniform g run) (block : List Char) :
    ((signedWords block rs).map fun p => (Sign.ofRun p.1).apply 0 (amount table p.2)).sum =
      signedSum table (Sign.ofRun block) (rs.flatMap tokensOfRun) := by
  induction rs generalizing block with
  | nil => rfl
  | cons run rest ih =>
    have ih := ih fun r hr => hrs r (List.mem_cons_of_mem run hr)
    obtain ⟨g, hg⟩ := hrs run List.mem_cons_self
    rw [signedWords, head?_map_of_uniform hg, List.flatMap_cons, tokensOfRun_eq hg]
    cases g with
    | sign =>
      rw [ih, Sign.ofRun_append]
      rfl
    | digit =>
      have hdigits : run.all Char.isDigit = true :=
        List.all_eq_true.2 fun c hc => isDigit_of_group (hg.2 c hc)
      rw [List.map_cons, List.sum_cons, ih, amount, if_pos hdigits]
      rfl
    | letter =>
      have hletters : ¬ run.all Char.isDigit = true := by
        intro h
        obtain ⟨c, cs, rfl⟩ := List.exists_cons_of_ne_nil hg.1
        have hdigit := List.all_eq_true.1 h c List.mem_cons_self
        have halpha := isAlpha_of_group (hg.2 c List.mem_cons_self)
        rw [isAlpha_eq_false_of_isDigit hdigit] at halpha
        cases halpha
      rw [List.map_cons, List.sum_cons, ih, amount, if_neg hletters]
      rfl
    | equals | space | foreign => exact ih block

/-- The tokens behind the last equals sign are those of the runs behind it. -/
theorem rtakeWhile_flatMap_tokensOfRun (hrs : ∀ run ∈ rs, ∃ g, Uniform g run) :
    (rs.flatMap tokensOfRun).rtakeWhile (fun t => decide (t.kind ≠ .equals)) =
      (rs.rtakeWhile fun run => decide (run.head? ≠ some '=')).flatMap tokensOfRun := by
  induction rs using List.reverseRecOn with
  | nil => rfl
  | append_singleton rs run ih =>
    have ih := ih fun r hr => hrs r (List.mem_append_left _ hr)
    obtain ⟨g, hg⟩ := hrs run (List.mem_append_right _ List.mem_cons_self)
    have hhead := hg.head?_eq_equals_iff
    rw [List.flatMap_append, List.flatMap_singleton, tokensOfRun_eq hg, List.rtakeWhile_concat]
    by_cases he : g = .equals
    · rw [if_neg (by simp [hhead, he])]
      subst he
      exact List.rtakeWhile_concat_neg _ _ _ (by simp [Token.equalsSign])
    · rw [if_pos (by simp [hhead, he]), List.flatMap_append, List.flatMap_singleton,
        tokensOfRun_eq hg, ← ih]
      cases g with
      | digit | letter | sign => exact List.rtakeWhile_concat_pos _ _ _ (by simp [Token.ofSign])
      | space | foreign => simp [Group.tokens]
      | equals => exact absurd rfl he

/-- A statement evaluates the tokens behind its last equals sign. -/
theorem operands_eq_rtakeWhile {s : Statement} (h : Opens s.tokens s.target) :
    s.operands = s.tokens.rtakeWhile fun t => decide (t.kind ≠ .equals) := by
  unfold Statement.operands
  cases ht : s.target with
  | none =>
    rw [ht] at h
    exact (List.rtakeWhile_eq_self_iff.2 fun t hm => decide_eq_true (h t hm)).symm
  | some target =>
    rw [ht] at h
    obtain ⟨name, sign, rest, hs, -, hsign, rfl, hrest⟩ := h
    rw [hs, show name :: sign :: rest = [name, sign] ++ rest from rfl, rtakeWhile_append,
      if_pos fun t hm => decide_eq_true (hrest t hm)]
    show rest = List.rtakeWhile _ ([name] ++ [sign]) ++ rest
    rw [List.rtakeWhile_concat_neg _ _ _ (by simp [hsign]), List.nil_append]

/-- **The ordinary sum of a line is that of the tokens that its statement evaluates.** -/
theorem ordinarySum_eq_signedSum {line : String} {s : Statement}
    (h : (Statement.ofLine line).outcome = .ok s) :
    ordinarySum table line = signedSum table .plus s.operands := by
  obtain ⟨htokens, hshape⟩ := outcome_ofLine.1 h
  have hruns : ∀ run ∈ runs line.toList, ∃ g, Uniform g run :=
    fun run hrun => exists_uniform_of_mem_runs hrun
  have hoperands : s.operands = (evaluatedRuns line).flatMap tokensOfRun := by
    rw [operands_eq_rtakeWhile (shaped_of_checkShape hshape).opens,
      eq_flatMap_of_tokenize htokens, rtakeWhile_flatMap_tokensOfRun hruns]
    rfl
  rw [hoperands]
  exact sum_signedWords (fun run hrun => hruns run ((List.rtakeWhile_suffix _ _).subset hrun)) []

end SignedSum
