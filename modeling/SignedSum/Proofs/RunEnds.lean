/-
# Where runs end

Characters of one group that have no further one of the group before or behind them are a run of
the line, and what stands before and behind them is cut into runs on its own.  Conversely the first
and the last run of a line go as far as the group of its first and last character does.  All this
is about the groups of legible characters: any other character is a run by itself.
-/
import SignedSum.Proofs.Canonical
import Mathlib.Data.List.TakeWhile

namespace SignedSum

variable {run run' : List Char} {g : Group}

theorem Uniform.append (h : Uniform g run) (h' : Uniform g run') : Uniform g (run ++ run') := by
  refine ⟨List.append_ne_nil_of_left_ne_nil h.1 _, fun c hc => ?_⟩
  rcases List.mem_append.1 hc with hc | hc
  · exact h.2 c hc
  · exact h'.2 c hc

theorem Uniform.head_append {c : Char} (h : Uniform g run) (hc : c ∈ (run ++ run').head?) :
    Group.ofChar c = g := by
  rw [List.head?_append_of_ne_nil _ h.1] at hc
  exact h.2 c (List.mem_of_mem_head? hc)

theorem Group.same_eq_false {c d : Char} (h : Group.ofChar c ≠ Group.ofChar d) :
    Group.same c d = false := decide_eq_false fun hsame => h hsame.1

theorem runs_of_uniform (hg : g ≠ .foreign) (h : Uniform g run) : runs run = [run] := by
  refine List.splitBy_of_isChain h.1 (List.pairwise_of_forall_mem_list ?_).isChain
  intro c hc d hd
  exact decide_eq_true ⟨(h.2 c hc).trans (h.2 d hd).symm, h.2 c hc ▸ hg⟩

/-- Characters of one group with others behind them are a run. -/
theorem runs_uniform_append {after : List Char} (hg : g ≠ .foreign) (h : Uniform g run)
    (hafter : ∀ c ∈ after.head?, Group.ofChar c ≠ g) : runs (run ++ after) = run :: runs after := by
  have hsplit : runs (run ++ after) = runs run ++ runs after := by
    refine List.splitBy_append fun c hc d hd => Group.same_eq_false ?_
    rw [h.2 c (List.mem_of_mem_getLast? hc)]
    exact (hafter d hd).symm
  rw [hsplit, runs_of_uniform hg h, List.singleton_append]

/-- Characters of one group with others before and behind them are a run. -/
theorem runs_around {before after : List Char} (hg : g ≠ .foreign) (h : Uniform g run)
    (hbefore : ∀ c ∈ before.getLast?, Group.ofChar c ≠ g)
    (hafter : ∀ c ∈ after.head?, Group.ofChar c ≠ g) :
    runs (before ++ (run ++ after)) = runs before ++ run :: runs after := by
  rw [← runs_uniform_append hg h hafter]
  refine List.splitBy_append fun c hc d hd => Group.same_eq_false ?_
  rw [h.head_append hd]
  exact hbefore c hc

/-- The first run goes as far as its group does. -/
theorem exists_uniform_append {l : List Char} {c : Char} (hc : c ∈ l.head?)
    (hg : Group.ofChar c = g) :
    ∃ run after, l = run ++ after ∧ Uniform g run ∧ ∀ d ∈ after.head?, Group.ofChar d ≠ g := by
  refine ⟨l.takeWhile (Group.ofChar · = g), l.dropWhile (Group.ofChar · = g),
    List.takeWhile_append_dropWhile.symm, ⟨?_, ?_⟩, ?_⟩
  · obtain ⟨rest, rfl⟩ : ∃ rest, l = c :: rest := ⟨l.tail, (List.eq_cons_of_mem_head? hc)⟩
    rw [List.takeWhile_cons_of_pos (by simpa using hg)]
    exact List.cons_ne_nil _ _
  · intro d hd
    simpa using List.mem_takeWhile_imp hd
  · intro d hd hdg
    have hnot := List.head?_dropWhile_not (Group.ofChar · = g) l
    rw [hd] at hnot
    simp [hdg] at hnot

/-- The last run goes as far back as its group does. -/
theorem exists_append_uniform {l : List Char} {c : Char} (hc : c ∈ l.getLast?)
    (hg : Group.ofChar c = g) :
    ∃ before run, l = before ++ run ∧ Uniform g run ∧
      ∀ d ∈ before.getLast?, Group.ofChar d ≠ g := by
  rw [← List.head?_reverse] at hc
  obtain ⟨run, after, hl, ⟨hne, hrun⟩, hafter⟩ := exists_uniform_append hc hg
  refine ⟨after.reverse, run.reverse, ?_, ⟨by simpa using hne, by simpa using hrun⟩, ?_⟩
  · rw [← List.reverse_append, ← hl, List.reverse_reverse]
  · rwa [List.getLast?_reverse]

end SignedSum
