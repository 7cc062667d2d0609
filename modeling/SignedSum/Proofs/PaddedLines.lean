/-
# Padded lines

There are two notions of a blank.  Whether a line is blank or a command is decided after all
characters with the property `White_Space` have been taken off its ends; but a line that is
evaluated is evaluated as it stands, and there the space alone is a blank, while the others are
illegible.

So blanks around a blank line or a command never matter (`handle_of_trim_eq`).  Around any other
line, spaces do not matter, except that a fault that quotes the line quotes them too
(`calculate_of_spaces`), and a blank of another sort is a fault (`calculate_of_find?`).
`handle_padded` puts the three together.
-/
import SignedSum.Proofs.JoinedLines
import SignedSum.Proofs.LineValue
import SignedSum.Proofs.SessionReplies

namespace SignedSum

/-! ## Trimming -/

namespace Text

variable {cs before after : List Char}

/-- **Blanks at the ends make no difference to a line that is trimmed.** -/
theorem trimChars_append (hbefore : ∀ c ∈ before, isBlank c = true)
    (hafter : ∀ c ∈ after, isBlank c = true) :
    trimChars (before ++ cs ++ after) = trimChars cs := by
  by_cases hcs : ∀ c ∈ cs, isBlank c = true
  · have hall : ∀ c ∈ before ++ cs ++ after, isBlank c = true :=
      List.forall_mem_append.2 ⟨List.forall_mem_append.2 ⟨hbefore, hcs⟩, hafter⟩
    rw [trimChars_eq_nil.2 hall, trimChars_eq_nil.2 hcs]
  · -- dropping from the front stops within `cs`, so the blanks behind it are dropped from the end
    have hstops : (cs.dropWhile isBlank).isEmpty = false := by
      rw [List.isEmpty_eq_false_iff]
      exact fun hnil => hcs (dropWhile_isBlank_eq_nil.1 hnil)
    have hreverse : ∀ c ∈ after.reverse, isBlank c = true := fun c hc =>
      hafter c (List.mem_reverse.1 hc)
    rw [trimChars, List.append_assoc, List.dropWhile_append_of_pos hbefore, List.dropWhile_append,
      hstops, if_neg Bool.false_ne_true, List.reverse_append,
      List.dropWhile_append_of_pos hreverse, trimChars]

theorem forall_isBlank {s : String} (h : isBlankLine s = true) :
    ∀ c ∈ s.toList, isBlank c = true := List.all_eq_true.1 h

theorem trim_padded {p q : String} (hp : isBlankLine p = true) (hq : isBlankLine q = true)
    (line : String) : trim (p ++ line ++ q) = trim line := by
  rw [trim, String.toList_append, String.toList_append,
    trimChars_append (forall_isBlank hp) (forall_isBlank hq), trim]

end Text

variable {line line' p q : String} {c : Char}

/-! ## Legible blanks -/

/-- The characters that lexemes are written in lie between `+` and `z`. -/
theorem Alphabet.toNat_of_mem {A : Alphabet} (h : c ∈ A) : 43 ≤ c.toNat ∧ c.toNat ≤ 122 := by
  cases A with
  | digits =>
    have hdigit : 48 ≤ c.toNat ∧ c.toNat ≤ 57 := Char.isDigit_iff_toNat.1 h
    omega
  | letters =>
    have hletter := toNat_of_isAlpha h
    omega
  | signs => rcases h with rfl | rfl <;> decide
  | equals =>
    cases h
    decide

/-- Of the blanks the space alone is legible. -/
theorem eq_space_of_isBlank (hblank : Text.isBlank c = true)
    (hlegible : isLegible c = true) : c = ' ' := by
  rcases eq_space_or_mem_of_isLegible hlegible with hspace | ⟨A, hA⟩
  · exact hspace
  · have hrange := Alphabet.toNat_of_mem hA
    simp only [Text.isBlank, Bool.or_eq_true, Bool.and_eq_true, decide_eq_true_eq,
      beq_iff_eq] at hblank
    omega

/-! ## Lines with the same tokens -/

/-- Lines with the same tokens have the same form, and come to the same. -/
theorem outcome_evaluateLine_congr (h : tokenize line' = tokenize line) (table : Table) :
    (evaluateLine line' table).outcome = (evaluateLine line table).outcome := by
  have hform : (Statement.ofLine line').outcome = (Statement.ofLine line).outcome := by
    simp only [Statement.ofLine, Logged.outcome_bind, Logged.outcome_monadLift,
      Logged.outcome_note, Logged.outcome_pure, h]
  cases hs : (Statement.ofLine line).outcome with
  | ok s => rw [outcome_evaluateLine hs, outcome_evaluateLine (hform.trans hs)]
  | error f => rw [outcome_evaluateLine_of_form hs, outcome_evaluateLine_of_form (hform.trans hs)]

/-! ## Padding and the characters of a line -/

/-- Spaces at the ends of a line do not matter to its tokens. -/
theorem tokenize_padded {ts : List Token} (hp : ∀ c ∈ p.toList, c = ' ')
    (hq : ∀ c ∈ q.toList, c = ' ') (h : tokenize line = .ok ts) :
    tokenize (p ++ line ++ q) = .ok ts := by
  have hfront : Loosened line (p ++ line) :=
    ⟨"", p, line, by simp, by simp, hp, fun c hc => by cases hc⟩
  have hend : Loosened (p ++ line) (p ++ line ++ q) :=
    ⟨p ++ line, q, "", by simp, by simp, hq, fun c _ d hd => by cases hd⟩
  exact (tokenize_eq_ok_iff_of_loosened hend).1 ((tokenize_eq_ok_iff_of_loosened hfront).1 h)

/-- Spaces in front do not hide the first illegible character of a line. -/
theorem find?_padded (hp : ∀ c ∈ p.toList, c = ' ')
    (h : line.toList.find? (!isLegible ·) = some c) (q : String) :
    (p ++ line ++ q).toList.find? (!isLegible ·) = some c := by
  have hnone : p.toList.find? (!isLegible ·) = none :=
    List.find?_eq_none.2 fun d hd => by rw [hp d hd]; decide
  rw [String.toList_append, String.toList_append, List.find?_append, List.find?_append, hnone, h]
  rfl

/-- A blank in the padding that is no space is illegible, so there is a first illegible character,
in front of the line, in the line or behind it. -/
theorem exists_find?_padded (hp : Text.isBlankLine p = true) (hq : Text.isBlankLine q = true)
    (hother : ¬ (p.toList ++ q.toList).all (· == ' ') = true) (line : String) :
    ∃ c, (p ++ line ++ q).toList.find? (!isLegible ·) = some c ∧
      ((p.toList.find? (!isLegible ·)).or (line.toList.find? (!isLegible ·))).or
        (q.toList.find? (!isLegible ·)) = some c := by
  cases hfind : (p ++ line ++ q).toList.find? (!isLegible ·) with
  | some c =>
    refine ⟨c, rfl, ?_⟩
    rw [← hfind, String.toList_append, String.toList_append, List.find?_append, List.find?_append]
  | none =>
    refine absurd (List.all_eq_true.2 fun c hc => beq_iff_eq.2 ?_) hother
    have hmem : c ∈ (p ++ line ++ q).toList := by
      simp only [String.toList_append, List.mem_append] at hc ⊢
      exact hc.imp_left Or.inl
    have hlegible := forall_isLegible hfind c hmem
    rcases List.mem_append.1 hc with hc | hc
    · exact eq_space_of_isBlank (Text.forall_isBlank hp c hc) hlegible
    · exact eq_space_of_isBlank (Text.forall_isBlank hq c hc) hlegible

namespace Session

variable {s : Session}

/-! ## The three sorts of line -/

/-- Blanks around a blank line or a command do not matter. -/
theorem handle_of_trim_eq (htrim : Text.trim line' = Text.trim line)
    (h : Text.trim line = "" ∨ (Text.trim line).toList.head? = some '/') (s : Session) :
    s.handle line' = s.handle line := by
  by_cases hb : Text.trim line = ""
  · rw [handle_blank hb, handle_blank (htrim.trans hb)]
  · have hslash := h.resolve_left hb
    obtain ⟨command, hc⟩ : ∃ command, Command.ofLine? line = some command :=
      ⟨_, if_pos hslash⟩
    have hc' : Command.ofLine? line' = some command := by
      rw [← hc, Command.ofLine?, htrim, Command.ofLine?]
    rw [handle_command hc, handle_command hc']

/-- Any other line is evaluated, as it stands. -/
theorem handle_of_trim_ne (h : ¬ (Text.trim line = "" ∨ (Text.trim line).toList.head? = some '/'))
    (s : Session) : s.handle line = s.calculate line :=
  handle_sum (fun hb => h (Or.inl hb)) (if_neg fun hslash => h (Or.inr hslash))

/-- What comes of a line depends on its outcome alone, except for what is recorded. -/
theorem calculate_congr
    (h : (evaluateLine line' s.table).outcome = (evaluateLine line s.table).outcome) :
    (s.calculate line').reply = (s.calculate line).reply ∧
      (s.calculate line').session = (s.calculate line).session := by
  cases ho : (evaluateLine line s.table).outcome with
  | ok a =>
    obtain ⟨hreply, htable⟩ := calculate_of_ok ho
    obtain ⟨hreply', htable'⟩ := calculate_of_ok (h.trans ho)
    exact ⟨hreply'.trans hreply.symm, congrArg Session.mk (htable'.trans htable.symm)⟩
  | error f =>
    obtain ⟨hreply, htable⟩ := calculate_of_error ho
    obtain ⟨hreply', htable'⟩ := calculate_of_error (h.trans ho)
    exact ⟨hreply'.trans hreply.symm, congrArg Session.mk (htable'.trans htable.symm)⟩

/-- A line with an illegible character is answered with the first such character. -/
theorem calculate_of_find? (h : line.toList.find? (!isLegible ·) = some c) :
    (s.calculate line).reply = .text (FormFault.foreignChar c line).message ∧
      (s.calculate line).session = s := by
  have htokens := tokenize_eq_error_iff.2 ⟨c, h, rfl⟩
  have hform := outcome_ofLine_eq_error.2 (Or.inl htokens)
  have ho := outcome_evaluateLine_of_form hform s.table
  obtain ⟨hreply, htable⟩ := calculate_of_error ho
  exact ⟨hreply, congrArg Session.mk htable⟩

/-- Spaces around a line matter only to a fault that quotes the line. -/
theorem calculate_of_spaces (hp : ∀ c ∈ p.toList, c = ' ') (hq : ∀ c ∈ q.toList, c = ' ')
    (s : Session) (line : String) :
    (s.calculate (p ++ line ++ q)).session = (s.calculate line).session ∧
      match line.toList.find? (!isLegible ·) with
      | none => (s.calculate (p ++ line ++ q)).reply = (s.calculate line).reply
      | some c =>
        (s.calculate line).reply = .text (FormFault.foreignChar c line).message ∧
          (s.calculate (p ++ line ++ q)).reply =
            .text (FormFault.foreignChar c (p ++ line ++ q)).message := by
  cases hfind : line.toList.find? (!isLegible ·) with
  | none =>
    obtain ⟨xs, hxs⟩ := exists_cuts (forall_isLegible hfind)
    have htokens := tokenize_of_cuts hxs
    have hpadded := tokenize_padded hp hq htokens
    obtain ⟨hreply, hsession⟩ :=
      calculate_congr (outcome_evaluateLine_congr (hpadded.trans htokens.symm) s.table)
    exact ⟨hsession, hreply⟩
  | some c =>
    obtain ⟨hreply, hsession⟩ := calculate_of_find? (s := s) hfind
    obtain ⟨hreply', hsession'⟩ := calculate_of_find? (s := s) (find?_padded hp hfind q)
    exact ⟨hsession'.trans hsession.symm, hreply, hreply'⟩

/-- **Padding a line.**  Blanks around a line that is blank or a command change nothing.  Around any
other line spaces change nothing, except that a fault which quotes the line quotes them too.  If
there is another blank among them, the line has its first illegible character as its fault: the
first one of the padding in front, or else of the line, or else of the padding behind. -/
theorem handle_padded (hp : Text.isBlankLine p = true) (hq : Text.isBlankLine q = true)
    (s : Session) (line : String) :
    if Text.trim line = "" ∨ (Text.trim line).toList.head? = some '/' then
      (s.handle (p ++ line ++ q)).reply = (s.handle line).reply ∧
        (s.handle (p ++ line ++ q)).session = (s.handle line).session
    else if (p.toList ++ q.toList).all (· == ' ') then
      (s.handle (p ++ line ++ q)).session = (s.handle line).session ∧
        match line.toList.find? (!isLegible ·) with
        | none => (s.handle (p ++ line ++ q)).reply = (s.handle line).reply
        | some c =>
          (s.handle line).reply = .text (FormFault.foreignChar c line).message ∧
            (s.handle (p ++ line ++ q)).reply =
              .text (FormFault.foreignChar c (p ++ line ++ q)).message
    else
      ∃ c, (p ++ line ++ q).toList.find? (!isLegible ·) = some c ∧
        ((p.toList.find? (!isLegible ·)).or (line.toList.find? (!isLegible ·))).or
          (q.toList.find? (!isLegible ·)) = some c ∧
        (s.handle (p ++ line ++ q)).reply =
          .text (FormFault.foreignChar c (p ++ line ++ q)).message ∧
        (s.handle (p ++ line ++ q)).session = s := by
  have htrim := Text.trim_padded hp hq line
  split
  next hline =>
    rw [handle_of_trim_eq htrim hline]
    exact ⟨rfl, rfl⟩
  next hline =>
    rw [handle_of_trim_ne hline, handle_of_trim_ne (htrim ▸ hline)]
    split
    next hall =>
      have hspaces : ∀ c ∈ p.toList ++ q.toList, c = ' ' := fun c hc =>
        beq_iff_eq.1 (List.all_eq_true.1 hall c hc)
      exact calculate_of_spaces (fun c hc => hspaces c (List.mem_append_left _ hc))
        (fun c hc => hspaces c (List.mem_append_right _ hc)) s line
    next hother =>
      obtain ⟨c, hfind, hfirst⟩ := exists_find?_padded hp hq hother line
      exact ⟨c, hfind, hfirst, calculate_of_find? hfind⟩

/-- A tab behind `x = 5` is a fault of the line, and behind `/vars` it is not. -/
theorem handle_padded_of_tab :
    Text.isBlankLine " " = true ∧ Text.isBlankLine "\t" = true ∧
      (handle {} " x = 5\t").reply = .text (FormFault.foreignChar '\t' " x = 5\t").message ∧
      (handle {} " x = 5\t").session = {} ∧
      (handle {} " /vars\t").reply = (handle {} "/vars").reply := by
  have hspace : Text.isBlankLine " " = true := by decide
  have htab : Text.isBlankLine "\t" = true := by decide
  have hsum := handle_padded hspace htab {} "x = 5"
  rw [if_neg (by decide +kernel), if_neg (by decide +kernel)] at hsum
  obtain ⟨c, hfind, -, hreply, hsession⟩ := hsum
  have hcommand := handle_padded hspace htab {} "/vars"
  rw [if_pos (by decide +kernel)] at hcommand
  obtain rfl : c = '\t' := Option.some.inj (hfind.symm.trans (by decide +kernel))
  exact ⟨hspace, htab, hreply, hsession, hcommand.1⟩

end Session
end SignedSum
