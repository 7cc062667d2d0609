/-
# Tokens and their spaced text

Some tokens are written as a text with one space between each two of them.  The log shows the
tokens of a line in this way, and the text is a line too.

Cutting the text into lexemes gives the tokens back, if they are canonical: the spaces keep
neighbours apart that would otherwise run together, such as two signs, or digits and letters, and
a lexeme that is a single sign stands for that sign.  Tokens of a line are canonical, so a line
and the text that its tokens are written as have the same tokens, the same form and the same value.

* `cuts_spaced`, `tokenize_spaced`: canonical tokens are those of their spaced text.
* `respelled_respelled`: spelling a line anew a second time changes nothing.
* `spaced_text_reads_back`: a line that has a form is recorded with such a text, which has the form
  as well and evaluates to the same on every table.
-/
import SignedSum.Proofs.Assignment

namespace SignedSum

variable {t u : Token} {ts : List Token} {line : String} {s : Statement}

/-! ## Lexemes of canonical tokens -/

/-- The lexeme of a numeral. -/
def Lexeme.ofNumeral {digits : String} (h : IsNumeral digits) : Lexeme where
  alphabet := .digits
  chars := digits.toList
  ne_nil := fun hnil => h.1 (String.toList_eq_nil_iff.1 hnil)
  mem := h.2

/-- The lexeme of a single sign. -/
def Lexeme.ofSign (o : Sign) : Lexeme where
  alphabet := .signs
  chars := [o.symbol]
  ne_nil := List.cons_ne_nil _ _
  mem := List.forall_mem_singleton.2 (by cases o <;> decide)

/-- A canonical token is that of a lexeme, which is written as the token is. -/
theorem Token.Canonical.exists_lexeme (h : t.Canonical) :
    ∃ x : Lexeme, x.chars = t.text.toList ∧ x.token = t := by
  obtain ⟨kind, text⟩ := t
  cases kind with
  | numeral => exact ⟨.ofNumeral h, rfl, by simp [Lexeme.token, Lexeme.ofNumeral]⟩
  | name => exact ⟨.ofName h, rfl, by simp [Lexeme.token, Lexeme.ofName]⟩
  | sign o =>
    rw [h.eq_ofSign rfl]
    refine ⟨.ofSign o, ?_, ?_⟩
    · simp [Lexeme.ofSign, ofSign]
    · cases o <;> rfl
  | equals =>
    have htext : text = "=" := h
    subst htext
    exact ⟨.equalsSign, rfl, rfl⟩
  | foreign => exact h.elim

/-! ## Spaced tokens -/

theorem toList_spaced_cons : (Token.spaced (t :: u :: ts)).toList =
    t.text.toList ++ ' ' :: (Token.spaced (u :: ts)).toList := by
  simp [Token.spaced, String.intercalate_cons_cons]

/-- The text of canonical tokens is cut into the lexemes of the tokens. -/
theorem cuts_spaced (h : ∀ t ∈ ts, t.Canonical) :
    ∃ xs, Cuts (Token.spaced ts).toList xs ∧ xs.map Lexeme.token = ts := by
  induction ts with
  | nil => exact ⟨[], .nil, rfl⟩
  | cons t ts ih =>
    obtain ⟨ht, hts⟩ := List.forall_mem_cons.1 h
    obtain ⟨x, hchars, htoken⟩ := ht.exists_lexeme
    cases ts with
    | nil =>
      refine ⟨[x], ?_, by rw [List.map_singleton, htoken]⟩
      rw [Token.spaced, List.map_singleton, String.intercalate_singleton, ← hchars]
      exact Cuts.singleton x
    | cons u ts =>
      -- the space in front of the next token ends the lexeme of this one
      obtain ⟨xs, hxs, hmap⟩ := ih hts
      refine ⟨x :: xs, ?_, by rw [List.map_cons, htoken, hmap]⟩
      rw [toList_spaced_cons, ← hchars]
      exact Cuts.lexeme Lexeme.endsBefore_space hxs.space

/-- **Canonical tokens are read back from their spaced text.** -/
theorem tokenize_spaced (h : ∀ t ∈ ts, t.Canonical) : tokenize (Token.spaced ts) = .ok ts := by
  obtain ⟨xs, hxs, hmap⟩ := cuts_spaced h
  exact tokenize_eq_ok_iff.2 ⟨xs, hxs, hmap.symm⟩

/-! ## Lines spelled anew -/

/-- The line spelled anew: the text of its tokens, with one space between each two. -/
def respelled (line : String) : Except FormFault String := (tokenize line).map Token.spaced

/-- **Spelling a line anew a second time changes nothing.** -/
theorem respelled_respelled (line : String) : respelled line >>= respelled = respelled line := by
  unfold respelled
  cases h : tokenize line with
  | error f => rfl
  | ok ts =>
    show (tokenize (Token.spaced ts)).map Token.spaced = _
    rw [tokenize_spaced (canonical_of_tokenize h)]

/-- The text that a form is recorded with has the same form. -/
theorem outcome_ofLine_spaced (h : (Statement.ofLine line).outcome = .ok s) :
    (Statement.ofLine (Token.spaced s.tokens)).outcome = .ok s := by
  obtain ⟨htokens, hshape⟩ := outcome_ofLine.1 h
  exact outcome_ofLine.2 ⟨tokenize_spaced (canonical_of_tokenize htokens), hshape⟩

/-- **Tokens and their spaced text say the same.**  The tokens of every line are canonical, and
canonical tokens are read back from their text, so a line that has been spelled anew stays as it is.
A line that has a form is recorded with the text of its tokens; this text has the same form, that
is, the same tokens with the same target, and comes to the same on every table. -/
theorem spaced_text_reads_back :
    (∀ line ts, tokenize line = .ok ts → ∀ t ∈ ts, t.Canonical) ∧
    (∀ ts, (∀ t ∈ ts, t.Canonical) → tokenize (Token.spaced ts) = .ok ts) ∧
    (∀ line, respelled line >>= respelled = respelled line) ∧
    ∀ line s, (Statement.ofLine line).outcome = .ok s →
      ∃ text, text = Token.spaced s.tokens ∧
        (Statement.ofLine line).log = [.parsed line text (s.target.map (·.name))] ∧
        (Statement.ofLine text).outcome = .ok s ∧
        ∀ table, (evaluateLine text table).outcome = (evaluateLine line table).outcome := by
  refine ⟨fun line ts => canonical_of_tokenize, fun ts => tokenize_spaced, respelled_respelled,
    fun line s h => ⟨_, rfl, log_ofLine_of_ok h, outcome_ofLine_spaced h, fun table => ?_⟩⟩
  rw [outcome_evaluateLine h, outcome_evaluateLine (outcome_ofLine_spaced h)]

/-- In `x=7 - -+-  2` two signs stand side by side; the second one is written as a run, with two
spaces behind it. -/
theorem spaced_text_reads_back_of_signs :
    ∃ s, (Statement.ofLine "x=7 - -+-  2").outcome = .ok s ∧
      Token.spaced s.tokens = "x = 7 - + 2" ∧ tokenize "x = 7 - + 2" = .ok s.tokens ∧
      (Statement.ofLine "x = 7 - + 2").outcome = .ok s ∧
      (evaluateLine "x = 7 - + 2" ∅).outcome = (evaluateLine "x=7 - -+-  2" ∅).outcome := by
  have hline : (Statement.ofLine "x=7 - -+-  2").outcome = .ok ⟨[⟨.name, "x"⟩, .equalsSign,
      ⟨.numeral, "7"⟩, .ofSign .minus, .ofSign .plus, ⟨.numeral, "2"⟩], some ⟨"x", 2⟩⟩ := by
    decide +kernel
  obtain ⟨hcanonical, hread, -, hforms⟩ := spaced_text_reads_back
  have htokens := hread _ (hcanonical _ _ (outcome_ofLine.1 hline).1)
  obtain ⟨text, rfl, -, hform, hvalue⟩ := hforms _ _ hline
  exact ⟨_, hline, by decide +kernel, htokens, hform, hvalue ∅⟩

end SignedSum
