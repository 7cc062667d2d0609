/-
# Replies in plain characters

A text is plain if all its characters are printable characters of ASCII.  The words of a line are
plain, and so are names, decimal texts and all that a reply puts around them.  Therefore every
reply is plain, with one exception: the fault of a foreign character quotes the line as it is.

* `plain_or_quotes`: the fault of a line.
* `Session.plain_or_quotes_of_reply`: the reply to a line, after any lines.
* `Session.newline_notMem_of_reply`: so a reply goes over several lines only if the line does.
* `Session.Replies.text_ne_empty`: no reply is empty.
-/
import SignedSum.Proofs.Lexemes
import SignedSum.Proofs.LineValue
import SignedSum.Proofs.SessionReplies

namespace SignedSum

/-! ## Plain texts -/

namespace Text

/-- The printable characters of ASCII. -/
def isPrintable (c : Char) : Bool := 32 ≤ c.toNat && c.toNat ≤ 126

/-- The text consists of printable characters of ASCII. -/
def Plain (s : String) : Prop := ∀ c ∈ s.toList, isPrintable c = true

variable {s t : String}

/-- A literal is the text of its characters, so it is enough to look at these. -/
theorem plain_ofList {cs : List Char} (h : cs.all isPrintable = true) :
    Plain (String.ofList cs) := by
  intro c hc
  rw [String.toList_ofList] at hc
  exact List.all_eq_true.1 h c hc

theorem Plain.append (hs : Plain s) (ht : Plain t) : Plain (s ++ t) := by
  intro c hc
  rw [String.toList_append, List.mem_append] at hc
  exact hc.elim (hs c) (ht c)

theorem Plain.intercalate {l : List String} (hs : Plain s) (hl : ∀ t ∈ l, Plain t) :
    Plain (s.intercalate l) := by
  induction l with
  | nil =>
    rw [String.intercalate_nil]
    exact plain_ofList rfl
  | cons t l ih =>
    obtain ⟨ht, hl⟩ := List.forall_mem_cons.1 hl
    cases l with
    | nil => rwa [String.intercalate_singleton]
    | cons u l =>
      rw [String.intercalate_cons_cons]
      exact (ht.append hs).append (ih hl)

/-- The newline character is not printable. -/
theorem Plain.newline_notMem (h : Plain s) : '\n' ∉ s.toList := by
  intro hmem
  exact absurd (h '\n' hmem) (by decide)

theorem isPrintable_of_isAlpha {c : Char} (h : c.isAlpha = true) : isPrintable c = true := by
  have hletter := toNat_of_isAlpha h
  simp only [isPrintable, Bool.and_eq_true, decide_eq_true_eq]
  omega

theorem isPrintable_of_isDigit {c : Char} (h : c.isDigit = true) : isPrintable c = true := by
  have hdigit : 48 ≤ c.toNat ∧ c.toNat ≤ 57 := Char.isDigit_iff_toNat.1 h
  simp only [isPrintable, Bool.and_eq_true, decide_eq_true_eq]
  omega

end Text

open Text (Plain isPrintable_of_isAlpha isPrintable_of_isDigit)

theorem plain_of_isName {name : String} (h : IsName name) : Plain name :=
  fun c hc => isPrintable_of_isAlpha (h.2 c hc)

theorem plain_of_isNumeral {digits : String} (h : IsNumeral digits) : Plain digits :=
  fun c hc => isPrintable_of_isDigit (h.2 c hc)

theorem Sign.plain_symbol (s : Sign) : Plain (String.singleton s.symbol) := by
  intro c hc
  rw [String.toList_singleton, List.mem_singleton] at hc
  subst hc
  cases s <;> rfl

theorem Token.Canonical.plain {t : Token} (h : t.Canonical) : Plain t.text := by
  cases hk : t.kind <;> rw [Token.Canonical, hk] at h
  case numeral => exact plain_of_isNumeral h
  case name => exact plain_of_isName h
  case sign s => exact h ▸ s.plain_symbol
  case equals => exact h ▸ Text.plain_ofList rfl
  case foreign => exact h.elim

theorem Value.plain_text (v : Value) : Plain v.text := by
  intro c hc
  rw [Value.toList_text] at hc
  rcases Decimal.isDigit_or_eq_minus_of_mem_print hc with hdigit | rfl
  · exact isPrintable_of_isDigit hdigit
  · decide

/-! ## Faults -/

variable {ts : List Token} {t : Token} {line : String} {table : Table} {s : Statement}
  {S : GappedSum}

theorem plain_lastWord (h : ∀ u ∈ ts, u.Canonical) : Plain (lastWord ts) := by
  unfold lastWord
  cases hlast : ts.getLast? with
  | none => exact Text.plain_ofList rfl
  | some u => exact (h u (List.mem_of_getLast? hlast)).plain

theorem Violates.plain_message {f : FormFault} (h : Violates ts t f)
    (hts : ∀ u ∈ ts, u.Canonical) (ht : t.Canonical) : Plain f.message := by
  cases h with
  | foreignToken hk => exact absurd hk ht.kind_ne_foreign
  | secondEquals => exact Text.plain_ofList rfl
  | misplacedEquals =>
    have hfound := (plain_lastWord hts).append ht.plain
    exact (Text.Plain.append (Text.plain_ofList rfl) hfound).append (Text.plain_ofList rfl)
  | missingSign _ hu _ =>
    have hfound := (hts _ (List.mem_of_getLast? hu)).plain.append ht.plain
    exact (Text.Plain.append (Text.plain_ofList rfl) hfound).append (Text.plain_ofList rfl)

theorem Excess.plain_text_step (o : Sign) (left right : Value) :
    Plain (Excess.step o left right).text :=
  (((left.plain_text.append (Text.plain_ofList rfl)).append o.plain_symbol).append
    (Text.plain_ofList rfl)).append right.plain_text

theorem ValueFault.plain_outOfRange {cause : Excess} (h : Plain cause.text) :
    Plain (ValueFault.outOfRange cause).message :=
  Text.Plain.append (Text.plain_ofList rfl) h

theorem GappedSum.LinkFault.plain_message {l : Link} {f : ValueFault}
    (h : LinkFault table S l f) : Plain f.message := by
  cases h with
  | @literal _ digits hd _ => exact ValueFault.plain_outOfRange (plain_of_isNumeral hd)
  | @operand o _ left right =>
    exact ValueFault.plain_outOfRange (Excess.plain_text_step o left right)
  | @turn o right => exact ValueFault.plain_outOfRange (Excess.plain_text_step o .zero right)
  | @gap o _ =>
    have hdetail : Plain (Imbalance.missingOperand (String.singleton o.symbol)).detail :=
      (Text.Plain.append (Text.plain_ofList rfl) o.plain_symbol).append (Text.plain_ofList rfl)
    exact Text.Plain.append (Text.plain_ofList rfl) hdetail

theorem GappedSum.FirstFault.plain_message {f : ValueFault} (h : S.FirstFault table f) :
    Plain f.message := by
  rcases h with ⟨digits, hd, -, -, rfl⟩ | ⟨before, l, after, -, -, h⟩
  · exact ValueFault.plain_outOfRange (plain_of_isNumeral hd)
  · exact h.plain_message

theorem canonical_of_mem_operands (hs : (Statement.ofLine line).outcome = .ok s)
    (ht : t ∈ s.operands) : t.Canonical := by
  refine canonical_of_tokenize (outcome_ofLine.1 hs).1 t ?_
  unfold Statement.operands at ht
  split at ht
  · exact List.mem_of_mem_drop ht
  · exact ht

/-- **The fault of a line is told in plain characters**, or it quotes the line. -/
theorem plain_or_quotes {f : Fault} (h : (evaluateLine line table).outcome = .error f) :
    Plain f.message ∨ ∃ c ∈ line.toList, f = .form (.foreignChar c line) := by
  cases hs : (Statement.ofLine line).outcome with
  | error g =>
    rw [outcome_evaluateLine_of_form hs] at h
    obtain rfl := Except.error.inj h
    rcases outcome_ofLine_eq_error.1 hs with hg | ⟨tokens, htokens, hg⟩
    · obtain ⟨c, hc, rfl⟩ := tokenize_eq_error_iff.1 hg
      exact Or.inr ⟨c, List.mem_of_find?_eq_some hc, rfl⟩
    · have hcanonical := canonical_of_tokenize htokens
      obtain ⟨before, t, after, rfl, -, hviolates⟩ := checkShape_eq_error_iff.1 hg
      refine Or.inl (hviolates.plain_message (fun u hu => hcanonical u ?_) (hcanonical t ?_))
      · exact List.mem_append_left _ hu
      · exact List.mem_append_right _ List.mem_cons_self
  | ok s =>
    rw [outcome_evaluateLine hs, mapError_eq_error] at h
    obtain ⟨g, hg, rfl⟩ := h
    obtain ⟨S, hS⟩ := exists_tokens_eq_operands hs
    left
    rcases outcome_evaluate_cases hS hg with ⟨t, ht, rfl⟩ | rfl | hfirst
    · exact Text.Plain.append (Text.plain_ofList rfl) (canonical_of_mem_operands hs ht).plain
    · exact Text.plain_ofList rfl
    · exact hfirst.plain_message

/-! ## Replies -/

theorem plain_equation {name : String} (h : IsName name) (v : Value) :
    Plain (name ++ " = " ++ v.text) :=
  ((plain_of_isName h).append (Text.plain_ofList rfl)).append v.plain_text

theorem Answer.plain_text {a : Answer} (h : ∀ name ∈ a.name, IsName name) : Plain a.text := by
  obtain ⟨v, name⟩ := a
  cases name with
  | none => exact v.plain_text
  | some name => exact plain_equation (h name rfl) v

theorem Table.plain_text (h : ∀ name ∈ table.names, IsName name) : Plain table.text := by
  unfold Table.text
  split
  · exact Text.plain_ofList rfl
  · have hentries : ∀ text ∈ table.entries.map (fun e => e.1 ++ " = " ++ e.2.text),
        Plain text := by
      intro text htext
      obtain ⟨e, he, rfl⟩ := List.mem_map.1 htext
      exact plain_equation (h e.1 (List.mem_map_of_mem he)) e.2
    exact Text.Plain.append (Text.plain_ofList rfl)
      (Text.Plain.intercalate (Text.plain_ofList rfl) hentries)

/-! ### No reply is empty -/

theorem Value.text_ne_empty (v : Value) : v.text ≠ "" := by
  intro h
  exact Decimal.print_ne_nil v.toInt (by rw [← v.toList_text, h]; rfl)

theorem Answer.text_ne_empty (a : Answer) : a.text ≠ "" := by
  obtain ⟨v, name⟩ := a
  cases name with
  | none => exact v.text_ne_empty
  | some name => simp [Answer.text, v.text_ne_empty]

theorem Table.text_ne_empty (table : Table) : table.text ≠ "" := by
  unfold Table.text
  split <;> simp

theorem Fault.message_ne_empty (f : Fault) : f.message ≠ "" := by
  intro h
  have hlength := (Session.showsOther_message f).1
  rw [h] at hlength
  exact absurd hlength (by decide)

theorem Session.helpText_ne_empty : helpText ≠ "" := by
  intro h
  obtain ⟨-, hlast⟩ := String.append_eq_empty_iff.1 h
  simp at hlast

/-! ### The reply to a line -/

namespace Session

variable {session : Session} {reply : Reply} {text : String} {lines : List String}

theorem isName_of_mem_names (lines : List String) :
    ∀ name ∈ (after {} lines).table.names, IsName name := by
  rw [table_after_eq_ofList]
  exact (Table.keeps_ofList fun e he => isName_of_mem_assignments lines he).isName

theorem plain_helpText : Plain helpText :=
  (Text.Plain.append (Text.plain_ofList rfl) (Text.plain_ofList rfl)).append (Text.plain_ofList rfl)

theorem Replies.plain_or_quotes (h : session.Replies line reply)
    (hnames : ∀ name ∈ session.table.names, IsName name) (htext : reply = .text text) :
    Plain text ∨ ∃ c ∈ line.toList, text = (FormFault.foreignChar c line).message := by
  cases h with
  | blank => cases htext
  | command =>
    left
    rcases eq_of_reply_obey htext with rfl | rfl | rfl
    · exact plain_helpText
    · exact Table.plain_text hnames
    · exact Text.plain_ofList rfl
  | @answer a _ _ ho =>
    cases htext
    refine Or.inl (Answer.plain_text fun name hname => ?_)
    obtain ⟨v, name'⟩ := a
    cases hname
    exact isName_of_evaluateLine ho
  | @fault f _ _ ho =>
    cases htext
    refine (SignedSum.plain_or_quotes ho).imp_right ?_
    rintro ⟨c, hc, rfl⟩
    exact ⟨c, hc, rfl⟩

theorem Replies.text_ne_empty (h : session.Replies line reply) (htext : reply = .text text) :
    text ≠ "" := by
  cases h with
  | blank => cases htext
  | command =>
    rcases eq_of_reply_obey htext with rfl | rfl | rfl
    · exact helpText_ne_empty
    · exact session.table.text_ne_empty
    · decide
  | @answer a _ _ _ =>
    cases htext
    exact a.text_ne_empty
  | @fault f _ _ _ =>
    cases htext
    exact f.message_ne_empty

/-- **Every reply is plain**, or it quotes the line. -/
theorem plain_or_quotes_of_reply (h : ((after {} lines).handle line).reply = .text text) :
    Plain text ∨ ∃ c ∈ line.toList, text = (FormFault.foreignChar c line).message :=
  ((after {} lines).replies_handle line).plain_or_quotes (isName_of_mem_names lines) h

/-- **The reply to a line is on one line too.** -/
theorem newline_notMem_of_reply (hline : '\n' ∉ line.toList)
    (h : ((after {} lines).handle line).reply = .text text) : '\n' ∉ text.toList := by
  rcases plain_or_quotes_of_reply h with hplain | ⟨c, hc, rfl⟩
  · exact hplain.newline_notMem
  · -- only the character and the line itself are quoted
    have hmessage : (FormFault.foreignChar c line).message =
      "Unsupported character '" ++ String.singleton c ++ "' in expression: " ++ line := rfl
    intro hmem
    simp only [hmessage, String.toList_append, List.mem_append] at hmem
    rcases hmem with ((hmem | hmem) | hmem) | hmem
    · exact Text.Plain.newline_notMem (Text.plain_ofList rfl) hmem
    · rw [String.toList_singleton, List.mem_singleton] at hmem
      exact hline (hmem ▸ hc)
    · exact Text.Plain.newline_notMem (Text.plain_ofList rfl) hmem
    · exact hline hmem

end Session
end SignedSum
