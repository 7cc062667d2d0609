/-
# The tokens of a line

A line is cut into runs, and since the characters of a run all have the group of its first one,
each run of a line stands for at most one token: digits and letters for themselves, signs for
their product, equals signs for one equals sign, spaces for nothing.  `tokensOfRun` is that
reading of a run, without faults.

The main statement, `tokenize_eq`, is that a line fails exactly if it holds a character of no
group, with the first such character as its fault, and otherwise has the tokens of its runs, in
order.  So the text of every token of a line is a way to write something of its kind; such a
token is called canonical.
-/
import SignedSum.Proofs.FirstFailure
import SignedSum.Proofs.OperatorRuns
import Mathlib.Data.List.SplitBy

namespace SignedSum

/-! ## Canonical tokens -/

/-- A string of at least one character, all of them with the property `p`. -/
def IsWord (p : Char → Bool) (s : String) : Prop := s ≠ "" ∧ ∀ c ∈ s.toList, p c = true

instance (p : Char → Bool) (s : String) : Decidable (IsWord p s) :=
  decidable_of_iff (s ≠ "" ∧ s.toList.all p = true) (by rw [IsWord, List.all_eq_true])

/-- A nonempty string of ASCII digits. -/
abbrev IsNumeral (s : String) : Prop := IsWord Char.isDigit s

/-- A nonempty string of ASCII letters. -/
abbrev IsName (s : String) : Prop := IsWord Char.isAlpha s

namespace Token

/-- The token of a sign. -/
def ofSign (s : Sign) : Token := ⟨.sign s, String.singleton s.symbol⟩

/-- The token of an equals sign. -/
def equalsSign : Token := ⟨.equals, "="⟩

@[simp] theorem kind_ofSign (s : Sign) : (ofSign s).kind = .sign s := rfl

/-- The text of the token is a way to write something of its kind.  No text is a way to write a
foreign word. -/
def Canonical (t : Token) : Prop :=
  match t.kind with
  | .numeral => IsNumeral t.text
  | .name => IsName t.text
  | .sign s => t.text = String.singleton s.symbol
  | .equals => t.text = "="
  | .foreign => False

variable {t : Token} {s : Sign}

theorem Canonical.isNumeral (h : t.Canonical) (hk : t.kind = .numeral) : IsNumeral t.text := by
  rwa [Canonical, hk] at h

theorem Canonical.isName (h : t.Canonical) (hk : t.kind = .name) : IsName t.text := by
  rwa [Canonical, hk] at h

theorem Canonical.eq_ofSign (h : t.Canonical) (hk : t.kind = .sign s) : t = ofSign s := by
  obtain ⟨kind, text⟩ := t
  subst hk
  have ht : text = String.singleton s.symbol := h
  rw [ht, ofSign]

theorem Canonical.kind_ne_foreign (h : t.Canonical) : t.kind ≠ .foreign := by
  intro hk
  rw [Canonical, hk] at h
  exact h

end Token

/-! ## Runs -/

/-- The characters have one group, and there is at least one of them. -/
def Uniform (g : Group) (run : List Char) : Prop := run ≠ [] ∧ ∀ c ∈ run, Group.ofChar c = g

/-- All characters of a run of a line have one group. -/
theorem exists_uniform_of_mem_runs {run cs : List Char} (h : run ∈ runs cs) :
    ∃ g, Uniform g run := by
  have hne : run ≠ [] := List.ne_nil_of_mem_splitBy h
  have hchain : run.IsChain fun c d => Group.ofChar c = Group.ofChar d :=
    (List.isChain_of_mem_splitBy h).imp fun c d hcd => (of_decide_eq_true hcd).1
  cases run with
  | nil => exact absurd rfl hne
  | cons c rest =>
    refine ⟨Group.ofChar c, hne, ?_⟩
    -- every character has the group of the one before it
    clear h hne
    induction rest generalizing c with
    | nil => simp
    | cons d rest ih =>
      rw [List.isChain_cons_cons] at hchain
      intro e he
      rcases List.mem_cons.1 he with rfl | he
      · rfl
      · rw [ih d hchain.2 e he, hchain.1]

theorem isDigit_of_group {c : Char} (h : Group.ofChar c = .digit) : c.isDigit = true := by
  unfold Group.ofChar at h
  grind

theorem isAlpha_of_group {c : Char} (h : Group.ofChar c = .letter) : c.isAlpha = true := by
  unfold Group.ofChar at h
  grind

/-- The letters lie between the digits and the characters beyond ASCII. -/
theorem toNat_of_isAlpha {c : Char} (h : c.isAlpha = true) : 65 ≤ c.toNat ∧ c.toNat ≤ 122 := by
  rcases Bool.or_eq_true_iff.1 h with hupper | hlower
  · obtain ⟨hfirst, hlast⟩ := of_decide_eq_true hupper
    exact ⟨UInt32.le_iff_toNat_le.1 hfirst, le_trans (UInt32.le_iff_toNat_le.1 hlast) (by decide)⟩
  · obtain ⟨hfirst, hlast⟩ := Bool.and_eq_true_iff.1 hlower
    exact ⟨le_trans (by decide) (UInt32.le_iff_toNat_le.1 (of_decide_eq_true hfirst)),
      UInt32.le_iff_toNat_le.1 (of_decide_eq_true hlast)⟩

theorem isAlpha_eq_false_of_isDigit {c : Char} (h : c.isDigit = true) : c.isAlpha = false := by
  have hdigit : c.toNat ≤ 57 := (Char.isDigit_iff_toNat.1 h).2
  rw [Bool.eq_false_iff]
  intro halpha
  have hletter := (toNat_of_isAlpha halpha).1
  omega

theorem eq_plus_or_minus_of_group {c : Char} (h : Group.ofChar c = .sign) :
    c = '+' ∨ c = '-' := by
  unfold Group.ofChar at h
  grind

theorem eq_equals_of_group {c : Char} (h : Group.ofChar c = .equals) : c = '=' := by
  unfold Group.ofChar at h
  grind

/-- The tokens that a run of characters of the group stands for. -/
def Group.tokens (g : Group) (run : List Char) : List Token :=
  match g with
  | .digit => [⟨.numeral, String.ofList run⟩]
  | .letter => [⟨.name, String.ofList run⟩]
  | .sign => [.ofSign (Sign.ofRun run)]
  | .equals => [.equalsSign]
  | .space | .foreign => []

/-- The tokens that a run stands for, by the group of its first character. -/
def tokensOfRun (run : List Char) : List Token :=
  match run with
  | [] => []
  | c :: _ => (Group.ofChar c).tokens run

theorem tokensOfRun_eq {g : Group} {run : List Char} (h : Uniform g run) :
    tokensOfRun run = g.tokens run := by
  cases run with
  | nil => exact absurd rfl h.1
  | cons c rest => rw [tokensOfRun, h.2 c List.mem_cons_self]

theorem Uniform.isSignRun {run : List Char} (h : Uniform .sign run) : IsSignRun run :=
  fun c hc => eq_plus_or_minus_of_group (h.2 c hc)

theorem Uniform.isEqualsRun {run : List Char} (h : Uniform .equals run) : IsEqualsRun run :=
  ⟨h.1, fun c hc => eq_equals_of_group (h.2 c hc)⟩

/-- Of characters that belong nowhere, which are of no kind, the fault names the first one. -/
theorem FormFault.ofRun_of_foreign {run : List Char} (h : Uniform .foreign run) (line : String) :
    FormFault.ofRun line run = .foreignChar (run.head h.1) line := by
  cases run with
  | nil => exact absurd rfl h.1
  | cons c rest =>
    have hc : Kind.ofChar c = .foreign := Group.kind_of_foreign (h.2 c List.mem_cons_self)
    rw [FormFault.ofRun, List.find?_cons_of_pos (by simpa using hc)]
    rfl

/-- A run of one group stands for tokens, unless the group is that of the characters that belong
nowhere; then its first character is a fault.  Every operator that a run stands for has a token. -/
theorem ofRun_eq {g : Group} {run : List Char} (h : Uniform g run) (line : String) :
    Token.ofRun line run =
      if g = .foreign then .error (.foreignChar (run.head h.1) line)
      else .ok (tokensOfRun run) := by
  rw [tokensOfRun_eq h]
  cases run with
  | nil => exact absurd rfl h.1
  | cons c rest =>
    have hc : Group.ofChar c = g := h.2 c List.mem_cons_self
    simp only [Token.ofRun, hc]
    cases g with
    | digit | letter | space => rfl
    | foreign =>
      rw [if_pos rfl]
      exact congrArg Except.error (FormFault.ofRun_of_foreign h line)
    | sign =>
      rw [Kind.ofRun_of_signs h.isSignRun]
      rfl
    | equals =>
      rw [Kind.ofRun_of_equals h.isEqualsRun]
      rfl

/-! ## Lines -/

/-- The tokens of a list of runs, each of one group. -/
theorem mapM_ofRun {l : List (List Char)} (h : ∀ run ∈ l, ∃ g, Uniform g run) (line : String) :
    l.mapM (Token.ofRun line) =
      match l.flatten.find? (Group.ofChar · = .foreign) with
      | some c => .error (.foreignChar c line)
      | none => .ok (l.map tokensOfRun) := by
  induction l with
  | nil => rfl
  | cons run rest ih =>
    obtain ⟨g, hg⟩ := h run List.mem_cons_self
    have ih := ih fun r hr => h r (List.mem_cons_of_mem _ hr)
    rw [List.mapM_cons, ofRun_eq hg, List.flatten_cons, List.find?_append]
    by_cases hf : g = .foreign
    · -- the run is the first one with such characters, so the fault names its first character
      have hfirst : run.find? (Group.ofChar · = .foreign) = some (run.head hg.1) := by
        cases run with
        | nil => exact absurd rfl hg.1
        | cons c cs =>
          rw [List.find?_cons_of_pos (by simp [hg.2 c List.mem_cons_self, hf])]
          rfl
      rw [if_pos hf, hfirst]
      rfl
    · have hnone : run.find? (Group.ofChar · = .foreign) = none := by
        rw [List.find?_eq_none]
        intro c hc
        simp [hg.2 c hc, hf]
      rw [if_neg hf, hnone, Option.none_or, ih]
      cases rest.flatten.find? (Group.ofChar · = .foreign) <;> rfl

/-- **The tokens of a line are those of its runs, in order**, unless a character of the line
belongs to no group; then the first such character is its fault. -/
theorem tokenize_eq (line : String) :
    tokenize line =
      match line.toList.find? (Group.ofChar · = .foreign) with
      | some c => .error (.foreignChar c line)
      | none => .ok ((runs line.toList).flatMap tokensOfRun) := by
  have hruns : (runs line.toList).flatten = line.toList := List.flatten_splitBy _ _
  rw [tokenize, mapM_ofRun fun run hrun => exists_uniform_of_mem_runs hrun, hruns]
  cases line.toList.find? (Group.ofChar · = .foreign) <;> rfl

theorem eq_flatMap_of_tokenize {line : String} {ts : List Token} (h : tokenize line = .ok ts) :
    ts = (runs line.toList).flatMap tokensOfRun := by
  rw [tokenize_eq] at h
  split at h
  · cases h
  · exact (Except.ok.inj h).symm

/-- The fault of a line without tokens names a character. -/
theorem eq_foreignChar_of_tokenize {line : String} {f : FormFault}
    (h : tokenize line = .error f) : ∃ c, f = .foreignChar c line := by
  rw [tokenize_eq] at h
  split at h
  · exact ⟨_, (Except.error.inj h).symm⟩
  · cases h

/-! ## The tokens of a line are canonical -/

theorem isWord_ofList {p : Char → Bool} {run : List Char} (hne : run ≠ [])
    (h : ∀ c ∈ run, p c = true) : IsWord p (String.ofList run) := by
  refine ⟨fun he => hne ?_, fun c hc => h c (by simpa using hc)⟩
  simpa using congrArg String.toList he

theorem canonical_of_mem_tokensOfRun {g : Group} {run : List Char} {t : Token}
    (h : Uniform g run) (ht : t ∈ tokensOfRun run) : t.Canonical := by
  rw [tokensOfRun_eq h] at ht
  cases g <;> simp only [Group.tokens, List.mem_singleton, List.not_mem_nil] at ht <;> subst ht
  case digit => exact isWord_ofList h.1 fun d hd => isDigit_of_group (h.2 d hd)
  case letter => exact isWord_ofList h.1 fun d hd => isAlpha_of_group (h.2 d hd)
  case sign | equals => rfl

/-- **Every token of a line is canonical.** -/
theorem canonical_of_tokenize {line : String} {ts : List Token} (h : tokenize line = .ok ts) :
    ∀ t ∈ ts, t.Canonical := by
  intro t ht
  rw [eq_flatMap_of_tokenize h, List.mem_flatMap] at ht
  obtain ⟨run, hrun, ht⟩ := ht
  obtain ⟨g, hg⟩ := exists_uniform_of_mem_runs hrun
  exact canonical_of_mem_tokensOfRun hg ht

end SignedSum
