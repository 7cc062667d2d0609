/-
# The lexemes of a line

A line is cut at every space, and at every change between digits, letters, signs and equals signs.
The pieces are its lexemes.  `Cuts` says so without any runs: a lexeme is followed by no further
character of its own alphabet, and nothing but spaces stands between two lexemes.

* `exists_cuts`, `Cuts.unique`: a line of legible characters is cut into lexemes in one way.
* `tokenize_eq_ok_iff`, `tokenize_eq_error_iff`: the tokens of a line are those of its lexemes, in
  order, and its only fault is its first illegible character.
* `tokenize_lexemes`: both together, and the kinds of the characters in a lexeme.

The lexemes of a line stand for the same tokens as its runs do, of which those of spaces stand for
none (`Cuts.flatMap_runs`).
-/
import SignedSum.Proofs.RunEnds

namespace SignedSum

/-! ## Alphabets -/

/-- A character that a line may hold: a space, an ASCII digit or letter, a sign or an equals
sign. -/
def isLegible (c : Char) : Bool :=
  c == ' ' || c.isDigit || c.isAlpha || c == '+' || c == '-' || c == '='

/-- The four sets of characters that lexemes are written in. -/
inductive Alphabet where
  | digits
  | letters
  | signs
  | equals
deriving DecidableEq

namespace Alphabet

instance : Membership Char Alphabet where
  mem
    | digits, c => c.isDigit = true
    | letters, c => c.isAlpha = true
    | signs, c => c = '+' ∨ c = '-'
    | equals, c => c = '='

instance (c : Char) : (a : Alphabet) → Decidable (c ∈ a)
  | digits => inferInstanceAs (Decidable (c.isDigit = true))
  | letters => inferInstanceAs (Decidable (c.isAlpha = true))
  | signs => inferInstanceAs (Decidable (c = '+' ∨ c = '-'))
  | equals => inferInstanceAs (Decidable (c = '='))

/-- The kinds that single characters of the set have. -/
def kinds : Alphabet → List Kind
  | digits => [.numeral]
  | letters => [.name]
  | signs => [.sign .plus, .sign .minus]
  | equals => [.equals]

/-- The group that the set is. -/
def group : Alphabet → Group
  | digits => .digit
  | letters => .letter
  | signs => .sign
  | equals => .equals

variable {a b : Alphabet} {c : Char}

theorem group_injective (h : a.group = b.group) : a = b := by
  cases a <;> cases b <;> simp_all [group]

theorem group_ne_foreign : a.group ≠ .foreign := by cases a <;> decide

theorem ne_space (h : c ∈ a) : c ≠ ' ' := by
  rintro rfl
  cases a <;> exact absurd h (by decide)

/-- A character of an alphabet has one of its kinds. -/
theorem ofChar_mem_kinds (h : c ∈ a) : Kind.ofChar c ∈ a.kinds := by
  cases a with
  | digits =>
    have h : c.isDigit = true := h
    simp [Kind.ofChar, kinds, h]
  | letters =>
    have h : c.isAlpha = true := h
    have hd : c.isDigit = false :=
      Bool.eq_false_iff.2 fun hd => by simp [isAlpha_eq_false_of_isDigit hd] at h
    simp [Kind.ofChar, kinds, h, hd]
  | signs =>
    rcases h with rfl | rfl
    · exact List.mem_cons_self
    · exact List.mem_cons_of_mem _ List.mem_cons_self
  | equals =>
    cases h
    exact List.mem_cons_self

/-- The characters of an alphabet are those of its group. -/
theorem mem_iff_group : c ∈ a ↔ Group.ofChar c = a.group := by
  constructor
  · intro h
    have hkind := ofChar_mem_kinds h
    rw [Group.ofChar_eq, if_neg (ne_space h)]
    cases a with
    | digits | letters | equals => rw [List.mem_singleton.1 hkind]; rfl
    | signs =>
      obtain ⟨s, hs⟩ : ∃ s, Kind.ofChar c = .sign s := by
        rcases List.mem_cons.1 hkind with hs | hs
        · exact ⟨.plus, hs⟩
        · exact ⟨.minus, List.mem_singleton.1 hs⟩
      rw [hs]
      rfl
  · intro h
    cases a with
    | digits => exact isDigit_of_group h
    | letters => exact isAlpha_of_group h
    | signs => exact eq_plus_or_minus_of_group h
    | equals => exact eq_equals_of_group h

end Alphabet

theorem eq_space_or_mem_of_isLegible {c : Char} (h : isLegible c = true) :
    c = ' ' ∨ ∃ a : Alphabet, c ∈ a := by
  simp only [isLegible, Bool.or_eq_true, beq_iff_eq] at h
  rcases h with ((((h | h) | h) | h) | h) | h
  · exact Or.inl h
  · exact Or.inr ⟨.digits, h⟩
  · exact Or.inr ⟨.letters, h⟩
  · exact Or.inr ⟨.signs, Or.inl h⟩
  · exact Or.inr ⟨.signs, Or.inr h⟩
  · exact Or.inr ⟨.equals, h⟩

/-- The illegible characters are those that belong nowhere. -/
theorem not_isLegible (c : Char) : (!isLegible c) = decide (Group.ofChar c = .foreign) := by
  unfold isLegible Group.ofChar
  grind

/-! ## Lexemes -/

/-- A lexeme: at least one character, all of one alphabet. -/
@[ext] structure Lexeme where
  alphabet : Alphabet
  chars : List Char
  ne_nil : chars ≠ []
  mem : ∀ c ∈ chars, c ∈ alphabet

namespace Lexeme

/-- The token that a lexeme is. -/
def token (x : Lexeme) : Token :=
  match x.alphabet with
  | .digits => ⟨.numeral, String.ofList x.chars⟩
  | .letters => ⟨.name, String.ofList x.chars⟩
  | .signs => if x.chars.count '-' % 2 = 1 then ⟨.sign .minus, "-"⟩ else ⟨.sign .plus, "+"⟩
  | .equals => ⟨.equals, "="⟩

/-- The lexeme goes as far as it can when the given characters stand behind it. -/
def EndsBefore (x : Lexeme) (cs : List Char) : Prop := ∀ c ∈ cs.head?, c ∉ x.alphabet

variable {x x' : Lexeme} {cs cs' : List Char}

/-- The end of a line ends every lexeme. -/
theorem endsBefore_nil : x.EndsBefore [] := by
  intro c hc
  cases hc

/-- A space ends every lexeme. -/
theorem endsBefore_space : x.EndsBefore (' ' :: cs) := by
  intro c hc hmem
  cases hc
  exact Alphabet.ne_space hmem rfl

theorem uniform (x : Lexeme) : Uniform x.alphabet.group x.chars :=
  ⟨x.ne_nil, fun c hc => Alphabet.mem_iff_group.1 (x.mem c hc)⟩

/-- A lexeme stands for its token. -/
theorem tokensOfRun_chars (x : Lexeme) : tokensOfRun x.chars = [x.token] := by
  rw [tokensOfRun_eq x.uniform, token]
  cases x.alphabet with
  | digits | letters | equals => rfl
  | signs =>
    rw [Alphabet.group, Group.tokens]
    by_cases h : x.chars.count '-' % 2 = 1
    · rw [if_pos h, Sign.ofRun_eq_minus.2 h]
      rfl
    · have hplus : x.chars.count '-' % 2 = 0 := by omega
      rw [if_neg h, Sign.ofRun_eq_plus.2 hplus]
      rfl

theorem takeWhile_append (h : x.EndsBefore cs) :
    (x.chars ++ cs).takeWhile (fun c => decide (c ∈ x.alphabet)) = x.chars := by
  rw [List.takeWhile_append_of_pos fun c hc => decide_eq_true (x.mem c hc)]
  cases cs with
  | nil => rw [List.takeWhile_nil, List.append_nil]
  | cons c cs =>
    have hc : c ∉ x.alphabet := h c rfl
    rw [List.takeWhile_cons_of_neg (by simpa using hc), List.append_nil]

/-- Two lexemes that start alike and go as far as they can are one. -/
theorem eq_of_append_eq (h : x.chars ++ cs = x'.chars ++ cs') (hw : x.EndsBefore cs)
    (hw' : x'.EndsBefore cs') : x = x' ∧ cs = cs' := by
  obtain ⟨c, l, hc⟩ := List.exists_cons_of_ne_nil x.ne_nil
  obtain ⟨c', l', hc'⟩ := List.exists_cons_of_ne_nil x'.ne_nil
  have hfirst : c = c' := by
    rw [hc, hc'] at h
    exact (List.cons.inj h).1
  have halphabet : x.alphabet = x'.alphabet := by
    have hin : c ∈ x.alphabet := x.mem c (hc ▸ List.mem_cons_self)
    have hin' : c' ∈ x'.alphabet := x'.mem c' (hc' ▸ List.mem_cons_self)
    rw [Alphabet.mem_iff_group] at hin hin'
    exact Alphabet.group_injective (hin.symm.trans (hfirst ▸ hin'))
  have hchars : x.chars = x'.chars := by
    rw [← takeWhile_append hw, ← takeWhile_append hw', h, halphabet]
  rw [hchars] at h
  exact ⟨Lexeme.ext halphabet hchars, List.append_cancel_left h⟩

end Lexeme

/-! ## Cutting a line into lexemes -/

/-- The characters are cut into the lexemes: spaces fall away, and a lexeme goes as far as it
can. -/
inductive Cuts : List Char → List Lexeme → Prop
  | nil : Cuts [] []
  | space {cs : List Char} {xs : List Lexeme} : Cuts cs xs → Cuts (' ' :: cs) xs
  | lexeme {x : Lexeme} {cs : List Char} {xs : List Lexeme} :
      x.EndsBefore cs → Cuts cs xs → Cuts (x.chars ++ cs) (x :: xs)

variable {cs : List Char} {xs xs' : List Lexeme} {x : Lexeme}

/-- The characters of a lexeme are that lexeme alone. -/
theorem Cuts.singleton (x : Lexeme) : Cuts x.chars [x] := by
  have h := Cuts.lexeme (x := x) Lexeme.endsBefore_nil Cuts.nil
  rwa [List.append_nil] at h

/-- The three ways in which characters are cut, by how they start. -/
theorem Cuts.inversion (h : Cuts cs xs) :
    (cs = [] ∧ xs = []) ∨ (∃ cs', cs = ' ' :: cs' ∧ Cuts cs' xs) ∨
    ∃ x cs' xs', cs = x.chars ++ cs' ∧ xs = x :: xs' ∧ x.EndsBefore cs' ∧
      Cuts cs' xs' := by
  cases h with
  | nil => exact Or.inl ⟨rfl, rfl⟩
  | space h => exact Or.inr (Or.inl ⟨_, rfl, h⟩)
  | lexeme hends h => exact Or.inr (Or.inr ⟨_, _, _, rfl, rfl, hends, h⟩)

/-- No lexeme starts with a space. -/
theorem Lexeme.append_ne_space (cs cs' : List Char) : x.chars ++ cs ≠ ' ' :: cs' := by
  intro h
  obtain ⟨c, l, hc⟩ := List.exists_cons_of_ne_nil x.ne_nil
  rw [hc] at h
  have hspace : c = ' ' := (List.cons.inj h).1
  exact Alphabet.ne_space (x.mem c (hc ▸ List.mem_cons_self)) hspace

/-- **Characters are cut into lexemes in one way.** -/
theorem Cuts.unique (h : Cuts cs xs) (h' : Cuts cs xs') : xs' = xs := by
  induction h generalizing xs' with
  | nil =>
    rcases h'.inversion with ⟨-, hxs⟩ | ⟨_, hcs, -⟩ | ⟨x, _, _, hcs, -⟩
    · exact hxs
    · cases hcs
    · exact absurd (List.append_eq_nil_iff.1 hcs.symm).1 x.ne_nil
  | @space cs xs h ih =>
    rcases h'.inversion with ⟨hcs, -⟩ | ⟨_, hcs, h'⟩ | ⟨x, _, _, hcs, -⟩
    · cases hcs
    · cases hcs
      exact ih h'
    · exact absurd hcs.symm (Lexeme.append_ne_space _ _)
  | @lexeme x cs xs hends h ih =>
    rcases h'.inversion with ⟨hcs, -⟩ | ⟨_, hcs, -⟩ | ⟨x', _, _, hcs, rfl, hends', h'⟩
    · exact absurd (List.append_eq_nil_iff.1 hcs).1 x.ne_nil
    · exact absurd hcs (Lexeme.append_ne_space _ _)
    · obtain ⟨rfl, rfl⟩ := Lexeme.eq_of_append_eq hcs hends hends'
      rw [ih h']

/-- A character of the alphabet of the first lexeme makes that lexeme longer, and any other
character starts a lexeme of its own. -/
theorem Cuts.exists_cons {a : Alphabet} {c : Char} (hc : c ∈ a) (h : Cuts cs xs) :
    ∃ xs', Cuts (c :: cs) xs' := by
  by_cases hhead : ∃ d ∈ cs.head?, d ∈ a
  · obtain ⟨d, hd, hda⟩ := hhead
    rcases h.inversion with ⟨rfl, -⟩ | ⟨_, rfl, -⟩ | ⟨x, cs', xs', rfl, rfl, hends, h⟩
    · cases hd
    · cases hd
      exact absurd rfl (Alphabet.ne_space hda)
    · have ha : x.alphabet = a := by
        rw [List.head?_append_of_ne_nil _ x.ne_nil] at hd
        have hdw := x.mem d (List.mem_of_mem_head? hd)
        rw [Alphabet.mem_iff_group] at hda hdw
        exact Alphabet.group_injective (hdw.symm.trans hda)
      subst ha
      let longer : Lexeme := ⟨x.alphabet, c :: x.chars, List.cons_ne_nil _ _,
        List.forall_mem_cons.2 ⟨hc, x.mem⟩⟩
      exact ⟨longer :: xs', Cuts.lexeme (x := longer) hends h⟩
  · let short : Lexeme := ⟨a, [c], List.cons_ne_nil _ _, List.forall_mem_singleton.2 hc⟩
    exact ⟨short :: xs, Cuts.lexeme (x := short) (fun d hd hda => hhead ⟨d, hd, hda⟩) h⟩

/-- **Legible characters are cut into lexemes.** -/
theorem exists_cuts (h : ∀ c ∈ cs, isLegible c = true) : ∃ xs, Cuts cs xs := by
  induction cs with
  | nil => exact ⟨[], .nil⟩
  | cons c cs ih =>
    obtain ⟨xs, hxs⟩ := ih fun d hd => h d (List.mem_cons_of_mem c hd)
    rcases eq_space_or_mem_of_isLegible (h c List.mem_cons_self) with rfl | ⟨a, ha⟩
    · exact ⟨xs, .space hxs⟩
    · exact hxs.exists_cons ha

/-! ## Lexemes and runs -/

/-- Every character that is cut into lexemes is legible. -/
theorem Cuts.group_ne_foreign (h : Cuts cs xs) : ∀ c ∈ cs, Group.ofChar c ≠ .foreign := by
  induction h with
  | nil => simp
  | space h ih => exact List.forall_mem_cons.2 ⟨by decide, ih⟩
  | @lexeme x cs xs hends h ih =>
    refine List.forall_mem_append.2 ⟨fun c hc => ?_, ih⟩
    rw [x.uniform.2 c hc]
    exact Alphabet.group_ne_foreign

/-- Spaces with no further space behind them add no token to what follows. -/
theorem flatMap_runs_spaces {spaces after : List Char}
    (hspaces : ∀ c ∈ spaces, Group.ofChar c = .space)
    (hafter : ∀ c ∈ after.head?, Group.ofChar c ≠ .space) :
    (runs (spaces ++ after)).flatMap tokensOfRun = (runs after).flatMap tokensOfRun := by
  by_cases hne : spaces = []
  · rw [hne, List.nil_append]
  · have huniform : Uniform .space spaces := ⟨hne, hspaces⟩
    rw [runs_uniform_append (by decide) huniform hafter, List.flatMap_cons, tokensOfRun_eq huniform]
    rfl

/-- One more space in front adds no token. -/
theorem flatMap_runs_space (cs : List Char) :
    (runs (' ' :: cs)).flatMap tokensOfRun = (runs cs).flatMap tokensOfRun := by
  obtain ⟨run, after, hline, ⟨hne, hspaces⟩, hafter⟩ :=
    exists_uniform_append (l := ' ' :: cs) (c := ' ') rfl rfl
  obtain ⟨c, spaces, rfl⟩ := List.exists_cons_of_ne_nil hne
  have hcs : cs = spaces ++ after := (List.cons.inj hline).2
  rw [hline, flatMap_runs_spaces hspaces hafter, hcs,
    flatMap_runs_spaces (List.forall_mem_cons.1 hspaces).2 hafter]

/-- The lexemes are the runs, without those of spaces. -/
theorem Cuts.flatMap_runs (h : Cuts cs xs) :
    (runs cs).flatMap tokensOfRun = xs.map Lexeme.token := by
  induction h with
  | nil => rfl
  | space h ih => rw [flatMap_runs_space, ih]
  | @lexeme x cs xs hends h ih =>
    have hafter : ∀ c ∈ cs.head?, Group.ofChar c ≠ x.alphabet.group := fun c hc hg =>
      hends c hc (Alphabet.mem_iff_group.2 hg)
    rw [runs_uniform_append Alphabet.group_ne_foreign x.uniform hafter, List.flatMap_cons, x.tokensOfRun_chars, ih]
    rfl

/-! ## The tokens of a line -/

variable {line : String} {ts : List Token}

/-- The fault of a line is its first illegible character. -/
theorem tokenize_eq_error_iff {f : FormFault} :
    tokenize line = .error f ↔
      ∃ c, line.toList.find? (!isLegible ·) = some c ∧ f = .foreignChar c line := by
  rw [tokenize_eq, funext not_isLegible]
  cases line.toList.find? fun c => decide (Group.ofChar c = .foreign) with
  | none => simp
  | some c => simp [eq_comm]

theorem tokenize_of_cuts (h : Cuts line.toList xs) :
    tokenize line = .ok (xs.map Lexeme.token) := by
  have hnone : line.toList.find? (Group.ofChar · = .foreign) = none :=
    List.find?_eq_none.2 fun c hc => by simpa using h.group_ne_foreign c hc
  rw [tokenize_eq, hnone, ← h.flatMap_runs]

theorem forall_isLegible (h : line.toList.find? (!isLegible ·) = none) :
    ∀ c ∈ line.toList, isLegible c = true := by
  simpa using h

/-- The tokens of a line are those of its lexemes. -/
theorem tokenize_eq_ok_iff :
    tokenize line = .ok ts ↔ ∃ xs, Cuts line.toList xs ∧ ts = xs.map Lexeme.token := by
  constructor
  · intro h
    cases hfind : line.toList.find? (!isLegible ·) with
    | some c =>
      rw [tokenize_eq_error_iff.2 ⟨c, hfind, rfl⟩] at h
      cases h
    | none =>
      obtain ⟨xs, hxs⟩ := exists_cuts (forall_isLegible hfind)
      rw [tokenize_of_cuts hxs] at h
      exact ⟨xs, hxs, (Except.ok.inj h).symm⟩
  · rintro ⟨xs, hxs, rfl⟩
    exact tokenize_of_cuts hxs

/-- **The lexemes of a line.**  A line with an illegible character has the first such character as
its fault.  Any other line is cut into lexemes, in one way only; the characters of a lexeme all
have the kinds of its alphabet; and the tokens of the line are those of its lexemes. -/
theorem tokenize_lexemes (line : String) :
    match line.toList.find? (!isLegible ·) with
    | some c => tokenize line = .error (.foreignChar c line)
    | none => ∃ xs, Cuts line.toList xs ∧
        (∀ xs', Cuts line.toList xs' → xs' = xs) ∧
        (∀ x ∈ xs, ∀ c ∈ x.chars, Kind.ofChar c ∈ x.alphabet.kinds) ∧
        tokenize line = .ok (xs.map Lexeme.token) := by
  cases hfind : line.toList.find? (!isLegible ·) with
  | some c => exact tokenize_eq_error_iff.2 ⟨c, hfind, rfl⟩
  | none =>
    obtain ⟨xs, hxs⟩ := exists_cuts (forall_isLegible hfind)
    exact ⟨xs, hxs, fun xs' h => hxs.unique h,
      fun x _ c hc => Alphabet.ofChar_mem_kinds (x.mem c hc), tokenize_of_cuts hxs⟩

end SignedSum
