/-
# The lines of an input

The cutting of bytes into lines, as three equations: no bytes are no line, bytes without a line
feed are one line, and a line feed ends a line in front of the lines of the rest
(`readLines_last`, `readLines_line`).  Every input is made up in this way (`induction_lines`), so
these are all that there is to know.

* `readLines_append`: behind whole lines the rest is cut on its own.
* `newline_notMem_of_mem_readLines`: a line that has been read holds no line feed.
-/
import SignedSum.Text.Lines

namespace SignedSum
namespace Text

variable {body rest bytes start : List UInt8} {line : String}

/-! ## Bytes as lines -/

/-- Bytes are made up of lines that are ended by a line feed, and of a last one that is not. -/
theorem induction_lines {motive : List UInt8 → Prop} (bytes : List UInt8) (nil : motive [])
    (last : ∀ body, body ≠ [] → lineFeed ∉ body → motive body)
    (line : ∀ body rest, lineFeed ∉ body → motive rest → motive (body ++ lineFeed :: rest)) :
    motive bytes := by
  obtain ⟨n, hn⟩ : ∃ n, bytes.length = n := ⟨_, rfl⟩
  induction n using Nat.strongRecOn generalizing bytes with
  | ind n ih =>
    by_cases hfeed : lineFeed ∈ bytes
    · -- the first line feed ends a line
      obtain ⟨body, rest, rfl, hbody⟩ := List.eq_append_cons_of_mem hfeed
      have hlength : rest.length < n := by
        rw [List.length_append, List.length_cons] at hn
        omega
      exact line body rest hbody (ih rest.length hlength rest rfl)
    · by_cases hne : bytes = []
      · exact hne ▸ nil
      · exact last bytes hne hfeed

theorem pieces_line (h : lineFeed ∉ body) (rest : List UInt8) :
    pieces (body ++ lineFeed :: rest) = (body ++ [lineFeed]) :: pieces rest := by
  induction body with
  | nil => rw [List.nil_append, pieces, if_pos rfl, List.nil_append]
  | cons b body ih =>
    rw [List.mem_cons, not_or] at h
    rw [List.cons_append, pieces, if_neg (Ne.symm h.1), ih h.2, List.cons_append]

theorem pieces_last (hne : body ≠ []) (h : lineFeed ∉ body) : pieces body = [body] := by
  induction body with
  | nil => exact absurd rfl hne
  | cons b body ih =>
    rw [List.mem_cons, not_or] at h
    rw [pieces, if_neg (Ne.symm h.1)]
    by_cases hbody : body = []
    · rw [hbody, pieces]
    · rw [ih hbody h.2]

/-- A line without the carriage return at its end. -/
def withoutReturn (body : List UInt8) : List UInt8 :=
  if body.getLast? = some carriageReturn then body.dropLast else body

theorem lineOfPiece_line (body : List UInt8) :
    lineOfPiece (body ++ [lineFeed]) = withoutReturn body := by
  rw [lineOfPiece, List.getLast?_concat, if_pos rfl, List.dropLast_concat, withoutReturn]

theorem lineOfPiece_last (h : lineFeed ∉ body) : lineOfPiece body = body :=
  if_neg fun hlast => h (List.mem_of_getLast? hlast)

/-! ## Reading -/

@[simp] theorem readLines_nil : readLines [] = [] := rfl

/-- A line feed ends a line, and a carriage return before it is dropped. -/
theorem readLines_line (h : lineFeed ∉ body) (rest : List UInt8) :
    readLines (body ++ lineFeed :: rest) = decode (withoutReturn body) :: readLines rest := by
  rw [readLines, pieces_line h, List.map_cons, readPiece, lineOfPiece_line, readLines]

/-- A last line that no line feed ends is read as it stands. -/
theorem readLines_last (hne : body ≠ []) (h : lineFeed ∉ body) :
    readLines body = [decode body] := by
  rw [readLines, pieces_last hne h, List.map_singleton, readPiece, lineOfPiece_last h]

/-- The bytes are whole lines: a line feed ends every one of them. -/
def Closed (bytes : List UInt8) : Prop := bytes = [] ∨ bytes.getLast? = some lineFeed

instance (bytes : List UInt8) : Decidable (Closed bytes) := inferInstanceAs (Decidable (_ ∨ _))

/-- **Behind whole lines the rest is read on its own.** -/
theorem readLines_append (h : Closed start) (rest : List UInt8) :
    readLines (start ++ rest) = readLines start ++ readLines rest := by
  induction start using induction_lines with
  | nil => rfl
  | last body hne hbody =>
    -- bytes without a line feed do not end in one
    rcases h with h | h
    · exact absurd h hne
    · exact absurd (List.mem_of_getLast? h) hbody
  | line body later hbody ih =>
    have hlater : Closed later := by
      rcases h with h | h
      · simp at h
      · by_cases hnil : later = []
        · exact Or.inl hnil
        · rw [List.append_cons, List.getLast?_append, List.getLast?_eq_some_getLast hnil] at h
          exact Or.inr ((List.getLast?_eq_some_getLast hnil).trans h)
    rw [List.append_assoc, List.cons_append, readLines_line hbody, readLines_line hbody, ih hlater,
      List.cons_append]

/-! ## The characters of a line -/

/-- A line is read as the text whose UTF-8 it is. -/
theorem decode_eq_ok_iff :
    decode bytes = .ok line ↔ line.toList.flatMap String.utf8EncodeChar = bytes := by
  have hbytes : line.toList.flatMap String.utf8EncodeChar = bytes ↔
      line.toByteArray = bytes.toByteArray := by
    rw [← List.toByteArray_inj, ← String.utf8Encode_toList]
    rfl
  rw [hbytes]
  unfold decode String.fromUTF8?
  constructor
  · intro h
    split at h
    · next s hs =>
      cases h
      obtain ⟨hvalid, hs⟩ : ∃ hvalid, String.fromUTF8 bytes.toByteArray hvalid = line := by
        simpa using hs
      rw [← hs]
      rfl
    · cases h
  · intro h
    have hvalid : bytes.toByteArray.IsValidUTF8 := h ▸ line.isValidUTF8
    rw [dif_pos hvalid]
    exact congrArg Except.ok (String.toByteArray_inj.1 h.symm)

/-- The newline character is written as a line feed. -/
theorem newline_notMem_of_decode (h : decode bytes = .ok line) (hbytes : lineFeed ∉ bytes) :
    '\n' ∉ line.toList := by
  rw [decode_eq_ok_iff] at h
  intro hmem
  have hfeed : lineFeed ∈ String.utf8EncodeChar '\n' := by decide
  exact hbytes (h ▸ List.mem_flatMap.2 ⟨'\n', hmem, hfeed⟩)

theorem lineFeed_notMem_withoutReturn (h : lineFeed ∉ body) : lineFeed ∉ withoutReturn body := by
  rw [withoutReturn]
  split
  · exact fun hmem => h (List.dropLast_subset body hmem)
  · exact h

/-- **A line that has been read holds no line feed.** -/
theorem newline_notMem_of_mem_readLines (h : .ok line ∈ readLines bytes) : '\n' ∉ line.toList := by
  induction bytes using induction_lines with
  | nil => cases h
  | last body hne hbody =>
    rw [readLines_last hne hbody, List.mem_singleton] at h
    exact newline_notMem_of_decode h.symm hbody
  | line body rest hbody ih =>
    rw [readLines_line hbody, List.mem_cons] at h
    rcases h with h | h
    · exact newline_notMem_of_decode h.symm (lineFeed_notMem_withoutReturn hbody)
    · exact ih h

end Text
end SignedSum
