/-
# Line endings

A line feed ends a line, alone or with a carriage return in front of it.  `withReturns` puts a
carriage return in front of every line feed of an input, and `bodies` is what stands between the
line feeds.

* `readLines_withReturns`: with the carriage returns the lines that are read are the bodies,
  whatever the bytes are.
* `readLines_of_notMem`: without them they are the bodies too, if the input holds no carriage
  return of its own.
* `run_withReturns`: so the program does the same with both, wherever it reads them from.
-/
import SignedSum.Proofs.Conversation

namespace SignedSum
namespace Text

variable {body bytes : List UInt8}

/-! ## Between the line feeds -/

/-- The bytes with a carriage return in front of every line feed. -/
def withReturns (bytes : List UInt8) : List UInt8 :=
  bytes.flatMap fun b => if b = lineFeed then [carriageReturn, lineFeed] else [b]

/-- What stands between the line feeds, and behind the last one if anything does. -/
def bodies (bytes : List UInt8) : List (List UInt8) :=
  let parts := bytes.splitOn lineFeed
  if parts.getLast? = some [] then parts.dropLast else parts

theorem withReturns_last (h : lineFeed ∉ body) : withReturns body = body := by
  have hsame : ∀ b ∈ body,
      (if b = lineFeed then [carriageReturn, lineFeed] else [b]) = [b] := by
    rintro b hb
    rw [if_neg]
    rintro rfl
    exact h hb
  rw [withReturns, List.flatMap_congr hsame, List.flatMap_singleton']

theorem withReturns_line (h : lineFeed ∉ body) (rest : List UInt8) :
    withReturns (body ++ lineFeed :: rest) =
      (body ++ [carriageReturn]) ++ lineFeed :: withReturns rest := by
  have hsplit : withReturns (body ++ lineFeed :: rest) =
      withReturns body ++ ([carriageReturn, lineFeed] ++ withReturns rest) := by
    rw [withReturns, List.flatMap_append, List.flatMap_cons, if_pos rfl]
    rfl
  rw [hsplit, withReturns_last h, List.append_assoc]
  rfl

@[simp] theorem bodies_nil : bodies [] = [] := rfl

theorem bodies_last (hne : body ≠ []) (h : lineFeed ∉ body) : bodies body = [body] := by
  rw [bodies, List.splitOn_eq_singleton h]
  simp [hne]

theorem bodies_line (h : lineFeed ∉ body) (rest : List UInt8) :
    bodies (body ++ lineFeed :: rest) = body :: bodies rest := by
  have hparts : rest.splitOn lineFeed ≠ [] := List.splitOn_ne_nil _ _
  rw [bodies, List.splitOn_append_cons_self_of_not_mem h, List.getLast?_cons_of_ne_nil hparts,
    bodies]
  split
  · rw [List.dropLast_cons_of_ne_nil hparts]
  · rfl

/-! ## What is read -/

theorem withoutReturn_concat (body : List UInt8) :
    withoutReturn (body ++ [carriageReturn]) = body := by
  rw [withoutReturn, List.getLast?_concat, if_pos rfl, List.dropLast_concat]

theorem withoutReturn_of_notMem (h : carriageReturn ∉ body) : withoutReturn body = body :=
  if_neg fun hlast => h (List.mem_of_getLast? hlast)

/-- **With a carriage return at the end of every line, the lines are what stands between the line
feeds.**  Only the carriage returns that have been put in are dropped. -/
theorem readLines_withReturns (bytes : List UInt8) :
    readLines (withReturns bytes) = (bodies bytes).map decode := by
  induction bytes using induction_lines with
  | nil => rfl
  | last body hne hbody =>
    rw [withReturns_last hbody, readLines_last hne hbody, bodies_last hne hbody, List.map_singleton]
  | line body rest hbody ih =>
    have hfeed : lineFeed ∉ body ++ [carriageReturn] := by
      rw [List.mem_append, List.mem_singleton, not_or]
      exact ⟨hbody, by decide⟩
    rw [withReturns_line hbody, readLines_line hfeed, withoutReturn_concat, ih, bodies_line hbody,
      List.map_cons]

/-- Without a carriage return the lines are what stands between the line feeds. -/
theorem readLines_of_notMem (h : carriageReturn ∉ bytes) :
    readLines bytes = (bodies bytes).map decode := by
  induction bytes using induction_lines with
  | nil => rfl
  | last body hne hbody =>
    rw [readLines_last hne hbody, bodies_last hne hbody, List.map_singleton]
  | line body rest hbody ih =>
    rw [List.mem_append, not_or, List.mem_cons, not_or] at h
    obtain ⟨hreturn, -, hrest⟩ := h
    rw [readLines_line hbody, withoutReturn_of_notMem hreturn, ih hrest, bodies_line hbody,
      List.map_cons]

end Text

namespace Console

variable {x y : Setting} {quiet : Bool} {bytes : List UInt8}

/-! ## Runs -/

/-- The two settings are the same, but that some of the sources that hold the bytes in `x` hold
them with carriage returns in `y`: the standard input, or a file, under any of its paths. -/
structure Setting.GainsReturns (bytes : List UInt8) (x y : Setting) : Prop where
  words : y.words = x.words
  input : y.input = x.input ∨ x.input = bytes ∧ y.input = Text.withReturns bytes
  look : ∀ path, y.look path = x.look path ∨
    x.look path = .file bytes ∧ y.look path = .file (Text.withReturns bytes)

/-- Sources from which the same lines are read make the same run. -/
theorem Setting.run_congr (hwords : y.words = x.words)
    (hinput : Text.readLines y.input = Text.readLines x.input)
    (hlook : ∀ quiet path, transcriptOf quiet path (y.look path) =
      transcriptOf quiet path (x.look path)) : y.run = x.run := by
  unfold Setting.run
  rw [hwords]
  cases h : Request.ofWords x.words with
  | help | version | misuse =>
    -- no source is read
    rw [Console.run, Console.run, h]
    rfl
  | session options =>
    obtain ⟨file, quiet⟩ := options
    cases file with
    | none => rw [run_of_input h, run_of_input h, hinput]
    | some path => rw [run_of_file h, run_of_file h, hlook]

/-- **Line endings do not matter.**  If an input without carriage returns gets one in front of
every line feed, a run does the same as before: it ends with the same code and prints the same on
both channels, whatever its command line is, and whether the bytes are its standard input, a file or
both.  What it does with them, wherever they come from, is what a session does with the lines
between the line feeds. -/
theorem run_withReturns (h : Text.carriageReturn ∉ bytes) :
    (∀ x y, Setting.GainsReturns bytes x y → y.run = x.run) ∧
    ∀ x y quiet, Setting.Feeds x quiet bytes → Setting.Feeds y quiet (Text.withReturns bytes) →
      y.run = x.run ∧ x.run = transcript quiet ((Text.bodies bytes).map Text.decode) := by
  have hlines : Text.readLines (Text.withReturns bytes) = Text.readLines bytes := by
    rw [Text.readLines_withReturns, Text.readLines_of_notMem h]
  constructor
  · intro x y hxy
    refine Setting.run_congr hxy.words ?_ fun quiet path => ?_
    · rcases hxy.input with hinput | ⟨hx, hy⟩
      · rw [hinput]
      · rw [hx, hy, hlines]
    · rcases hxy.look path with hlook | ⟨hx, hy⟩
      · rw [hlook]
      · rw [hx, hy, transcriptOf, transcriptOf, hlines]
  · intro x y quiet hx hy
    rw [hx.run_eq, hy.run_eq, hlines, Text.readLines_of_notMem h]
    exact ⟨rfl, rfl⟩

/-- The lines `x=5`, an empty one, `/vars`, one that is no text, and `7` without an end; from the
standard input without carriage returns, and from a file with them. -/
theorem run_withReturns_of_five_lines :
    let bytes := [120, 61, 53, 10, 10, 47, 118, 97, 114, 115, 10, 255, 10, 55]
    let x : Setting := ⟨["-q"], bytes, fun _ => .missing⟩
    let y : Setting := ⟨["-qf", "sums"], [], fun _ => .file (Text.withReturns bytes)⟩
    let z : Setting := ⟨["-q"], Text.withReturns bytes, fun _ => .missing⟩
    z.input =
      [120, 61, 53, 13, 10, 13, 10, 47, 118, 97, 114, 115, 13, 10, 255, 13, 10, 55] ∧
    x.run = ⟨0, "x = 5\nVariables: x = 5\n",
      "Failed to read input: stream did not contain valid UTF-8\n"⟩ ∧
    y.run = x.run ∧ z.run = x.run := by
  intro bytes x y z
  have hx : x.Feeds true bytes := .input (by decide +kernel) rfl
  have hy : y.Feeds true (Text.withReturns bytes) := .file "sums" (by decide +kernel) rfl
  have hbytes : Text.carriageReturn ∉ bytes := by decide
  obtain ⟨hsame, hfed⟩ := run_withReturns hbytes
  refine ⟨by decide, by decide +kernel, (hfed x y true hx hy).1, hsame x z ?_⟩
  exact ⟨rfl, Or.inr ⟨rfl, rfl⟩, fun _ => Or.inl rfl⟩

end Console
end SignedSum
