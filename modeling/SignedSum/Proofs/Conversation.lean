/-
# What a run prints

A run that holds a session is described by the bytes that it is fed, wherever they come from.  Of
their lines the session answers those in front of the first that ends it (`Console.heard`): one
that cannot be read, or the command to exit.  What the run prints are the answers of one session
to these lines.

* `converse_eq`: a conversation is the session over the lines that are heard.
* `run_eq`: the transcript of a run, from the bytes alone.
* `run_prints_session`: with it, that what follows the end of a session is without effect, and
  that a session which has not ended goes on from where it stands.
-/
import Mathlib.Data.List.TakeWhile
import SignedSum.Console
import SignedSum.Proofs.InputLines
import SignedSum.Proofs.SessionReplies

namespace SignedSum
namespace Console

/-! ## The lines of a conversation -/

variable {s : Session} {line : Except ReadFault String}
  {lines start rest : List (Except ReadFault String)}

/-- Whether a session ends at a line: because it cannot be read, or because it says so. -/
def stops : Except ReadFault String → Bool
  | .error _ => true
  | .ok line => Text.trim line = "/exit"

/-- The lines that a session answers: those in front of the first at which it ends. -/
def heard (lines : List (Except ReadFault String)) : List String :=
  (lines.takeWhile (!stops ·)).filterMap Except.toOption

/-- The fault that ends a session. -/
def trouble (lines : List (Except ReadFault String)) : Option ReadFault :=
  match lines.find? stops with
  | some (.error fault) => some fault
  | _ => none

theorem heard_of_stops (h : stops line = true) : heard (line :: rest) = [] := by
  rw [heard, List.takeWhile_cons_of_neg (by simp [h]), List.filterMap_nil]

theorem heard_cons {line : String} (h : stops (.ok line) = false) :
    heard (.ok line :: rest) = line :: heard rest := by
  rw [heard, List.takeWhile_cons_of_pos (by simp [h]), List.filterMap_cons]
  rfl

theorem heard_append_of_goOn (h : ∀ line ∈ start, stops line = false) :
    heard (start ++ rest) = heard start ++ heard rest := by
  have hall : ∀ line ∈ start, (!stops line) = true := by
    intro line hline
    rw [h line hline, Bool.not_false]
  rw [heard, List.takeWhile_append_of_pos hall, List.filterMap_append, heard, heard,
    List.takeWhile_eq_self_iff.2 hall]

/-- The first line at which a session ends. -/
theorem exists_first_stop (h : ∃ line ∈ lines, stops line = true) :
    ∃ before line after, lines = before ++ line :: after ∧ stops line = true ∧
      ∀ line ∈ before, stops line = false := by
  obtain ⟨line, hfind⟩ := Option.isSome_iff_exists.1 (List.find?_isSome.2 h)
  obtain ⟨hstops, before, after, rfl, hbefore⟩ := List.find?_eq_some_iff_append.1 hfind
  exact ⟨before, line, after, rfl, hstops, fun line hline => by simpa using hbefore line hline⟩

/-- Nothing is heard behind the end of a session. -/
theorem heard_append_of_stops (h : ∃ line ∈ start, stops line = true) :
    heard (start ++ rest) = heard start := by
  obtain ⟨before, line, after, rfl, hstops, hbefore⟩ := exists_first_stop h
  rw [List.append_assoc, List.cons_append, heard_append_of_goOn hbefore, heard_of_stops hstops,
    heard_append_of_goOn hbefore, heard_of_stops hstops]

theorem trouble_append_of_stops (h : ∃ line ∈ start, stops line = true) :
    trouble (start ++ rest) = trouble start := by
  rw [trouble, List.find?_append, Option.or_of_isSome (List.find?_isSome.2 h), trouble]

/-- A session ends in trouble if it meets a line that cannot be read. -/
theorem trouble_eq_some_iff {fault : ReadFault} :
    trouble lines = some fault ↔
      ∃ before after, lines = before ++ .error fault :: after ∧
        ∀ line ∈ before, stops line = false := by
  have hfind : trouble lines = some fault ↔ lines.find? stops = some (.error fault) := by
    unfold trouble
    split
    · next fault' h => rw [h, Option.some.injEq, Option.some.injEq, Except.error.injEq]
    · next hne => exact ⟨by simp, fun h => (hne _ h).elim⟩
  rw [hfind, List.find?_eq_some_iff_append]
  simp [stops]

/-! ## Conversations -/

theorem turn_of_goOn {line : String} (h : stops (.ok line) = false) :
    turn s (.ok line) = .goOn (s.handle line).session (s.handle line).reply.text? := by
  have hstop : (s.handle line).reply ≠ .stop := by
    intro hstop
    simp [stops, Session.reply_eq_stop_iff.1 hstop] at h
  rw [turn]
  cases hr : (s.handle line).reply with
  | silence | text => rfl
  | stop => exact absurd hr hstop

theorem turn_of_stops (h : stops line = true) : turn s line = .over (trouble [line]) := by
  cases line with
  | error fault => rfl
  | ok line =>
    have hstop : (s.handle line).reply = .stop :=
      Session.reply_eq_stop_iff.2 (by simpa [stops] using h)
    rw [turn, hstop, trouble, List.find?_cons_of_pos h]

/-- **A conversation is a session over the lines that are heard.** -/
theorem converse_eq (s : Session) (lines : List (Except ReadFault String)) :
    converse s lines = ⟨s.shown (heard lines), s.after (heard lines), trouble lines⟩ := by
  induction lines generalizing s with
  | nil => rfl
  | cons line rest ih =>
    cases hstops : stops line with
    | true =>
      have htrouble : trouble ([line] ++ rest) = trouble [line] :=
        trouble_append_of_stops ⟨line, List.mem_singleton_self line, hstops⟩
      rw [converse_over (turn_of_stops hstops), heard_of_stops hstops, ← htrouble]
      rfl
    | false =>
      cases line with
      | error fault => cases hstops
      | ok line =>
        have htrouble : trouble (.ok line :: rest) = trouble rest := by
          rw [trouble, List.find?_cons_of_neg (by simp [hstops]), trouble]
        rw [converse_goOn (turn_of_goOn hstops), ih, heard_cons hstops, htrouble,
          Session.shown_cons, Session.after_cons]

/-! ## Transcripts -/

theorem printed_append (texts later : List String) :
    printed (texts ++ later) = printed texts ++ printed later := by
  rw [printed, List.map_append, String.join_append]
  rfl

theorem printed_cons (text : String) (texts : List String) :
    printed (text :: texts) = text ++ "\n" ++ printed texts := by
  rw [printed, List.map_cons, String.join_cons]
  rfl

theorem printed_eq_empty_iff {texts : List String} : printed texts = "" ↔ texts = [] := by
  constructor
  · intro h
    cases texts with
    | nil => rfl
    | cons text texts =>
      have hlist := congrArg String.toList h
      simp [printed_cons, String.toList_append] at hlist
  · rintro rfl
    rfl

/-- A run of the program: its command line, its standard input and the files that it finds. -/
structure Setting where
  words : List String
  input : List UInt8
  look : String → Source

/-- What the program does in a setting. -/
def Setting.run (x : Setting) : Transcript := Console.run x.words x.input x.look

/-- The bytes that the program is fed, in a setting in which it holds a session, and whether it
is to be quiet. -/
inductive Setting.Feeds (x : Setting) (quiet : Bool) (bytes : List UInt8) : Prop
  | input (hwords : Request.ofWords x.words = .session ⟨none, quiet⟩) (hinput : x.input = bytes)
  | file (path : String) (hwords : Request.ofWords x.words = .session ⟨some path, quiet⟩)
      (hfound : x.look path = .file bytes)

variable {x y : Setting} {quiet : Bool} {bytes : List UInt8}

/-- **A run depends on the bytes alone**, not on where they come from. -/
theorem Setting.Feeds.run_eq (h : x.Feeds quiet bytes) :
    x.run = transcript quiet (Text.readLines bytes) := by
  cases h with
  | input hwords hinput => rw [Setting.run, run_of_input hwords, hinput]
  | file path hwords hfound => rw [Setting.run, run_of_file hwords, hfound, transcriptOf]

theorem transcript_eq (quiet : Bool) (lines : List (Except ReadFault String)) :
    transcript quiet lines =
      { code := 0
        out := printed (Session.shown {} (heard lines)) ++ printed (closing quiet)
        err := printed ((trouble lines).toList.map ReadFault.message) } := by
  rw [transcript, converse_eq, printed_append]

theorem err_transcript_ne_empty_iff :
    (transcript quiet lines).err ≠ "" ↔
      ∃ before fault after, lines = before ++ .error fault :: after ∧
        ∀ line ∈ before, stops line = false := by
  have hsome : (transcript quiet lines).err ≠ "" ↔ ∃ fault, trouble lines = some fault := by
    rw [transcript_eq, Ne, printed_eq_empty_iff, List.map_eq_nil_iff, ← ne_eq,
      ← Option.isSome_iff_exists]
    cases trouble lines <;> simp
  rw [hsome]
  constructor
  · rintro ⟨fault, h⟩
    obtain ⟨before, after, hlines, hbefore⟩ := trouble_eq_some_iff.1 h
    exact ⟨before, fault, after, hlines, hbefore⟩
  · rintro ⟨before, fault, after, hlines, hbefore⟩
    exact ⟨fault, trouble_eq_some_iff.2 ⟨before, after, hlines, hbefore⟩⟩

/-- What follows the end of a session is without effect. -/
theorem transcript_append_of_stops (h : ∃ line ∈ start, stops line = true) :
    transcript quiet (start ++ rest) = transcript quiet start := by
  rw [transcript_eq, heard_append_of_stops h, trouble_append_of_stops h, ← transcript_eq]

/-- A session that has not ended goes on from where it stands. -/
theorem out_transcript_append_of_goOn (h : ∀ line ∈ start, stops line = false) :
    (transcript true (start ++ rest)).out =
      (transcript true start).out ++
        printed ((Session.after {} (heard start)).shown (heard rest)) := by
  have hquiet : printed (closing true) = "" := rfl
  rw [transcript_eq, heard_append_of_goOn h, Session.shown_append, printed_append, transcript_eq,
    hquiet, String.append_empty, String.append_empty]

/-- **What a run prints.**  A run that is fed some bytes ends well and prints the replies of one
session to the lines in front of the first that cannot be read or asks for the end, and then the
farewell, unless it is quiet; it complains exactly if a line that cannot be read is reached.  Any
other setting with the same bytes gives the same transcript, but for the farewell.  Behind whole
lines among which the session ends, any bytes are without effect; behind whole lines among which
it does not end, the session goes on from where these lines have left it. -/
theorem run_prints_session (h : x.Feeds quiet bytes) :
    x.run.code = 0 ∧
    x.run.out = printed (Session.shown {} (heard (Text.readLines bytes))) ++
      (if quiet then "" else "Bye!\n") ∧
    (x.run.err ≠ "" ↔ ∃ before fault after,
      Text.readLines bytes = before ++ .error fault :: after ∧
        ∀ line ∈ before, stops line = false) ∧
    (y.Feeds quiet bytes → y.run = x.run) ∧
    (quiet = true → y.Feeds false bytes → y.run = { x.run with out := x.run.out ++ "Bye!\n" }) ∧
    (∀ start rest, bytes = start ++ rest → Text.Closed start →
      ((∃ line ∈ Text.readLines start, stops line = true) →
        ∀ other, y.Feeds quiet (start ++ other) → y.run = x.run) ∧
      ((∀ line ∈ Text.readLines start, stops line = false) → quiet = true →
        y.Feeds true start →
          x.run.out = y.run.out ++
            printed ((Session.after {} (heard (Text.readLines start))).shown
              (heard (Text.readLines rest))))) := by
  rw [h.run_eq]
  refine ⟨rfl, ?_, err_transcript_ne_empty_iff, ?_, ?_, ?_⟩
  · rw [transcript_eq]
    cases quiet <;> rfl
  · intro hy
    exact hy.run_eq
  · rintro rfl hy
    rw [hy.run_eq, transcript_eq, transcript_eq]
    simp [closing, printed, Session.farewell]
  · rintro start rest rfl hclosed
    rw [Text.readLines_append hclosed]
    constructor
    · intro hstops other hy
      rw [hy.run_eq, Text.readLines_append hclosed, transcript_append_of_stops hstops,
        transcript_append_of_stops hstops]
    · rintro hgoOn rfl hy
      rw [hy.run_eq, out_transcript_append_of_goOn hgoOn]

/-- The bytes of `5` and `/exit` on two lines, from the standard input with a byte behind them
that no text has, and from a file without it. -/
theorem run_prints_session_of_exit :
    let x : Setting := ⟨["-q"], [53, 10, 47, 101, 120, 105, 116, 10, 255], fun _ => .missing⟩
    let y : Setting := ⟨["-qf", "sums"], [], fun _ => .file [53, 10, 47, 101, 120, 105, 116, 10]⟩
    let z : Setting := ⟨["--quiet"], [53, 10], fun _ => .missing⟩
    x.run.code = 0 ∧ x.run.out = "5\n" ∧ y.run = x.run ∧
      x.run.out = z.run.out ++ printed ((Session.after {} ["5"]).shown []) := by
  intro x y z
  have hx : x.Feeds true x.input := .input (by decide +kernel) rfl
  have hy : y.Feeds true _ := .file "sums" (by decide +kernel) rfl
  have hz : z.Feeds true z.input := .input (by decide +kernel) rfl
  obtain ⟨hcode, hout, -, -, -, hparts⟩ := run_prints_session (y := y) hx
  refine ⟨hcode, hout.trans (by decide +kernel), ?_, ?_⟩
  · obtain ⟨hstops, -⟩ := hparts [53, 10, 47, 101, 120, 105, 116, 10] [255] rfl (by decide)
    exact hstops (by decide +kernel) [] hy
  · obtain ⟨-, -, -, -, -, hparts⟩ := run_prints_session (y := z) hx
    obtain ⟨-, hgoOn⟩ := hparts [53, 10] _ rfl (by decide)
    exact hgoOn (by decide +kernel) rfl hz

end Console
end SignedSum
