/-
# Output in step with input

A reply to a line of the input is one line of the output.  So the lines of the output are as many
as the lines that are not blank among those that are heard, and one more for the farewell, and
they come in the order of the lines that they answer.

* `splitOn_printed`: texts on one line each are found again by cutting what is printed at its
  newline characters.
* `output_in_step`: the lines of the output of a run, counted and one by one.
-/
import SignedSum.Proofs.Conversation
import SignedSum.Proofs.PlainReplies

namespace SignedSum
namespace Console

variable {texts : List String} {lines : List (Except ReadFault String)} {line : String}

/-! ## Texts on one line each -/

theorem toList_printed_cons (text : String) (texts : List String) :
    (printed (text :: texts)).toList = text.toList ++ '\n' :: (printed texts).toList := by
  rw [printed_cons, String.toList_append, String.toList_append, List.append_assoc]
  rfl

/-- There are as many newline characters as texts. -/
theorem count_newline_printed (h : ∀ text ∈ texts, '\n' ∉ text.toList) :
    (printed texts).toList.count '\n' = texts.length := by
  induction texts with
  | nil => rfl
  | cons text texts ih =>
    obtain ⟨htext, htexts⟩ := List.forall_mem_cons.1 h
    rw [toList_printed_cons, List.count_append, List.count_eq_zero.2 htext, List.count_cons_self,
      ih htexts, Nat.zero_add, List.length_cons]

/-- Between the newline characters stand the texts, and behind the last one stands nothing. -/
theorem splitOn_printed (h : ∀ text ∈ texts, '\n' ∉ text.toList) :
    (printed texts).toList.splitOn '\n' = texts.map String.toList ++ [[]] := by
  induction texts with
  | nil => rfl
  | cons text texts ih =>
    obtain ⟨htext, htexts⟩ := List.forall_mem_cons.1 h
    rw [toList_printed_cons, List.splitOn_append_cons_self_of_not_mem htext, ih htexts,
      List.map_cons, List.cons_append]

/-! ## The lines that are heard -/

theorem mem_of_mem_heard (h : line ∈ heard lines) :
    .ok line ∈ lines ∧ Text.trim line ≠ "/exit" := by
  obtain ⟨read, hread, hline⟩ := List.mem_filterMap.1 h
  cases read with
  | error fault => cases hline
  | ok line' =>
    cases hline
    refine ⟨(List.takeWhile_prefix _).subset hread, ?_⟩
    simpa [stops] using List.mem_takeWhile_imp hread

theorem newline_notMem_of_mem_shown {bytes : List UInt8} {text : String}
    (h : text ∈ Session.shown {} (heard (Text.readLines bytes))) : '\n' ∉ text.toList := by
  obtain ⟨before, line, after, hlines, hreply⟩ := Session.exists_of_mem_shown h
  have hline : line ∈ heard (Text.readLines bytes) := by simp [hlines]
  exact Session.newline_notMem_of_reply
    (Text.newline_notMem_of_mem_readLines (mem_of_mem_heard hline).1) hreply

/-! ## The output of a run -/

variable {x : Setting} {quiet : Bool} {bytes : List UInt8}

theorem newline_notMem_of_mem_closing {text : String} (h : text ∈ closing quiet) :
    '\n' ∉ text.toList := by
  cases quiet with
  | true => cases h
  | false =>
    obtain rfl := List.mem_singleton.1 h
    decide +kernel

/-- The texts that are printed by a run that is fed the bytes: the replies and the farewell. -/
def outTexts (quiet : Bool) (bytes : List UInt8) : List String :=
  Session.shown {} (heard (Text.readLines bytes)) ++ closing quiet

theorem Setting.Feeds.out_eq (h : x.Feeds quiet bytes) :
    x.run.out = printed (outTexts quiet bytes) := by
  rw [h.run_eq, transcript_eq, outTexts, printed_append]

theorem newline_notMem_of_mem_outTexts : ∀ text ∈ outTexts quiet bytes, '\n' ∉ text.toList := by
  intro text htext
  rcases List.mem_append.1 htext with htext | htext
  · exact newline_notMem_of_mem_shown htext
  · exact newline_notMem_of_mem_closing htext

/-- **The output stays in step with the input.**  In a session that has handled any lines, a line
without a newline character gets no reply with one, and no empty text.  So the output of a run
has a line for every line that is heard and not blank, and one for the farewell, unless the run is
quiet; and a line that is heard is answered by the line of the output with its number, where
blank lines are not numbered. -/
theorem output_in_step :
    (∀ lines line text, '\n' ∉ line.toList →
      ((Session.after {} lines).handle line).reply = .text text →
        '\n' ∉ text.toList ∧ text ≠ "") ∧
    ∀ (x : Setting) quiet bytes, x.Feeds quiet bytes →
      x.run.out.toList.count '\n' =
        (heard (Text.readLines bytes)).countP (!Text.isBlankLine ·) + (if quiet then 0 else 1) ∧
      ∀ before line after, heard (Text.readLines bytes) = before ++ line :: after →
        Text.isBlankLine line = false →
          ∃ text, ((Session.after {} before).handle line).reply = .text text ∧
            (x.run.out.toList.splitOn '\n')[before.countP (!Text.isBlankLine ·)]? =
              some text.toList := by
  refine ⟨fun lines line text hline hreply => ⟨?_, ?_⟩, fun x quiet bytes hfeeds => ?_⟩
  · exact Session.newline_notMem_of_reply hline hreply
  · exact ((Session.after {} lines).replies_handle line).text_ne_empty hreply
  have hheard : ∀ line ∈ heard (Text.readLines bytes), Text.trim line ≠ "/exit" :=
    fun line hline => (mem_of_mem_heard hline).2
  rw [hfeeds.out_eq]
  constructor
  · rw [count_newline_printed newline_notMem_of_mem_outTexts, outTexts, List.length_append,
      Session.length_shown hheard]
    cases quiet <;> rfl
  · intro before line after hlines hblank
    rw [hlines] at hheard
    have hline : Text.trim line ≠ "/exit" := hheard line (by simp)
    obtain ⟨text, hreply⟩ : ∃ text, ((Session.after {} before).handle line).reply = .text text :=
      Session.exists_reply_eq_text (by simp [hblank]) hline
    refine ⟨text, hreply, ?_⟩
    -- the replies to the lines in front come first
    have hlength : before.countP (!Text.isBlankLine ·) = (Session.shown {} before).length :=
      (Session.length_shown fun line hline => hheard line (by simp [hline])).symm
    rw [splitOn_printed newline_notMem_of_mem_outTexts, outTexts, hlines, Session.shown_append,
      Session.shown_cons, hreply, hlength]
    simp [Reply.text?]

/-- The line `x` with a tab behind it is quoted in its reply.  Of the lines `5`, an empty one and
` 7`, the last one is answered by the second line of the output, and the farewell is the third. -/
theorem output_in_step_of_blank_line :
    let text := "Unsupported character '\t' in expression: x\t"
    let x : Setting := ⟨[], [53, 10, 10, 32, 55], fun _ => .missing⟩
    ('\n' ∉ text.toList ∧ text ≠ "") ∧
    x.run.out.toList.count '\n' = 3 ∧
      ∃ text, ((Session.after {} ["5", ""]).handle " 7").reply = .text text ∧
        (x.run.out.toList.splitOn '\n')[1]? = some text.toList := by
  intro text x
  obtain ⟨hreplies, hruns⟩ := output_in_step
  have hx : x.Feeds false x.input := .input (by decide +kernel) rfl
  have hheard : heard (Text.readLines x.input) = ["5", "", " 7"] := by decide +kernel
  obtain ⟨hcount, hlines⟩ := hruns x false x.input hx
  rw [hheard] at hcount
  refine ⟨hreplies ["x = 1"] "x\t" text (by decide +kernel) (by decide +kernel), ?_, ?_⟩
  · exact hcount.trans (by decide +kernel)
  · exact hlines ["5", ""] " 7" [] hheard (by decide +kernel)

end Console
end SignedSum
