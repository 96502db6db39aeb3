/-
The report of an error underlines the right text.

The primary place of an error is between seams of the text that was run,
wherever the error comes from (`runText_error_sealed`), and a place between
seams is shown where it is (`exists_underlined`). Put together: the second
line of a report is the line of the text that the place begins on, without
its line break, and the third line marks under it what the place covers of
this line (`Error.ShownAt`).

The numbers that the underline is computed from count from one, so nothing
is subtracted from a smaller number (`Span.Subtracts`).
-/
import Jam.CommandLine
import Jam.Proofs.Eval.Diagnostics
import Jam.Proofs.Eval.Placing

namespace Jam

variable {source : String} {text prior head inside behind line rest : List Char}
  {e : Error} {s : Span} {marks : Nat}

-- ========================================================= definitions

/-- What is subtracted where the span is underlined is never the larger
number. -/
structure Span.Subtracts (s : Span) (width : Nat) : Prop where
  line : 1 ≤ s.first.line
  column : 1 ≤ s.first.column
  last : 1 ≤ s.last.column
  /-- For the underscores, one column is taken off those that are marked. -/
  range : (underlineRange s width).1 + 1 ≤ (underlineRange s width).2

/-- The report of the error shows its primary span, which covers what is inside:
behind some lines and what is before it on its line, and with some text behind
it. The line is shown and has so many marks under it. -/
structure Error.ShownAt (text : List Char) (e : Error) (s : Span)
    (prior head inside behind line rest : List Char) (marks : Nat) : Prop where
  primary : e.spans.head? = some s
  text_eq : text = (prior ++ head) ++ (inside ++ behind)
  first : s.first.offset = (String.ofList (prior ++ head)).utf8ByteSize
  last : s.last.offset =
    (String.ofList ((prior ++ head) ++ inside)).utf8ByteSize
  is_line : IsLine text prior line rest
  report : ∃ more,
    splitLines (report text e).toList =
      (reportHeader s).toList :: line ::
      (List.replicate head.length ' ' ++
        '^' :: List.replicate (marks - 1) '_') :: more
  underlined : Underlined line head inside marks
  subtracts : s.Subtracts line.length

-- ================================================= spans between seams

theorem Span.Covers.subtracts (h : s.Covers source prior inside behind)
    {width start : Nat} (hmarks : 0 < marks)
    (hrange : underlineRange s width = (start, start + marks)) :
    s.Subtracts width where
  line := by
    rw [h.first_line]
    exact Nat.le_add_right 1 _
  column := by
    rw [h.first_column]
    exact Nat.le_add_right 1 _
  last := by
    rw [h.last_column]
    exact Nat.le_add_right 1 _
  range := by
    rw [hrange]
    exact Nat.add_le_add_left hmarks start

/-- An error whose place is between seams of the text is shown in it. -/
theorem Error.At.shown (h : e.At (Span.Sealed source text))
    (hsource : '\n' ∉ source.toList) :
    ∃ s prior head inside behind line rest marks,
      e.ShownAt text s prior head inside behind line rest marks := by
  obtain ⟨s, around, hspans, before, inside, behind, htext, hs⟩ := h
  obtain ⟨prior, hbefore, hbegins, hcount⟩ := exists_prior before
  -- The line is found by the line feeds before the place, which are those
  -- before the line.
  obtain ⟨line, rest, hline⟩ :=
    exists_isLine hbegins (lastLine before ++ (inside ++ behind))
  have hsplit : text = prior ++ (lastLine before ++ (inside ++ behind)) := by
    rw [← List.append_assoc, ← hbefore]
    exact htext
  rw [← hsplit] at hline
  obtain ⟨marks, hrange, hunderlined⟩ :=
    exists_underlined hs (htext ▸ hline) hbefore
  have hshown : sourceLine text s.first.line = line := by
    rw [hs.first_line, ← hcount]
    exact hline.sourceLine_eq
  have hreport :=
    report_lines hspans (hs.source_eq ▸ hsource) (hshown ▸ hline.inner)
  rw [hshown, underline_eq hrange, String.toList_ofList] at hreport
  refine ⟨s, prior, lastLine before, inside, behind, line, rest, marks, ?_⟩
  have hsubtracts := hs.subtracts hunderlined.positive hrange
  refine ⟨?_, ?_, ?_, ?_, hline, hreport, hunderlined, hsubtracts⟩
  · rw [hspans]
    rfl
  · rw [← hbefore, htext]
  · rw [← hbefore, hs.first, Point.offset_origin_afterAll]
  · rw [← hbefore, hs.last, Point.offset_origin_afterAll]

-- ==================================================== the command line

namespace CommandLine

variable {after : World}

/-- The world that the command line runs its text in. -/
def startOf (r : Request) : World :=
  { scopes := Scopes.initial.importEnvironment r.environment }

theorem respond_of_error {r : Request} {text : String}
    (hinput : String.fromUTF8? r.input = some text)
    (hrun : (runText (settings r) sourceName text).runIn (startOf r) =
      (.error (.error e), after)) :
    respond r = ⟨1, outputOf after.events.toList,
      errorOutputOf after.events.toList ++ report text.toList e⟩ := by
  unfold respond
  rw [hinput]
  dsimp only
  unfold respondTo Session.run
  dsimp only
  unfold startOf at hrun
  rw [hrun]
  dsimp only
  rw [Reporter.receiveAll_streams]
  simp only [String.empty_append]

/-- Whenever a run of the input fails with an error, the report of the error
ends what is answered on the error output. Its second line is the line of the
input on which the primary span of the error begins, and its third line has the
caret behind as many blanks as there are characters on the line before the span.
With the underscores behind it the caret marks the characters of the span, if it
has any and ends on the line; and otherwise the rest of the line, or the column
behind it if the span begins at its end. -/
theorem report_underlines (r : Request) (text : String) (e : Error)
    (after : World) (hinput : String.fromUTF8? r.input = some text)
    (hrun : (runText (settings r) sourceName text).runIn (startOf r) =
      (.error (.error e), after)) :
    respond r = ⟨1, outputOf after.events.toList,
      errorOutputOf after.events.toList ++ report text.toList e⟩ ∧
    ∃ s prior head inside behind line rest marks,
      e.ShownAt text.toList s prior head inside behind line rest marks := by
  have hsealed : e.At (Span.Sealed sourceName text.toList) :=
    runText_error_sealed rfl hrun
  exact ⟨respond_of_error hinput hrun, hsealed.shown (by decide)⟩

/-- A text with two elements where a name takes one, behind a character of two
bytes and with both characters of its line breaks. -/
def splicingText : String := "x = é b ;\r\n  echo [é$(x)] ;\r\n"

def splicingRequest : Request := ⟨[], [], splicingText.toUTF8⟩

def splicingError : Error :=
  ⟨.identifierArity "$(x)" 2, [⟨sourceName, ⟨22, 2, 10⟩, ⟨26, 2, 14⟩⟩]⟩

theorem splicingText_underlined :
    String.fromUTF8? splicingRequest.input = some splicingText ∧
    ∃ after,
      (runText (settings splicingRequest) sourceName splicingText).runIn
        (startOf splicingRequest) = (.error (.error splicingError), after) ∧
      respond splicingRequest = ⟨1, outputOf after.events.toList,
        errorOutputOf after.events.toList ++
          report splicingText.toList splicingError⟩ ∧
      ∃ s prior head inside behind line rest marks,
        splicingError.ShownAt splicingText.toList s prior head inside behind
          line rest marks := by
  have hinput : String.fromUTF8? splicingRequest.input = some splicingText := by
    decide +kernel
  have hfails :
      ((runText (settings splicingRequest) sourceName splicingText).runIn
        (startOf splicingRequest)).1 = .error (.error splicingError) := by
    decide +kernel
  cases hrun :
      (runText (settings splicingRequest) sourceName splicingText).runIn
        (startOf splicingRequest) with
  | mk result after =>
    rw [hrun] at hfails
    cases hfails
    exact ⟨hinput, after, rfl, report_underlines splicingRequest splicingText
      splicingError after hinput hrun⟩

example :
    (splitLines (report splicingText.toList splicingError).toList).take 3 =
      ["ERROR AT <stdin>:2:10:".toList, "  echo [é$(x)] ;".toList,
        "         ^___".toList] := by
  decide +kernel

end CommandLine

end Jam
