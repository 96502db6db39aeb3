/-
What the report of an error shows of its place.

Below its header the report has the line that the first place of the error
begins on, and below that the underline (`report_lines`). If the place is
between seams then the caret stands under the first character of it, as
every character before it on the line is above a blank; and the marks,
which are the caret and the underscores, go to the end of the place, or to
the end of the line if the place is empty or ends on another line
(`Underlined`).
-/
import Jam.Report
import Jam.Proofs.Text.Lines

namespace Jam

variable {source : String} {s : Span}
  {before inside behind prior line rest : List Char}

-- ================================================ places between seams

/-- The span of what is inside, in the text named `source` that is made of what
is before, inside and behind, without a line break that is cut in two at its
ends. -/
structure Span.Covers (source : String) (s : Span)
    (before inside behind : List Char) : Prop where
  source_eq : s.source = source
  first : s.first = Point.origin.afterAll before
  last : s.last = Point.origin.afterAll (before ++ inside)
  first_seam : Seam before (inside ++ behind)
  last_seam : Seam (before ++ inside) behind

namespace Span.Covers

theorem first_line (h : s.Covers source before inside behind) :
    s.first.line = 1 + before.count '\n' := by
  rw [h.first, Point.line_afterAll]
  rfl

theorem last_line (h : s.Covers source before inside behind) :
    s.last.line = s.first.line + inside.count '\n' := by
  rw [h.last, h.first, Point.afterAll_append, Point.line_afterAll]

theorem first_column (h : s.Covers source before inside behind) :
    s.first.column = 1 + (lastLine before).length := by
  rw [h.first, Point.column_afterAll]

theorem last_column (h : s.Covers source before inside behind) :
    s.last.column = 1 + (lastLine (before ++ inside)).length := by
  rw [h.last, Point.column_afterAll]

end Span.Covers

-- =========================================================== the marks

/-- So many marks, behind blanks for what is before the place on the line, are
right for the place: they cover it if it is on the line and not empty, and
otherwise the rest of the line. -/
structure Underlined (line head inside : List Char) (marks : Nat) : Prop where
  begins : head <+: line
  positive : 0 < marks
  covers : inside ≠ [] → '\n' ∉ inside →
    head ++ inside <+: line ∧ marks = inside.length
  rest : inside = [] ∨ '\n' ∈ inside → head ≠ line →
    head.length + marks = line.length
  behind : inside = [] ∨ '\n' ∈ inside → head = line → marks = 1

/-- A place that is not empty and on one line is covered. -/
theorem underlineRange_inside (hs : s.Covers source before inside behind)
    (hne : inside ≠ []) (hn : '\n' ∉ inside) (width : Nat) :
    underlineRange s width =
      ((lastLine before).length, (lastLine before).length + inside.length) := by
  have hline : s.last.line = s.first.line := by
    rw [hs.last_line, List.count_eq_zero.mpr hn, Nat.add_zero]
  have hlast := hs.last_column
  rw [lastLine_append hn, List.length_append] at hlast
  have hlength := List.length_pos_iff.mpr hne
  have hcolumn : s.first.column < s.last.column := by
    rw [hlast, hs.first_column]
    omega
  rw [underlineRange, if_pos ⟨hline, hcolumn⟩, hlast, hs.first_column]
  exact Prod.ext (Nat.add_sub_cancel_left ..) (Nat.add_sub_cancel_left ..)

/-- Otherwise the rest of the line is covered, and one column at its end. -/
theorem underlineRange_rest (hs : s.Covers source before inside behind)
    (h : inside = [] ∨ '\n' ∈ inside) (width : Nat) :
    underlineRange s width =
      ((lastLine before).length, if (lastLine before).length < width then width
        else (lastLine before).length + 1) := by
  have hother :
      ¬ (s.last.line = s.first.line ∧ s.first.column < s.last.column) := by
    rintro ⟨hline, hcolumn⟩
    rcases h with rfl | hn
    · rw [hs.last, hs.first, List.append_nil] at hcolumn
      exact Nat.lt_irrefl _ hcolumn
    · have hcount := List.count_pos_iff.mpr hn
      rw [hs.last_line] at hline
      omega
  have hstart : s.first.column - 1 = (lastLine before).length := by
    rw [hs.first_column, Nat.add_sub_cancel_left]
  rw [underlineRange, if_neg hother, hstart]

/-- The columns that are underlined on the line of a place. -/
theorem exists_underlined (hs : s.Covers source before inside behind)
    (hline : IsLine (before ++ (inside ++ behind)) prior line rest)
    (hbefore : before = prior ++ lastLine before) :
    ∃ marks, underlineRange s line.length =
        ((lastLine before).length, (lastLine before).length + marks) ∧
      Underlined line (lastLine before) inside marks := by
  generalize hhead : lastLine before = head at hbefore ⊢
  subst hbefore
  have hinner : '\n' ∉ head := hhead ▸ not_mem_lastLine _
  have hbegins := hline.prefix_of_seam rfl hs.first_seam hinner
  by_cases h : inside = [] ∨ '\n' ∈ inside
  · have hrange := underlineRange_rest hs h line.length
    rw [hhead] at hrange
    have hnot {P : Prop} : inside ≠ [] → '\n' ∉ inside → P :=
      fun hne hn => (h.elim hne hn).elim
    by_cases heq : head = line
    · subst heq
      rw [if_neg (Nat.lt_irrefl _)] at hrange
      exact ⟨1, hrange, hbegins, Nat.one_pos, hnot, fun _ hne => absurd rfl hne,
        fun _ _ => rfl⟩
    · have hlt : head.length < line.length :=
        Nat.lt_of_le_of_ne hbegins.length_le fun hlength =>
          heq (hbegins.eq_of_length hlength)
      rw [if_pos hlt] at hrange
      refine ⟨line.length - head.length, ?_, hbegins, by omega, hnot,
        fun _ _ => by omega, fun _ heq' => absurd heq' heq⟩
      rw [hrange, Nat.add_sub_cancel' hlt.le]
  · obtain ⟨hne, hn⟩ := not_or.mp h
    have hrange := underlineRange_inside hs hne hn line.length
    rw [hhead] at hrange
    -- The place ends at a seam of the same line.
    have htext : (prior ++ head) ++ (inside ++ behind) =
        (prior ++ (head ++ inside)) ++ behind := by
      simp only [List.append_assoc]
    have hseam := hs.last_seam
    rw [List.append_assoc] at hseam
    have hends : head ++ inside <+: line :=
      hline.prefix_of_seam htext hseam fun hmem =>
      (List.mem_append.mp hmem).elim hinner hn
    exact ⟨inside.length, hrange, hbegins, List.length_pos_iff.mpr hne,
      fun _ _ => ⟨hends, rfl⟩, fun hor => absurd hor h, fun hor => absurd hor h⟩

/-- The underline of a place, as it is printed. -/
theorem underline_eq {width start marks : Nat}
    (h : underlineRange s width = (start, start + marks)) :
    underline s width = String.ofList
      (List.replicate start ' ' ++ '^' :: List.replicate (marks - 1) '_') := by
  rw [underline, h]
  dsimp only
  rw [Nat.add_sub_cancel_left]

-- ========================================================== the report

theorem not_mem_toDigits (n : Nat) : '\n' ∉ Nat.toDigits 10 n := fun hn =>
  absurd (Nat.isDigit_of_mem_toDigits (by decide) (Nat.le_refl 10) hn)
    (by decide)

/-- The line above the line of the place. -/
def reportHeader (s : Span) : String := s!"ERROR AT {s.first.display s.source}:"

theorem not_mem_reportHeader (h : '\n' ∉ s.source.toList) :
    '\n' ∉ (reportHeader s).toList := by
  change '\n' ∉ ("ERROR AT " ++ (s.source ++ ":" ++ s.first.line.repr ++ ":" ++
    s.first.column.repr) ++ ":").toList
  simp [h, not_mem_toDigits]

theorem not_mem_underline (s : Span) (width : Nat) :
    '\n' ∉ (underline s width).toList := by
  rw [underline, String.toList_ofList]
  simp

/-- Texts that are printed each with a line feed are the lines, up to where one
has a line feed of its own. -/
theorem splitLines_print (h : '\n' ∉ line) (lines : List String) :
    splitLines
      (String.join ((String.ofList line :: lines).map (· ++ "\n"))).toList =
      line :: splitLines (String.join (lines.map (· ++ "\n"))).toList := by
  rw [List.map_cons, String.join_cons, String.toList_append,
    String.toList_append, String.toList_ofList, List.append_assoc]
  exact splitLines_line h

/-- The first lines of a report are its header, the line of the place and the
underline. -/
theorem report_lines {text : List Char} {e : Error} {around : List Span}
    (he : e.spans = s :: around) (hsource : '\n' ∉ s.source.toList)
    (hline : '\n' ∉ sourceLine text s.first.line) :
    ∃ more, splitLines (report text e).toList =
      (reportHeader s).toList :: sourceLine text s.first.line ::
        (underline s (sourceLine text s.first.line).length).toList :: more := by
  have hlines : ∃ further,
      reportLines text e = String.ofList (reportHeader s).toList ::
      String.ofList (sourceLine text s.first.line) :: String.ofList
      (underline s (sourceLine text s.first.line).length).toList ::
      further := by
    rw [reportLines, he, String.ofList_toList, String.ofList_toList]
    exact ⟨_, rfl⟩
  obtain ⟨further, hlines⟩ := hlines
  rw [report, hlines, splitLines_print (not_mem_reportHeader hsource),
    splitLines_print hline, splitLines_print (not_mem_underline s _)]
  exact ⟨_, rfl⟩

end Jam
