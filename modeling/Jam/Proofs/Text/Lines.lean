/-
The lines of a text, and places on them.

A line ends with a line feed, with a carriage return and a line feed, or
with the text (`EndsLine`). So of two characters that end a line together,
neither is on the line, and between them there is a place that is on no
line at all. A place that is not such a one is a `Seam`: the text before
it and the text behind it each have their line breaks whole. A seam is on
the line that its part of the text ends on (`IsLine.prefix_of_seam`).

`sourceLine` finds a line by counting the line feeds before it
(`IsLine.sourceLine_eq`), and the column of a seam counts the characters
of its line that are before it.
-/
import Jam.Proofs.Text.Outline
import Jam.Proofs.Text.Positions

namespace Jam

variable {text prior before behind line head rest cs ds es : List Char}

-- =============================================================== seams

/-- No line break is cut in two between the one text and the other. -/
def Seam (before behind : List Char) : Prop :=
  before.getLast? = some '\r' → behind.head? ≠ some '\n'

namespace Seam

theorem nil (behind : List Char) : Seam [] behind :=
  fun h => absurd h.symm (Option.some_ne_none _)

theorem of_last (h : before.getLast? ≠ some '\r') : Seam before behind :=
  fun hr => absurd hr h

theorem of_head (h : behind.head? ≠ some '\n') : Seam before behind :=
  fun _ => h

/-- A seam that is further on. -/
theorem append (h : Seam cs (ds ++ es)) (h' : Seam ds es) :
    Seam (cs ++ ds) es := by
  intro hr
  rw [List.getLast?_append] at hr
  cases hlast : ds.getLast? with
  | none =>
    obtain rfl := List.getLast?_eq_none_iff.mp hlast
    exact h (by simpa using hr)
  | some c =>
    rw [hlast] at hr
    exact h' (hlast.trans hr)

end Seam

-- =============================================================== lines

/-- What is behind a line: a line feed, or a carriage return and a line feed,
and then what there is; or nothing. -/
inductive EndsLine : List Char → List Char → Prop
  | lineFeed {line rest : List Char} :
      line.getLast? ≠ some '\r' → EndsLine line ('\n' :: rest)
  | returnLineFeed {line rest : List Char} :
      EndsLine line ('\r' :: '\n' :: rest)
  | text {line : List Char} : EndsLine line []

/-- The text has a line between what is before it and what is behind it. -/
structure IsLine (text prior line behind : List Char) : Prop where
  text_eq : text = prior ++ (line ++ behind)
  begins : prior = [] ∨ prior.getLast? = some '\n'
  inner : '\n' ∉ line
  ends : EndsLine line behind

theorem splitLines_ne_nil (cs : List Char) : splitLines cs ≠ [] := by
  cases cs with
  | nil => exact List.cons_ne_nil _ _
  | cons c cs =>
    rw [splitLines]
    split
    · exact List.cons_ne_nil _ _
    · split <;> exact List.cons_ne_nil _ _

theorem splitLines_of_not_mem (h : '\n' ∉ line) : splitLines line = [line] := by
  induction line with
  | nil => rfl
  | cons c line ih =>
    obtain ⟨hc, hline⟩ := not_or.mp (mt List.mem_cons.mpr h)
    rw [splitLines, if_neg (Ne.symm hc), ih hline]

/-- The lines of a text that ends with a line feed, and the lines behind it. -/
theorem splitLines_append_lineFeed (cs ds : List Char) :
    splitLines (cs ++ '\n' :: ds) = splitLines cs ++ splitLines ds := by
  induction cs with
  | nil => exact splitLines_line List.not_mem_nil
  | cons c cs ih =>
    rw [List.cons_append, splitLines, splitLines, ih]
    by_cases hc : c = '\n'
    · rw [if_pos hc, if_pos hc]
      rfl
    · rw [if_neg hc, if_neg hc]
      cases hlines : splitLines cs with
      | nil => exact absurd hlines (splitLines_ne_nil cs)
      | cons line lines => rfl

theorem length_splitLines (cs : List Char) :
    (splitLines cs).length = cs.count '\n' + 1 := by
  induction cs with
  | nil => rfl
  | cons c cs ih =>
    rw [splitLines, List.count_cons]
    by_cases hc : c = '\n'
    · rw [if_pos hc, if_pos (beq_iff_eq.mpr hc), List.length_cons, ih]
    · rw [if_neg hc, if_neg (by simpa using hc)]
      cases hlines : splitLines cs with
      | nil => exact absurd hlines (splitLines_ne_nil cs)
      | cons line lines =>
        rw [hlines] at ih
        exact ih

/-- In front of where a line begins there are as many lines as line feeds. -/
theorem splitLines_prior (h : prior = [] ∨ prior.getLast? = some '\n')
    (cs : List Char) :
    ∃ lines, splitLines (prior ++ cs) = lines ++ splitLines cs ∧
      lines.length = prior.count '\n' := by
  rcases h with rfl | h
  · exact ⟨[], rfl, rfl⟩
  · obtain ⟨ds, rfl⟩ := List.getLast?_eq_some_iff.mp h
    refine ⟨splitLines ds, ?_, ?_⟩
    · rw [List.append_assoc, List.singleton_append, splitLines_append_lineFeed]
    · rw [length_splitLines, List.count_append, List.count_singleton_self]

theorem dropReturn_of_last (h : line.getLast? ≠ some '\r') :
    dropReturn line = line := if_neg h

theorem dropReturn_return (line : List Char) :
    dropReturn (line ++ ['\r']) = line := by
  rw [dropReturn, if_pos List.getLast?_concat, List.dropLast_concat]

/-- What is shown as the line of a number: the first line of what comes behind
as many line feeds, without the carriage return of a line break. -/
theorem sourceLine_eq (h : prior = [] ∨ prior.getLast? = some '\n')
    {lines : List (List Char)} (hlines : splitLines cs = line :: lines) :
    sourceLine (prior ++ cs) (1 + prior.count '\n') = if lines = [] then line
      else dropReturn line := by
  obtain ⟨earlier, hsplit, hlength⟩ := splitLines_prior h cs
  have hget : (splitLines (prior ++ cs))[1 + prior.count '\n' - 1]?.getD [] =
      line := by
    rw [hsplit, hlines, Nat.add_sub_cancel_left, ← hlength,
      List.getElem?_append_right (Nat.le_refl _), Nat.sub_self]
    rfl
  have hmore : 1 + prior.count '\n' < (splitLines (prior ++ cs)).length ↔
      lines ≠ [] := by
    rw [hsplit, hlines, List.length_append, hlength, List.length_cons,
      ← List.length_pos_iff]
    omega
  rw [sourceLine, hget]
  by_cases hnil : lines = []
  · rw [if_pos hnil, if_neg (by rw [hmore]; exact not_not.mpr hnil)]
  · rw [if_neg hnil, if_pos (hmore.mpr hnil)]

namespace IsLine

/-- A line is found by the line feeds before it. -/
theorem sourceLine_eq (h : IsLine text prior line behind) :
    sourceLine text (1 + prior.count '\n') = line := by
  obtain ⟨rfl, hbegins, hinner, hends⟩ := h
  cases hends with
  | lineFeed hlast =>
    rw [Jam.sourceLine_eq hbegins (splitLines_line hinner),
      if_neg (splitLines_ne_nil _), dropReturn_of_last hlast]
  | @returnLineFeed rest =>
    have hraw : '\n' ∉ line ++ ['\r'] := by simpa using hinner
    have hsplit : splitLines (line ++ '\r' :: '\n' :: rest) =
        (line ++ ['\r']) :: splitLines rest := by
      rw [← splitLines_line hraw, List.append_assoc]
      rfl
    rw [Jam.sourceLine_eq hbegins hsplit, if_neg (splitLines_ne_nil _),
      dropReturn_return]
  | text =>
    rw [List.append_nil,
      Jam.sourceLine_eq hbegins (splitLines_of_not_mem hinner), if_pos rfl]

/-- What is behind the beginning of a line, up to a seam before its line feed,
is on the line. -/
theorem prefix_of_seam (h : IsLine text prior line behind)
    (htext : text = (prior ++ head) ++ rest) (hseam : Seam (prior ++ head) rest)
    (hhead : '\n' ∉ head) : head <+: line := by
  rw [h.text_eq, List.append_assoc, List.append_cancel_left_eq] at htext
  rcases List.append_eq_append_iff.mp
      htext with ⟨more, rfl, hbehind⟩ | ⟨more, rfl, -⟩
  · have hmore : '\n' ∉ more := fun hn => hhead (List.mem_append_right line hn)
    -- Nothing of what ends the line is before the seam.
    have hnil : more = [] := by
      cases more with
      | nil => rfl
      | cons c more =>
        obtain ⟨hc, htail⟩ := not_or.mp (mt List.mem_cons.mpr hmore)
        cases h.ends with
        | lineFeed => exact absurd (List.cons.inj hbehind).1 hc
        | returnLineFeed =>
          obtain ⟨rfl, hrest⟩ := List.cons.inj hbehind
          cases more with
          | nil =>
            refine absurd (congrArg List.head? hrest.symm) (hseam ?_)
            rw [← List.append_assoc, List.getLast?_concat]
          | cons d more =>
            obtain ⟨rfl, -⟩ := List.cons.inj hrest
            exact absurd List.mem_cons_self htail
        | text => cases hbehind
    exact ⟨[], by rw [hnil, List.append_nil, List.append_nil]⟩
  · exact List.prefix_append head more

end IsLine

/-- Where a line begins there is one. -/
theorem exists_isLine (h : prior = [] ∨ prior.getLast? = some '\n')
    (cs : List Char) :
    ∃ line behind, IsLine (prior ++ cs) prior line behind := by
  have hsplit := List.takeWhile_append_dropWhile (p := (· != '\n')) (l := cs)
  have hinner : '\n' ∉ cs.takeWhile (· != '\n') := fun hn => by
    simpa using List.mem_takeWhile_imp hn
  generalize cs.takeWhile (· != '\n') = line at hsplit hinner
  cases hrest : cs.dropWhile (· != '\n') with
  | nil =>
    rw [hrest] at hsplit
    exact ⟨line, [], by rw [hsplit], h, hinner, .text⟩
  | cons c rest =>
    have hc : c = '\n' := by
      have hhead := List.head?_dropWhile_not (· != '\n') cs
      rw [hrest] at hhead
      simpa using hhead
    subst hc
    rw [hrest] at hsplit
    by_cases hlast : line.getLast? = some '\r'
    · obtain ⟨shown, rfl⟩ := List.getLast?_eq_some_iff.mp hlast
      refine ⟨shown, '\r' :: '\n' :: rest, ?_, h, ?_, .returnLineFeed⟩
      · rw [← hsplit, List.append_assoc]
        rfl
      · exact fun hn => hinner (List.mem_append_left _ hn)
    · exact ⟨line, '\n' :: rest, by rw [hsplit], h, hinner, .lineFeed hlast⟩

-- ================================================= the line of a place

theorem not_mem_lastLine (cs : List Char) : '\n' ∉ lastLine cs := fun hn => by
  simpa using List.mem_rtakeWhile_imp hn

theorem lastLine_append (h : '\n' ∉ ds) (cs : List Char) :
    lastLine (cs ++ ds) = lastLine cs ++ ds := by
  induction ds using List.reverseRecOn with
  | nil => rw [List.append_nil, List.append_nil]
  | append_singleton ds d ih =>
    obtain ⟨hds, hd⟩ := not_or.mp (mt List.mem_append.mpr h)
    have hne : d ≠ '\n' := fun heq => hd (heq ▸ List.mem_singleton_self d)
    rw [lastLine, ← List.append_assoc, List.rtakeWhile_concat_pos _ _ _
      (by simpa using hne), ← List.append_assoc, ← ih hds, lastLine]

/-- Before its last line a text has as many line feeds as in all, and it ends
with one. -/
theorem exists_prior (before : List Char) :
    ∃ prior, before = prior ++ lastLine before ∧
      (prior = [] ∨ prior.getLast? = some '\n') ∧
      prior.count '\n' = before.count '\n' := by
  have hsplit :=
    List.rdropWhile_append_rtakeWhile (p := (· != '\n')) (l := before)
  refine ⟨before.rdropWhile (· != '\n'), hsplit.symm, ?_, ?_⟩
  · by_cases hnil : before.rdropWhile (· != '\n') = []
    · exact .inl hnil
    · have hlast := List.rdropWhile_last_not (· != '\n') before hnil
      rw [List.getLast?_eq_some_getLast hnil]
      exact .inr (by simpa using hlast)
  · have hcount := congrArg (List.count '\n') hsplit
    rw [List.count_append] at hcount
    have hnone : (before.rtakeWhile (· != '\n')).count '\n' = 0 :=
      List.count_eq_zero.mpr (not_mem_lastLine before)
    omega

end Jam
