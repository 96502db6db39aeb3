/-
Outlines are read back from their text.

A line of an outline is blanks, two for each level, and then a header. If
no header begins with a blank then the depth of a line is seen from its
blanks (`readLine_eq`), and if there are no line feeds in the headers then
the lines of the text are the lines of the outline (`splitLines_render_iff`).

What belongs to a header are the headers behind it that stand further in,
up to the first that does not. So the outline is put together again from
its last line to its first: a line takes what was put together behind it,
as far as this stands further in (`nest`).
-/
import Jam.Report
import Jam.Text.Outline

namespace Jam

-- ============================================================= reading

/-- The blanks in front of a line. -/
def indent (depth : Nat) : List Char := List.replicate (2 * depth) ' '

/-- How far in a line stands, and what stands there. -/
def readLine (line : List Char) : Nat × String :=
  ((line.takeWhile (· = ' ')).length / 2,
    String.ofList (line.dropWhile (· = ' ')))

/-- Lines with what belongs to each of them, up to the next one that stands as
far in. -/
def nest : List (Nat × String) → List (Nat × Outline)
  | [] => []
  | (depth, header) :: lines =>
    (depth, .node header (((nest lines).takeWhile (depth < ·.1)).map (·.2))) ::
      (nest lines).dropWhile (depth < ·.1)

/-- Read the outlines that a text consists of, with their depths. Behind the
last line feed there is no line. -/
def readOutlines (text : String) : List (Nat × Outline) :=
  nest ((splitLines text.toList).dropLast.map readLine)

-- =============================================================== lines

variable {line rest : List Char} {lines : List (List Char)} {header : String}
  {depth : Nat} {o : Outline} {os : List Outline} {behind : List (Nat × String)}

theorem not_mem_splitLines (cs : List Char) :
    ∀ line ∈ splitLines cs, '\n' ∉ line := by
  induction cs with
  | nil => exact List.forall_mem_singleton.mpr List.not_mem_nil
  | cons c cs ih =>
    rw [splitLines]
    split
    · exact List.forall_mem_cons.mpr ⟨List.not_mem_nil, ih⟩
    · next hc =>
      have hcons {line : List Char} (h : '\n' ∉ line) : '\n' ∉ c :: line := by
        rw [List.mem_cons, not_or]
        exact ⟨Ne.symm hc, h⟩
      split
      · exact List.forall_mem_singleton.mpr (hcons List.not_mem_nil)
      · next line lines hlines =>
        rw [hlines] at ih
        obtain ⟨hline, hlines⟩ := List.forall_mem_cons.mp ih
        exact List.forall_mem_cons.mpr ⟨hcons hline, hlines⟩

/-- A line ends with its line feed. -/
theorem splitLines_line (h : '\n' ∉ line) :
    splitLines (line ++ '\n' :: rest) = line :: splitLines rest := by
  induction line with
  | nil => rw [List.nil_append, splitLines, if_pos rfl]
  | cons c line ih =>
    obtain ⟨hc, hline⟩ := not_or.mp (mt List.mem_cons.mpr h)
    rw [List.cons_append, splitLines, if_neg (Ne.symm hc), ih hline]

/-- The lines of a text that is made of lines are these if they have no line
feeds in them. -/
theorem splitLines_lines_iff :
    splitLines (lines.flatMap (· ++ ['\n'])) = lines ++ [[]] ↔
      ∀ line ∈ lines, '\n' ∉ line := by
  constructor
  · intro h line hline
    exact not_mem_splitLines _ line (h ▸ List.mem_append_left _ hline)
  · intro h
    induction lines with
    | nil => rfl
    | cons line lines ih =>
      obtain ⟨hline, hlines⟩ := List.forall_mem_cons.mp h
      rw [List.flatMap_cons, List.append_assoc, List.singleton_append,
        splitLines_line hline, ih hlines, List.cons_append]

/-- A header that can be told from the blanks in front of it. -/
def Begins (header : String) : Prop := ∃ c ∈ header.toList.head?, c ≠ ' '

theorem Begins.append {s : String} (h : Begins s) (t : String) :
    Begins (s ++ t) := by
  obtain ⟨c, hhead, hc⟩ := h
  refine ⟨c, ?_, hc⟩
  rw [String.toList_append, List.head?_append, hhead]
  rfl

instance (header : String) : Decidable (Begins header) :=
  decidable_of_iff (header.toList.head?.any (fun c => c != ' ') = true)
    (by simp [Begins, Option.any_eq_true])

theorem readLine_eq (h : Begins header) :
    readLine (indent depth ++ header.toList) = (depth, header) := by
  obtain ⟨c, hhead, hc⟩ := h
  obtain ⟨cs, hheader⟩ := List.head?_eq_some_iff.mp hhead
  have hblanks : ∀ b ∈ indent depth, decide (b = ' ') = true := fun b hb =>
    decide_eq_true (List.eq_of_mem_replicate hb)
  unfold readLine
  rw [List.takeWhile_append_of_pos hblanks,
    List.dropWhile_append_of_pos hblanks, hheader, List.takeWhile_cons_of_neg
    (by simpa using hc), List.dropWhile_cons_of_neg (by simpa using hc),
    List.append_nil, indent, List.length_replicate, ← hheader,
    String.ofList_toList, Nat.mul_div_cancel_left depth (by decide)]

-- ============================================================= nesting

/-- What was put together begins no further in than `depth`. -/
def StartsBy (depth : Nat) (behind : List (Nat × String)) : Prop :=
  ∀ x ∈ (nest behind).head?, x.1 ≤ depth

/-- What stands further in belongs to the line before. -/
theorem takeWhile_deeper (os : List Outline) (h : StartsBy depth behind) :
    ((os.map (depth + 1, ·) ++ nest behind).takeWhile (depth < ·.1)).map (·.2) =
      os ∧ (os.map (depth + 1, ·) ++ nest behind).dropWhile (depth < ·.1) =
      nest behind := by
  have hdeeper : ∀ x ∈ os.map (depth + 1, ·), decide (depth < x.1) = true := by
    intro x hx
    obtain ⟨o, -, rfl⟩ := List.mem_map.mp hx
    exact decide_eq_true (Nat.lt_succ_self depth)
  have hmap : (os.map (depth + 1, ·)).map (·.2) = os := by
    rw [List.map_map]
    exact List.map_id os
  rw [List.takeWhile_append_of_pos hdeeper,
    List.dropWhile_append_of_pos hdeeper, List.map_append, hmap]
  unfold StartsBy at h
  cases hn : nest behind with
  | nil => exact ⟨List.append_nil os, rfl⟩
  | cons x behind' =>
    rw [hn] at h
    have hx : ¬ depth < x.1 := Nat.not_lt_of_le (h x rfl)
    rw [List.takeWhile_cons_of_neg (by simpa using hx),
      List.dropWhile_cons_of_neg (by simpa using hx)]
    exact ⟨List.append_nil os, rfl⟩

mutual

/-- The lines of an outline are put together to it. -/
theorem nest_lines :
    ∀ (o : Outline) {depth : Nat} {behind : List (Nat × String)},
      StartsBy depth behind →
      nest (o.lines depth ++ behind) = (depth, o) :: nest behind
  | .node header below, depth, behind, h => by
    have hbelow : StartsBy (depth + 1) behind :=
      fun x hx => Nat.le_succ_of_le (h x hx)
    rw [Outline.lines, List.cons_append, nest, nest_linesAll below hbelow]
    obtain ⟨htake, hdrop⟩ := takeWhile_deeper below h
    rw [htake, hdrop]

theorem nest_linesAll :
    ∀ (os : List Outline) {depth : Nat} {behind : List (Nat × String)},
      StartsBy depth behind → nest (Outline.linesAll depth os ++ behind) =
      os.map (depth, ·) ++ nest behind
  | [], _, _, _ => rfl
  | o :: os, depth, behind, h => by
    have hrest := nest_linesAll os h
    have hstarts : StartsBy depth (Outline.linesAll depth os ++ behind) := by
      intro x hx
      rw [hrest] at hx
      cases os with
      | nil => exact h x hx
      | cons =>
        cases hx
        exact Nat.le_refl depth
    rw [Outline.linesAll, List.append_assoc, nest_lines o hstarts, hrest]
    rfl

end

-- ============================================================ outlines

/-- A line with its header, two blanks further in for each level. -/
def lineOf (x : Nat × String) : List Char := indent x.1 ++ x.2.toList

theorem toList_render (o : Outline) :
    o.render.toList = ((o.lines 0).map lineOf).flatMap (· ++ ['\n']) := by
  have hline (x : Nat × String) : (Outline.renderLine x).toList =
      lineOf x ++ ['\n'] := by
    rw [Outline.renderLine, String.toList_append, String.toList_append,
      String.toList_ofList]
    rfl
  rw [Outline.render, String.toList_join, List.flatMap_map, List.flatMap_map,
    funext hline]

/-- The headers stand on the lines of the text if there are no line feeds in
them. -/
theorem splitLines_render_iff :
    splitLines o.render.toList = (o.lines 0).map lineOf ++ [[]] ↔
      ∀ x ∈ o.lines 0, '\n' ∉ x.2.toList := by
  have hindent (depth : Nat) : '\n' ∉ indent depth := fun h =>
    absurd (List.eq_of_mem_replicate h) (by decide)
  rw [toList_render, splitLines_lines_iff, List.forall_mem_map]
  refine forall₂_congr fun x hx => not_congr ?_
  exact List.mem_append.trans (or_iff_right (hindent x.1))

/-- An outline is read back from its text. -/
theorem readOutlines_render (h : ∀ x ∈ o.lines 0, '\n' ∉ x.2.toList)
    (hb : ∀ x ∈ o.lines 0, Begins x.2) : readOutlines o.render = [(0, o)] := by
  have hread : ((o.lines 0).map lineOf).map readLine = o.lines 0 := by
    rw [List.map_map]
    exact (List.map_congr_left fun x hx => readLine_eq (hb x hx)).trans
      (List.map_id _)
  have hnest : nest (o.lines 0 ++ []) = [(0, o)] := nest_lines o fun _ hx => by
    cases hx
  rw [readOutlines, splitLines_render_iff.mpr h, List.dropLast_concat, hread,
    ← hnest, List.append_nil]

end Jam
