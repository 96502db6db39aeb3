/-
Texts that stand behind other texts.

A text that stands behind some lines begins at a point that is shifted: by
the bytes of these lines and by their number, while the column is the
first again. From there on all points are shifted alike
(`Point.shift_after`).
-/
import Jam.Text.Point

namespace Jam.Point

variable (p : Point) (cs : List Char)

/-- As many bytes and lines further on, in the same column. -/
def shift (bytes lines : Nat) (p : Point) : Point :=
  ⟨p.offset + bytes, p.line + lines, p.column⟩

theorem shift_after (bytes lines : Nat) (p : Point) (c : Char) :
    shift bytes lines (p.after c) = (shift bytes lines p).after c := by
  unfold shift after
  split
  · rw [mk.injEq]
    exact ⟨Nat.add_right_comm .., Nat.add_right_comm .., rfl⟩
  · rw [mk.injEq]
    exact ⟨Nat.add_right_comm .., rfl, rfl⟩

/-- The offset counts the bytes of a text. -/
theorem offset_afterAll :
    (p.afterAll cs).offset = p.offset + (String.ofList cs).utf8ByteSize := by
  induction cs generalizing p with
  | nil => rfl
  | cons c cs ih =>
    have hcons : String.ofList (c :: cs) =
        String.singleton c ++ String.ofList cs := by
      simp
    rw [afterAll_cons, ih, offset_after, hcons, String.utf8ByteSize_append,
      String.utf8ByteSize_singleton, Nat.add_assoc]

/-- The line counts the line feeds. -/
theorem line_afterAll : (p.afterAll cs).line = p.line + cs.count '\n' := by
  induction cs generalizing p with
  | nil => rfl
  | cons c cs ih =>
    rw [afterAll_cons, ih, List.count_cons, after]
    by_cases hc : c = '\n'
    · rw [if_pos hc, if_pos (beq_iff_eq.mpr hc)]
      dsimp only
      omega
    · rw [if_neg hc, if_neg (by simpa using hc)]
      rfl

/-- Behind a line feed one is where a text begins, shifted by the text
before. -/
theorem afterAll_lineFeed :
    origin.afterAll (cs ++ ['\n']) =
      shift (String.ofList (cs ++ ['\n'])).utf8ByteSize
      ((cs ++ ['\n']).count '\n') origin := by
  have ext {p q : Point} (ho : p.offset = q.offset) (hl : p.line = q.line)
      (hc : p.column = q.column) : p = q := by
    cases p
    cases q
    rw [mk.injEq]
    exact ⟨ho, hl, hc⟩
  refine ext (offset_afterAll ..) (line_afterAll ..) ?_
  rw [afterAll_append]
  rfl

end Jam.Point
