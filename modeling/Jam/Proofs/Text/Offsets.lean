/-
Points and their offsets.

A point that is carried along a text is at the beginning of a character, or
at the end of the text, and it is the point of its own offset. So an offset
tells everything about a place, and a place that was reached by reading is
one that a string can be cut at.
-/
import Jam.Proofs.Text.Shift

namespace Jam.Point

/-- The walk to an offset that was reached by reading stops there. -/
theorem advanceTo_afterAll (p : Point) (pre rest : List Char) :
    p.advanceTo (p.afterAll pre).offset (pre ++ rest) = p.afterAll pre := by
  induction pre generalizing p with
  | nil =>
    cases rest with
    | nil => rfl
    | cons c rest =>
      have hc := c.utf8Size_pos
      rw [afterAll_nil, List.nil_append, advanceTo, if_neg (by omega)]
  | cons c pre ih =>
    have hle := offset_le_afterAll (p.after c) pre
    rw [offset_after] at hle
    rw [List.cons_append, advanceTo, afterAll_cons, if_pos hle]
    exact ih (p.after c)

/-- A point that was reached by reading is the point of its offset. -/
theorem ofOffset_afterAll (pre rest : List Char) :
    ofOffset (pre ++ rest) (origin.afterAll pre).offset =
      origin.afterAll pre := by
  have hle := offset_le_afterAll (origin.afterAll pre) rest
  unfold ofOffset
  dsimp only
  rw [advanceTo_afterAll, afterAll_append, Nat.min_eq_left hle]

/-- The text can be cut at it. -/
theorem isValid_afterAll {text : String} {pre rest : List Char}
    (h : text.toList = pre ++ rest) :
    (⟨(origin.afterAll pre).offset⟩ : String.Pos.Raw).IsValid text := by
  rw [String.Pos.Raw.isValid_iff_exists_append]
  refine ⟨String.ofList pre, String.ofList rest, ?_, ?_⟩
  · rw [← String.ofList_append, ← h, String.ofList_toList]
  · rw [offset_afterAll, String.rawEndPos, origin, Nat.zero_add]

end Jam.Point
