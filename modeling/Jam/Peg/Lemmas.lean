/-
What the run of an expression gives, form by form.

The lemmas here are the interface of the matcher: `run_seq`, `run_alt`
and their like say how the outcome of an expression comes from the
outcomes of its parts, and `reaches_run` that no match goes back.
Repetition satisfies the equation one would write for it
(`run_many`): match once, then go on behind it.
-/
import Jam.Peg.Match

namespace Jam

namespace Grammar

variable {N : Type} (g : Grammar N) (m : Mode) (c : Cursor) (t : Attempts N)

theorem reaches_run (e : Peg N) : g.Reaches e c (g.run m e c t).1 :=
  (g.walk m e c t).property

theorem run_one_nil (accepts : Char → Bool) (p : Point) :
    g.run m (.one accepts) ⟨[], p⟩ t = (none, t) := by
  unfold run walk; rfl

theorem run_one_cons (accepts : Char → Bool) (p : Point) (x : Char)
    (xs : List Char) :
    g.run m (.one accepts) ⟨x :: xs, p⟩ t = if accepts x then
      (some ⟨⟨xs, p.after x⟩, []⟩, t) else (none, t) := by
  unfold run walk
  simp only
  split <;> rfl

theorem run_chars (text : List Char) :
    g.run m (.chars text) c t = ((Cursor.skip? text c).map (⟨·, []⟩), t) := by
  unfold run walk
  split <;> simp_all

theorem run_start :
    g.run m .start c t = (if c.offset = 0 then some ⟨c, []⟩ else none, t) := by
  unfold run walk
  split <;> rfl

theorem run_finish :
    g.run m .finish c t =
      (if c.rest.isEmpty then some ⟨c, []⟩ else none, t) := by
  unfold run walk
  split <;> rfl

theorem run_seq (a b : Peg N) :
    g.run m (.seq a b) c t =
      match g.run m a c t with
      | (none, t) => (none, t)
      | (some f, t) =>
        match g.run m b f.stop t with
        | (none, t) => (none, t)
        | (some f', t) => (some ⟨f'.stop, f.nodes ++ f'.nodes⟩, t) := by
  unfold run
  rw [walk]
  split
  · rename_i h; simp [h]
  · rename_i f t' h hw
    simp only [hw]
    split
    · rename_i h'; simp [h']
    · rename_i h'; simp [h']

theorem run_alt (a b : Peg N) :
    g.run m (.alt a b) c t =
      match g.run m a c t with
      | (some f, t) => (some f, t)
      | (none, t) => g.run m b c t := by
  unfold run
  rw [walk]
  split
  · rename_i h; simp [h]
  · rename_i h; simp [h]

theorem run_opt (a : Peg N) :
    g.run m (.opt a) c t =
      match g.run m a c t with
      | (some f, t) => (some f, t)
      | (none, t) => (some ⟨c, []⟩, t) := by
  unfold run
  rw [walk]
  split <;> (rename_i h; simp [h])

theorem run_ahead (a : Peg N) :
    g.run m (.ahead a) c t =
      match g.run m.ahead a c t with
      | (some _, t) => (some ⟨c, []⟩, t)
      | (none, t) => (none, t) := by
  unfold run
  rw [walk]
  split <;> (rename_i h; simp [h])

theorem run_notAhead (a : Peg N) :
    g.run m (.notAhead a) c t =
      match g.run m.notAhead a c t with
      | (some _, t) => (none, t)
      | (none, t) => (some ⟨c, []⟩, t) := by
  unfold run
  rw [walk]
  split <;> (rename_i h; simp [h])

theorem run_call_silent {r : N} (h : g.retention r = .silent) :
    g.run m (.call r) c t = g.run m (g.body r) c t := by
  unfold run
  rw [walk]
  simp [h]

theorem run_call {r : N} (h : g.retention r ≠ .silent) :
    g.run m (.call r) c t = (g.ownMode r m).close r c (t.tally c.offset)
      (g.run (g.bodyMode r m) (g.body r) c t) := by
  unfold run
  rw [walk]
  simp [h]

-- ========================================================== repetition

theorem walkAll_nodes (a : Peg N) (nodes : List (Tree N)) :
    (g.walkAll m a c nodes t).val = ((g.walkAll m a c [] t).val.1.map fun f =>
      { f with nodes := nodes.reverse ++ f.nodes },
      (g.walkAll m a c [] t).val.2) := by
  generalize hn : c.rest.length = n
  induction n using Nat.strongRecOn generalizing c t nodes with
  | ind n ih =>
    rw [walkAll]
    conv => rhs; rw [walkAll]
    split
    · rename_i h; simp
    · rename_i f t' h hw
      by_cases hne : f.stop.offset = c.offset
      · simp [hne]
      · have hlt := h.lt_of_offset_ne hne
        simp only [hne, dite_false]
        rw [ih _ (hn ▸ hlt) f.stop t' (f.nodes.reverse ++ nodes) rfl,
          ih _ (hn ▸ hlt) f.stop t' (f.nodes.reverse ++ []) rfl]
        simp [Option.map_map, Function.comp_def]

theorem run_many (a : Peg N) :
    g.run m (.many a) c t =
      match g.run m a c t with
      | (none, t) => (some ⟨c, []⟩, t)
      | (some f, t) =>
        if f.stop.offset = c.offset then (some f, t)
        else
          match g.run m (.many a) f.stop t with
          | (o, t) => (o.map fun f' => ⟨f'.stop, f.nodes ++ f'.nodes⟩, t) := by
  unfold run
  rw [walk]
  rw [walkAll]
  split
  · rename_i h; simp [h]
  · rename_i f t' h hw
    simp only [hw]
    by_cases hne : f.stop.offset = c.offset
    · simp [hne]
    · simp only [hne, dite_false, if_false]
      rw [walkAll_nodes]
      rw [walk]
      simp

end Grammar

end Jam
