/-
What an expression finds at a place, and when it finds nothing.

A run carries along the attempts that were made before, for the sake of
error messages. They have no influence on the match (`fst_run`), so there
is a function `Grammar.found` of the place alone. The lemmas `found_…` are
the equations one would write to define parsing expressions: a sequence
is one match behind another, a choice the first match that there is, a
repetition one match and then the repetition again.

# The induction

`fst_run` is proved by `Grammar.work`, the measure by which matching is a
total function. That the parts of an expression take less work is known
from there (`work_seq_left` and so on). What remains is to read off from
the equations of the run that the attempts only ever reach attempts; the
lemmas `fst_run_…` do so, one for each form.
-/
import Jam.Peg.Lemmas

namespace Jam

namespace Grammar

variable {N : Type} (g : Grammar N) (m : Mode) (c : Cursor) (t : Attempts N)

-- ================================================== the match of a run

/-- The match of a run, with the nodes of an earlier one before its own. -/
def behind (f f' : Match N) : Match N := ⟨f'.stop, f.nodes ++ f'.nodes⟩

theorem fst_run_seq (a b : Peg N) :
    (g.run m (.seq a b) c t).1 = (g.run m a c t).1.bind fun f =>
      (g.run m b f.stop (g.run m a c t).2).1.map (behind f) := by
  rw [run_seq]
  rcases g.run m a c t with ⟨_ | f, s⟩
  · rfl
  · dsimp only [Option.bind_some]
    rcases g.run m b f.stop s with ⟨_ | f', _⟩ <;> rfl

theorem fst_run_alt (a b : Peg N) :
    (g.run m (.alt a b) c t).1 =
      (g.run m a c t).1.or (g.run m b c (g.run m a c t).2).1 := by
  rw [run_alt]
  rcases g.run m a c t with ⟨_ | f, s⟩ <;> rfl

theorem fst_run_many (a : Peg N) :
    (g.run m (.many a) c t).1 =
      match (g.run m a c t).1 with
      | none => some ⟨c, []⟩
      | some f =>
        if f.stop.offset = c.offset then some f
        else (g.run m (.many a) f.stop (g.run m a c t).2).1.map (behind f) := by
  rw [run_many]
  rcases g.run m a c t with ⟨_ | f, s⟩
  · rfl
  · dsimp only
    split <;> rfl

theorem fst_run_opt (a : Peg N) :
    (g.run m (.opt a) c t).1 = some ((g.run m a c t).1.getD ⟨c, []⟩) := by
  rw [run_opt]
  rcases g.run m a c t with ⟨_ | f, s⟩ <;> rfl

theorem fst_run_ahead (a : Peg N) :
    (g.run m (.ahead a) c t).1 = (g.run m.ahead a c t).1.map fun _ =>
      ⟨c, []⟩ := by
  rw [run_ahead]
  rcases g.run m.ahead a c t with ⟨_ | f, s⟩ <;> rfl

theorem fst_run_notAhead (a : Peg N) :
    (g.run m (.notAhead a) c t).1 =
      if (g.run m.notAhead a c t).1.isSome then none else some ⟨c, []⟩ := by
  rw [run_notAhead]
  rcases g.run m.notAhead a c t with ⟨_ | f, s⟩ <;> rfl

/-- What a nonterminal that is retained makes of the match of its body. -/
def enclose (r : N) (m : Mode) (c : Cursor) (f : Match N) : Match N :=
  if (g.ownMode r m).keepsNodes then ⟨f.stop, [.node r c f.stop f.nodes]⟩ else f

theorem fst_run_call {r : N} (h : g.retention r ≠ .silent) :
    (g.run m (.call r) c t).1 =
      (g.run (g.bodyMode r m) (g.body r) c t).1.map (g.enclose r m c) := by
  rw [run_call _ _ _ _ h]
  rfl

-- ============================================== attempts do not matter

/-- What is found does not depend on the attempts made before. -/
theorem fst_run (e : Peg N) (t' : Attempts N) :
    (g.run m e c t).1 = (g.run m e c t').1 := by
  induction hn : g.work e c.rest.length
    using Nat.strongRecOn generalizing m e c t t' with
  | ind n ih =>
    subst hn
    cases e with
    | one accepts =>
      obtain ⟨rest, p⟩ := c
      cases rest with
      | nil => rw [run_one_nil, run_one_nil]
      | cons x xs =>
        rw [run_one_cons, run_one_cons]
        split <;> rfl
    | chars text => rw [run_chars, run_chars]
    | start => rw [run_start, run_start]
    | finish => rw [run_finish, run_finish]
    | seq a b =>
      rw [fst_run_seq, fst_run_seq, ih _ work_seq_left m c t a t' rfl]
      have hr := g.reaches_run m c t' a
      cases hx : (g.run m a c t').1 with
      | none => rfl
      | some f =>
        rw [hx] at hr
        dsimp only [Option.bind_some]
        rw [ih _ (work_seq_right hr.le (hr f rfl).2) m f.stop _ b _ rfl]
    | alt a b =>
      rw [fst_run_alt, fst_run_alt, ih _ work_alt_left m c t a t' rfl,
        ih _ work_alt_right m c _ b (g.run m a c t').2 rfl]
    | many a =>
      rw [fst_run_many, fst_run_many, ih _ work_many m c t a t' rfl]
      have hr := g.reaches_run m c t' a
      cases hx : (g.run m a c t').1 with
      | none => rfl
      | some f =>
        rw [hx] at hr
        dsimp only
        split
        · rfl
        · next hne =>
          have hlt := g.work_lt (Nat.le_refl (g.maxCost (.many a)))
            (.inl (hr.lt_of_offset_ne hne))
          rw [ih _ hlt m f.stop _ (.many a) _ rfl]
    | opt a => rw [fst_run_opt, fst_run_opt, ih _ work_opt m c t a t' rfl]
    | ahead a =>
      rw [fst_run_ahead, fst_run_ahead, ih _ work_ahead m.ahead c t a t' rfl]
    | notAhead a =>
      rw [fst_run_notAhead, fst_run_notAhead,
        ih _ work_notAhead m.notAhead c t a t' rfl]
    | call r =>
      have hb := fun m => ih _ work_body m c t (g.body r) t' rfl
      by_cases hs : g.retention r = .silent
      · rw [run_call_silent _ _ _ _ hs, run_call_silent _ _ _ _ hs, hb]
      · rw [fst_run_call _ _ _ _ hs, fst_run_call _ _ _ _ hs, hb]

/-- The match of an expression at a place. -/
def found (m : Mode) (e : Peg N) (c : Cursor) : Option (Match N) :=
  (g.run m e c .none).1

theorem fst_run_eq_found (e : Peg N) : (g.run m e c t).1 = g.found m e c :=
  g.fst_run m c t e .none

-- ============================================= the match, form by form

theorem found_one_nil (accepts : Char → Bool) (p : Point) :
    g.found m (.one accepts) ⟨[], p⟩ = none := by
  rw [found, run_one_nil]

theorem found_one_cons (accepts : Char → Bool) (p : Point) (x : Char)
    (xs : List Char) :
    g.found m (.one accepts) ⟨x :: xs, p⟩ = if accepts x then
      some ⟨⟨xs, p.after x⟩, []⟩ else none := by
  rw [found, run_one_cons]
  split <;> rfl

theorem found_chars (text : List Char) :
    g.found m (.chars text) c = (Cursor.skip? text c).map (⟨·, []⟩) := by
  rw [found, run_chars]

theorem found_start :
    g.found m .start c = if c.offset = 0 then some ⟨c, []⟩ else none := by
  rw [found, run_start]

theorem found_finish :
    g.found m .finish c = if c.rest.isEmpty then some ⟨c, []⟩ else none := by
  rw [found, run_finish]

theorem found_seq (a b : Peg N) :
    g.found m (.seq a b) c =
      (g.found m a c).bind fun f => (g.found m b f.stop).map (behind f) := by
  rw [found, fst_run_seq]
  simp only [fst_run_eq_found]

theorem found_alt (a b : Peg N) :
    g.found m (.alt a b) c = (g.found m a c).or (g.found m b c) := by
  rw [found, fst_run_alt]
  simp only [fst_run_eq_found]

theorem found_many (a : Peg N) :
    g.found m (.many a) c =
      match g.found m a c with
      | none => some ⟨c, []⟩
      | some f =>
        if f.stop.offset = c.offset then some f
        else (g.found m (.many a) f.stop).map (behind f) := by
  rw [found, fst_run_many]
  simp only [fst_run_eq_found]

theorem found_opt (a : Peg N) :
    g.found m (.opt a) c = some ((g.found m a c).getD ⟨c, []⟩) := by
  rw [found, fst_run_opt, found]

theorem found_ahead (a : Peg N) :
    g.found m (.ahead a) c = (g.found m.ahead a c).map fun _ => ⟨c, []⟩ := by
  rw [found, fst_run_ahead, found]

theorem found_notAhead (a : Peg N) :
    g.found m (.notAhead a) c =
      if (g.found m.notAhead a c).isSome then none else some ⟨c, []⟩ := by
  rw [found, fst_run_notAhead, found]

theorem found_silent {r : N} (h : g.retention r = .silent) :
    g.found m (.call r) c = g.found m (g.body r) c := by
  rw [found, run_call_silent _ _ _ _ h, found]

theorem found_call {r : N} (h : g.retention r ≠ .silent) :
    g.found m (.call r) c =
      (g.found (g.bodyMode r m) (g.body r) c).map (g.enclose r m c) := by
  rw [found, fst_run_call _ _ _ _ h, found]

end Grammar

end Jam
