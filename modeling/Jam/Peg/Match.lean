/-
Matching a parsing expression against a text.

`Grammar.walk` reads an expression at a cursor and answers with the
cursor behind the match and the nodes it left, or with nothing, and
either way with the attempts made so far. It is a total function: each
step inside it does less work in the sense of `Grammar.work`, which is
why its result comes with the proof that it never moves back and moves
on unless the expression may be empty (`Grammar.Reaches`).

`Grammar.run` is the same function without the proof. The lemmas `run_…`
give its value for each form of expression; nothing else has to look
inside.

How a nonterminal is read depends on a `Mode`: under a lookahead no node
is kept, below a leaf neither node nor attempt is.
-/
import Jam.Peg.Basic
import Jam.Peg.Tree
import Jam.Peg.Attempts

namespace Jam

-- =============================================================== modes

/-- Whether, and which way round, a lookahead is being tried. -/
inductive Polarity
  | straight
  | positive
  | negative
deriving DecidableEq, Repr

/-- The surroundings an expression is read in. -/
structure Mode where
  polarity : Polarity := .straight
  /-- Inside a leaf. -/
  atomic : Bool := false
deriving DecidableEq, Repr

namespace Mode

/-- Outside of everything. -/
def plain : Mode := {}

/-- Under one more positive lookahead. -/
def ahead (m : Mode) : Mode :=
  { m with polarity := if m.polarity = .negative then .negative else .positive }

/-- Under one more negative lookahead. -/
def notAhead (m : Mode) : Mode :=
  { m with polarity := if m.polarity = .negative then .positive else .negative }

/-- Whether a nonterminal read here leaves its node. -/
def keepsNodes (m : Mode) : Bool := m.polarity = .straight && !m.atomic

/-- Whether a match (or else a failure) is what must not happen here. -/
def minds (m : Mode) (matched : Bool) : Bool :=
  matched == (m.polarity = .negative : Bool)

end Mode

-- ============================================================ outcomes

variable {N : Type}

/-- A match: where it ended and the nodes it left. -/
structure Match (N : Type) where
  stop : Cursor
  nodes : List (Tree N)

/-- A match or none, and the attempts made so far. -/
abbrev Outcome (N : Type) := Option (Match N) × Attempts N

/-- The outcome of the nonterminal `r`, entered at `c` when the tally there
was `before`, from the outcome of its body. -/
def Mode.close (m : Mode) (r : N) (c : Cursor) (before : Tally)
    (o : Outcome N) : Outcome N :=
  let attempts :=
    if !m.atomic && m.minds o.1.isSome then
      o.2.note r c.offset before (m.polarity = .negative)
    else o.2
  let found := o.1.map fun f =>
    if m.keepsNodes then { f with nodes := [.node r c f.stop f.nodes] } else f
  (found, attempts)

namespace Grammar

variable (g : Grammar N)

/-- A match of `e` takes nothing and stays where it is, or leaves less to
read; it does the latter if `e` cannot be empty. -/
def Reaches (e : Peg N) (c : Cursor) (r : Option (Match N)) : Prop :=
  ∀ f, r = some f → (f.stop = c ∨ f.stop.rest.length < c.rest.length) ∧
    (g.mayBeEmpty e = false → f.stop.rest.length < c.rest.length)

/-- The mode that a nonterminal is retained in. -/
def ownMode (r : N) (m : Mode) : Mode :=
  match g.retention r with
  | .group => { m with atomic := false }
  | .silent | .branch | .leaf => m

/-- The mode that the body of a nonterminal is read in. -/
def bodyMode (r : N) (m : Mode) : Mode :=
  match g.retention r with
  | .group => { m with atomic := false }
  | .leaf => { m with atomic := true }
  | .silent | .branch => m

-- ============================================================ the walk

section Progress

variable {g} {e a b : Peg N} {c d : Cursor} {m n : Nat}

theorem reaches_none : g.Reaches e c none := fun _ h => nomatch h

theorem reaches_shorter {f : Match N} (h : f.stop.rest.length < c.rest.length) :
    g.Reaches e c (some f) := by
  rintro _ ⟨⟩
  exact ⟨.inr h, fun _ => h⟩

/-- An expression that may be empty only has to not go back. -/
theorem reaches_of_empty {f : Match N} (he : g.mayBeEmpty e = true)
    (h : f.stop = c ∨ f.stop.rest.length < c.rest.length) :
    g.Reaches e c (some f) := by
  rintro _ ⟨⟩
  exact ⟨h, by simp [he]⟩

/-- What an expression reaches, one reaches that may be empty if it may. -/
theorem Reaches.mono {r : Option (Match N)} (h : g.Reaches a c r)
    (he : g.mayBeEmpty e = false → g.mayBeEmpty a = false) : g.Reaches e c r :=
  fun f hf => ⟨(h f hf).1, fun hn => (h f hf).2 (he hn)⟩

/-- A match never goes back. -/
theorem Reaches.le {f : Match N} (h : g.Reaches e c (some f)) :
    f.stop.rest.length ≤ c.rest.length := by
  rcases (h f rfl).1 with h | h
  · exact h ▸ Nat.le_refl _
  · exact Nat.le_of_lt h

/-- A match that is at another place has less to read. -/
theorem Reaches.lt_of_offset_ne {f : Match N} (h : g.Reaches e c (some f))
    (hne : f.stop.offset ≠ c.offset) : f.stop.rest.length < c.rest.length := by
  rcases (h f rfl).1 with h | h
  · exact absurd (h ▸ rfl) hne
  · exact h

theorem reaches_skip {text : List Char} (h : Cursor.skip? text c = some d) :
    g.Reaches (.chars text) c (some ⟨d, []⟩) := by
  have hl := Cursor.length_skip? h
  cases text with
  | nil =>
    simp only [Cursor.skip?, Option.some.injEq] at h
    exact reaches_of_empty rfl (.inl h.symm)
  | cons x xs =>
    simp only [List.length_cons] at hl
    exact reaches_shorter (by simp only; omega)

theorem reaches_seq {f f' : Match N} (h : g.Reaches a c (some f))
    (h' : g.Reaches b f.stop (some f')) (nodes : List (Tree N)) :
    g.Reaches (.seq a b) c (some ⟨f'.stop, nodes⟩) := by
  rintro _ ⟨⟩
  have hle := h.le
  have hle' := h'.le
  refine ⟨?_, fun he => ?_⟩
  · rcases (h f rfl).1 with h₁ | h₁
    · exact h₁ ▸ (h' f' rfl).1
    · exact .inr (Nat.lt_of_le_of_lt hle' h₁)
  · simp only [mayBeEmpty, Peg.nullable, Bool.and_eq_false_iff] at he
    rcases he with he | he
    · exact Nat.lt_of_le_of_lt hle' ((h f rfl).2 he)
    · exact Nat.lt_of_lt_of_le ((h' f' rfl).2 he) hle

theorem mayBeEmpty_alt (h : g.mayBeEmpty (.alt a b) = false) :
    g.mayBeEmpty a = false ∧ g.mayBeEmpty b = false := by
  simpa [mayBeEmpty, Peg.nullable] using h

theorem mayBeEmpty_body {r : N} (h : g.mayBeEmpty (.call r) = false) :
    g.mayBeEmpty (g.body r) = false := by
  cases hb : g.mayBeEmpty (g.body r) with
  | false => rfl
  | true =>
    have := g.nullable_body r hb
    simp_all [mayBeEmpty, Peg.nullable]

theorem reaches_close {r : N} {mode : Mode} {before : Tally} {o : Outcome N}
    (h : g.Reaches (g.body r) c o.1) :
    g.Reaches (.call r) c (mode.close r c before o).1 := by
  intro f hf
  simp only [Mode.close, Option.map_eq_some_iff] at hf
  obtain ⟨f₀, h₀, rfl⟩ := hf
  obtain ⟨h₁, h₂⟩ := h f₀ h₀
  split <;> exact ⟨h₁, fun hr => h₂ (mayBeEmpty_body hr)⟩

theorem work_part (h : m ≤ n) (hs : g.maxCost a ≤ g.maxCost e)
    (hc : g.cost a < g.cost e) : g.work a m < g.work e n :=
  g.work_lt hs (.inr ⟨h, hc⟩)

theorem work_seq_left : g.work a n < g.work (.seq a b) n :=
  work_part (Nat.le_refl n) (by simp only [maxCost, Peg.maxCost]; omega)
    (by simp only [cost, Peg.cost]; omega)

theorem work_alt_left : g.work a n < g.work (.alt a b) n :=
  work_part (Nat.le_refl n) (by simp only [maxCost, Peg.maxCost]; omega)
    (by simp only [cost, Peg.cost]; omega)

theorem work_alt_right : g.work b n < g.work (.alt a b) n :=
  work_part (Nat.le_refl n) (by simp only [maxCost, Peg.maxCost]; omega)
    (by simp only [cost, Peg.cost]; omega)

theorem work_many : g.work a n < g.work (.many a) n :=
  work_part (Nat.le_refl n) (by simp only [maxCost, Peg.maxCost]; omega)
    (by simp only [cost, Peg.cost]; omega)

theorem work_opt : g.work a n < g.work (.opt a) n :=
  work_part (Nat.le_refl n) (by simp only [maxCost, Peg.maxCost]; omega)
    (by simp only [cost, Peg.cost]; omega)

theorem work_ahead : g.work a n < g.work (.ahead a) n :=
  work_part (Nat.le_refl n) (by simp only [maxCost, Peg.maxCost]; omega)
    (by simp only [cost, Peg.cost]; omega)

theorem work_notAhead : g.work a n < g.work (.notAhead a) n :=
  work_part (Nat.le_refl n) (by simp only [maxCost, Peg.maxCost]; omega)
    (by simp only [cost, Peg.cost]; omega)

theorem work_seq_right (h : m ≤ n) (h' : g.mayBeEmpty a = false → m < n) :
    g.work b m < g.work (.seq a b) n := by
  have hs : g.maxCost b ≤ g.maxCost (.seq a b) := by
    simp only [maxCost, Peg.maxCost]
    omega
  cases ha : g.mayBeEmpty a with
  | false => exact g.work_lt hs (.inl (h' ha))
  | true =>
    refine work_part h hs ?_
    simp only [mayBeEmpty] at ha
    simp only [cost, Peg.cost, ha, if_true]
    omega

theorem work_body {r : N} : g.work (g.body r) n < g.work (.call r) n :=
  work_part (Nat.le_refl n)
    (by
      have := g.maxCost_body_le r
      simp only [maxCost, Peg.maxCost]
      omega)
    (g.cost_body_lt r)

end Progress

mutual

/-- Read `e` at the cursor `c`. -/
def walk (mode : Mode) (e : Peg N) (c : Cursor) (t : Attempts N) :
    { o : Outcome N // g.Reaches e c o.1 } :=
  match e with
  | .one accepts =>
    match h : c.rest with
    | [] => ⟨(none, t), reaches_none⟩
    | x :: xs =>
      if accepts x then
        ⟨(some ⟨⟨xs, c.point.after x⟩, []⟩, t), reaches_shorter (by simp [h])⟩
      else ⟨(none, t), reaches_none⟩
  | .chars text =>
    match h : Cursor.skip? text c with
    | some d => ⟨(some ⟨d, []⟩, t), reaches_skip h⟩
    | none => ⟨(none, t), reaches_none⟩
  | .start =>
    if c.offset = 0 then ⟨(some ⟨c, []⟩, t), reaches_of_empty rfl (.inl rfl)⟩
    else ⟨(none, t), reaches_none⟩
  | .finish =>
    if c.rest.isEmpty then ⟨(some ⟨c, []⟩, t), reaches_of_empty rfl (.inl rfl)⟩
    else ⟨(none, t), reaches_none⟩
  | .seq a b =>
    match walk mode a c t with
    | ⟨(none, t), _⟩ => ⟨(none, t), reaches_none⟩
    | ⟨(some f, t), h⟩ =>
      match walk mode b f.stop t with
      | ⟨(none, t), _⟩ => ⟨(none, t), reaches_none⟩
      | ⟨(some f', t), h'⟩ =>
        ⟨(some ⟨f'.stop, f.nodes ++ f'.nodes⟩, t), reaches_seq h h' _⟩
  | .alt a b =>
    match walk mode a c t with
    | ⟨(some f, t), h⟩ => ⟨(some f, t), h.mono fun he => (mayBeEmpty_alt he).1⟩
    | ⟨(none, t), _⟩ =>
      match walk mode b c t with
      | ⟨o, h⟩ => ⟨o, h.mono fun he => (mayBeEmpty_alt he).2⟩
  | .many a => walkAll mode a c [] t
  | .opt a =>
    match walk mode a c t with
    | ⟨(some f, t), h⟩ => ⟨(some f, t), reaches_of_empty rfl (h f rfl).1⟩
    | ⟨(none, t), _⟩ => ⟨(some ⟨c, []⟩, t), reaches_of_empty rfl (.inl rfl)⟩
  | .ahead a =>
    match walk mode.ahead a c t with
    | ⟨(some _, t), _⟩ => ⟨(some ⟨c, []⟩, t), reaches_of_empty rfl (.inl rfl)⟩
    | ⟨(none, t), _⟩ => ⟨(none, t), reaches_none⟩
  | .notAhead a =>
    match walk mode.notAhead a c t with
    | ⟨(some _, t), _⟩ => ⟨(none, t), reaches_none⟩
    | ⟨(none, t), _⟩ => ⟨(some ⟨c, []⟩, t), reaches_of_empty rfl (.inl rfl)⟩
  | .call r =>
    if g.retention r = .silent then
      match walk mode (g.body r) c t with
      | ⟨o, h⟩ => ⟨o, h.mono mayBeEmpty_body⟩
    else
      match walk (g.bodyMode r mode) (g.body r) c t with
      | ⟨o, h⟩ =>
        ⟨(g.ownMode r mode).close r c (t.tally c.offset) o, reaches_close h⟩
termination_by 2 * g.work e c.rest.length + 1
decreasing_by
  · have := g.work_seq_left (a := a) (b := b) (n := c.rest.length); omega
  · have := work_seq_right (b := b) h.le (h f rfl).2; omega
  · have := g.work_alt_left (a := a) (b := b) (n := c.rest.length); omega
  · have := g.work_alt_right (a := a) (b := b) (n := c.rest.length); omega
  · omega
  · have := g.work_opt (a := a) (n := c.rest.length); omega
  · have := g.work_ahead (a := a) (n := c.rest.length); omega
  · have := g.work_notAhead (a := a) (n := c.rest.length); omega
  · have := g.work_body (r := r) (n := c.rest.length); omega
  · have := g.work_body (r := r) (n := c.rest.length); omega

/-- Go on with `a` as often as it matches; `nodes` are those of the matches
so far, newest first. A match that takes nothing is the last. -/
def walkAll (mode : Mode) (a : Peg N) (c : Cursor) (nodes : List (Tree N))
    (t : Attempts N) : { o : Outcome N // g.Reaches (.many a) c o.1 } :=
  match walk mode a c t with
  | ⟨(none, t), _⟩ =>
    ⟨(some ⟨c, nodes.reverse⟩, t), reaches_of_empty rfl (.inl rfl)⟩
  | ⟨(some f, t), h⟩ =>
    if hne : f.stop.offset = c.offset then
      ⟨(some ⟨f.stop, (f.nodes.reverse ++ nodes).reverse⟩, t),
        reaches_of_empty rfl (h f rfl).1⟩
    else
      have hlt := h.lt_of_offset_ne hne
      match walkAll mode a f.stop (f.nodes.reverse ++ nodes) t with
      | ⟨o, h'⟩ =>
        ⟨o, fun f' hf' =>
          have hle : f'.stop.rest.length ≤ f.stop.rest.length := (hf' ▸ h').le
          ⟨.inr (Nat.lt_of_le_of_lt hle hlt), fun he => nomatch he⟩⟩
termination_by 2 * g.work (.many a) c.rest.length
decreasing_by
  · have := g.work_many (a := a) (n := c.rest.length); omega
  · have := g.work_lt (Nat.le_refl (g.maxCost (.many a))) (.inl hlt); omega

end

-- ============================================================= the run

/-- Read `e` at the cursor `c`, adding to the attempts `t`. -/
def run (mode : Mode) (e : Peg N) (c : Cursor) (t : Attempts N) : Outcome N :=
  (g.walk mode e c t).val

end Grammar

end Jam
