/-
What to say when a text does not match: the attempts made at the furthest
place that was reached.

Backtracking makes "the" place of a mistake a matter of choice. The choice
here is the usual one: of all places where a nonterminal was tried in
vain, the furthest counts, and the nonterminals tried there are what the
text should have gone on with (`expected`), or, under a negative
lookahead, what it should not have (`unexpected`).

Nonterminals begin with other nonterminals, so several of them fail at
one place for one cause. `Attempts.note` keeps the one that says most:

- if exactly one attempt was noted at this place since the nonterminal
  was entered, that attempt is the more specific one and stays;
- else the attempts below it at this place are forgotten, and the
  nonterminal itself is noted.

The lists hold the newest attempt first. A failed alternative is never
taken back: what it reached remains part of the answer.
-/
namespace Jam

/-- The nonterminals tried at the furthest place that any was tried at. -/
structure Attempts (N : Type) where
  /-- Bytes before that place. -/
  furthest : Nat
  /-- Tried in vain, newest first. -/
  expected : List N
  /-- Matched where they must not, newest first. -/
  unexpected : List N
deriving Repr

/-- How many attempts of each sort there were when a nonterminal was
entered. -/
structure Tally where
  expected : Nat
  unexpected : Nat
deriving DecidableEq, Repr

/-- Both sorts together. -/
def Tally.total (n : Tally) : Nat := n.expected + n.unexpected

namespace Attempts

variable {N : Type}

/-- Nothing was tried yet. -/
def none : Attempts N := ⟨0, [], []⟩

/-- The attempts noted at `place`. -/
def tally (t : Attempts N) (place : Nat) : Tally :=
  if t.furthest = place then ⟨t.expected.length, t.unexpected.length⟩
  else ⟨0, 0⟩

/-- The oldest `n` entries of a list that holds the newest first. -/
def oldest (n : Nat) (rs : List N) : List N := rs.drop (rs.length - n)

/-- Note that `r`, entered at `place` when the tally there was `before`,
failed (or, if `negated`, matched where it must not). -/
def note (t : Attempts N) (r : N) (place : Nat) (before : Tally)
    (negated : Bool) : Attempts N :=
  if (t.tally place).total = before.total + 1 then t
  else if place < t.furthest then t
  else
    let kept : Attempts N :=
      if place = t.furthest then
        ⟨place, oldest before.expected t.expected,
          oldest before.unexpected t.unexpected⟩
      else ⟨place, [], []⟩
    if negated then { kept with unexpected := r :: kept.unexpected }
    else { kept with expected := r :: kept.expected }

end Attempts

end Jam
