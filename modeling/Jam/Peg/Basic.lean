/-
Parsing expressions, and grammars that are known to make progress.

A `Peg N` is an expression over the nonterminals `N`: one character out
of a class, a fixed text, sequence, ordered choice, greedy repetition,
option, the two lookaheads, and a call. Expressions are data, so
everything a reader wants to know of a grammar (can it match nothing,
what does it call first) is a function on them.

A `Grammar N` gives every nonterminal its expression, and carries two
tables that make matching a total function:

- `nullable` says which nonterminals may match without taking a
  character;
- `weight` orders them so that a nonterminal only ever calls lighter
  ones before a character was taken: there is no left recursion.

`Peg.cost` extends `weight` to expressions, by what can still happen at
the same place of the text, and `Peg.maxCost` bounds it over all parts of
an expression. `Grammar.work` combines the two with the length of the text
left, and `Grammar.work_lt` is the one inequality by which every step of
a match is smaller than the match it belongs to.
-/
namespace Jam

-- ========================================================= expressions

/-- A parsing expression over the nonterminals `N`. -/
inductive Peg (N : Type)
  /-- One character of a class. -/
  | one (accepts : Char → Bool)
  /-- These characters, one after the other. -/
  | chars (text : List Char)
  /-- The very beginning of the input. -/
  | start
  /-- The end of the input. -/
  | finish
  /-- Both, in order. -/
  | seq (a b : Peg N)
  /-- The first that matches; the second is tried only if the first fails. -/
  | alt (a b : Peg N)
  /-- As often as it matches, never giving a match back. -/
  | many (a : Peg N)
  /-- Once if it matches, else nothing. -/
  | opt (a : Peg N)
  /-- Matches here, but nothing is taken. -/
  | ahead (a : Peg N)
  /-- Does not match here. -/
  | notAhead (a : Peg N)
  /-- What another nonterminal stands for. -/
  | call (r : N)

namespace Peg

variable {N : Type}

instance : Append (Peg N) := ⟨seq⟩

instance : OrElse (Peg N) := ⟨fun a b => alt a (b ())⟩

/-- A fixed text. -/
def lit (text : String) : Peg N := chars text.toList

/-- At least once. -/
def plus (a : Peg N) : Peg N := a ++ many a

-- ============================================================ progress

/-- Whether the expression may match without taking a character, given
which nonterminals may. -/
def nullable (null : N → Bool) : Peg N → Bool
  | one _ => false
  | chars text => text.isEmpty
  | seq a b => nullable null a && nullable null b
  | alt a b => nullable null a || nullable null b
  | start | finish | many _ | opt _ | ahead _ | notAhead _ => true
  | call r => null r

/-- How heavy a chain of expressions can still be entered one after the
other before a character is taken. -/
def cost (null : N → Bool) (weight : N → Nat) : Peg N → Nat
  | one _ | chars _ | start | finish => 0
  | seq a b =>
    1 + max (cost null weight a)
      (if nullable null a then cost null weight b else 0)
  | alt a b => 1 + max (cost null weight a) (cost null weight b)
  | many a | opt a | ahead a | notAhead a => 1 + cost null weight a
  | call r => weight r

/-- The largest `cost` of the expression and its parts. -/
def maxCost (null : N → Bool) (weight : N → Nat) : Peg N → Nat
  | one _ | chars _ | start | finish => 0
  | seq a b =>
    max (1 + max (cost null weight a)
      (if nullable null a then cost null weight b else 0))
      (max (maxCost null weight a) (maxCost null weight b))
  | alt a b =>
    max (1 + max (cost null weight a) (cost null weight b))
      (max (maxCost null weight a) (maxCost null weight b))
  | many a | opt a | ahead a | notAhead a =>
    max (1 + cost null weight a) (maxCost null weight a)
  | call r => weight r

end Peg

-- ============================================================ grammars

/-- What matching a nonterminal leaves behind in the parse tree. -/
inductive Retention
  /-- Nothing of its own; the nodes below it stand in its place. -/
  | silent
  /-- A node, holding the nodes below it. -/
  | branch
  /-- A node without children: nothing below it is kept or remembered. -/
  | leaf
  /-- A node, holding the nodes below it, even inside a leaf. -/
  | group
deriving DecidableEq, Repr

/-- Productions for the nonterminals `N`, none of them left-recursive. -/
structure Grammar (N : Type) where
  body : N → Peg N
  retention : N → Retention
  /-- Which nonterminals may match nothing. -/
  nullable : N → Bool
  /-- Heavier nonterminals may begin with lighter ones. -/
  weight : N → Nat
  /-- Above all weights and all costs. -/
  top : Nat
  nullable_body : ∀ r, (body r).nullable nullable = true → nullable r = true
  cost_body_lt : ∀ r, (body r).cost nullable weight < weight r
  maxCost_body_le : ∀ r, (body r).maxCost nullable weight ≤ top
  weight_le : ∀ r, weight r ≤ top

namespace Grammar

variable {N : Type} (g : Grammar N)

/-- Whether `e` may match without taking a character. -/
def mayBeEmpty (e : Peg N) : Bool := e.nullable g.nullable

/-- The cost of `e` under the grammar's tables. -/
def cost (e : Peg N) : Nat := e.cost g.nullable g.weight

/-- Above the cost of `e`, of its parts and of all productions. -/
def maxCost (e : Peg N) : Nat := max g.top (e.maxCost g.nullable g.weight)

/-- An upper bound for the steps that matching `e` can take before
`length` characters are used up. -/
def work (e : Peg N) (length : Nat) : Nat :=
  length * (g.maxCost e + 1) + g.cost e

theorem cost_le_maxCost (e : Peg N) : g.cost e ≤ g.maxCost e := by
  unfold cost maxCost
  cases e <;> simp only [Peg.maxCost, Peg.cost] <;> omega

/-- The work shrinks when a character was taken, or when none was but the
expression is cheaper. -/
theorem work_lt {e f : Peg N} {m n : Nat} (hs : g.maxCost f ≤ g.maxCost e)
    (h : m < n ∨ m ≤ n ∧ g.cost f < g.cost e) : g.work f m < g.work e n := by
  unfold work
  have hf := g.cost_le_maxCost f
  rcases h with h | ⟨h, hc⟩
  · have : (m + 1) * (g.maxCost f + 1) ≤ n * (g.maxCost e + 1) :=
      Nat.mul_le_mul h (by omega)
    rw [Nat.add_mul, Nat.one_mul] at this
    omega
  · have := Nat.mul_le_mul h (Nat.add_le_add_right hs 1)
    omega

end Grammar

end Jam
