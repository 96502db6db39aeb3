/-
The statement around a place of a text.

An error in a program names the statement that it lies in. That statement
is found by reading one statement after the other, without the production
of programs, as long as they end before the error. These are the
statements of a sequence: the search goes along with it, and stops where
there is no further statement (`enclosingStatement_of_sequence`).
-/
import Jam.Proofs.Grammar.Sequences
import Jam.Grammar.Parse

namespace Jam

open Nonterminal

variable {b c d e : Cursor} {ts : List Node} {offset : Nat} {text : List Char}

-- ============================================== one step of the search

theorem stopOf?_gap (c : Cursor) : stopOf? .gap c = some c.next := by
  change (grammar.found .plain (.call .gap) c).map (·.stop) = some c.next
  rw [Grammar.found_call grammar .plain c (by decide)]
  change ((grammar.found _ (.opt (nt .blanks)) c).map _).map _ = _
  rw [found_opt_blanks]
  rfl

theorem stopOf?_loneStatement (c : Cursor) :
    stopOf? .loneStatement c =
      (grammar.found .plain (nt .statement) c).map (·.stop) := by
  change (grammar.found .plain (.call .loneStatement) c).map (·.stop) = _
  rw [Grammar.found_call grammar .plain c (by decide), Option.map_map]
  rfl

/-- The next statement begins behind the blanks. -/
theorem nextStatement_eq (c : Cursor) :
    nextStatement c =
      (c.next, (grammar.found .plain (nt .statement) c.next).map (·.stop)) := by
  unfold nextStatement
  rw [stopOf?_gap, Option.getD_some]
  exact congrArg _ (stopOf?_loneStatement c.next)

theorem pieceAround_last {next : Cursor → Cursor × Option Cursor}
    (h : next c = (d, none)) : pieceAround next offset c = d := by
  rw [pieceAround, h]

theorem pieceAround_further {next : Cursor → Cursor × Option Cursor}
    (h : next c = (d, some e)) (hlt : e.rest.length < c.rest.length)
    (hle : e.offset ≤ offset) :
    pieceAround next offset c = pieceAround next offset e := by
  rw [pieceAround, h]
  exact dif_pos ⟨hlt, hle⟩

-- ========================================= the search along a sequence

theorem Sequence.offset_le (h : Sequence c ts e) : c.offset ≤ e.offset := by
  induction h with
  | done => exact Nat.le_refl _
  | more hs _ _ ih =>
    obtain ⟨_, hX⟩ := hs.takes
    exact Nat.le_trans (hX.append (Cursor.takes_next _)).offset_le ih

/-- The search goes along with a sequence of statements that ends before the
place. -/
theorem pieceAround_of_sequence (h : Sequence c.next ts b)
    (hb : b.offset ≤ offset)
    (hend : grammar.found .plain (nt .statement) b = none) :
    pieceAround nextStatement offset c = b := by
  generalize hc : c.next = c' at h
  induction h generalizing c with
  | done c' =>
    subst hc
    refine pieceAround_last ?_
    rw [nextStatement_eq, hend]
    rfl
  | @more _ d _ _ _ hs _ hseq ih =>
    subst hc
    have hlt : d.rest.length < c.rest.length :=
      Nat.lt_of_lt_of_le (length_behind hs.found rfl)
        (length_strip_le false c.rest)
    have hle : d.offset ≤ offset :=
      Nat.le_trans d.takes_next.offset_le (Nat.le_trans hseq.offset_le hb)
    have hnext : nextStatement c = (c.next, some d) := by
      rw [nextStatement_eq, hs.found]
      rfl
    rw [pieceAround_further hnext hlt hle]
    exact ih hb hend rfl

/-- Where the statements of a text end before a place, the statement around it
begins. -/
theorem enclosingStatement_of_sequence
    (h : Sequence (Cursor.ofText text).next ts b) (hb : b.offset ≤ offset)
    (hend : grammar.found .plain (nt .statement) b = none) :
    enclosingStatement offset text = b := pieceAround_of_sequence h hb hend

end Jam
