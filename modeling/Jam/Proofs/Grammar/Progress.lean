/-
The grammar of Jam makes progress.

That it is not left-recursive is what its tables are for. What they do not
say is that no repetition goes round at one place, and that is looked up in
the productions: what is repeated in them never matches nothing
(`grammar_advances`). So matching by the rules of ordered choice alone
ends everywhere, in the way of the matcher (`matching_progresses`).
-/
import Jam.Grammar.Parse
import Jam.Proofs.Peg.Progress

namespace Jam

open Nonterminal

/-- What is repeated in a production takes something. -/
theorem grammar_advances (r : Nonterminal) :
    grammar.Advances (grammar.body r) := by
  cases r <;> decide

/-- From every place, matching a nonterminal ends, behind a match or with a
failure. What is repeated in its production takes at least one byte each time,
and on the way to its outcome it only enters itself at places further on. -/
theorem matching_progresses (r : Nonterminal) (c : Cursor) :
    (Matches grammar (.call r) c (stopOf? r c) ∧
      ∀ o, Matches grammar (.call r) c o → o = stopOf? r c) ∧
    (∀ a ∈ (grammar.body r).repeated, ∀ d, Matches grammar a c (some d) →
      c.offset < d.offset) ∧
    ∀ d, Relation.TransGen (Asks grammar) (.call r, c) (.call r, d) →
      c.offset < d.offset := by
  have hcall : grammar.Advances (.call r) := by
    intro a ha
    cases ha
  have hends : Matches grammar (.call r) c (stopOf? r c) :=
    matches_found grammar_advances hcall .plain c
  refine ⟨⟨hends, fun o h => h.unique hends⟩, fun a ha d hd => ?_,
    fun d hd => ?_⟩
  · obtain ⟨taken, ht, hne⟩ := hd.takes d rfl
    exact ht.offset_lt (hne (grammar_advances r a ha))
  · exact (onward_of_asks grammar_advances hcall hd).offset_lt (Nat.le_refl _)

/-- What an evaluation finds is a match. -/
theorem matches_of_eq {e : Peg Nonterminal} {c : Cursor} {o : Option Cursor}
    (he : grammar.Advances e)
    (h : (grammar.found .plain e c).map (·.stop) = o) : Matches grammar e c o :=
  h ▸ matches_found grammar_advances he .plain c

/-- A variable in the name of another one begins two bytes behind it. -/
theorem nested_variable_progresses :
    let c := Cursor.ofText "$($(a))".toList
    let d : Cursor := ⟨"$(a))".toList, ⟨2, 1, 3⟩⟩
    Relation.TransGen (Asks grammar) (.call .variable, c) (.call .variable, d) ∧
      c.offset < d.offset ∧
      ∃ a ∈ (grammar.body .name).repeated, ∃ e, Matches grammar a d (some e) ∧
        d.offset < e.offset := by
  intro c d
  have hopen :
      Matches grammar (.seq (Peg.lit "$(") (.opt (nt .blanks))) c (some d) :=
    matches_of_eq (by decide) (by decide +kernel)
  have hno : Matches grammar (nt .identifier) d none :=
    matches_of_eq (by decide) (by decide +kernel)
  have hinner : Matches grammar (.alt (nt .identifier) (nt .variable)) d
      (some ⟨[')'], ⟨6, 1, 7⟩⟩) := matches_of_eq (by decide) (by decide +kernel)
  have hname :
      Relation.TransGen (Asks grammar) (.call .variable, c) (.call .name, d) :=
    .tail (.tail (.tail (.tail (.single .body) .head) .head) .head)
      (.tail hopen)
  have hpath : Relation.TransGen (Asks grammar) (.call .variable, c)
      (.call .variable, d) :=
    .tail (.tail (.tail hname .body) .head) (.right hno)
  exact ⟨hpath, (matching_progresses .variable c).2.2 d hpath,
    _, List.mem_singleton_self _, _, hinner,
    (matching_progresses .name d).2.1 _ (List.mem_singleton_self _) _ hinner⟩

end Jam
