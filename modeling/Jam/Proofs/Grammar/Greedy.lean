/-
Lists take all the words that there are.

A semicolon with something glued to it is a word, and not the end of a
statement, wherever a word is permitted. What may hold a list takes all
words that follow (`Greedy`), so it cannot be ended by such a semicolon.
Only what is not followed by a list can: a break and a continue
(`keyword_of_glued`).
-/
import Jam.Proofs.Grammar.Shapes

namespace Jam

open Nonterminal

-- ==================================================== glued semicolons

section Glued

variable {m : Mode} {x : Char} {xs : List Char} {p : Point}

/-- A semicolon is a mark only if it stands alone. -/
theorem found_operator_none (hx : isInner x = true) :
    grammar.found m (nt .operator) ⟨';' :: x :: xs, p⟩ = none := by
  rw [nt, Grammar.found_silent _ _ _ rfl]
  change grammar.found m (.seq marks (nt .boundary)) _ = _
  rw [Grammar.found_seq, found_marks_of_stop rfl, Option.bind_some,
    found_boundary, not_bounded_of_inner hx]
  rfl

/-- Otherwise it begins a string. -/
theorem found_string_isSome :
    (grammar.found m (nt .string) ⟨';' :: xs, p⟩).isSome = true := by
  have excluded {m : Mode} : grammar.found m (nt .blank <|> Peg.lit "\\" <|>
      Peg.lit "$(" <|> Peg.one isControl) ⟨';' :: xs, p⟩ = none := by
    change grammar.found m (.alt (nt .blank)
      (.alt (.chars ['\\']) (.alt (.chars ['$', '(']) (.one isControl)))) _ = _
    rw [Grammar.found_alt, Grammar.found_alt, Grammar.found_alt, found_blank,
      found_sign, Grammar.found_chars, Grammar.found_one_cons]
    rfl
  have first {m : Mode} : (grammar.found m (nt .escape <|> anyBut
      (nt .blank <|> Peg.lit "\\" <|> Peg.lit "$(" <|> Peg.one isControl))
      ⟨';' :: xs, p⟩).isSome = true := by
    change (grammar.found m (.alt _ _) _).isSome = true
    rw [Grammar.found_alt, Option.isSome_or, found_anyBut, excluded]
    exact Bool.or_true _
  have hunquoted {m : Mode} :
      (grammar.found m (nt .unquoted) ⟨';' :: xs, p⟩).isSome = true := by
    rw [nt, Grammar.found_call grammar m _ (by decide), Option.isSome_map]
    change (grammar.found _ (.seq (.notAhead (.chars ['"'])) (.seq _ (.many _)))
      _).isSome = true
    obtain ⟨f, hf⟩ :=
      Option.isSome_iff_exists.mp (first (m := grammar.bodyMode .unquoted m))
    rw [Grammar.found_seq, Grammar.found_notAhead, found_sign]
    change (Option.map _
      (grammar.found _ (.seq _ (.many _)) ⟨';' :: xs, p⟩)).isSome = true
    rw [Option.isSome_map, Grammar.found_seq, hf, Option.bind_some,
      Option.isSome_map]
    exact found_many_isSome
  rw [nt, Grammar.found_call grammar m _ (by decide), Option.isSome_map]
  change (grammar.found _ (.alt _ (nt .unquoted)) _).isSome = true
  rw [Grammar.found_alt, Option.isSome_or, hunquoted]
  exact Bool.or_true _

theorem found_word_isSome (hx : isInner x = true) :
    (grammar.found m (nt .word) ⟨';' :: x :: xs, p⟩).isSome = true := by
  rw [nt, Grammar.found_silent _ _ _ rfl]
  change (grammar.found m (.seq (.notAhead (nt .operator))
    (.alt _ (.alt _ (.alt _ (nt .string))))) _).isSome = true
  rw [Grammar.found_seq, Grammar.found_notAhead, found_operator_none hx]
  change (Option.map _
    (grammar.found m (.alt _ (.alt _ (.alt _ (nt .string)))) _)).isSome = true
  rw [Option.isSome_map, Grammar.found_alt, Grammar.found_alt,
    Grammar.found_alt, Option.isSome_or,
    Option.isSome_or, Option.isSome_or, found_string_isSome]
  simp only [Bool.or_true]

end Glued

-- ================================================== greedy expressions

/-- Behind a match of the expression no further word is found. -/
def Greedy (e : Peg Nonterminal) : Prop :=
  ∀ ⦃c d : Cursor⦄ ⦃ns : List Node⦄, Derives grammar .plain e c d ns →
    grammar.found .plain (nt .blanks ++ nt .word) d = none

namespace Greedy

variable {a b : Peg Nonterminal} {r : Nonterminal}

theorem seq (h : Greedy b) : Greedy (a ++ b) := by
  intro c d ns hd
  cases hd with
  | seq _ hb => exact h hb

theorem opt (ha : Greedy a) (hb : Greedy b) : Greedy (a ++ .opt b) := by
  intro c d ns hd
  cases hd with
  | seq hfront hopt =>
    cases hopt with
    | without => exact ha hfront
    | «with» h => exact hb h

theorem many (ha : Greedy a) (hb : Greedy b) : Greedy (a ++ .many b) := by
  intro c d ns hd
  cases hd with
  | @seq _ _ _ _ c' _ _ _ hfront hmany =>
    have hc := ha hfront
    clear hfront
    generalize he : Peg.many b = e at hmany
    generalize hm : Mode.plain = m at hmany
    induction hmany with
    | stop =>
      subst hm
      exact hc
    | last h =>
      cases he
      subst hm
      exact hb h
    | more h _ _ _ ih =>
      cases he
      subst hm
      exact ih (hb h) rfl rfl
    | _ => cases he

theorem call (hr : grammar.retention r = .branch) (h : Greedy (body r)) :
    Greedy (nt r) := by
  intro c d ns hd
  have hne : grammar.retention r ≠ .silent ∧ grammar.retention r ≠ .leaf := by
    rw [hr]
    exact ⟨nofun, nofun⟩
  obtain ⟨_, -, hb⟩ := hd.retained hne.1
  rw [Grammar.bodyMode_plain hne.2] at hb
  exact h hb

theorem list : Greedy (nt .list) := by
  refine call rfl fun c d ns hd => ?_
  cases hd with
  | seq hword hmany =>
    clear hword
    generalize he : Peg.many (nt .blanks ++ nt .word) = e at hmany
    generalize hm : Mode.plain = m at hmany
    induction hmany with
    | stop h =>
      cases he
      subst hm
      exact h
    | last h heq =>
      cases he
      exact absurd heq (offset_behind h.found rfl)
    | more _ _ _ _ ih =>
      cases he
      exact ih rfl hm
    | _ => cases he

/-- Where no list is found there is no word. -/
theorem optList : Greedy optList := by
  intro c d ns hd
  cases hd with
  | «with» h => exact seq list h
  | without h =>
    change grammar.found .plain (.seq (nt .blanks) (nt .list)) c = none at h
    change grammar.found .plain (.seq (nt .blanks) (nt .word)) c = none
    rw [Grammar.found_seq] at h ⊢
    cases hb : grammar.found .plain (nt .blanks) c with
    | none => rfl
    | some f =>
      rw [hb, Option.bind_some, Option.map_eq_none_iff, nt, Grammar.found_call
        grammar .plain _ (by decide), Option.map_eq_none_iff] at h
      change grammar.found _ (.seq (nt .word) (.many (nt .blanks ++ nt .word)))
        _ = none at h
      rw [Grammar.found_seq] at h
      rw [Option.bind_some, Option.map_eq_none_iff]
      cases hw : grammar.found .plain (nt .word) f.stop with
      | none => rfl
      | some g =>
        rw [Grammar.bodyMode_plain (by decide), hw, Option.bind_some,
          Option.map_eq_none_iff] at h
        have hsome : (grammar.found .plain
            (.many (nt .blanks ++ nt .word)) g.stop).isSome = true :=
          found_many_isSome
        rw [h] at hsome
        cases hsome

theorem argument : Greedy (nt .argument) := call rfl optList

/-- All simple statements but a break and a continue may hold a list before the
semicolon. -/
theorem head (hr : r ∈ [.ruleInvocation, .returnStatement, .localStatement,
      .assignment]) : Greedy (head r) := by
  simp only [List.mem_cons, List.not_mem_nil, or_false] at hr
  rcases hr with rfl | rfl | rfl | rfl
  · exact call rfl (many (seq argument) (seq argument))
  · exact seq optList
  · exact opt (seq list) (seq (call rfl (seq optList)))
  · exact seq optList

end Greedy

-- ============================ statements in front of a glued semicolon

variable {r : Nonterminal} {c d e : Cursor} {ns : List Node}

/-- Only a break and a continue end with a semicolon to which something is
glued. -/
theorem Simple.keyword_of_glued {x : Char} {xs : List Char}
    (h : Simple r c e d ns) (hd : d.rest = x :: xs) (hx : isInner x = true) :
    r ∈ [.breakStatement, .continueStatement] := by
  by_contra hr
  have hgreedy : ∀ r ∈ .ruleInvocation :: closedKinds,
      r ∉ [.breakStatement, .continueStatement] → r ∈
      [.ruleInvocation, .returnStatement, .localStatement, .assignment] := by
    decide
  have hnone := Greedy.head (hgreedy r h.kind hr) h.head
  change grammar.found .plain (.seq (nt .blanks) (nt .word)) e = none at hnone
  rw [Grammar.found_seq, found_blanks, if_neg h.blanks, Option.bind_some,
    Option.map_eq_none_iff] at hnone
  have hmark := h.mark
  rw [hd] at hmark
  have hsome :
      (grammar.found .plain (nt .word) ⟨';' :: x :: xs, e.next.point⟩).isSome =
      true :=
    found_word_isSome hx
  rw [← hmark, show (⟨e.next.rest, e.next.point⟩ : Cursor) = e.next from rfl,
    hnone] at hsome
  cases hsome

end Jam
