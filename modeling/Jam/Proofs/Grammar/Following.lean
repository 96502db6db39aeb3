/-
What a condition may be followed by.

Behind a test stands a mark: of a connective, a closing parenthesis, or
the brace of a block. Such a mark stands alone (`MarkFollows`), so it is no
word, and no list goes on over it (`MarkFollows.found_word_none`). Nor is
it a mark of a comparison or the sign of a membership, so a word before it
is a test of its own (`MarkFollows.found_lit_none`).
-/
import Jam.Proofs.Grammar.Written

namespace Jam

open Nonterminal

variable {m : Mode} {a b : Peg Nonterminal} {c d : Cursor} {x : Char}
  {r u : List Char} {p : Point} {ns ns' : List Node} {ends ends' : List String}

-- ================================================ sequences that match

/-- A sequence behind one more match. Sequences are grouped from the left. -/
theorem derives_behind₂ {e : Peg Nonterminal} {f : Cursor}
    (ha : Derives grammar m a c d ns) (h : Derives grammar m (b ++ e) d f ns') :
    Derives grammar m (a ++ b ++ e) c f (ns ++ ns') := by
  cases h with
  | seq hb he =>
    rw [← List.append_assoc]
    exact .seq (.seq ha hb) he

/-- The blanks leave no node. -/
theorem derives_behind_blanks {t : Node}
    (h : Derives grammar m (nt .blanks ++ a) c d [t]) :
    ∃ e, Derives grammar m (nt .blanks) c e [] ∧
      Derives grammar m a e d [t] := by
  generalize hn : [t] = ns at h
  cases h with
  | @seq _ _ _ _ e _ _ ys hb ha =>
    obtain ⟨-, -, rfl⟩ := derives_blanks.mp hb
    obtain rfl : [t] = ys := hn
    exact ⟨e, hb, ha⟩

/-- A mark, or another text that begins like a word, behind a blank. -/
theorem derives_mark (text : String)
    (h : ∃ x v, text.toList = x :: v ∧ isInner x = true) (u : List Char)
    (p : Point) :
    ∃ q, Derives grammar m (nt .blanks ++ Peg.lit text)
      ⟨' ' :: (text.toList ++ u), p⟩ ⟨u, q⟩ [] := by
  obtain ⟨q, hblank⟩ := derives_blank_before (m := m) (u := u) h p
  exact ⟨_, .seq hblank (derives_lit rfl)⟩

-- ========================================= sequences that do not match

/-- What does not match behind its first part does not match. -/
theorem found_none_behind (ha : Derives grammar m a c d ns)
    (hb : grammar.found m b d = none) : grammar.found m (a ++ b) c = none := by
  change grammar.found m (.seq a b) c = none
  rw [Grammar.found_seq, ha.found, Option.bind_some, hb]
  rfl

theorem found_none_of_front (ha : grammar.found m a c = none) :
    grammar.found m (a ++ b) c = none := by
  change grammar.found m (.seq a b) c = none
  rw [Grammar.found_seq, ha]
  rfl

/-- A sequence that does not match does not match behind one more match
either. -/
theorem found_none_behind₂ {e : Peg Nonterminal}
    (ha : Derives grammar m a c d ns) (h : grammar.found m (b ++ e) d = none) :
    grammar.found m (a ++ b ++ e) c = none := by
  change grammar.found m (.seq b e) d = none at h
  change grammar.found m (.seq (.seq a b) e) c = none
  rw [Grammar.found_seq] at h ⊢
  rw [Grammar.found_seq, ha.found, Option.bind_some]
  cases hf : grammar.found m b d with
  | none => rfl
  | some f =>
    rw [hf, Option.bind_some, Option.map_eq_none_iff] at h
    rw [Option.map_some, Option.bind_some, Option.map_eq_none_iff]
    exact h

-- =================================================== marks that follow

/-- The marks that may stand behind a test. -/
def testEnds : List String := [")", "\x7b", "||", "&&"]

theorem begins_of_mark {mark : String} (h : mark ∈ testEnds) :
    ∃ x v, mark.toList = x :: v ∧ isInner x = true := by
  simp only [testEnds, List.mem_cons, List.not_mem_nil, or_false] at h
  rcases h with rfl | rfl | rfl | rfl <;> exact ⟨_, _, rfl, rfl⟩

theorem ne_empty_of_mark {mark : String} (h : mark ∈ testEnds) : mark ≠ "" := by
  rintro rfl
  exact absurd h (by decide)

/-- A blank comes next, and one of these marks that stands alone. -/
def MarkFollows (ends : List String) (r : List Char) : Prop :=
  ∃ mark ∈ ends, ∃ u, r = ' ' :: (mark.toList ++ u) ∧ bounded u = true

theorem MarkFollows.mono (h : MarkFollows ends r)
    (hends : ∀ mark ∈ ends, mark ∈ ends') : MarkFollows ends' r := by
  obtain ⟨mark, hm, u, hr, hu⟩ := h
  exact ⟨mark, hends mark hm, u, hr, hu⟩

theorem bounded_of_markFollows (h : MarkFollows ends r) : bounded r = true := by
  obtain ⟨mark, -, u, rfl, -⟩ := h
  rfl

/-- A mark that stands alone is an operator. -/
theorem found_operator_isSome {mark : String} (hmark : mark ∈ testEnds)
    (hu : bounded u = true) :
    (grammar.found m (nt .operator) ⟨mark.toList ++ u, p⟩).isSome = true := by
  have hmarks : grammar.found m marks ⟨mark.toList ++ u, p⟩ =
      some ⟨⟨u, p.afterAll mark.toList⟩, []⟩ := by
    change grammar.found m
      (.alt (.chars [';'])
        (.alt (.chars [':'])
          (.alt (.chars ['\x7b'])
            (.alt (.chars ['\x7d'])
              (.alt (.chars ['+', '='])
                (.alt (.chars ['?', '='])
                  (.alt (.chars ['!', '='])
                    (.alt (.chars ['<', '=']) (.alt (.chars ['>', '='])
                      (.alt (.chars ['&', '&']) (.alt (.chars ['|', '|'])
                        (.alt (.chars ['=']) (.alt (.chars ['<'])
                          (.alt (.chars ['>']) (.alt (.chars ['!'])
                            (.alt (.chars ['(']) (.chars [')'])))))))))))))))))
      _ = _
    simp only [Grammar.found_alt, Grammar.found_chars]
    simp only [testEnds, List.mem_cons, List.not_mem_nil, or_false] at hmark
    rcases hmark with rfl | rfl | rfl | rfl <;> rfl
  rw [nt, Grammar.found_silent _ _ _ rfl]
  change (grammar.found m (.seq marks (nt .boundary)) _).isSome = true
  rw [Grammar.found_seq, hmarks, Option.bind_some, found_boundary, if_pos hu]
  rfl

/-- What is not found at any of these marks is not found behind the blank. -/
theorem MarkFollows.found_none {e : Peg Nonterminal} (h : MarkFollows ends r)
    (hends : ∀ mark ∈ ends, mark ∈ testEnds)
    (he : ∀ mark ∈ ends, ∀ u q, bounded u = true →
      grammar.found m e ⟨mark.toList ++ u, q⟩ = none) (p : Point) :
    grammar.found m (nt .blanks ++ e) ⟨r, p⟩ = none := by
  obtain ⟨mark, hm, u, rfl, hu⟩ := h
  obtain ⟨q, hd⟩ :=
    derives_blank_before (m := m) (u := u) (begins_of_mark (hends mark hm)) p
  exact found_none_behind hd (he mark hm u q hu)

/-- Where a mark follows no further word is found. -/
theorem MarkFollows.found_word_none (h : MarkFollows testEnds r) (p : Point) :
    grammar.found .plain (nt .blanks ++ nt .word) ⟨r, p⟩ = none := by
  refine h.found_none (fun _ => id) (fun mark hm u q hu => ?_) p
  refine found_none_of_body fun m => found_none_of_front ?_
  rw [Grammar.found_notAhead, found_operator_isSome hm hu]
  rfl

/-- A text is not found at a mark that begins with another character. -/
theorem found_lit_none_of_head {text mark : String} (ht : text ≠ "")
    (hm : mark ≠ "") (h : text.toList.head? ≠ mark.toList.head?) :
    grammar.found m (Peg.lit text) ⟨mark.toList ++ u, p⟩ = none := by
  refine found_lit_none fun hp => ?_
  obtain ⟨x, xs, hx⟩ :=
    List.exists_cons_of_ne_nil (mt String.toList_eq_nil_iff.mp ht)
  obtain ⟨y, ys, hy⟩ :=
    List.exists_cons_of_ne_nil (mt String.toList_eq_nil_iff.mp hm)
  obtain ⟨v, hv⟩ := hp
  rw [hx, hy] at hv
  rw [hx, hy] at h
  exact h (congrArg some (List.cons.inj hv).1)

/-- A text is not what follows, if the marks begin with other characters. -/
theorem MarkFollows.found_lit_none {text : String} (h : MarkFollows ends r)
    (hends : ∀ mark ∈ ends, mark ∈ testEnds) (ht : text ≠ "")
    (hheads : ∀ mark ∈ ends, text.toList.head? ≠ mark.toList.head?)
    (p : Point) :
    grammar.found m (nt .blanks ++ Peg.lit text) ⟨r, p⟩ = none := by
  refine h.found_none hends (fun mark hm _ _ _ => ?_) p
  exact found_lit_none_of_head ht (ne_empty_of_mark (hends mark hm))
    (hheads mark hm)

/-- Where a mark follows there is no comparison. -/
theorem MarkFollows.found_compareOp_none (h : MarkFollows testEnds r)
    (p : Point) :
    grammar.found m (nt .blanks ++ nt .compareOp) ⟨r, p⟩ = none := by
  refine h.found_none (fun _ => id) (fun mark hm u q _ => ?_) p
  have sign {m : Mode} {text : String}
      (ht : text ∈ ["!=", "<=", ">=", "=", "<", ">"]) :
      grammar.found m (Peg.lit text) ⟨mark.toList ++ u, q⟩ = none := by
    have hheads : ∀ text ∈ ["!=", "<=", ">=", "=", "<", ">"], text ≠ "" ∧
        ∀ mark ∈ testEnds, text.toList.head? ≠ mark.toList.head? := by
      decide
    exact found_lit_none_of_head (hheads text ht).1 (ne_empty_of_mark hm)
      ((hheads text ht).2 mark hm)
  refine found_none_of_body fun m => ?_
  change grammar.found _
    (.alt (Peg.lit "!=") (.alt (Peg.lit "<=") (.alt (Peg.lit ">=")
      (.alt (Peg.lit "=") (.alt (Peg.lit "<") (Peg.lit ">")))))) _ = none
  simp only [Grammar.found_alt, sign (by decide : "!=" ∈ _),
    sign (by decide : "<=" ∈ _), sign (by decide : ">=" ∈ _),
    sign (by decide : "=" ∈ _), sign (by decide : "<" ∈ _),
    sign (by decide : ">" ∈ _), Option.none_or]

end Jam
