/-
Where the nodes of a parse tree stand.

The nodes of a parse tree are strung along its text (`parseTree_strung`).
Of single kinds of nodes three things are needed besides. Below a token
there is nothing (`children_of_token`). A name is nothing but its tokens
and variables, so it has their texts (`text_name`). And a variable begins
with two signs that belong to nothing below it (`variable_opens`).
-/
import Jam.Proofs.Grammar.Sequences
import Jam.Proofs.Peg.Strung
import Jam.Proofs.Syntax.Outcome
import Jam.Grammar.Parse

namespace Jam

open Nonterminal
open Except (Yields)

variable {t : Node}

-- ============================================================== tokens

/-- The nodes whose text is read, and the one that marks the end. -/
def tokenKinds : List Nonterminal :=
  [.identifier, .number, .rangeDash, .fragment, .quoted, .unquoted, .compareOp,
    .assignOp, .endOfInput]

/-- Below a token there is nothing. -/
theorem children_of_token (h : Is tokenKinds t) : t.children = [] := by
  have hcalls : ∀ r ∈ tokenKinds, (body r).calls = [] ∨
      (grammar.bodyMode r .plain).atomic = true ∧ ∀ q ∈ (body r).calls,
      grammar.retention q = .leaf ∧ (grammar.body q).calls = [] := by
    decide
  have hbody : Derives grammar (grammar.bodyMode t.kind .plain)
      (body t.kind) t.first t.last t.children := h.grown
  rcases hcalls t.kind h.kind with hnone | ⟨hatomic, hcalled⟩
  · exact hbody.nodes_eq_nil hnone
  · exact hbody.nodes_eq_nil_of_atomic hatomic hcalled

/-- Nor is there below the statements that consist of a keyword. -/
theorem children_of_keyword (h : Is [.breakStatement, .continueStatement] t) :
    t.children = [] := by
  cases t with
  | node kind first last children =>
    have hk : kind = .breakStatement ∨ kind = .continueStatement := by
      simpa [Tree.kind] using h.kind
    rcases hk with rfl | rfl
    · simpa [body, Tree.children] using h.below (by decide)
    · simpa [body, Tree.children] using h.below (by decide)

-- ================================================= names and variables

/-- A name has the texts of what is below it. -/
theorem text_name (h : Is [.name] t) :
    t.text = t.children.flatMap Tree.text := by
  have hbody : Derives grammar (grammar.bodyMode t.kind .plain)
      (grammar.body t.kind) t.first t.last t.children := h.grown
  rw [h.kind_eq, Grammar.bodyMode_plain (by decide)] at hbody
  have hcovers : grammar.Covers (grammar.body .name) := by
    refine ⟨⟨?_, ?_⟩, ?_, ?_⟩ <;>
      · intro hs
        cases hs
  exact (hbody.takes_texts hcovers).upTo_eq

/-- What begins with a fixed text leaves its nodes behind it. -/
theorem Derives.behind_leftmost {N : Type} {g : Grammar N} {m : Mode}
    {e : Peg N} {c d : Cursor} {ts : List (Tree N)} {opening : List Char}
    (he : e.leftmost = .chars opening) (h : Derives g m e c d ts) :
    ∃ b, c.Takes opening b ∧ Strung g b ts d := by
  induction e generalizing d ts with
  | seq a b ih _ =>
    cases h with
    | seq ha hb =>
      obtain ⟨b, ht, hs⟩ := ih he ha
      exact ⟨b, ht, hs.append hb.strung⟩
  | chars text =>
    cases he
    cases h with
    | chars hd => exact ⟨d, .of_skip? hd, .nil (.nil d)⟩
  | _ => cases he

/-- A variable begins with two signs that lie before everything below it. -/
theorem variable_opens (h : Grown grammar t) (hk : t.kind = .variable) :
    ∃ c taken, t.first.Takes taken c ∧ taken ≠ [] ∧
      Strung grammar c t.children t.last := by
  have hbody : Derives grammar (grammar.bodyMode t.kind .plain)
      (grammar.body t.kind) t.first t.last t.children := h
  rw [hk] at hbody
  obtain ⟨c, ht, hs⟩ := hbody.behind_leftmost rfl
  exact ⟨c, _, ht, List.cons_ne_nil _ _, hs⟩

-- ========================================================= parse trees

/-- The nodes of a parse tree are strung along the text. -/
theorem parseTree_strung (source : String) (r : Nonterminal)
    (text : List Char) :
    (parseTree source r text).Yields fun t =>
      ∃ d, Strung grammar (.ofText text) [t] d := by
  have hf := grammar.fst_run_eq_found .plain (.ofText text) .none (.call r)
  unfold parseTree matchAt
  rcases hrun :
      grammar.run .plain (.call r) (.ofText text) .none with ⟨_ | f, attempts⟩
  · exact .throw _
  · rw [hrun] at hf
    have hstrung := (derives_of_found hf.symm).strung
    dsimp only
    split
    · exact .throw _
    · next tree ts hnodes =>
      split
      · rw [hnodes] at hstrung
        obtain ⟨⟨taken, ht⟩, hg, hc, -⟩ := hstrung.uncons
        exact .pure ⟨tree.last, .cons ht hg hc (.nil (.nil _))⟩
      · exact .throw _

end Jam
