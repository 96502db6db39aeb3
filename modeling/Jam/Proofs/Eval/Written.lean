/-
Every list can be written, and reads back.

Any texts at all can be the elements of a list that stands in a program:
each of them is written in quotes, or as it is if that is possible
(`Writes`), with single blanks between them. The list that is read from
this has these elements wherever it is evaluated, and evaluating it
changes nothing and warns of nothing (`written_list_evaluates`).

That each word is read as one that stands for its text is known; what is
left is that such words have their texts for values in every environment
(`Word.Means.value`).
-/
import Jam.Eval.Run
import Jam.Proofs.Syntax.Division
import Jam.Proofs.Syntax.Written

namespace Jam

open Nonterminal (nt)

variable {source element : String} {elements : List String}

-- ============================================================== values

/-- A word that stands for its text has it for a value. -/
theorem Word.Means.value {word : Word} (h : word.Means element)
    (env : Environment) : word.value env = pure [element] := by
  cases h with
  | literal => rfl
  | name =>
    rw [Word.value, Identifier.resolve, resolveParts, resolveParts]
    change (pure [element ++ ""] : Reading Value) = _
    rw [String.append_empty]

theorem wordsValue_of_means {words : List Word}
    (h : List.Forall₂ (fun word element => word.Means element) words elements)
    (env : Environment) : wordsValue env words = pure elements := by
  induction h with
  | nil => rfl
  | cons hword _ ih =>
    rw [wordsValue, hword.value, ih]
    rfl

-- ============================================================= writing

/-- An element is written in quotes, or as it is. -/
inductive Writes (element : String) : String → Prop
  | quoted {word} : word.toList = enquoted element.toList → Writes element word
  | bare : IsBare element.toList → Writes element element

theorem Writes.readsWord {word : String} (h : Writes element word) :
    ReadsWord source word.toList (Word.Means element) := by
  cases h with
  | quoted hword =>
    rw [hword]
    have hread : ReadsWord source (enquoted element.toList) _ :=
      readsWord_enquoted element.toList
    rwa [String.ofList_toList] at hread
  | bare h =>
    have hread : ReadsWord source element.toList _ := h.readsWord
    rwa [String.ofList_toList] at hread

/-- A list is read from its elements, each of them written in one of its forms,
and its value is these elements again, whatever the variables are and without
any effect. -/
theorem written_list_evaluates (source : String) {elements words : List String}
    (hne : elements ≠ []) (h : List.Forall₂ Writes elements words) :
    ∃ l, Phrase.parse source .list (" ".intercalate words) = .ok (.list l) ∧
      ∀ settings site world,
        ((Phrase.list l).eval settings site).runIn world =
          (.ok elements, world) := by
  cases h with
  | nil => exact absurd rfl hne
  | @cons element word elements words hword hwords =>
    have hreads :
        List.Forall₂ (fun w element => ReadsWord source w (Word.Means element))
        (words.map String.toList) elements := by
      rw [List.forall₂_map_left_iff]
      exact hwords.flip.imp fun _ _ hw => hw.readsWord
    have hend (p : Point) :
        grammar.found .plain (nt .blanks ++ nt .word) ⟨[], p⟩ = none :=
      found_end rfl rfl
    have htext : (" ".intercalate (word :: words)).toList = word.toList ++
        ((words.map String.toList).flatMap (' ' :: ·) ++ []) := by
      rw [String.toList_intercalate, List.append_nil]
      exact intercalate_cons ..
    obtain ⟨q, t, l, hd, hk, hl, hitems⟩ :=
      readsList (R := fun word element => word.Means element)
      hword.readsWord hreads rfl hend (Cursor.ofText []).point
    rw [← htext] at hd
    refine ⟨l, (Phrase.parse_of_derives (by decide) hd rfl).trans ?_,
      fun settings site world => ?_⟩
    · unfold Phrase.ofTree
      rw [hk]
      exact congrArg (Phrase.list <$> ·) hl
    · rw [Phrase.eval, Eval.runIn_read, WordList.value,
        wordsValue_of_means hitems]
      rfl

/-- An empty element, one with a line break, a quote and a backslash in it, and
marks that stand for themselves because they do not stand alone. -/
theorem written_list_of_five :
    let elements := ["", "a\n\"\\", "a", "=x\"$", ";"]
    let words := ["\"\"", "\"a\n\\\"\\\\\"", "a", "=x\"$", "\";\""]
    elements ≠ [] ∧ List.Forall₂ Writes elements words ∧
      ∃ l, Phrase.parse "t" .list (" ".intercalate words) = .ok (.list l) ∧
        ∀ settings site world,
          ((Phrase.list l).eval settings site).runIn world =
            (.ok elements, world) := by
  intro elements words
  have hwrites : List.Forall₂ Writes elements words :=
    .cons (.quoted (by decide)) <| .cons (.quoted (by decide)) <|
      .cons (.bare (by decide)) <| .cons (.bare (by decide)) <|
      .cons (.quoted (by decide)) .nil
  exact ⟨List.cons_ne_nil _ _, hwrites,
    written_list_evaluates "t" (List.cons_ne_nil _ _) hwrites⟩

end Jam
