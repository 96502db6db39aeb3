/-
Grammar and readings agree: parsing fails only where the text is at fault.

Parsing a text has two stages, and each has its own errors. The grammar
reports that a text does not follow it. The readings of parse trees refuse
trees that the grammar does not produce, with `Cause.internal`, and
`parseTree` itself does so if a match left no node. None of the internal
errors ever comes about, for no text and for none of the kinds of texts
that are read (`parses_or_ungrammatical`).

A match of a nonterminal that is retained leaves one node, which stands
for that match (`parseTree_cases`); and such a node can be read, as
shown along the tree in the module before this one.
-/
import Jam.Proofs.Syntax.Readings
import Jam.Syntax.Parse

namespace Jam

variable {α β : Type}

/-- There is a value, or the text does not follow the grammar. -/
def OrUngrammatical (x : Except Error α) : Prop :=
  x.Succeeds ∨ ∃ e message, x = .error e ∧ e.cause = .ungrammatical message

theorem OrUngrammatical.bind {x : Except Error α} {f : α → Except Error β}
    (hx : OrUngrammatical x) (hf : ∀ a, x = .ok a → (f a).Succeeds) :
    OrUngrammatical (x >>= f) := by
  rcases hx with hx | ⟨e, message, rfl, he⟩
  · exact .inl (hx.bind hf)
  · exact .inr ⟨e, message, rfl, he⟩

-- ========================================================= parse trees

theorem mismatch_cause (source : String) (r : Nonterminal) (text : List Char)
    (t : Attempts Nonterminal) :
    (mismatch source r text t).cause = .ungrammatical t.message := by
  unfold mismatch
  dsimp only
  repeat' split
  all_goals rfl

/-- What the parse tree of a text is, and why there may be none. -/
theorem parseTree_cases (source : String) {r : Nonterminal}
    (hr : Nonterminal.retention r ≠ .silent) (text : List Char) :
    OrUngrammatical (parseTree source r text) ∧
      (parseTree source r text).Yields (Is [r]) := by
  have hf := grammar.fst_run_eq_found .plain (.ofText text) .none (.call r)
  unfold parseTree matchAt
  rcases hrun :
      grammar.run .plain (.call r) (.ofText text) .none with ⟨_ | f, attempts⟩
  · exact ⟨.inr ⟨_, _, rfl, mismatch_cause ..⟩, .throw _⟩
  · rw [hrun] at hf
    obtain ⟨tree, ht, hn⟩ := (leaves_nt hr).mp (derives_of_found hf.symm).leaves
    dsimp only
    rw [hn]
    dsimp only
    split
    · exact ⟨.inl (.pure tree), .pure ht⟩
    · exact ⟨.inr ⟨_, _, rfl, rfl⟩, .throw _⟩

/-- The parse tree of a text is the node of a match that goes to the end of the
text. -/
theorem parseTree_iff {source : String} {r : Nonterminal}
    (hr : Nonterminal.retention r ≠ .silent) {text : List Char}
    {t : Tree Nonterminal} :
    parseTree source r text = .ok t ↔ ∃ d,
      Derives grammar .plain (.call r) (.ofText text) d [t] ∧ d.rest = [] := by
  have hf := grammar.fst_run_eq_found .plain (.ofText text) .none (.call r)
  unfold parseTree matchAt
  rcases hrun : grammar.run .plain (.call r) (.ofText text) .none with
    ⟨_ | ⟨d, ts⟩, attempts⟩
  · rw [hrun] at hf
    constructor
    · intro h
      cases h
    · rintro ⟨d, hd, -⟩
      cases hf.trans hd.found
  · rw [hrun] at hf
    have hmatch : Derives grammar .plain (.call r) (.ofText text) d ts :=
      derives_of_found hf.symm
    obtain ⟨ns, rfl, -⟩ := hmatch.retained hr
    dsimp only
    split
    · next hend =>
      constructor
      · rintro ⟨⟩
        exact ⟨d, hmatch, List.isEmpty_iff.mp hend⟩
      · rintro ⟨d', hd, -⟩
        cases hf.trans hd.found
        rfl
    · next hend =>
      constructor
      · intro h
        cases h
      · rintro ⟨d', hd, hend'⟩
        cases hf.trans hd.found
        exact absurd (List.isEmpty_iff.mpr hend') hend

-- =============================================================== texts

/-- Grammar and readings agree: a text parses, or it does not follow the
grammar; as a program, and as any of the phrases. -/
theorem parses_or_ungrammatical :
    (∀ source text, OrUngrammatical (Program.parse source text)) ∧
    ∀ r ∈ phraseKinds, ∀ source text,
      OrUngrammatical (Phrase.parse source r text) := by
  refine ⟨fun source text => ?_, fun r hr source text => ?_⟩
  · obtain ⟨h, ht⟩ :=
      parseTree_cases source (r := .program) (by decide) text.toList
    exact h.bind fun t hp => Program.succeeds (ht t hp)
  · have hs : ∀ r ∈ phraseKinds, Nonterminal.retention r ≠ .silent := by decide
    obtain ⟨h, ht⟩ := parseTree_cases source (hs r hr) text.toList
    refine h.bind fun t hp => Phrase.succeeds ((ht t hp).mono fun k hk => ?_)
    exact List.mem_singleton.mp hk ▸ hr

/-- A list that breaks off inside of a variable. -/
theorem list_parses_or_ungrammatical :
    Nonterminal.list ∈ phraseKinds ∧
      OrUngrammatical (Phrase.parse "t" .list "a\\x41 \"b c\" $(d[1-") :=
  ⟨by decide, parses_or_ungrammatical.2 .list (by decide) "t" _⟩

end Jam
