/-
How a program divides into statements.

A text is a program if and only if it is a sequence of statements from the
beginning of its first word to its end; and the program is then what is
read from the node over these statements (`parse_iff_sequence`). So what
is to be said of programs can be said of sequences, where one statement
after the other is in view, and not the production of a program with its
optional parts.

This needs the text to be tidy. Otherwise a statement may be followed by a
comment without a blank between them, and then it does not end a word.
-/
import Jam.Proofs.Grammar.Sequences
import Jam.Proofs.Syntax.Agreement
import Jam.Proofs.Syntax.Places

instance Except.decidableSucceeds {ε α : Type} :
    (x : Except ε α) → Decidable x.Succeeds
  | .ok a => isTrue ⟨a, rfl⟩
  | .error _ => isFalse nofun

namespace Jam

open Nonterminal

variable {v : Comparison} {c c' d d' e e' : Cursor} {ts ts' : List Node}
  {source : String} {text : List Char} {p q : Program} {x y : String}

-- =================================================== nodes of programs

/-- Alike statements in alike places make alike programs. -/
theorem alike_programNode (hc : v.Level c c') (he : v.Level e e')
    (hts : List.Forall₂ (Alike v.view) ts ts') :
    Alike v.view (programNode c e ts) (programNode c' e' ts') :=
  .node hc he nofun (List.rel_append hts (.cons (.node he he nofun .nil) .nil))

/-- The node of a match can be read. -/
theorem programNode_succeeds (source : String)
    (h : Derives grammar .plain (nt .program) c e [programNode c e ts]) :
    (Program.ofTree source (programNode c e ts)).Succeeds := by
  obtain ⟨t, ht, heq⟩ := (leaves_nt (by decide)).mp h.leaves
  cases heq
  exact Program.succeeds ht

/-- The statements of a sequence are nodes of statements. -/
theorem Sequence.kinds (h : Sequence c ts e) :
    ∀ t ∈ ts, t.kind ∈ statementKinds := by
  induction h with
  | done => exact nofun
  | more hs _ _ ih =>
    obtain ⟨t', ht, heq⟩ := leaves_statement.mp hs.leaves
    obtain rfl := List.singleton_inj.mp heq
    exact List.forall_mem_cons.mpr ⟨ht.kind, ih⟩

/-- The statements of a program are read from the nodes of the sequence. -/
theorem mapM_of_program (h : Sequence c' ts e')
    (hp : Program.ofTree source (programNode c e ts) = .ok p) :
    ts.mapM (Statement.ofTree source) = .ok p.statements := by
  have hkinds : ∀ t ∈ ts, decide (t.kind ≠ .endOfInput) = true := fun t ht => by
    have hk := h.kinds t ht
    rw [decide_eq_true_iff]
    rintro heq
    rw [heq] at hk
    exact absurd hk (by decide)
  have hfilter : (ts ++ [Tree.node endOfInput e e []]).filter
      (·.kind ≠ endOfInput) = ts := by
    rw [List.filter_append, List.filter_eq_self.mpr hkinds]
    exact List.append_nil ts
  unfold Program.ofTree at hp
  dsimp only [programNode, Tree.children] at hp
  rw [hfilter, statementsOfTrees_eq_mapM] at hp
  cases hm : ts.mapM (Statement.ofTree source) with
  | error e =>
    rw [hm] at hp
    cases hp
  | ok ss =>
    rw [hm] at hp
    cases hp
    rfl

-- ================================================ parses and sequences

/-- If the grammar matches, then the parse is what is read from its node. -/
theorem parse_of_derives {t : Node}
    (h : Derives grammar .plain (nt .program) (.ofText x.toList) e [t])
    (ht : t.last.rest = []) :
    Program.parse source x = Program.ofTree source t := by
  have hs : Nonterminal.retention .program ≠ .silent := by decide
  obtain ⟨ns, heq, -⟩ := h.retained hs
  cases heq
  unfold Program.parse
  rw [(parseTree_iff hs).mpr ⟨e, h, ht⟩]
  rfl

/-- If there is a parse, then the grammar matches. -/
theorem derives_of_parse (h : Program.parse source x = .ok p) :
    ∃ e ns, Derives grammar .plain (nt .program) (.ofText x.toList) e ns := by
  unfold Program.parse at h
  cases ht : parseTree source .program x.toList with
  | error err =>
    rw [ht] at h
    cases h
  | ok t =>
    obtain ⟨e, hd, -⟩ := (parseTree_iff (by decide)).mp ht
    exact ⟨e, [t], hd⟩

/-- A tidy text is a program if it is a sequence of statements, and the program
is what is read from these. -/
theorem parse_iff_sequence (hx : tidy .gap x.toList = true) :
    Program.parse source x = .ok p ↔
      ∃ ts e, Sequence (Cursor.ofText x.toList).next ts e ∧ e.rest = [] ∧
      Program.ofTree source (programNode (.ofText x.toList) e ts) = .ok p := by
  constructor
  · intro h
    obtain ⟨e, ns, hd⟩ := derives_of_parse h
    obtain ⟨ts, hs, he, rfl⟩ := sequence_of_program hd (alone_of_tidy hx)
    exact ⟨ts, e, hs, he, (parse_of_derives hd he).symm.trans h⟩
  · rintro ⟨ts, e, hs, he, h⟩
    exact (parse_of_derives (program_of_sequence hs he rfl) he).trans h

/-- A sequence of statements that is as long as the text can be read. -/
theorem parse_of_sequence (source : String)
    (hs : Sequence (Cursor.ofText x.toList).next ts e) (he : e.rest = []) :
    ∃ p, Program.parse source x = .ok p ∧
      Program.ofTree source (programNode (.ofText x.toList) e ts) = .ok p := by
  have hd := program_of_sequence hs he rfl
  obtain ⟨p, hp⟩ := programNode_succeeds source hd
  exact ⟨p, (parse_of_derives hd he).trans hp, hp⟩

end Jam
