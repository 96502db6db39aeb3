/-
The variables that a program refers to are those of its parse tree.

The references of a program are collected over its syntax, which has lost
the places of most of what it was read from. They are what one would
collect over the parse tree instead: the names of all nodes of variables
that have no variable in their name (`references_of_traces`). The readings
drop no such node and change no order, and a list of all nodes, each before
those below it, has the variables in the order in which they begin.
-/
import Jam.Proofs.Syntax.Traces

namespace Jam

variable {source : String} {d : Cursor} {ts : List Node} {xs : List Piece}

/-- The names of the references among some nodes. -/
def namesOf (ns : List Node) : List String :=
  (ns.filter isReference).map referenceName

theorem namesOf_append (ms ns : List Node) :
    namesOf (ms ++ ns) = namesOf ms ++ namesOf ns := by
  rw [namesOf, List.filter_append, List.map_append]
  rfl

theorem namesOf_cons (t : Node) (ns : List Node) :
    namesOf (t :: ns) = ownOf t ++ namesOf ns := by
  rw [namesOf, List.filter_cons, ownOf]
  split
  · rfl
  · rfl

/-- Pieces refer to what the nodes refer to that they come from. -/
theorem references_of_traces (h : Traces source d ts xs) :
    xs.flatMap Piece.references = namesOf (forestNodes ts) := by
  induction h with
  | nil => rfl
  | absent => rfl
  | keep _ hown _ _ ihbelow ihrest =>
    rw [forestNodes, Tree.nodes_eq, List.cons_append, namesOf_cons,
      namesOf_append, ← ihbelow, ← ihrest, ← hown, List.flatMap_cons,
      Piece.references_eq, List.append_assoc]
  | drop hk _ _ ihbelow ihrest =>
    rw [forestNodes, Tree.nodes_eq, List.cons_append,
      namesOf_cons, namesOf_append, ← ihbelow,
      ← ihrest, ownOf_of_ne hk, List.flatMap_append, List.nil_append]

/-- A node that is a reference is one of a variable. -/
theorem kind_of_isReference {t : Node} (h : isReference t = true) :
    t.kind = .variable := by
  refine Decidable.byContradiction fun hk => ?_
  rw [isReference_of_ne hk] at h
  cases h

/-- What a program refers to is the names of those variables in its parse tree
that have no variable in their name, at any depth and as often as they occur, in
the order in which they begin. -/
theorem references_eq_names (source text : String) (p : Program)
    (h : Program.parse source text = .ok p) :
    ∃ tree, parseTree source .program text.toList = .ok tree ∧
      p.references = (tree.nodes.filter isReference).map referenceName ∧
      (tree.nodes.filter isReference).Pairwise fun v w =>
        v.first.offset < w.first.offset := by
  obtain ⟨tree, d, htree, hstrung, hkeeps⟩ := Program.parse_traced h
  have hnodes : forestNodes [tree] = tree.nodes := List.append_nil _
  refine ⟨tree, htree, ?_, ?_⟩
  · have hnames := references_of_traces (hkeeps.cons (.nil (d := d)))
    rw [hnodes, List.flatMap_singleton] at hnames
    exact hnames
  · have hpairs := hstrung.pairwise_nodes fun _ => variable_opens
    rw [hnodes] at hpairs
    refine (hpairs.sublist List.filter_sublist).imp_of_mem fun hv _ hlt => ?_
    exact hlt (kind_of_isReference (List.mem_filter.mp hv).2)

/-- A text with variables in names, subscripts, parameters, conditions and other
branches. -/
def referringText : String :=
  "rule $(a)b $(c) { return $(d[$(e)-2]) ; }\n" ++
    "if $(f$(g)) in x$(h).o { } else { $(i) : ; }"

theorem referringText_references :
    ∃ p tree, Program.parse "t" referringText = .ok p ∧
      p.references = ["a", "c", "d", "e", "g", "h", "i"] ∧
      parseTree "t" .program referringText.toList = .ok tree ∧
      p.references = (tree.nodes.filter isReference).map referenceName := by
  have hparse : ((Program.parse "t" referringText).toOption.elim false fun p =>
      decide (p.references = ["a", "c", "d", "e", "g", "h", "i"])) =
        true := by decide +kernel
  obtain ⟨p, hp, hnames⟩ := Except.exists_ok_of_elim hparse
  obtain ⟨tree, htree, heq, -⟩ := references_eq_names "t" referringText p hp
  exact ⟨p, tree, hp, of_decide_eq_true hnames, htree, heq⟩

end Jam
