/-
What is read of a statement, and of all statements inside it.

Many properties of a program are properties of its statements one by one.
To have such a property of all statements of a program that was read from
a text, it is enough to have it of what a single node is read as
(`Program.parse_nodes`): each statement in a program, at any depth, was
read from some node of a statement.

The induction is over the parse tree, with the statements below a node as
the grammar has them. It is the same for every property.
-/
import Jam.Proofs.Syntax.Agreement
import Jam.Proofs.Syntax.Nodes

namespace Jam

open Except (Yields)

variable {source : String} {P : Statement → Prop}

/-- Simple statements have no statements inside. -/
theorem simpleOfTree_inner (t : Node) :
    Yields (·.inner = []) (simpleOfTree source t) := by
  unfold simpleOfTree
  dsimp only
  split
  · exact .bind fun _ _ => .pure rfl
  · exact .pure rfl
  · exact .pure rfl
  · split
    · exact .bind fun _ _ => .bind fun _ _ => .pure rfl
    · exact .bind fun _ _ => .bind fun _ _ => .bind fun _ _ => .bind fun _ _ =>
        .pure rfl
    · exact .throw _
    · exact .throw _
  · split
    · refine .bind fun _ _ => .bind fun _ _ => ?_
      split
      · exact .bind fun _ _ => .pure rfl
      · exact .throw _
    · exact .throw _
  · split
    · exact .bind fun _ _ => .bind fun _ _ => .pure rfl
    · exact .throw _
  · exact .throw _

/-- What holds of all that is in the statements one by one holds of all that is
in them side by side. -/
theorem statementsOfTrees_nodes {ts : List Node}
    (h : ∀ t ∈ ts,
      Yields (fun s => ∀ x ∈ s.nodes, P x) (Statement.ofTree source t)) :
    Yields (fun ss => ∀ x ∈ nodesOf ss, P x) (statementsOfTrees source ts) := by
  induction ts with
  | nil => exact .pure fun _ hx => nomatch hx
  | cons t ts ih =>
    rw [statementsOfTrees]
    refine .bind fun s hs => .bind fun ss hss => .pure ?_
    have hfirst := h t List.mem_cons_self s hs
    have hrest := ih (fun t ht => h t (List.mem_cons_of_mem _ ht)) ss hss
    intro x hx
    rw [nodesOf_cons] at hx
    rcases List.mem_append.mp hx with hx | hx
    · exact hfirst x hx
    · exact hrest x hx

section Local

variable (h : ∀ t, Is statementKinds t → Yields P (Statement.ofTree source t))
include h

/-- What holds of every statement that is read holds of all statements inside of
one. -/
theorem statements_yield (t : Node) :
    (Is statementKinds t →
      Yields (fun s => ∀ x ∈ s.nodes, P x) (Statement.ofTree source t)) ∧
      (Is [.block] t → ∀ context, Yields (fun b => ∀ x ∈ b.nodes, P x)
        (Block.ofTree source context t)) := by
  induction t using Tree.induct with
  | step kind first last children ih =>
    have hstatements (hb : Leaves grammar (Nonterminal.body .block) children) :
        Yields (fun ss => ∀ x ∈ nodesOf ss, P x)
        (statementsOfTrees source children) :=
      statementsOfTrees_nodes fun t ht => (ih t ht).1 (below_block hb t ht)
    have hblock : ∀ b ∈ children, Is [.block] b → ∀ context,
        Yields (fun b => ∀ x ∈ b.nodes, P x) (Block.ofTree source context b) :=
      fun b hb => (ih b hb).2
    constructor
    · intro ht
      have hinner : Yields (fun s => ∀ x ∈ s.inner, P x)
          (Statement.ofTree source (.node kind first last children)) := by
        unfold Statement.ofTree
        split
        · exact .bind fun ss hss =>
            .pure (hstatements (ht.below (by decide)) ss hss)
        · obtain ⟨condition, hc, yes, hy, rfl | ⟨no, hn, rfl⟩⟩ :=
            below_ifStatement (ht.below (by decide))
          · exact .bind fun _ _ => .bind fun b hb =>
              .pure (hblock yes (by simp) hy _ b hb)
          · refine .bind fun _ _ => .bind fun b hb => ?_
            split
            · refine .bind fun s hs => .pure fun x hx => ?_
              rcases List.mem_append.mp hx with hx | hx
              · exact hblock yes (by simp) hy _ b hb x hx
              · exact (ih no (by simp)).1 (hn.mono (by decide)) s hs x hx
            · exact .throw _
        · obtain ⟨name, hn, values, hv, body, hb, rfl⟩ :=
            below_forStatement (ht.below (by decide))
          exact .bind fun _ _ => .bind fun _ _ => .bind fun _ _ =>
            .bind fun b hread => .pure (hblock body (by simp) hb _ b hread)
        · obtain ⟨condition, hc, body, hb, rfl⟩ :=
            below_whileStatement (ht.below (by decide))
          exact .bind fun _ _ => .bind fun b hread =>
            .pure (hblock body (by simp) hb _ b hread)
        · obtain ⟨name, hn,
              ⟨body, hb, rfl⟩ | ⟨parameters, hp, body, hb, rfl⟩⟩ :=
            below_ruleDefinition (ht.below (by decide))
          · exact .bind fun _ _ => .bind fun b hread =>
              .pure (hblock body (by simp) hb _ b hread)
          · exact .bind fun _ _ => .bind fun _ _ => .bind fun b hread =>
              .pure (hblock body (by simp) hb _ b hread)
        · intro s hs x hx
          rw [simpleOfTree_inner _ s hs] at hx
          cases hx
      exact fun s hs => List.forall_mem_cons.mpr ⟨h _ ht s hs, hinner s hs⟩
    · intro hb context
      obtain rfl : kind = .block := hb.kind_eq
      unfold Block.ofTree
      exact .bind fun _ _ => .bind fun ss hss =>
        .pure (hstatements (hb.below (by decide)) ss hss)

/-- And of all statements of a program. -/
theorem Program.parse_nodes (text : String) :
    Yields (fun p => ∀ s ∈ p.nodes, P s) (Program.parse source text) := by
  have htree :=
    (parseTree_cases source (r := .program) (by decide) text.toList).2
  unfold Program.parse Program.ofTree
  refine .bind fun t ht => .bind fun _ _ => .bind fun ss hss => .pure ?_
  refine statementsOfTrees_nodes (fun u hu => ?_) ss hss
  exact (statements_yield h u).1 ((htree t ht).statements u hu)

end Local

end Jam
