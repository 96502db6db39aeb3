/-
The other branch of a choice, in programs that were read from a text.

As far as the type of statements goes, the other branch of a choice could
be any statement. One that is read from a parse tree is always a block or
again a choice (`Statement.branches`). So none of the statements that
have statements inside can bind variables in the frame they run in: a
local declaration never is the other branch (`declares_of_isCompound`).

The reading of a choice looks at the kind of the node before it reads the
other branch (`Statement.ofTree_branches`), and each of the two kinds it
accepts is read as one kind of statement (`Statement.ofTree_isBranch`).
-/
import Jam.Proofs.Syntax.Inside

namespace Jam

-- ============================================================ branches

/-- A statement that can be the other branch of a choice. -/
def Statement.isBranch : Statement → Bool
  | .block _ | .choice .. => true
  | _ => false

/-- The other branch, if there is one, is a block or a choice. -/
def Statement.branches : Statement → Bool
  | .choice _ _ (some no) _ => no.isBranch
  | _ => true

theorem Statement.isCompound_of_isBranch {s : Statement}
    (h : s.isBranch = true) : s.isCompound = true := by
  cases s with
  | block | choice => rfl
  | _ => cases h

/-- A statement with statements inside binds nothing in its own frame. -/
theorem declares_of_isCompound :
    ∀ s : Statement, (∀ x ∈ s.nodes, x.branches = true) →
      s.isCompound = true → s.declares = false
  | .invocation .., _, _ => rfl
  | .block _, _, _ => rfl
  | .forLoop .., _, _ => rfl
  | .whileLoop .., _, _ => rfl
  | .choice _ _ none _, _, _ => rfl
  | .choice condition yes (some no) span, h, _ => by
    have hb : no.isBranch = true :=
      h (.choice condition yes (some no) span) (Statement.mem_nodes _)
    have hno : ∀ x ∈ no.nodes, x.branches = true := by
      intro x hx
      apply h
      rw [nodes_choice_else]
      exact List.mem_cons_of_mem _ (List.mem_append_right _ hx)
    exact declares_of_isCompound no hno (Statement.isCompound_of_isBranch hb)
termination_by structural s => s

-- ============================================================ readings

open Except (Yields)

/-- Statements all of whose other branches are as they should be. -/
def BranchesIn (ss : List Statement) : Prop := ∀ x ∈ ss, x.branches = true

variable {source : String}

/-- A node that can stand in the other branch is read as a statement that
can. -/
theorem Statement.ofTree_isBranch (t : Node) :
    Yields (fun s => t.kind = .ifStatement ∨ t.kind = .block →
      s.isBranch = true) (Statement.ofTree source t) := by
  cases t with
  | node kind first last children =>
    unfold Statement.ofTree
    split
    · exact .bind fun _ _ => .pure fun _ => rfl
    · split
      · exact .bind fun _ _ => .bind fun _ _ => .pure fun _ => rfl
      · refine .bind fun _ _ => .bind fun _ _ => ?_
        split
        · exact .bind fun _ _ => .pure fun _ => rfl
        · exact .throw _
      · split
        · exact .throw _
        · exact .throw _
    -- Nodes of other kinds cannot stand there.
    · exact fun _ _ hk => by simp [Tree.kind] at hk
    · exact fun _ _ hk => by simp [Tree.kind] at hk
    · exact fun _ _ hk => by simp [Tree.kind] at hk
    · next hb hi _ _ _ =>
      intro s _ hk
      rcases hk with hk | hk
      · exact absurd hk hi
      · exact absurd hk hb

/-- Without statements inside there is no other branch. -/
theorem Statement.branches_of_inner {s : Statement} (h : s.inner = []) :
    s.branches = true := by
  cases s with
  | choice condition yes no span =>
    cases no with
    | none => rfl
    | some no =>
      exact absurd h
        (List.append_ne_nil_of_right_ne_nil _ (List.cons_ne_nil _ _))
  | _ => rfl

/-- The other branch of a choice is read as one. -/
theorem Statement.ofTree_branches (t : Node) :
    Yields (fun s => s.branches = true) (Statement.ofTree source t) := by
  cases t with
  | node kind first last children =>
    unfold Statement.ofTree
    split
    · exact .bind fun _ _ => .pure rfl
    · split
      · exact .bind fun _ _ => .bind fun _ _ => .pure rfl
      · next no =>
        refine .bind fun _ _ => .bind fun _ _ => ?_
        split
        · next hk =>
          exact .bind fun s hs => .pure (Statement.ofTree_isBranch no s hs hk)
        · exact .throw _
      · split
        · exact .throw _
        · exact .throw _
    · split
      · exact .bind fun _ _ => .bind fun _ _ => .bind fun _ _ =>
          .bind fun _ _ => .pure rfl
      · exact .throw _
    · split
      · exact .bind fun _ _ => .bind fun _ _ => .pure rfl
      · exact .throw _
    · split
      · exact .bind fun _ _ => .bind fun _ _ => .pure rfl
      · exact .bind fun _ _ => .bind fun _ _ => .bind fun _ _ => .pure rfl
      · split
        · exact .throw _
        · exact .throw _
    · exact fun s hs => Statement.branches_of_inner (simpleOfTree_inner _ s hs)

/-- The other branches in a program that was read from a text are blocks
and choices. -/
theorem parse_branches (source text : String) :
    Yields (fun p => BranchesIn p.nodes) (Program.parse source text) :=
  Program.parse_nodes (fun t _ => Statement.ofTree_branches t) text

end Jam
