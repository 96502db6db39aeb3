/-
The statements inside a program, at any depth.

Properties of programs are mostly of the form "every statement in it is
such and such": there is no while loop, a break stands in a loop. What
is in a statement is told once, as a list (`Statement.nodes`), and a
property is then a property of the members. The bodies of rules count as
parts of their definitions.

`Statement.declares` tells the statements that may bind a variable in the
very frame they run in. Only a local declaration does so itself; a choice
passes its frame on to its other branch. Blocks, loops and rules run
their statements in frames of their own.
-/
import Jam.Syntax.Basic

namespace Jam

-- =============================================================== nodes

mutual

/-- What is properly inside a statement. -/
def Statement.inner : Statement → List Statement
  | .block b => b.nodes
  | .choice _ yes none _ => yes.nodes
  | .choice _ yes (some no) _ => yes.nodes ++ no :: no.inner
  | .forLoop _ _ body _ | .whileLoop _ body _ => body.nodes
  | .definition rule => rule.nodes
  | .invocation .. | .assignment .. | .localBinding .. | .returnWith ..
    | .breakLoop _ | .continueLoop _ => []
termination_by structural s => s

/-- The statements in a block. -/
def Block.nodes : Block → List Statement
  | ⟨statements, _⟩ => nodesOf statements
termination_by structural b => b

/-- The statements in the body of a rule. -/
def RuleDefinition.nodes : RuleDefinition → List Statement
  | ⟨_, _, body, _⟩ => body.nodes
termination_by structural r => r

/-- Some statements and what is inside them. -/
def nodesOf : List Statement → List Statement
  | [] => []
  | s :: ss => s :: s.inner ++ nodesOf ss
termination_by structural ss => ss

end

/-- A statement and what is inside it. -/
def Statement.nodes (s : Statement) : List Statement := s :: s.inner

/-- The statements of a program. -/
def Program.nodes (p : Program) : List Statement := nodesOf p.statements

/-- The statements of a phrase; words and lists have none. -/
def Phrase.nodes : Phrase → List Statement
  | .statement s => s.nodes
  | .literal _ | .identifier _ | .variable _ | .list _ => []

theorem Statement.mem_nodes (s : Statement) : s ∈ s.nodes := List.mem_cons_self

theorem nodesOf_cons (s : Statement) (ss : List Statement) :
    nodesOf (s :: ss) = s.nodes ++ nodesOf ss := rfl

theorem nodes_block (b : Block) :
    (Statement.block b).nodes = .block b :: b.nodes := rfl

theorem nodes_forLoop (name : Identifier) (values : WordList) (body : Block)
    (span : Span) :
    (Statement.forLoop name values body span).nodes =
      .forLoop name values body span :: body.nodes := rfl

theorem nodes_whileLoop (condition : Condition) (body : Block) (span : Span) :
    (Statement.whileLoop condition body span).nodes
      = .whileLoop condition body span :: body.nodes := rfl

theorem nodes_definition (rule : RuleDefinition) :
    (Statement.definition rule).nodes =
      .definition rule :: rule.body.nodes := by
  cases rule
  rfl

theorem nodes_choice (condition : Condition) (yes : Block) (span : Span) :
    (Statement.choice condition yes none span).nodes
      = .choice condition yes none span :: yes.nodes := rfl

theorem nodes_choice_else (condition : Condition) (yes : Block) (no : Statement)
    (span : Span) :
    (Statement.choice condition yes (some no) span).nodes
      = .choice condition yes (some no) span :: (yes.nodes ++ no.nodes) := rfl

-- ============================================================= nesting

section Nesting

variable {x y : Statement}

mutual

/-- What is inside something inside a statement is inside the statement. -/
theorem Statement.inner_trans (hy : y ∈ x.inner) :
    ∀ s : Statement, x ∈ s.inner → y ∈ s.inner
  | .block b, h => Block.nodes_trans hy b h
  | .choice _ yes none _, h => Block.nodes_trans hy yes h
  | .choice _ yes (some no) _, h => by
    rw [Statement.inner] at h ⊢
    rcases List.mem_append.mp h with h | h
    · exact List.mem_append_left _ (Block.nodes_trans hy yes h)
    · refine List.mem_append_right _ (List.mem_cons_of_mem _ ?_)
      rcases List.mem_cons.mp h with rfl | h
      · exact hy
      · exact Statement.inner_trans hy no h
  | .forLoop _ _ body _, h => Block.nodes_trans hy body h
  | .whileLoop _ body _, h => Block.nodes_trans hy body h
  | .definition rule, h => RuleDefinition.nodes_trans hy rule h
termination_by structural s => s

theorem Block.nodes_trans (hy : y ∈ x.inner) :
    ∀ b : Block, x ∈ b.nodes → y ∈ b.nodes
  | ⟨statements, _⟩, h => nodesOf_trans hy statements h
termination_by structural b => b

theorem RuleDefinition.nodes_trans (hy : y ∈ x.inner) :
    ∀ r : RuleDefinition, x ∈ r.nodes → y ∈ r.nodes
  | ⟨_, _, body, _⟩, h => Block.nodes_trans hy body h
termination_by structural r => r

theorem nodesOf_trans (hy : y ∈ x.inner) :
    ∀ ss : List Statement, x ∈ nodesOf ss → y ∈ nodesOf ss
  | s :: ss, h => by
    rw [nodesOf] at h ⊢
    rcases List.mem_append.mp h with h | h
    · refine List.mem_append_left _ (List.mem_cons_of_mem _ ?_)
      rcases List.mem_cons.mp h with rfl | h
      · exact hy
      · exact Statement.inner_trans hy s h
    · exact List.mem_append_right _ (nodesOf_trans hy ss h)
termination_by structural ss => ss

end

/-- A statement of a program brings along all that is inside it. -/
theorem Program.mem_nodes_of_mem {p : Program} (hx : x ∈ p.nodes)
    (hy : y ∈ x.nodes) : y ∈ p.nodes := by
  rcases List.mem_cons.mp hy with rfl | hy
  · exact hx
  · exact nodesOf_trans hy p.statements hx

end Nesting

-- ================================================= kinds of statements

/-- A loop under a condition. -/
def Statement.isWhile : Statement → Bool
  | .whileLoop .. => true
  | _ => false

/-- A loop. -/
def Statement.isLoop : Statement → Bool
  | .forLoop .. | .whileLoop .. => true
  | _ => false

/-- A statement that runs others: its own parts, or the body of a rule. -/
def Statement.isCompound : Statement → Bool
  | .block _ | .choice .. | .forLoop .. | .whileLoop .. | .invocation .. => true
  | .assignment .. | .localBinding .. | .returnWith .. | .breakLoop _
    | .continueLoop _ | .definition _ => false

/-- A statement that may bind variables in the frame it runs in. -/
def Statement.declares : Statement → Bool
  | .localBinding .. => true
  | .choice _ _ (some no) _ => no.declares
  | _ => false

end Jam
