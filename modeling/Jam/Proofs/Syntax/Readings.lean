/-
Every parse tree of the grammar can be read.

The readings of nodes refuse what they do not expect: a node of another
kind, one too many or too few, a text that is no escape or no mark. The
grammar produces none of these. For every kind of node it is known what
can stand below it (`below_name` and the lemmas after it) and which texts
tokens have (`escaped_quoted`, `mark_compareOp`), and every check of a
reading is answered by one of these facts.

# The induction

Names hold variables whose names hold variables, conditions hold
conditions and statements hold statements, so each of these three is an
induction over the tree: if what stands below a node can be read, so can
the node. The kinds of nodes that are read are those in `phraseKinds`;
nodes of other kinds are parts of them and are read along with them.
-/
import Jam.Proofs.Grammar.Tokens
import Jam.Proofs.Syntax.Outcome

namespace Jam

open Except (Succeeds Yields)

variable {source context : String} {r : Nonterminal} {ks : List Nonterminal}
  {t : Node} {ts : List Node}

theorem require_succeeds (h : Is [r] t) :
    Succeeds (require source context r t) := by
  rw [require, if_pos h.kind_eq]
  exact .pure ()

-- =============================================================== names

theorem glue_ne_nil (part : Part) (parts : List Part) :
    part.glue parts ≠ [] := by
  unfold Part.glue
  split
  · exact List.cons_ne_nil _ _
  · exact List.cons_ne_nil _ _

theorem partsOfTrees_ne_nil (h : ts ≠ []) :
    Yields (· ≠ []) (partsOfTrees source context ts) := by
  cases ts with
  | nil => exact absurd rfl h
  | cons t ts =>
    have tail : ∀ part : Part,
        Yields (· ≠ []) (part.glue <$> partsOfTrees source context ts) :=
      fun part => .map fun parts _ => glue_ne_nil part parts
    rw [partsOfTrees]
    repeat' split
    all_goals exact .bind fun part _ => tail part

/-- Parts can be read if the variables among them can. -/
theorem partsOfTrees_succeeds (h : ∀ t ∈ ts, Is partKinds t)
    (hv : ∀ t ∈ ts, Is [.variable] t → Succeeds (Variable.ofTree source t)) :
    Succeeds (partsOfTrees source context ts) := by
  induction ts with
  | nil => exact .pure []
  | cons t ts ih =>
    obtain ⟨ht, hts⟩ := List.forall_mem_cons.mp h
    obtain ⟨hvt, hvts⟩ := List.forall_mem_cons.mp hv
    have tail : ∀ part : Part,
        Succeeds (part.glue <$> partsOfTrees source context ts) :=
      fun part => .map (ih hts hvts)
    rw [partsOfTrees]
    split
    · exact .bind (.pure _) fun part _ => tail part
    · exact .bind (.pure _) fun part _ => tail part
    · exact .bind (.pure _) fun part _ => tail part
    · next hk =>
      -- Of the parts with a text only a fragment has escape sequences.
      obtain ⟨text, htext⟩ := (escaped_fragment (ht.of_kind hk)).resolves
      rw [htext]
      exact .bind (.pure _) fun part _ => tail part
    · next hk =>
      exact .bind (.map (hvt (ht.of_kind hk))) fun part _ => tail part
    · have hk := ht.kind
      simp_all [partKinds]

theorem Identifier.ofTree_succeeds {kind : Nonterminal} {first last : Cursor}
    (hk : kind ∈ [Nonterminal.name, .subscriptText, .joined])
    (hs : SomeAre partKinds ts)
    (hv : ∀ t ∈ ts, Is [.variable] t → Succeeds (Variable.ofTree source t)) :
    Succeeds (Identifier.ofTree source (.node kind first last ts)) := by
  unfold Identifier.ofTree
  split
  · next hn =>
    simp only [List.mem_cons, List.not_mem_nil, or_false] at hk
    rcases hk with rfl | rfl | rfl <;> cases hn
  · next context _ =>
    refine .bind (partsOfTrees_succeeds hs.all hv) fun parts hp => ?_
    split
    · exact absurd rfl (partsOfTrees_ne_nil hs.nonempty [] hp)
    · exact .pure _

/-- Names, subscripts and variables can be read, at any depth of variables
inside each other. A subscript is read along with its variable, which
looks at the node below it. -/
theorem names_succeed (t : Node) :
    (Is [.name, .subscriptText, .joined] t →
      Succeeds (Identifier.ofTree source t)) ∧
      (Is [.variable] t → Succeeds (Variable.ofTree source t)) ∧
      (Is [.subscript] t → ∀ text ∈ t.children,
        Succeeds (Identifier.ofTree source text)) := by
  induction t using Tree.induct with
  | step kind first last children ih =>
    have hv : ∀ t ∈ children, Is [.variable] t →
        Succeeds (Variable.ofTree source t) :=
      fun t ht => (ih t ht).2.1
    refine ⟨fun h => ?_, fun h => ?_, fun h text ht => ?_⟩
    · -- names, subscripts and words
      have hs : SomeAre partKinds children := by
        have hk := h.kind
        simp only [Tree.kind, List.mem_cons, List.not_mem_nil, or_false] at hk
        rcases hk with rfl | rfl | rfl
        · exact (below_name (h.below (by decide))).mono (by decide)
        · exact (someAre_below_subscriptText (h.below (by decide))).mono
            (by decide)
        · exact below_joined (h.below (by decide))
      exact Identifier.ofTree_succeeds h.kind hs hv
    · -- variables, with and without a subscript
      obtain rfl : kind = .variable := h.kind_eq
      unfold Variable.ofTree
      refine .bind (require_succeeds h) fun _ _ => ?_
      obtain ⟨name, hn, rfl | ⟨s, hs, rfl⟩⟩ :=
        below_variable (h.below (by decide))
      · have hname := (ih name (by simp)).1 (hn.mono (by simp))
        exact .bind (require_succeeds hn) fun _ _ =>
          .bind hname fun _ _ => .pure _
      · have hname := (ih name (by simp)).1 (hn.mono (by simp))
        have htext := (ih s (by simp)).2.2 hs
        cases s with
        | node kind' first' last' children' =>
          refine .bind (require_succeeds hn) fun _ _ =>
            .bind hname fun _ _ => ?_
          refine .bind (require_succeeds hs) fun _ _ => ?_
          obtain rfl : kind' = .subscript := hs.kind_eq
          obtain ⟨text, ht, rfl⟩ := below_subscript (hs.below (by decide))
          have hread := htext text (by simp [Tree.children])
          exact .bind (require_succeeds ht) fun _ _ =>
            .bind hread fun _ _ => .pure _
    · obtain rfl : kind = .subscript := h.kind_eq
      obtain ⟨text', ht', rfl⟩ := below_subscript (h.below (by decide))
      obtain rfl := List.mem_singleton.mp ht
      exact (ih text (by simp)).1 (ht'.mono (by simp))

-- ===================================================== words and lists

theorem Identifier.succeeds (h : Is [.name, .subscriptText, .joined] t) :
    Succeeds (Identifier.ofTree source t) := (names_succeed t).1 h

theorem Variable.succeeds (h : Is [.variable] t) :
    Succeeds (Variable.ofTree source t) :=
  (names_succeed t).2.1 h

theorem nameOfTree_succeeds (h : Is [.name] t) :
    Succeeds (nameOfTree source context t) :=
  .bind (require_succeeds h) fun _ _ => Identifier.succeeds (h.mono (by simp))

theorem Literal.succeeds (h : Is [.string] t) :
    Succeeds (Literal.ofTree source t) := by
  refine .bind (require_succeeds h) fun _ _ => ?_
  cases t with
  | node kind first last children =>
    obtain rfl : kind = .string := h.kind_eq
    obtain ⟨raw, hr, rfl⟩ := below_string (h.below (by decide))
    have hk : raw.kind = .quoted ∨ raw.kind = .unquoted := by
      simpa using hr.kind
    have he : Escaped raw.text := by
      rcases hk with hk | hk
      · exact escaped_quoted (hr.of_kind hk)
      · exact escaped_unquoted (hr.of_kind hk)
    obtain ⟨text, ht⟩ := he.resolves
    dsimp only [Tree.children]
    rw [if_pos hk, ht]
    exact .pure _

theorem Word.succeeds (h : Is wordKinds t) :
    Succeeds (Word.ofTree source t) := by
  unfold Word.ofTree
  split
  · next hk => exact .map (Variable.succeeds (h.of_kind hk))
  · next hk => exact .map (Identifier.succeeds ((h.of_kind hk).mono (by simp)))
  · next hk => exact .map (Identifier.succeeds ((h.of_kind hk).mono (by simp)))
  · next hk => exact .map (Literal.succeeds (h.of_kind hk))
  · have hk := h.kind
    simp_all [wordKinds]

theorem WordList.succeeds (h : Is [.list] t) :
    Succeeds (WordList.ofTree source t) := by
  refine .bind (require_succeeds h) fun _ _ =>
    .bind (.mapM fun word hw => ?_) fun _ _ => .pure _
  cases t with
  | node kind first last children =>
    obtain rfl : kind = .list := h.kind_eq
    exact Word.succeeds ((below_list (h.below (by decide))).all word hw)

/-- A list that may have been left out. -/
theorem WordList.ofTrees_succeeds {absent span : Span}
    (h : ts = [] ∨ ∃ t, Is [.list] t ∧ ts = [t]) :
    Succeeds (WordList.ofTrees source context absent span ts) := by
  rcases h with rfl | ⟨t, ht, rfl⟩
  · exact .pure _
  · exact .bind (require_succeeds ht) fun _ _ => WordList.succeeds ht

-- ========================================================== conditions

theorem Condition.succeeds (t : Node)
    (h : Is (.conjunction :: conditionKinds) t) :
    Succeeds (Condition.ofTree source t) := by
  induction t using Tree.induct with
  | step kind first last children ih =>
    unfold Condition.ofTree
    split
    · -- connectives
      have hb := below_disjunction (h.below (by decide))
      rw [conditionsOfTrees_eq_mapM]
      refine .bind (.mapM fun u hu => ?_) fun _ _ => .pure _
      exact ih u hu ((hb.all u hu).mono (by simp))
    · have hb := below_conjunction (h.below (by decide))
      rw [conditionsOfTrees_eq_mapM]
      refine .bind (.mapM fun u hu => ?_) fun _ _ => .pure _
      exact ih u hu ((hb.all u hu).mono fun _ => List.mem_cons_of_mem _)
    · -- a negation
      obtain ⟨inner, hi, rfl⟩ := below_negated (h.below (by decide))
      have hread := ih inner (by simp) (hi.mono fun _ => List.mem_cons_of_mem _)
      exact .bind hread fun _ _ => .pure _
    · -- tests
      obtain ⟨word, hw, rfl⟩ := below_truth (h.below (by decide))
      exact .bind (Word.succeeds hw) fun _ _ => .pure _
    · obtain ⟨left, hl, mark, hm, right, hr, rfl⟩ :=
        below_comparison (h.below (by decide))
      refine .bind (Word.succeeds hl) fun _ _ =>
        .bind (require_succeeds hm) fun _ _ => ?_
      obtain ⟨op, hop⟩ := mark_compareOp hm
      rw [hop]
      exact .bind (Word.succeeds hr) fun _ _ => .pure _
    · obtain ⟨element, he, list, hl, rfl⟩ :=
        below_membership (h.below (by decide))
      refine .bind (Word.succeeds he) fun _ _ =>
        .bind (require_succeeds hl) fun _ _ => ?_
      exact .bind (WordList.succeeds hl) fun _ _ => .pure _
    · have hk := h.kind
      simp_all [conditionKinds, Tree.kind]

-- ========================================================== statements

theorem argumentOfTree_succeeds (h : Is [.argument] t) :
    Succeeds (argumentOfTree source t) :=
  .bind (require_succeeds h) fun _ _ =>
    WordList.ofTrees_succeeds (h.optional (by decide))

theorem parametersOfTree_succeeds (h : Is [.parameters] t) :
    Succeeds (parametersOfTree source t) := by
  refine .bind (require_succeeds h) fun _ _ => .mapM fun name hn => ?_
  cases t with
  | node kind first last children =>
    obtain rfl : kind = .parameters := h.kind_eq
    exact nameOfTree_succeeds
      ((below_parameters (h.below (by decide))).all name hn)

/-- The kinds of statements that have no statements in them. -/
def simpleKinds : List Nonterminal :=
  [.returnStatement, .breakStatement, .continueStatement, .localStatement,
    .assignment, .ruleInvocation]

theorem simpleOfTree_succeeds (h : Is simpleKinds t) :
    Succeeds (simpleOfTree source t) := by
  unfold simpleOfTree
  dsimp only
  cases t with
  | node kind first last children =>
    split
    · next hk =>
      have ho := (h.of_kind hk).optional (by decide)
      exact .bind (WordList.ofTrees_succeeds ho) fun _ _ => .pure _
    · exact .pure _
    · exact .pure _
    · next hk =>
      obtain rfl : kind = .localStatement := hk
      obtain ⟨names, hn, rfl | ⟨value, hv, rfl⟩⟩ :=
        below_localStatement (h.below (by decide))
      · refine .bind (require_succeeds hn) fun _ _ => ?_
        exact .bind (WordList.succeeds hn) fun _ _ => .pure _
      · have ho := hv.optional (by decide)
        refine .bind (require_succeeds hn) fun _ _ =>
          .bind (WordList.succeeds hn) fun _ _ => ?_
        refine .bind (require_succeeds hv) fun _ _ => ?_
        exact .bind (WordList.ofTrees_succeeds ho) fun _ _ => .pure _
    · next hk =>
      obtain rfl : kind = .assignment := hk
      obtain ⟨name, hn, mark, hm, hc⟩ := below_assignment (h.below (by decide))
      obtain ⟨value, rfl, hv⟩ : ∃ value, children = name :: mark :: value ∧
          (value = [] ∨ ∃ t, Is [.list] t ∧ value = [t]) := by
        rcases hc with rfl | ⟨t, ht, rfl⟩
        · exact ⟨[], rfl, .inl rfl⟩
        · exact ⟨[t], rfl, .inr ⟨t, ht, rfl⟩⟩
      refine .bind (nameOfTree_succeeds hn) fun _ _ =>
        .bind (require_succeeds hm) fun _ _ => ?_
      obtain ⟨op, hop⟩ := mark_assignOp hm
      rw [hop]
      exact .bind (WordList.ofTrees_succeeds hv) fun _ _ => .pure _
    · next hk =>
      obtain rfl : kind = .ruleInvocation := hk
      obtain ⟨name, hn, arguments, ha, rfl⟩ :=
        below_ruleInvocation (h.below (by decide))
      refine .bind (nameOfTree_succeeds hn) fun _ _ => ?_
      exact .bind (.mapM fun t ht => argumentOfTree_succeeds (ha.all t ht))
        fun _ _ => .pure _
    · have hk := h.kind
      simp_all [simpleKinds]

theorem statements_succeed (t : Node) :
    (Is statementKinds t → Succeeds (Statement.ofTree source t)) ∧
    (Is [.block] t → ∀ context, Succeeds (Block.ofTree source context t)) := by
  induction t using Tree.induct with
  | step kind first last children ih =>
    have hcondition : ∀ t, Is [.disjunction] t →
        Succeeds (Condition.ofTree source t) :=
      fun t ht => Condition.succeeds t (ht.mono (by decide))
    have hblock : ∀ b ∈ children, Is [.block] b →
        ∀ context, Succeeds (Block.ofTree source context b) :=
      fun b hb => (ih b hb).2
    have hstatements (hb : Leaves grammar (Nonterminal.body .block) children) :
        Succeeds (statementsOfTrees source children) := by
      rw [statementsOfTrees_eq_mapM]
      exact .mapM fun t ht => (ih t ht).1 (below_block hb t ht)
    refine ⟨fun h => ?_, fun h context => ?_⟩
    · unfold Statement.ofTree
      split
      · -- a block
        exact .bind (hstatements (h.below (by decide))) fun _ _ => .pure _
      · -- a choice, without and with another branch
        obtain ⟨condition, hc, yes, hy, rfl | ⟨no, hn, rfl⟩⟩ :=
          below_ifStatement (h.below (by decide))
        · refine .bind (hcondition condition hc) fun _ _ => ?_
          exact .bind (hblock yes (by simp) hy _) fun _ _ => .pure _
        · have hk : no.kind = .ifStatement ∨ no.kind = .block := by
            simpa using hn.kind
          have hno := (ih no (by simp)).1 (hn.mono (by decide))
          refine .bind (hcondition condition hc) fun _ _ => ?_
          refine .bind (hblock yes (by simp) hy _) fun _ _ => ?_
          rw [if_pos hk]
          exact .bind hno fun _ _ => .pure _
      · -- loops
        obtain ⟨name, hn, values, hv, body, hb, rfl⟩ :=
          below_forStatement (h.below (by decide))
        refine .bind (nameOfTree_succeeds hn) fun _ _ =>
          .bind (require_succeeds hv) fun _ _ => ?_
        refine .bind (WordList.succeeds hv) fun _ _ => ?_
        exact .bind (hblock body (by simp) hb _) fun _ _ => .pure _
      · obtain ⟨condition, hc, body, hb, rfl⟩ :=
          below_whileStatement (h.below (by decide))
        refine .bind (hcondition condition hc) fun _ _ => ?_
        exact .bind (hblock body (by simp) hb _) fun _ _ => .pure _
      · -- a definition, without and with parameters
        obtain ⟨name, hn, ⟨body, hb, rfl⟩ | ⟨parameters, hp, body, hb, rfl⟩⟩ :=
          below_ruleDefinition (h.below (by decide))
        · refine .bind (nameOfTree_succeeds hn) fun _ _ => ?_
          exact .bind (hblock body (by simp) hb _) fun _ _ => .pure _
        · refine .bind (nameOfTree_succeeds hn) fun _ _ => ?_
          refine .bind (parametersOfTree_succeeds hp) fun _ _ => ?_
          exact .bind (hblock body (by simp) hb _) fun _ _ => .pure _
      · -- The kinds that are left are those without statements inside.
        refine simpleOfTree_succeeds ⟨?_, h.grown⟩
        have hk := h.kind
        simp_all [statementKinds, simpleKinds, Tree.kind]
    · obtain rfl : kind = .block := h.kind_eq
      unfold Block.ofTree
      refine .bind (require_succeeds h) fun _ _ => ?_
      exact .bind (hstatements (h.below (by decide))) fun _ _ => .pure _

-- ========================================================= whole texts

theorem Program.succeeds (h : Is [.program] t) :
    Succeeds (Program.ofTree source t) := by
  refine .bind (require_succeeds h) fun _ _ => ?_
  rw [statementsOfTrees_eq_mapM]
  exact .bind (.mapM fun u hu => (statements_succeed u).1 (h.statements u hu))
    fun _ _ => .pure _

/-- What a text can be read as that is less than a program. -/
def phraseKinds : List Nonterminal :=
  [.name, .joined, .variable, .string, .list, .block, .ifStatement,
    .forStatement, .whileStatement, .ruleDefinition, .returnStatement,
    .breakStatement, .continueStatement,
    .localStatement, .assignment, .ruleInvocation]

theorem Phrase.succeeds (h : Is phraseKinds t) :
    Succeeds (Phrase.ofTree source t) := by
  unfold Phrase.ofTree
  split
  · next hk =>
    exact .map (Identifier.succeeds ((h.of_kind hk).mono (by decide)))
  · next hk =>
    exact .map (Identifier.succeeds ((h.of_kind hk).mono (by decide)))
  · next hk => exact .map (Variable.succeeds (h.of_kind hk))
  · next hk => exact .map (Literal.succeeds (h.of_kind hk))
  · next hk => exact .map (WordList.succeeds (h.of_kind hk))
  · refine .map ((statements_succeed t).1 ⟨?_, h.grown⟩)
    have hk := h.kind
    simp_all [phraseKinds, statementKinds]

end Jam
