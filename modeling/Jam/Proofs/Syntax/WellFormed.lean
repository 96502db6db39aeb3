/-
What is read from a text is well formed.

The types of the syntax leave room for more than a text can say: a
connective with a single operand, an invocation without arguments, a word
that is an identifier and yet but a variable. A program that was read from
a text has none of these (`program_wellFormed`), and its names are proper
all over.

Part of what one would ask for is in the types already. Programs and
blocks consist of statements, and lists and tests of literals,
identifiers and variables; there is nothing to prove about it.

# The proof

What a statement has itself is read by a reading without recursion, apart
from conditions, so that it is well formed is one case for each kind of
statement (`Statement.wellFormed`). That all statements of a program were
read so is the induction over the tree, which is the same for every
property of statements (`Program.parse_nodes`).
-/
import Jam.Proofs.Grammar.Words
import Jam.Proofs.Syntax.Branches
import Jam.Proofs.Syntax.Names

namespace Jam

open Except (Yields)

variable {source context : String} {t : Node} {ts : List Node}

-- ===================================================== words and lists

/-- A name in a word is proper, and more than a variable. -/
def Word.WellFormed : Word → Prop
  | .literal _ => True
  | .identifier i => i.Proper .word ∧ ∀ v, i.parts ≠ [.variable v]
  | .variable v => v.Proper

def WordList.WellFormed (l : WordList) : Prop := ∀ w ∈ l.items, w.WellFormed

/-- Words are well formed where they were looked for as words. -/
theorem Word.wellFormed (h : IsWord t) :
    Yields Word.WellFormed (Word.ofTree source t) := by
  have identifier (role : Role) (hr : Is [role.kind] t)
      (hk : t.kind = .name ∨ t.kind = .joined) :
      Yields Word.WellFormed (.identifier <$> Identifier.ofTree source t) := by
    refine .map fun i hi =>
      ⟨(Identifier.proper role hr i hi).word, fun v hv => ?_⟩
    obtain ⟨u, hu, hc⟩ := Identifier.ofTree_lone i hi v hv
    exact h.children_ne hk hu hc
  unfold Word.ofTree
  split
  · next hk => exact .map (Variable.proper (h.is.of_kind hk))
  · next hk => exact identifier .name (h.is.of_kind hk) (.inl hk)
  · next hk => exact identifier .word (h.is.of_kind hk) (.inr hk)
  · exact .map fun _ _ => trivial
  · exact .throw _

theorem WordList.wellFormed (h : Is [.list] t) :
    Yields WordList.WellFormed (WordList.ofTree source t) := by
  refine .bind fun _ _ => .bind fun items hitems => .pure fun w hw => ?_
  obtain ⟨u, hu, hread⟩ := Yields.of_mapM items hitems w hw
  cases t with
  | node kind first last children =>
    obtain rfl : kind = .list := h.kind_eq
    have hk := ((below_list (h.below (by decide))).all u hu).kind
    exact Word.wellFormed (isWord_of_below h (by decide) hu hk) w hread

/-- So is a list that was left out. -/
theorem WordList.ofTrees_wellFormed {absent span : Span}
    (h : ts = [] ∨ ∃ t, Is [.list] t ∧ ts = [t]) :
    Yields WordList.WellFormed
      (WordList.ofTrees source context absent span ts) := by
  rcases h with rfl | ⟨t, ht, rfl⟩
  · exact .pure fun _ hw => nomatch hw
  · exact .bind fun _ _ => WordList.wellFormed ht

-- ========================================================== conditions

/-- Connectives have several operands. -/
inductive Condition.WellFormed : Condition → Prop
  | truth {word : Word} : word.WellFormed → WellFormed (.truth word)
  | compare {left right : Word} {op : CompareOp} :
      left.WellFormed → right.WellFormed → WellFormed (.compare left op right)
  | member {element : Word} {list : WordList} :
      element.WellFormed → list.WellFormed → WellFormed (.member element list)
  | not {condition : Condition} :
      WellFormed condition → WellFormed (.not condition)
  | and {terms : List Condition} :
      2 ≤ terms.length → (∀ c ∈ terms, WellFormed c) → WellFormed (.and terms)
  | or {terms : List Condition} :
      2 ≤ terms.length → (∀ c ∈ terms, WellFormed c) → WellFormed (.or terms)

/-- A connective is left out where there is but one operand. -/
theorem Condition.wellFormed_joined {join : List Condition → Condition}
    {terms : List Condition} (hne : terms ≠ []) (h : ∀ c ∈ terms, c.WellFormed)
    (hj : 2 ≤ terms.length → (∀ c ∈ terms, c.WellFormed) →
      (join terms).WellFormed) : (Condition.joined join terms).WellFormed := by
  unfold Condition.joined
  split
  · exact h _ List.mem_cons_self
  · next hone =>
    refine hj ?_ h
    rcases terms with _ | ⟨c, _ | ⟨c', terms⟩⟩
    · exact absurd rfl hne
    · exact absurd rfl (hone c)
    · exact Nat.le_add_left 2 terms.length

theorem Condition.wellFormed (t : Node)
    (h : Is (.conjunction :: conditionKinds) t) :
    Yields Condition.WellFormed (Condition.ofTree source t) := by
  induction t using Tree.induct with
  | step kind first last children ih =>
    have hterms {ks : List Nonterminal} (hs : SomeAre ks children)
        (hk : ∀ k ∈ ks, k ∈ .conjunction :: conditionKinds) :
        Yields (fun terms => terms ≠ [] ∧ ∀ c ∈ terms, c.WellFormed)
          (conditionsOfTrees source children) := by
      rw [conditionsOfTrees_eq_mapM]
      intro terms hterms
      refine ⟨?_, fun c hc => ?_⟩
      · exact List.ne_nil_of_length_pos (Yields.length_mapM terms hterms ▸
          List.length_pos_iff.mpr hs.nonempty)
      · obtain ⟨u, hu, hread⟩ := Yields.of_mapM terms hterms c hc
        exact ih u hu ((hs.all u hu).mono hk) c hread
    unfold Condition.ofTree
    split
    · -- connectives
      refine .bind fun terms hread => .pure ?_
      obtain ⟨hne, hall⟩ :=
        hterms (below_disjunction (h.below (by decide))) (by decide) terms hread
      exact Condition.wellFormed_joined hne hall .or
    · refine .bind fun terms hread => .pure ?_
      obtain ⟨hne, hall⟩ :=
        hterms (below_conjunction (h.below (by decide))) (by decide) terms hread
      exact Condition.wellFormed_joined hne hall .and
    · -- a negation
      obtain ⟨inner, hi, rfl⟩ := below_negated (h.below (by decide))
      have hread := ih inner (by simp) (hi.mono fun _ => List.mem_cons_of_mem _)
      exact .bind fun c hc => .pure (.not (hread c hc))
    · -- tests
      obtain ⟨word, hw, rfl⟩ := below_truth (h.below (by decide))
      have hword := isWord_of_below h (by decide) List.mem_cons_self hw.kind
      exact .bind fun w hread => .pure (.truth (Word.wellFormed hword w hread))
    · obtain ⟨left, hl, mark, hm, right, hr, rfl⟩ :=
        below_comparison (h.below (by decide))
      have hleft := isWord_of_below h (by decide) List.mem_cons_self hl.kind
      have hright : IsWord right :=
        isWord_of_below h (by decide) (by simp) hr.kind
      refine .bind fun l hl => .bind fun _ _ => ?_
      split
      · refine .bind fun r hr => .pure ?_
        exact .compare (Word.wellFormed hleft l hl)
          (Word.wellFormed hright r hr)
      · exact .throw _
    · obtain ⟨element, he, list, hl, rfl⟩ :=
        below_membership (h.below (by decide))
      have helement := isWord_of_below h (by decide) List.mem_cons_self he.kind
      refine .bind fun w hw => .bind fun _ _ => .bind fun l hread => .pure ?_
      exact .member (Word.wellFormed helement w hw)
        (WordList.wellFormed hl l hread)
    · exact .throw _

-- ========================================================== statements

/-- What a statement has itself, apart from the statements inside it, is well
formed. -/
def Statement.WellFormed : Statement → Prop
  | .invocation name arguments _ =>
    name.Proper .name ∧ arguments ≠ [] ∧ ∀ l ∈ arguments, l.WellFormed
  | .assignment name _ value _ => name.Proper .name ∧ value.WellFormed
  | .localBinding names value _ => names.WellFormed ∧ ∀ l ∈ value, l.WellFormed
  | .returnWith value _ => value.WellFormed
  | .breakLoop _ | .continueLoop _ | .block _ => True
  | .choice condition _ no _ =>
    condition.WellFormed ∧ ∀ s ∈ no, s.isBranch = true
  | .forLoop name values _ _ => name.Proper .name ∧ values.WellFormed
  | .whileLoop condition _ _ => condition.WellFormed
  | .definition rule =>
    rule.name.Proper .name ∧ ∀ i ∈ rule.parameters, i.Proper .name

theorem nameOfTree_proper (h : Is [.name] t) :
    Yields (·.Proper .name) (nameOfTree source context t) :=
  .bind fun _ _ => Identifier.proper .name h

theorem argumentOfTree_wellFormed (h : Is [.argument] t) :
    Yields WordList.WellFormed (argumentOfTree source t) :=
  .bind fun _ _ => WordList.ofTrees_wellFormed (h.optional (by decide))

theorem parametersOfTree_proper (h : Is [.parameters] t) :
    Yields (fun is => ∀ i ∈ is, i.Proper .name)
      (parametersOfTree source t) := by
  refine .bind fun _ _ => fun is hread i hi => ?_
  obtain ⟨u, hu, hname⟩ := Yields.of_mapM is hread i hi
  cases t with
  | node kind first last children =>
    obtain rfl : kind = .parameters := h.kind_eq
    exact nameOfTree_proper
      ((below_parameters (h.below (by decide))).all u hu) i hname

theorem simpleOfTree_wellFormed (h : Is simpleKinds t) :
    Yields Statement.WellFormed (simpleOfTree source t) := by
  unfold simpleOfTree
  dsimp only
  cases t with
  | node kind first last children =>
    split
    · next hk =>
      have ho := (h.of_kind hk).optional (by decide)
      exact .bind fun value hvalue =>
        .pure (WordList.ofTrees_wellFormed ho value hvalue)
    · exact .pure trivial
    · exact .pure trivial
    · next hk =>
      obtain rfl : kind = .localStatement := hk
      obtain ⟨names, hn, rfl | ⟨value, hv, rfl⟩⟩ :=
        below_localStatement (h.below (by decide))
      · refine .bind fun _ _ => .bind fun ns hread =>
          .pure ⟨?_, fun _ hl => nomatch hl⟩
        exact WordList.wellFormed hn ns hread
      · have ho := hv.optional (by decide)
        refine .bind fun _ _ => .bind fun ns hread => .bind fun _ _ =>
          .bind fun l hl => .pure ?_
        refine ⟨WordList.wellFormed hn ns hread, fun l' hl' => ?_⟩
        cases hl'
        exact WordList.ofTrees_wellFormed ho l hl
    · next hk =>
      obtain rfl : kind = .assignment := hk
      obtain ⟨name, hn, mark, hm, hc⟩ := below_assignment (h.below (by decide))
      obtain ⟨value, rfl, hv⟩ : ∃ value, children = name :: mark :: value ∧
          (value = [] ∨ ∃ t, Is [.list] t ∧ value = [t]) := by
        rcases hc with rfl | ⟨t, ht, rfl⟩
        · exact ⟨[], rfl, .inl rfl⟩
        · exact ⟨[t], rfl, .inr ⟨t, ht, rfl⟩⟩
      refine .bind fun i hi => .bind fun _ _ => ?_
      split
      · refine .bind fun l hl => .pure ⟨nameOfTree_proper hn i hi, ?_⟩
        exact WordList.ofTrees_wellFormed hv l hl
      · exact .throw _
    · next hk =>
      obtain rfl : kind = .ruleInvocation := hk
      obtain ⟨name, hn, arguments, ha, rfl⟩ :=
        below_ruleInvocation (h.below (by decide))
      refine .bind fun i hi => .bind fun lists hread => .pure ?_
      refine ⟨nameOfTree_proper hn i hi, ?_, fun l hl => ?_⟩
      · exact List.ne_nil_of_length_pos
          (Yields.length_mapM lists hread ▸ List.length_pos_iff.mpr ha.nonempty)
      · obtain ⟨u, hu, hlist⟩ := Yields.of_mapM lists hread l hl
        exact argumentOfTree_wellFormed (ha.all u hu) l hlist
    · exact .throw _

theorem Statement.wellFormed (h : Is statementKinds t) :
    Yields Statement.WellFormed (Statement.ofTree source t) := by
  cases t with
  | node kind first last children =>
    have hcondition {t : Node} (ht : Is [.disjunction] t) :
        Yields Condition.WellFormed (Condition.ofTree source t) :=
      Condition.wellFormed t (ht.mono (by decide))
    unfold Statement.ofTree
    split
    · exact .bind fun _ _ => .pure trivial
    · -- a choice, without and with another branch
      obtain ⟨condition, hc, yes, hy, rfl | ⟨no, hn, rfl⟩⟩ :=
        below_ifStatement (h.below (by decide))
      · refine .bind fun c hread => .bind fun _ _ => .pure ?_
        exact ⟨hcondition hc c hread, fun _ hs => nomatch hs⟩
      · refine .bind fun c hread => .bind fun _ _ => ?_
        split
        · next hk =>
          refine .bind fun s hs =>
            .pure ⟨hcondition hc c hread, fun s' hs' => ?_⟩
          cases hs'
          exact Statement.ofTree_isBranch no s hs hk
        · exact .throw _
    · -- loops
      obtain ⟨name, hn, values, hv, body, hb, rfl⟩ :=
        below_forStatement (h.below (by decide))
      refine .bind fun i hi => .bind fun _ _ => .bind fun l hl =>
        .bind fun _ _ => .pure ?_
      exact ⟨nameOfTree_proper hn i hi, WordList.wellFormed hv l hl⟩
    · obtain ⟨condition, hc, body, hb, rfl⟩ :=
        below_whileStatement (h.below (by decide))
      exact .bind fun c hread => .bind fun _ _ => .pure (hcondition hc c hread)
    · -- a definition, without and with parameters
      obtain ⟨name, hn, ⟨body, hb, rfl⟩ | ⟨parameters, hp, body, hb, rfl⟩⟩ :=
        below_ruleDefinition (h.below (by decide))
      · refine .bind fun i hi => .bind fun _ _ => .pure ?_
        exact ⟨nameOfTree_proper hn i hi, fun _ hi => nomatch hi⟩
      · refine .bind fun i hi => .bind fun is his => .bind fun _ _ => .pure ?_
        exact ⟨nameOfTree_proper hn i hi, parametersOfTree_proper hp is his⟩
    · refine simpleOfTree_wellFormed ⟨?_, h.grown⟩
      have hk := h.kind
      simp_all [statementKinds, simpleKinds, Tree.kind]

-- ========================================================= whole texts

/-- Programs that were read from a text are well formed: in each of their
statements, at any depth, names are proper, no word is an identifier that is but
a variable, connectives have two operands or more, invocations have arguments,
and other branches are blocks or choices. -/
theorem program_wellFormed (source text : String) (p : Program)
    (h : Program.parse source text = .ok p) : ∀ s ∈ p.nodes, s.WellFormed :=
  Program.parse_nodes (fun _ => Statement.wellFormed) text p h

/-- A text with a connective, a subscript, words with variables and another
branch. -/
def branchingText : String :=
  "if $(x) && $(y[1-]) in b$(z)c { r : $(a)b ; } else { s$(c) = d ; }"

theorem branchingText_wellFormed :
    ∃ p, Program.parse "t" branchingText = .ok p ∧ p.nodes.length = 4 ∧
      ∀ s ∈ p.nodes, s.WellFormed := by
  have hparse : ((Program.parse "t" branchingText).toOption.elim false fun p =>
      decide (p.nodes.length = 4)) = true := by decide +kernel
  obtain ⟨p, hp, hnodes⟩ := Except.exists_ok_of_elim hparse
  exact ⟨p, hp, of_decide_eq_true hnodes,
    program_wellFormed "t" branchingText p hp⟩

end Jam
