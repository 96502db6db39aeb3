/-
What stands below each kind of node of a parse tree.

The productions are stated over characters, blanks and marks, of which a
parse tree shows nothing. The lemmas here say what it does show: below a
list are words and nothing else, below a choice are a condition, a block
and perhaps a block or a choice, and so on. Each of them is the body of a
nonterminal, rewritten by what its parts leave (`leaves_seq` and the like).

A nonterminal that is not retained leaves what its alternatives leave. So
a word, a condition and a statement are no kinds of nodes but lists of
kinds (`wordKinds`, `conditionKinds`, `statementKinds`), and a node is
said to be of one of some kinds (`Is`).
-/
import Jam.Proofs.Peg.Leaves
import Jam.Syntax.OfTree

namespace Jam

open Nonterminal

variable {r : Nonterminal} {ks ks' : List Nonterminal} {ns : List Node}
  {t : Node}

-- ====================================================== kinds of nodes

/-- A node of one of these kinds that comes from a match. -/
structure Is (kinds : List Nonterminal) (t : Node) : Prop where
  kind : t.kind ∈ kinds
  grown : Grown grammar t

/-- What a word of a list is. -/
def wordKinds : List Nonterminal := [.variable, .name, .joined, .string]

/-- What makes up names, subscripts and words with variables in them. -/
def partKinds : List Nonterminal :=
  [.identifier, .number, .rangeDash, .fragment, .variable]

/-- What a negation negates, and what stands between connectives. -/
def conditionKinds : List Nonterminal :=
  [.negated, .disjunction, .membership, .comparison, .truth]

/-- What a statement is. -/
def statementKinds : List Nonterminal :=
  [.block, .ifStatement, .forStatement, .whileStatement, .ruleDefinition,
    .returnStatement, .breakStatement, .continueStatement, .localStatement,
    .assignment, .ruleInvocation]

theorem Is.mono (h : Is ks t) (hk : ∀ k ∈ ks, k ∈ ks') : Is ks' t :=
  ⟨hk _ h.kind, h.grown⟩

theorem Is.kind_eq (h : Is [r] t) : t.kind = r := List.mem_singleton.mp h.kind

/-- A node of several possible kinds whose kind is known. -/
theorem Is.of_kind (h : Is ks t) (hk : t.kind = r) : Is [r] t :=
  ⟨List.mem_singleton.mpr hk, h.grown⟩

/-- A node is of no other kind than the possible ones. -/
theorem Is.kind_ne (h : Is ks t) (hr : r ∉ ks) : t.kind ≠ r :=
  fun hk => hr (hk ▸ h.kind)

/-- The nodes below a node are what the body of its nonterminal can leave. -/
theorem Is.below {first last : Cursor} (h : Is ks (.node r first last ns))
    (hr : retention r ≠ .leaf) : Leaves grammar (body r) ns :=
  h.grown.leaves hr

-- ========================================= nonterminals in productions

-- What a nonterminal leaves is computed from its production.
attribute [local simp] body

theorem leaves_nt (h : retention r ≠ .silent) :
    Leaves grammar (nt r) ns ↔ ∃ t, Is [r] t ∧ ns = [t] := by
  refine (leaves_node h).trans
    (exists_congr fun t => and_congr_left fun _ => ?_)
  exact ⟨fun ht => ⟨List.mem_singleton.mpr ht.1, ht.2⟩,
    fun ht => ⟨ht.kind_eq, ht.grown⟩⟩

theorem leaves_nt_silent (h : retention r = .silent) :
    Leaves grammar (nt r) ns ↔ Leaves grammar (body r) ns := leaves_silent h

/-- A choice of single nodes is a single node of either sort. -/
@[simp] theorem single_or_single :
    ((∃ t, Is ks t ∧ ns = [t]) ∨ ∃ t, Is ks' t ∧ ns = [t]) ↔
      ∃ t, Is (ks ++ ks') t ∧ ns = [t] := by
  constructor
  · rintro (⟨t, ht, rfl⟩ | ⟨t, ht, rfl⟩)
    · exact ⟨t, ht.mono fun _ => List.mem_append_left _, rfl⟩
    · exact ⟨t, ht.mono fun _ => List.mem_append_right _, rfl⟩
  · rintro ⟨t, ⟨hk, ht⟩, rfl⟩
    rcases List.mem_append.mp hk with hk | hk
    · exact .inl ⟨t, ⟨hk, ht⟩, rfl⟩
    · exact .inr ⟨t, ⟨hk, ht⟩, rfl⟩

@[simp] theorem leaves_blank : Leaves grammar (nt .blank) ns ↔ ns = [] := by
  rw [leaves_nt_silent rfl]
  simp

@[simp] theorem leaves_anyBut {e : Peg Nonterminal} :
    Leaves grammar (anyBut e) ns ↔ ns = [] := by
  simp [anyBut, any]

@[simp] theorem leaves_comment : Leaves grammar (nt .comment) ns ↔ ns = [] := by
  rw [leaves_nt_silent rfl]
  simp [leaves_many_nil leaves_anyBut]

@[simp] theorem leaves_blanks : Leaves grammar (nt .blanks) ns ↔ ns = [] := by
  rw [leaves_nt_silent rfl]
  have h : ∀ {xs}, Leaves grammar (nt .blank <|> nt .comment) xs ↔ xs = [] := by
    simp
  simp [Peg.plus, leaves_many_nil h]

@[simp] theorem leaves_boundary :
    Leaves grammar (nt .boundary) ns ↔ ns = [] := by
  rw [leaves_nt_silent rfl]
  simp

@[simp] theorem leaves_word :
    Leaves grammar (nt .word) ns ↔ ∃ t, Is wordKinds t ∧ ns = [t] := by
  rw [leaves_nt_silent rfl]
  simp (disch := decide) [leaves_nt, wordKinds]

@[simp] theorem leaves_condition :
    Leaves grammar (nt .condition) ns ↔
      ∃ t, Is [.disjunction] t ∧ ns = [t] := by
  rw [leaves_nt_silent rfl]
  simp (disch := decide) [leaves_nt]

@[simp] theorem leaves_primary : Leaves grammar (nt .primary) ns ↔
    ∃ t, Is [.disjunction, .membership, .comparison, .truth] t ∧ ns = [t] := by
  rw [leaves_nt_silent rfl]
  simp (disch := decide) [leaves_nt]

@[simp] theorem leaves_negation :
    Leaves grammar (nt .negation) ns ↔ ∃ t, Is conditionKinds t ∧ ns = [t] := by
  rw [leaves_nt_silent rfl]
  simp (disch := decide) [leaves_nt, conditionKinds]

@[simp] theorem leaves_statement :
    Leaves grammar (nt .statement) ns ↔
      ∃ t, Is statementKinds t ∧ ns = [t] := by
  rw [leaves_nt_silent rfl]
  simp (disch := decide) [leaves_nt, statementKinds]

@[simp] theorem leaves_optList :
    Leaves grammar optList ns ↔ ns = [] ∨ ∃ t, Is [.list] t ∧ ns = [t] := by
  simp (disch := decide) [optList, leaves_nt]

/-- What comes again and again behind a mark. -/
theorem leaves_further {mark : String}
    (h : ∀ {xs}, Leaves grammar (nt r) xs ↔ ∃ t, Is ks t ∧ xs = [t]) :
    Leaves grammar (further mark r) ns ↔ ∀ t ∈ ns, Is ks t :=
  leaves_many_single (by simp [h])

/-- What comes again and again behind blanks. -/
theorem leaves_more
    (h : ∀ {xs}, Leaves grammar (nt r) xs ↔ ∃ t, Is ks t ∧ xs = [t]) :
    Leaves grammar (.many (nt .blanks ++ nt r)) ns ↔ ∀ t ∈ ns, Is ks t :=
  leaves_many_single (by simp [h])

/-- What some nodes are is told before what stands behind them. -/
@[simp] theorem exists_then {P : Node → Prop} {R : Node → List Node → Prop}
    {Q : List Node → Prop} :
    (∃ xs, (∃ t, P t ∧ R t xs) ∧ Q xs) ↔ ∃ t, P t ∧ ∃ xs, R t xs ∧ Q xs := by
  constructor
  · rintro ⟨xs, ⟨t, ht, hr⟩, h⟩
    exact ⟨t, ht, xs, hr, h⟩
  · rintro ⟨t, ht, xs, hr, h⟩
    exact ⟨xs, ⟨t, ht, hr⟩, h⟩

-- ======================================================= runs of nodes

/-- At least one node, and all of them of these kinds. -/
structure SomeAre (kinds : List Nonterminal) (ns : List Node) : Prop where
  nonempty : ns ≠ []
  all : ∀ t ∈ ns, Is kinds t

namespace SomeAre

theorem mono (h : SomeAre ks ns) (hk : ∀ k ∈ ks, k ∈ ks') : SomeAre ks' ns :=
  ⟨h.nonempty, fun t ht => (h.all t ht).mono hk⟩

theorem append {ms : List Node} (h : SomeAre ks ns) (hs : ∀ t ∈ ms, Is ks t) :
    SomeAre ks (ns ++ ms) :=
  ⟨List.append_ne_nil_of_left_ne_nil h.nonempty ms,
    List.forall_mem_append.mpr ⟨h.all, hs⟩⟩

theorem single (h : Is ks t) : SomeAre ks [t] :=
  ⟨List.cons_ne_nil t [], List.forall_mem_singleton.mpr h⟩

/-- One node and behind it any number of others. -/
theorem of_leaves_seq {a b : Peg Nonterminal}
    (ha : ∀ {xs}, Leaves grammar a xs ↔ ∃ t, Is ks t ∧ xs = [t])
    (hb : ∀ {xs}, Leaves grammar b xs ↔ ∀ t ∈ xs, Is ks t)
    (h : Leaves grammar (a ++ b) ns) : SomeAre ks ns := by
  simp only [leaves_seq, ha, hb, exists_then, exists_eq_left] at h
  obtain ⟨t, ht, ts, hts, rfl⟩ := h
  exact (single ht).append hts

theorem of_leaves_plus {a : Peg Nonterminal}
    (ha : ∀ {xs}, Leaves grammar a xs ↔ ∃ t, Is ks t ∧ xs = [t])
    (h : Leaves grammar (Peg.plus a) ns) : SomeAre ks ns :=
  of_leaves_seq ha (leaves_many_single ha) h

end SomeAre

-- ===================================================== names and words

theorem below_name (h : Leaves grammar (body .name) ns) :
    SomeAre [.identifier, .variable] ns :=
  .of_leaves_plus (by simp (disch := decide) [leaves_nt]) h

theorem below_joined (h : Leaves grammar (body .joined) ns) :
    SomeAre partKinds ns := by
  have hl : ∀ {xs},
      Leaves grammar (.many (nt .identifier <|> nt .fragment)) xs ↔
      ∀ t ∈ xs, Is [.identifier, .fragment] t :=
    leaves_many_single (by simp (disch := decide) [leaves_nt])
  have hr : ∀ {xs}, Leaves grammar
      (.many (nt .variable <|> nt .identifier <|> nt .fragment)) xs ↔
      ∀ t ∈ xs, Is [.variable, .identifier, .fragment] t :=
    leaves_many_single (by simp (disch := decide) [leaves_nt])
  simp (disch := decide) only [body, leaves_seq, leaves_nt, hl, hr] at h
  obtain ⟨_, ⟨before, hb, _, ⟨t, ht, rfl⟩, rfl⟩, after, ha, rfl⟩ := h
  refine ⟨by simp, ?_⟩
  simp only [List.forall_mem_append, List.forall_mem_singleton]
  exact ⟨⟨fun u hu => (hb u hu).mono (by decide), ht.mono (by decide)⟩,
    fun u hu => (ha u hu).mono (by decide)⟩

theorem someAre_of_leaves_index (h : Leaves grammar (nt .index) ns) :
    SomeAre [.number, .variable] ns :=
  .of_leaves_plus (by simp (disch := decide) [leaves_nt])
    ((leaves_nt_silent rfl).mp h)

/-- Below a subscript is an index, and perhaps a dash and the parts of another
one. -/
theorem below_subscriptText (h : Leaves grammar (body .subscriptText) ns) :
    ∃ first, SomeAre [.number, .variable] first ∧ (ns = first ∨ ∃ dash,
      Is [.rangeDash] dash ∧ ∃ last, (∀ t ∈ last, Is [.number, .variable] t) ∧
      ns = first ++ dash :: last) := by
  simp (disch := decide) only
    [body, leaves_seq, leaves_nt, leaves_opt, exists_then, exists_eq_left] at h
  obtain ⟨first, hf, _, rfl | ⟨dash, hd, last, rfl | hs, rfl⟩, rfl⟩ := h
  · exact ⟨first, someAre_of_leaves_index hf, .inl (List.append_nil first)⟩
  · exact ⟨first, someAre_of_leaves_index hf,
      .inr ⟨dash, hd, [], List.forall_mem_nil _, rfl⟩⟩
  · exact ⟨first, someAre_of_leaves_index hf,
      .inr ⟨dash, hd, last, (someAre_of_leaves_index hs).all, rfl⟩⟩

theorem someAre_below_subscriptText
    (h : Leaves grammar (body .subscriptText) ns) :
    SomeAre [.number, .rangeDash, .variable] ns := by
  obtain ⟨first, hf, rfl | ⟨dash, hd, last, hl, rfl⟩⟩ := below_subscriptText h
  · exact hf.mono (by decide)
  · refine (hf.mono (by decide)).append
      (List.forall_mem_cons.mpr ⟨hd.mono (by decide), ?_⟩)
    exact fun t ht => (hl t ht).mono (by decide)

theorem below_variable (h : Leaves grammar (body .variable) ns) :
    ∃ name, Is [.name] name ∧
      (ns = [name] ∨ ∃ s, Is [.subscript] s ∧ ns = [name, s]) := by
  simpa (disch := decide) [leaves_nt] using h

theorem below_subscript (h : Leaves grammar (body .subscript) ns) :
    ∃ text, Is [.subscriptText] text ∧ ns = [text] := by
  simpa (disch := decide) [leaves_nt] using h

theorem below_string (h : Leaves grammar (body .string) ns) :
    ∃ raw, Is [.quoted, .unquoted] raw ∧ ns = [raw] := by
  simpa (disch := decide) [leaves_nt] using h

theorem below_list (h : Leaves grammar (body .list) ns) :
    SomeAre wordKinds ns :=
  .of_leaves_seq leaves_word (leaves_more leaves_word) h

/-- Where a list may be left out there is one or nothing. -/
theorem Is.optional (h : Is [r] t)
    (hr : r ∈ [.argument, .localValue, .returnStatement]) :
    t.children = [] ∨ ∃ list, Is [.list] list ∧ t.children = [list] := by
  cases t with
  | node kind first last children =>
    obtain rfl : kind = r := h.kind_eq
    simp only [List.mem_cons, List.not_mem_nil, or_false] at hr
    rcases hr with rfl | rfl | rfl <;>
        simpa [Tree.children] using h.below (by decide)

-- ========================================================== conditions

theorem below_disjunction (h : Leaves grammar (body .disjunction) ns) :
    SomeAre [.conjunction] ns :=
  .of_leaves_seq (leaves_nt (by decide))
    (leaves_further (leaves_nt (by decide))) h

theorem below_conjunction (h : Leaves grammar (body .conjunction) ns) :
    SomeAre conditionKinds ns :=
  .of_leaves_seq leaves_negation (leaves_further leaves_negation) h

theorem below_negated (h : Leaves grammar (body .negated) ns) :
    ∃ t, Is conditionKinds t ∧ ns = [t] := by
  simpa using h

theorem below_truth (h : Leaves grammar (body .truth) ns) :
    ∃ t, Is wordKinds t ∧ ns = [t] := by
  simpa using h

theorem below_comparison (h : Leaves grammar (body .comparison) ns) :
    ∃ left, Is wordKinds left ∧ ∃ mark, Is [.compareOp] mark ∧ ∃ right,
      Is wordKinds right ∧ ns = [left, mark, right] := by
  simpa (disch := decide) [leaves_nt] using h

theorem below_membership (h : Leaves grammar (body .membership) ns) :
    ∃ element, Is wordKinds element ∧ ∃ list,
      Is [.list] list ∧ ns = [element, list] := by
  simpa (disch := decide) [leaves_nt] using h

-- ========================================================== statements

theorem below_ruleInvocation (h : Leaves grammar (body .ruleInvocation) ns) :
    ∃ name, Is [.name] name ∧ ∃ arguments, SomeAre [.argument] arguments ∧
      ns = name :: arguments := by
  have hm : ∀ {xs},
      Leaves grammar (.many (nt .blanks ++ Peg.lit ":" ++ nt .argument)) xs ↔
      ∀ t ∈ xs, Is [.argument] t :=
    leaves_many_single (by simp (disch := decide) [leaves_nt])
  simp (disch := decide) only
    [body, leaves_seq, leaves_nt, hm, exists_then, exists_eq_left] at h
  obtain ⟨name, hn, first, hf, more, hs, rfl⟩ := h
  exact ⟨name, hn, first :: more, (SomeAre.single hf).append hs, rfl⟩

theorem below_assignment (h : Leaves grammar (body .assignment) ns) :
    ∃ name, Is [.name] name ∧ ∃ mark, Is [.assignOp] mark ∧ (ns = [name, mark] ∨
      ∃ value, Is [.list] value ∧ ns = [name, mark, value]) := by
  simpa (disch := decide) [leaves_nt] using h

theorem below_localStatement (h : Leaves grammar (body .localStatement) ns) :
    ∃ names, Is [.list] names ∧ (ns = [names] ∨ ∃ value,
      Is [.localValue] value ∧ ns = [names, value]) := by
  simpa (disch := decide) [leaves_nt] using h

theorem below_block (h : Leaves grammar (body .block) ns) :
    ∀ t ∈ ns, Is statementKinds t := by
  simpa (disch := decide) [leaves_more leaves_statement] using h

theorem below_ifStatement (h : Leaves grammar (body .ifStatement) ns) :
    ∃ condition, Is [.disjunction] condition ∧ ∃ yes, Is [.block] yes ∧
      (ns = [condition, yes] ∨
        ∃ no, Is [.ifStatement, .block] no ∧ ns = [condition, yes, no]) := by
  simpa (disch := decide) [leaves_nt] using h

theorem below_forStatement (h : Leaves grammar (body .forStatement) ns) :
    ∃ name, Is [.name] name ∧ ∃ values, Is [.list] values ∧ ∃ body,
      Is [.block] body ∧ ns = [name, values, body] := by
  simpa (disch := decide) [leaves_nt] using h

theorem below_whileStatement (h : Leaves grammar (body .whileStatement) ns) :
    ∃ condition, Is [.disjunction] condition ∧ ∃ body, Is [.block] body ∧
      ns = [condition, body] := by
  simpa (disch := decide) [leaves_nt] using h

theorem below_parameters (h : Leaves grammar (body .parameters) ns) :
    SomeAre [.name] ns :=
  .of_leaves_seq (leaves_nt (by decide))
    (leaves_further (leaves_nt (by decide))) h

theorem below_ruleDefinition (h : Leaves grammar (body .ruleDefinition) ns) :
    ∃ name, Is [.name] name ∧
      ((∃ body, Is [.block] body ∧ ns = [name, body]) ∨
        ∃ parameters, Is [.parameters] parameters ∧ ∃ body, Is [.block] body ∧
          ns = [name, parameters, body]) := by
  simpa (disch := decide) [leaves_nt] using h

/-- Below a program are its statements, and behind them the end of the text. -/
theorem below_program (h : Leaves grammar (body .program) ns) :
    ∃ statements, (∀ t ∈ statements, Is statementKinds t) ∧
      ∃ last, Is [.endOfInput] last ∧ ns = statements ++ [last] := by
  simp (disch := decide) only [body, leaves_seq (b := nt _), leaves_seq
    (b := .opt _), leaves_start, leaves_opt, leaves_blanks, leaves_nt, or_self,
    exists_eq_left, exists_eq_right', List.nil_append, List.append_nil] at h
  obtain ⟨statements, hs, _, ⟨last, hl, rfl⟩, rfl⟩ := h
  refine ⟨statements, ?_, last, hl, rfl⟩
  rcases hs with rfl | hs
  · exact List.forall_mem_nil _
  · exact (SomeAre.of_leaves_seq leaves_statement
      (leaves_more leaves_statement) hs).all

/-- Without what marks the end of the text, there are statements only. -/
theorem Is.statements (h : Is [.program] t) :
    ∀ u ∈ t.children.filter (·.kind ≠ .endOfInput), Is statementKinds u := by
  intro u hu
  obtain ⟨hu, hk⟩ := List.mem_filter.mp hu
  cases t with
  | node kind first last children =>
    obtain rfl : kind = .program := h.kind_eq
    obtain ⟨statements, hs, last, hl, rfl⟩ :=
      below_program (h.below (by decide))
    rcases List.mem_append.mp hu with hu | hu
    · exact hs u hu
    · obtain rfl := List.mem_singleton.mp hu
      rw [hl.kind_eq] at hk
      cases hk

end Jam
