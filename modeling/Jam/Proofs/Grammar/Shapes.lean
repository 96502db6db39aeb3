/-
The parts of statements.

A statement is simple or compound. A simple one is a head and a semicolon
(`Simple`). A compound one is a block, or it begins with a head and a block
(`Opening`); a choice may go on behind that. Each is told by the keyword
that it begins with from those that are tried before it, so that a compound
statement that matches is also what the statement there is
(`statement_of_keyword`).
-/
import Jam.Proofs.Grammar.Sequences

namespace Jam

open Nonterminal

variable {r : Nonterminal} {c d : Cursor} {ns : List Node}

-- =================================================== simple statements

/-- The head of a simple statement, with the place behind it and its nodes. -/
structure Simple (r : Nonterminal) (c e d : Cursor) (ns : List Node) :
    Prop where
  kind : r ∈ .ruleInvocation :: closedKinds
  head : Derives grammar .plain (head r) c e ns
  blanks : lead false e.rest ≠ []
  mark : e.next.rest = ';' :: d.rest

theorem Simple.mem_headKinds {e : Cursor} (h : Simple r c e d ns) :
    r ∈ headKinds := by
  have hsub : ∀ r ∈ .ruleInvocation :: closedKinds, r ∈ headKinds := by decide
  exact hsub r h.kind

theorem simple_of_seq (hr : r ∈ .ruleInvocation :: closedKinds)
    (h : Derives grammar .plain (head r ++ nt .blanks ++ Peg.lit ";") c d ns) :
    ∃ e xs, Simple r c e d xs := by
  cases h with
  | seq h hmark =>
    cases h with
    | seq hhead hblanks =>
      obtain ⟨hl, rfl, rfl⟩ := derives_blanks.mp hblanks
      exact ⟨_, _, hr, hhead, hl, (takes_of_sign rfl hmark).1⟩

theorem simple_of_closed (hr : r ∈ closedKinds)
    (h : Derives grammar .plain (nt r) c d ns) : ∃ e xs, Simple r c e d xs := by
  have hs : ∀ r ∈ closedKinds,
      grammar.retention r ≠ .silent ∧ grammar.retention r ≠ .leaf := by
    decide
  obtain ⟨_, rfl, hb⟩ := h.retained (hs r hr).1
  rw [Grammar.bodyMode_plain (hs r hr).2,
    show grammar.body r = _ from body_of_closed hr] at hb
  exact simple_of_seq (List.mem_cons_of_mem _ hr) hb

/-- The alternatives of a choice. -/
def Peg.alternatives {N : Type} : Peg N → List (Peg N)
  | .alt a b => a :: b.alternatives
  | e => [e]

theorem Derives.alternative {N : Type} {g : Grammar N} {m : Mode} {e : Peg N}
    {ns : List (Tree N)} (h : Derives g m e c d ns) :
    ∃ a ∈ e.alternatives, Derives g m a c d ns := by
  induction e with
  | alt a b _ ih =>
    cases h with
    | left h => exact ⟨a, List.mem_cons_self, h⟩
    | right _ h =>
      obtain ⟨x, hx, h⟩ := ih h
      exact ⟨x, List.mem_cons_of_mem _ hx, h⟩
  | _ => exact ⟨_, List.mem_singleton_self _, h⟩

/-- The statements that have a block in them. -/
def compoundKinds : List Nonterminal := .block :: .ifStatement :: blockKinds

theorem alternatives_statement : (body .statement).alternatives =
    (compoundKinds ++ closedKinds).map nt ++
      [nt .ruleInvocation ++ nt .blanks ++ Peg.lit ";"] := rfl

/-- A statement is simple, or it has a block in it. -/
theorem statement_cases (h : Derives grammar .plain (nt .statement) c d ns) :
    (∃ r e xs, Simple r c e d xs) ∨ ∃ r ∈ compoundKinds,
      Derives grammar .plain (nt r) c d ns := by
  cases h with
  | node hs => exact absurd rfl hs
  | bare hs => exact absurd rfl hs
  | silent _ h =>
    obtain ⟨a, ha, h⟩ := h.alternative
    rw [show (grammar.body .statement).alternatives = _
      from alternatives_statement] at ha
    rcases List.mem_append.mp ha with ha | ha
    · obtain ⟨r, hr, rfl⟩ := List.mem_map.mp ha
      rcases List.mem_append.mp hr with hr | hr
      · exact .inr ⟨r, hr, h⟩
      · exact .inl ⟨r, simple_of_closed hr h⟩
    · obtain rfl := List.mem_singleton.mp ha
      exact .inl ⟨.ruleInvocation, simple_of_seq (by decide) h⟩

-- ================================================= compound statements

/-- The part of a compound statement that ends with its first block. -/
structure Opening (r : Nonterminal) (c e d : Cursor) (ns : List Node)
    (b : Node) : Prop where
  kind : r ∈ .ifStatement :: blockKinds
  head : Derives grammar .plain (head r) c e ns
  blanks : lead false e.rest ≠ []
  block : Derives grammar .plain (nt .block) e.next d [b]

theorem Opening.mem_headKinds {e : Cursor} {b : Node}
    (h : Opening r c e d ns b) : r ∈ headKinds := by
  have hsub : ∀ r ∈ .ifStatement :: blockKinds, r ∈ headKinds := by decide
  exact hsub r h.kind

theorem opening_of_seq (hr : r ∈ .ifStatement :: blockKinds)
    (h : Derives grammar .plain (head r ++ nt .blanks ++ nt .block) c d ns) :
    ∃ e xs b, Opening r c e d xs b ∧ ns = xs ++ [b] := by
  cases h with
  | seq h hblock =>
    cases h with
    | seq hhead hblanks =>
      obtain ⟨hl, rfl, rfl⟩ := derives_blanks.mp hblanks
      obtain ⟨_, rfl, -⟩ := hblock.retained (by decide)
      exact ⟨_, _, _, ⟨hr, hhead, hl, hblock⟩, by rw [List.append_nil]⟩

theorem Opening.derives {e : Cursor} {b : Node} (h : Opening r c e d ns b) :
    Derives grammar .plain (Nonterminal.head r ++ nt .blanks ++ nt .block) c d
      (ns ++ [b]) := by
  have hd :=
    Derives.seq (.seq h.head (derives_blanks.mpr ⟨h.blanks, rfl, rfl⟩)) h.block
  rwa [List.append_nil] at hd

/-- A loop or a definition is its head and its block. -/
theorem opening_of_block (hr : r ∈ blockKinds) :
    Derives grammar .plain (nt r) c d ns ↔
      ∃ e xs b, Opening r c e d xs b ∧ ns = [.node r c d (xs ++ [b])] := by
  have hs : ∀ r ∈ blockKinds,
      grammar.retention r ≠ .silent ∧ grammar.retention r ≠ .leaf := by
    decide
  have hbody : grammar.body r = _ := body_of_block hr
  have hmode := Grammar.bodyMode_plain (hs r hr).2
  constructor
  · intro h
    obtain ⟨_, rfl, hb⟩ := h.retained (hs r hr).1
    rw [hmode, hbody] at hb
    obtain ⟨e, xs, b, ho, rfl⟩ := opening_of_seq (List.mem_cons_of_mem _ hr) hb
    exact ⟨e, xs, b, ho, rfl⟩
  · rintro ⟨e, xs, b, ho, rfl⟩
    refine .node (hs r hr).1 (by rw [Grammar.ownMode_plain]; rfl) ?_
    rw [hmode, hbody]
    exact ho.derives

/-- A choice is its head, its block, and perhaps another branch. -/
theorem opening_of_if : Derives grammar .plain (nt .ifStatement) c d ns ↔
    ∃ e f xs b ys, Opening .ifStatement c e f xs b ∧
      Derives grammar .plain (.opt elseBranch) f d ys ∧
        ns = [.node .ifStatement c d (xs ++ [b] ++ ys)] := by
  constructor
  · intro h
    obtain ⟨_, rfl, hb⟩ := h.retained (by decide)
    rw [Grammar.bodyMode_plain (by decide),
      show grammar.body .ifStatement = _ from body_ifStatement] at hb
    cases hb with
    | seq hfront helse =>
      obtain ⟨e, xs, b, ho, rfl⟩ := opening_of_seq (by decide) hfront
      exact ⟨e, _, xs, b, _, ho, helse, rfl⟩
  · rintro ⟨e, f, xs, b, ys, ho, helse, rfl⟩
    exact .node (by decide) rfl (.seq ho.derives helse)

/-- Behind the brace of a block there are blanks. -/
theorem opened_of_block (h : Derives grammar .plain (nt .block) c d ns) :
    ∃ xs, c.rest = '\x7b' :: xs ∧ lead false xs ≠ [] := by
  obtain ⟨_, -, hb⟩ := h.retained (by decide)
  cases hb with
  | seq hb =>
    cases hb with
    | seq hb hblanks =>
      cases hb with
      | @seq _ _ _ _ b _ _ _ hopen hmany =>
        refine ⟨b.rest, (takes_of_sign rfl hopen).1, ?_⟩
        have blanks_of_item {d : Cursor} {ns : List Node}
            (h : Derives grammar .plain (nt .blanks ++ nt .statement) b d ns) :
            lead false b.rest ≠ [] := by
          cases h with
          | seq hblanks => exact (derives_blanks.mp hblanks).1
        cases hmany with
        | stop => exact (derives_blanks.mp hblanks).1
        | last h => exact blanks_of_item h
        | more h => exact blanks_of_item h

-- ============================================================ keywords

/-- The statements that begin with a keyword or a brace that is compared at
once, in the order in which they are tried. -/
def keywordKinds : List Nonterminal :=
  compoundKinds ++ [.returnStatement, .breakStatement, .continueStatement]

/-- What they begin with. -/
def initial : Nonterminal → Char
  | .ifStatement => 'i'
  | .forStatement => 'f'
  | .whileStatement => 'w'
  | .ruleDefinition | .returnStatement => 'r'
  | .breakStatement => 'b'
  | .continueStatement => 'c'
  | _ => '\x7b'

theorem leftmost_of_keyword (hr : r ∈ keywordKinds) :
    ∃ cs, (body r).leftmost = .chars (initial r :: cs) := by
  simp only [keywordKinds, compoundKinds, blockKinds, List.cons_append,
    List.nil_append, List.mem_cons, List.not_mem_nil, or_false] at hr
  rcases hr with rfl | rfl | rfl | rfl | rfl | rfl | rfl | rfl <;>
      exact ⟨_, rfl⟩

/-- Such a statement begins with its keyword. -/
theorem starts_of_keyword (hr : r ∈ keywordKinds)
    (h : Derives grammar .plain (nt r) c d ns) :
    ∃ xs, c.rest = initial r :: xs := by
  have hempty : ∀ r ∈ keywordKinds, grammar.mayBeEmpty (nt r) = false := by
    decide
  obtain ⟨cs, p⟩ := c
  have hf := h.found
  cases cs with
  | nil =>
    rw [found_end (hempty r hr) rfl] at hf
    cases hf
  | cons x xs =>
    by_cases hx : x = initial r
    · exact ⟨xs, by rw [hx]⟩
    · obtain ⟨ys, hl⟩ := leftmost_of_keyword hr
      rw [found_none_of_keyword hl hx] at hf
      cases hf

theorem Derives.of_alternatives {N : Type} {g : Grammar N} {m : Mode}
    {e a : Peg N} {ns : List (Tree N)} {before behind : List (Peg N)}
    (he : e.alternatives = before ++ a :: behind)
    (hnone : ∀ x ∈ before, g.found m x c = none) (h : Derives g m a c d ns) :
    Derives g m e c d ns := by
  induction e generalizing before with
  | alt x y _ ih =>
    cases before with
    | nil =>
      cases he
      exact .left h
    | cons z before =>
      obtain ⟨rfl, hrest⟩ := List.cons.inj he
      exact .right (hnone x List.mem_cons_self)
        (ih hrest fun z hz => hnone z (List.mem_cons_of_mem x hz))
  | _ =>
    cases before with
    | nil =>
      cases he
      exact h
    | cons z before => simp [Peg.alternatives] at he

/-- The keyword tells a statement from those that are tried before. Only a
return begins with the letter of one of them. -/
theorem statement_of_keyword (hr : r ∈ keywordKinds)
    (hne : r ≠ .returnStatement) (h : Derives grammar .plain (nt r) c d ns) :
    Derives grammar .plain (nt .statement) c d ns := by
  have hsplit : ∀ r ∈ keywordKinds,
      keywordKinds = keywordKinds.takeWhile (· ≠ r) ++
      r :: (keywordKinds.dropWhile (· ≠ r)).tail := by
    decide
  have hbefore : ∀ r ∈ keywordKinds, r ≠ .returnStatement →
      ∀ q ∈ keywordKinds.takeWhile (· ≠ r),
      q ∈ keywordKinds ∧ initial r ≠ initial q := by
    decide
  obtain ⟨xs, hc⟩ := starts_of_keyword hr h
  have halternatives : (grammar.body .statement).alternatives =
      (keywordKinds.takeWhile (· ≠ r)).map nt ++ nt r ::
      ((keywordKinds.dropWhile (· ≠ r)).tail.map nt ++
        ([localStatement, assignment].map nt ++
          [nt .ruleInvocation ++ nt .blanks ++ Peg.lit ";"])) := by
    rw [← List.cons_append, ← List.append_assoc, ← List.map_cons,
      ← List.map_append, ← hsplit r hr]
    rfl
  refine .silent rfl (.of_alternatives halternatives (fun x hx => ?_) h)
  obtain ⟨q, hq, rfl⟩ := List.mem_map.mp hx
  obtain ⟨hqk, hinitial⟩ := hbefore r hr hne q hq
  obtain ⟨ys, hl⟩ := leftmost_of_keyword hqk
  obtain ⟨cs, p⟩ := c
  dsimp only at hc
  subst hc
  exact found_none_of_keyword hl hinitial

theorem keyword_of_compound (hr : r ∈ compoundKinds) :
    r ∈ keywordKinds ∧ r ≠ .returnStatement := by
  have h : ∀ r ∈ compoundKinds, r ∈ keywordKinds ∧ r ≠ .returnStatement := by
    decide
  exact h r hr

theorem statement_of_compound (hr : r ∈ compoundKinds)
    (h : Derives grammar .plain (nt r) c d ns) :
    Derives grammar .plain (nt .statement) c d ns :=
  statement_of_keyword (keyword_of_compound hr).1 (keyword_of_compound hr).2 h

end Jam
