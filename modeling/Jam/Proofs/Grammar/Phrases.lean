/-
Words, lists, conditions and statements of aligned texts.

Every production does the same on aligned texts, and leads from the
beginning of a word to its end. Below statements this holds for every
comparison, as words, lists and conditions never take the mark at which a
comparison is cut: it is not a word, and no mark of a condition.

A statement does take it. What stands before the last mark of a simple
statement, or before the block of a compound one, is its `head`. Heads are
in step in any case. Whole statements are in step if the comparison is
whole, and also if it is cut at a semicolon (`Comparison.Settled`): then
it is the semicolon of a simple statement, and what begins like a compound
statement finds no block on either side.
-/
import Jam.Proofs.Grammar.Gaps

namespace Jam

open Nonterminal
open Peg (opt many)

variable {v : Comparison} {n : Nat} {R S T : List Char → List Char → Prop}
  {a b e : Peg Nonterminal} {r : Nonterminal}

/-- A text that stands in a word and is no stop mark. -/
def isMark : List Char → Bool
  | [] => false
  | c :: cs => !edges.contains c && cs.all (!isBlank ·)

namespace Lockstep

-- ================================================== sequences of words

theorem of_word (h : Lockstep grammar v.view v.Level n v.Along S e) :
    Lockstep grammar v.view v.Level n v.Word S e :=
  h.mono (fun _ _ => .inr) fun _ _ => id

theorem of_gap (h : Lockstep grammar v.view v.Level n v.Along S e) :
    Lockstep grammar v.view v.Level n v.Gap S e :=
  h.mono (fun _ _ => .inl) fun _ _ => id

theorem of_amid (h : Lockstep grammar v.view v.Level n v.Along S e) :
    Lockstep grammar v.view v.Level n v.Amid S e := by
  refine h.mono (fun _ _ hx => ?_) fun _ _ => id
  rcases hx with ⟨hg, -⟩ | hw
  · exact .inl hg
  · exact .inr hw

/-- The next word, behind blanks. -/
theorem spaced (h : Lockstep grammar v.view v.Level n v.Gap S e)
    (he : grammar.mayBeEmpty e = false) :
    Lockstep grammar v.view v.Level n v.Word S (nt .blanks ++ e) :=
  Loosely.blanks.seq he h

/-- One word behind another. -/
theorem thenSpaced (ha : Lockstep grammar v.view v.Level n R v.Word a)
    (hb : Lockstep grammar v.view v.Level n v.Gap S b)
    (he : grammar.mayBeEmpty b = false) :
    Lockstep grammar v.view v.Level n R S (a ++ nt .blanks ++ b) :=
  (Loosely.blanks.after ha).seq he hb

theorem optSpaced (h : Lockstep grammar v.view v.Level n v.Gap v.Word e)
    (he : grammar.mayBeEmpty e = false) :
    Lockstep grammar v.view v.Level n v.Word v.Word (.opt (nt .blanks ++ e)) :=
  .opt (h.spaced he) fun _ _ => id

/-- A mark of the language at the beginning of a word or inside. -/
theorem mark {text : String} (h : isMark text.toList = true) :
    Lockstep grammar v.view v.Level n v.Along v.Word (Peg.lit text) := by
  cases ht : text.toList with
  | nil =>
    rw [ht] at h
    cases h
  | cons c cs =>
    simp only [ht, isMark, Bool.and_eq_true, Bool.not_eq_true'] at h
    exact lit v.steady ht (by simpa using h.1) h.2

/-- A mark of the language at the beginning of a word. -/
theorem keyword {text : String} (h : isMark text.toList = true) :
    Lockstep grammar v.view v.Level n v.Gap v.Word (Peg.lit text) :=
  (mark h).of_gap

/-- More words behind a mark. -/
theorem further {mark : String} (hm : isMark mark.toList = true)
    (h : Lockstep grammar v.view v.Level n v.Gap v.Word (nt r))
    (hr : grammar.mayBeEmpty (nt r) = false) :
    Lockstep grammar v.view v.Level n v.Word v.Word
      (Nonterminal.further mark r) := by
  have hne : grammar.mayBeEmpty (Peg.lit mark) = false := by
    cases hs : mark.toList with
    | nil =>
      rw [hs] at hm
      cases hm
    | cons =>
      simp only [Peg.lit, hs, Grammar.mayBeEmpty, Peg.nullable,
        List.isEmpty_cons]
  exact .many rfl (.thenSpaced (.spaced (keyword hm) hne) h hr)

-- ================================================= names and variables

section Names

variable (hv : Lockstep grammar v.view v.Level n v.Along v.Word (nt .variable))
include hv

theorem name_of : Lockstep grammar v.view v.Level n v.Along v.Word (nt .name) :=
  .call v.steady rfl <|
    .plus rfl (.alt (.identifier v.steady) hv) fun _ _ => .inr

theorem index_of :
    Lockstep grammar v.view v.Level n v.Along v.Word (nt .index) :=
  .call v.steady rfl <| .plus rfl (.alt (.number v.steady) hv) fun _ _ => .inr

theorem subscript_of :
    Lockstep grammar v.view v.Level n v.Along v.Word (nt .subscript) := by
  have htext :
      Lockstep grammar v.view v.Level n v.Along v.Word (nt .subscriptText) :=
    .call v.steady rfl <| .seq (index_of hv) <| .opt
      (.seq (rangeDash v.steady).of_word
        (.opt (index_of hv).of_word fun _ _ => id)) fun _ _ => id
  exact .call v.steady rfl <| .seq
    (.seq (.mark rfl) htext.of_word)
    (mark rfl).of_word

end Names

/-- A variable, with variables in its name and in its subscript. -/
theorem reference (n : Nat) :
    Lockstep grammar v.view v.Level n v.Along v.Word (nt .variable) := by
  induction n with
  | zero => exact .zero
  | succ n ih =>
    exact .enter v.steady rfl <|
      .seq (.seq (.seq (.seq (.seq (.mark rfl) opt_blanks) (name_of ih))
        (.opt (subscript_of ih).of_word fun _ _ => id)) opt_blanks) (.mark rfl)

theorem name : Lockstep grammar v.view v.Level n v.Along v.Word (nt .name) :=
  name_of (reference n)

-- ===================================================== words and lists

theorem joined :
    Lockstep grammar v.view v.Level n v.Amid v.Word (nt .joined) := by
  have front : Lockstep grammar v.view v.Level n v.Amid v.Amid
      (nt .identifier <|> nt .fragment) :=
    (Lockstep.alt (identifier v.steady).of_amid (fragment v.steady)).mono
      (fun _ _ => id) fun _ _ => .inr
  have back : Lockstep grammar v.view v.Level n v.Word v.Word
      (nt .variable <|> nt .identifier <|> nt .fragment) :=
    .alt (reference n).of_word <| .alt (identifier v.steady).of_word <|
      (fragment v.steady).mono (fun _ _ => .inr) fun _ _ => id
  exact .call v.steady rfl <|
    .seq (.seq (.many rfl front) (reference n).of_amid) (.many rfl back)

theorem word : Lockstep grammar v.view v.Level n v.Gap v.Word (nt .word) := by
  have ended {r : Nonterminal}
      (h : Lockstep grammar v.view v.Level n v.Amid v.Word (nt r)) :
      Lockstep grammar v.view v.Level n v.Fresh v.Word (nt r ++ nt .boundary) :=
    .seq (h.mono (fun _ _ => .inl) fun _ _ => id) boundary
  exact .call v.steady rfl <| .seq (notOperator v.steady) <|
    .alt (ended (reference n).of_amid) <| .alt (ended name.of_amid) <|
    .alt (ended joined) (string v.steady)

theorem list : Lockstep grammar v.view v.Level n v.Gap v.Word (nt .list) :=
  .call v.steady rfl <| .seq word (.many rfl (.spaced word rfl))

theorem optList : Lockstep grammar v.view v.Level n v.Word v.Word optList :=
  list.optSpaced rfl

-- ========================================================== conditions

section Conditions

variable (hd : Lockstep grammar v.view v.Level n v.Gap v.Word (nt .disjunction))
  (hn : Lockstep grammar v.view v.Level n v.Gap v.Word (nt .negation))

include hd in
theorem primary_of :
    Lockstep grammar v.view v.Level n v.Gap v.Word (nt .primary) := by
  refine .call v.steady rfl <| .alt ?_ (.alt ?_ (.alt ?_ ?_))
  · exact .thenSpaced (.thenSpaced (.keyword rfl) hd rfl) (.keyword rfl) rfl
  · exact .call v.steady rfl <|
      .thenSpaced (.thenSpaced word (.keyword rfl) rfl) list rfl
  · exact .call v.steady rfl <|
      .thenSpaced (.thenSpaced word (compareOp v.steady).of_gap rfl) word rfl
  · exact .call v.steady rfl word

include hn in
theorem conjunction_of :
    Lockstep grammar v.view v.Level n v.Gap v.Word (nt .conjunction) :=
  .call v.steady rfl <| .seq hn (.further rfl hn rfl)

end Conditions

/-- Conditions inside of conditions: connectives in parentheses, and
negations. -/
theorem conditions (n : Nat) :
    Lockstep grammar v.view v.Level n v.Gap v.Word (nt .disjunction) ∧
      Lockstep grammar v.view v.Level n v.Gap v.Word (nt .negation) := by
  induction n with
  | zero => exact ⟨.zero, .zero⟩
  | succ n ih =>
    obtain ⟨hd, hn⟩ := ih
    have hconjunction := conjunction_of hn
    refine ⟨.enter v.steady rfl
      (.seq hconjunction (.further rfl hconjunction rfl)), ?_⟩
    exact .enter v.steady rfl <| .alt
      (.call v.steady rfl (.thenSpaced (.keyword rfl) hn rfl)) (primary_of hd)

theorem condition :
    Lockstep grammar v.view v.Level n v.Gap v.Word (nt .condition) :=
  .call v.steady rfl (conditions n).1

-- ============================================= the heads of statements

theorem argument :
    Lockstep grammar v.view v.Level n v.Word v.Word (nt .argument) :=
  .call v.steady rfl optList

theorem ruleInvocation :
    Lockstep grammar v.view v.Level n v.Gap v.Word (nt .ruleInvocation) :=
  .call v.steady rfl <| .seq (.seq name.of_gap argument)
    (.many rfl (.seq (.spaced (.keyword rfl) rfl) argument))

end Lockstep

-- =========================================== statements by their parts

namespace Nonterminal

/-- What stands before the semicolon of a simple statement or before the block
of a compound one. -/
def head : Nonterminal → Peg Nonterminal
  | .returnStatement => Peg.lit "return" ++ optList
  | .breakStatement => Peg.lit "break"
  | .continueStatement => Peg.lit "continue"
  | .localStatement =>
    Peg.lit "local" ++ nt blanks ++ nt list ++ .opt (nt blanks ++ nt localValue)
  | .assignment => nt name ++ nt blanks ++ nt assignOp ++ optList
  | .ifStatement => Peg.lit "if" ++ nt blanks ++ nt condition
  | .whileStatement => Peg.lit "while" ++ nt blanks ++ nt condition
  | .forStatement =>
    Peg.lit "for" ++ nt blanks ++ nt name ++ nt blanks ++ Peg.lit "in" ++
      nt blanks ++ nt list
  | .ruleDefinition =>
    Peg.lit "rule" ++ nt blanks ++ nt name ++ .opt (nt blanks ++ nt parameters)
  | r => nt r

/-- The other branch of a choice. -/
def elseBranch : Peg Nonterminal :=
  nt blanks ++ Peg.lit "else" ++ nt blanks ++ (nt ifStatement <|> nt block)

end Nonterminal

/-- The statements that end with a semicolon, and hold it. -/
def closedKinds : List Nonterminal :=
  [.returnStatement, .breakStatement, .continueStatement, .localStatement,
   .assignment]

/-- The statements that end with a block. -/
def blockKinds : List Nonterminal :=
  [.forStatement, .whileStatement, .ruleDefinition]

/-- The statements that have a head. -/
def headKinds : List Nonterminal :=
  closedKinds ++ blockKinds ++ [.ifStatement, .ruleInvocation]

theorem body_of_closed (h : r ∈ closedKinds) :
    body r = head r ++ nt .blanks ++ Peg.lit ";" := by
  simp only [closedKinds, List.mem_cons, List.not_mem_nil, or_false] at h
  rcases h with rfl | rfl | rfl | rfl | rfl <;> rfl

theorem body_of_block (h : r ∈ blockKinds) :
    body r = head r ++ nt .blanks ++ nt .block := by
  simp only [blockKinds, List.mem_cons, List.not_mem_nil, or_false] at h
  rcases h with rfl | rfl | rfl <;> rfl

theorem body_ifStatement :
    body .ifStatement =
      head .ifStatement ++ nt .blanks ++ nt .block ++ .opt elseBranch := rfl

/-- The head of a statement is in step, whether or not the statement is. -/
theorem Lockstep.heads (h : r ∈ headKinds) :
    Lockstep grammar v.view v.Level n v.Gap v.Word (head r) := by
  have hname : Lockstep grammar v.view v.Level n v.Gap v.Word (nt .name) :=
    name.of_gap
  have hvalue :
      Lockstep grammar v.view v.Level n v.Gap v.Word (nt .localValue) :=
    .call v.steady rfl (.seq (.keyword rfl) optList)
  have hparameters :
      Lockstep grammar v.view v.Level n v.Gap v.Word (nt .parameters) :=
    .call v.steady rfl (.seq hname (.further rfl hname rfl))
  simp only [headKinds, closedKinds, blockKinds, List.cons_append,
    List.nil_append, List.mem_cons, List.not_mem_nil, or_false] at h
  rcases h with rfl | rfl | rfl | rfl | rfl | rfl | rfl | rfl | rfl | rfl
  · exact .seq (.keyword rfl) optList
  · exact .keyword rfl
  · exact .keyword rfl
  · exact .seq (.thenSpaced (.keyword rfl) list rfl) (.optSpaced hvalue rfl)
  · exact .seq (.thenSpaced hname (assignOp v.steady).of_gap rfl) optList
  · exact .thenSpaced
      (.thenSpaced (.thenSpaced (.keyword rfl) hname rfl) (.keyword rfl) rfl)
      list rfl
  · exact .thenSpaced (.keyword rfl) condition rfl
  · exact .seq (.thenSpaced (.keyword rfl) hname rfl)
      (.optSpaced hparameters rfl)
  · exact .thenSpaced (.keyword rfl) condition rfl
  · exact ruleInvocation

-- ========================================================== statements

namespace Comparison

variable (v)

/-- Behind a stop mark: at the end of a word, or behind the cut. -/
def Ended (xs ys : List Char) : Prop :=
  (v.Word xs ys ∧ (bounded xs = true → v.whole)) ∨ ∃ c, v.cut c xs ys

/-- If the comparison is cut, then at a semicolon. -/
def Settled : Prop := ∀ c xs ys, v.cut c xs ys → c = ';'

variable {v}

theorem ended_word {xs ys : List Char} (hw : v.whole) (h : v.Ended xs ys) :
    v.Word xs ys := by
  rcases h with ⟨h, -⟩ | ⟨c, hc⟩
  · exact h
  · exact absurd hw (v.cut_stop hc).1

end Comparison

theorem Advances.ended {c : Char} (hc : isStop c = true) :
    Advances v.Gap v.Ended (· == c) := by
  intro xs ys hg
  cases hg with
  | nothing => exact .inr ⟨nofun, nofun⟩
  | fresh _ _ hs hw =>
    refine .inl ⟨_, _, _, rfl, rfl, fun ha => .inl ⟨hw, hs ?_⟩⟩
    rw [beq_iff_eq.mp ha]
    exact hc
  | stop hcut => exact .inl ⟨_, _, _, rfl, rfl, fun _ => .inr ⟨_, hcut⟩⟩
  | quote =>
    refine .inl ⟨_, _, _, rfl, rfl, fun ha => ?_⟩
    rw [← beq_iff_eq.mp ha] at hc
    cases hc

namespace Lockstep

/-- The stop mark at the end of a statement. -/
theorem stopMark {text : String} {c : Char} (ht : text.toList = [c])
    (hc : isStop c = true) :
    Lockstep grammar v.view v.Level n v.Gap v.Ended (Peg.lit text) :=
  .sign v.steady ht (.ended hc)

/-- A statement that ends with a semicolon. -/
theorem closed (h : Lockstep grammar v.view v.Level n v.Gap v.Word e) :
    Lockstep grammar v.view v.Level n v.Gap v.Ended
      (e ++ nt .blanks ++ Peg.lit ";") :=
  .thenSpaced h (.stopMark rfl rfl) rfl

section Statements

variable (hblock : Lockstep grammar v.view v.Level n v.Gap T (nt .block))
include hblock

/-- A choice, if its parts are. -/
theorem ifStatement_of
    (helse : Lockstep grammar v.view v.Level n T v.Ended (.opt elseBranch)) :
    Lockstep grammar v.view v.Level n v.Gap v.Ended (body .ifStatement) :=
  .seq (.thenSpaced (.heads (r := .ifStatement) (by decide)) hblock rfl) helse

/-- A statement, if its blocks and choices are. -/
theorem statement_of (hT : ∀ xs ys, T xs ys → v.Ended xs ys)
    (hif : Lockstep grammar v.view v.Level n v.Gap v.Ended (nt .ifStatement)) :
    Lockstep grammar v.view v.Level n v.Gap v.Ended (body .statement) := by
  have enclosing {r : Nonterminal} (hr : r ∈ blockKinds)
      (hv : isVerbatim r = false) :
      Lockstep grammar v.view v.Level n v.Gap v.Ended (nt r) := by
    have hbody :=
      ((heads (List.mem_append_left _ (List.mem_append_right _ hr))).thenSpaced
        hblock rfl).mono (fun _ _ => id) hT
    rw [← body_of_block hr] at hbody
    exact .call v.steady hv hbody
  have closing {r : Nonterminal} (hr : r ∈ closedKinds)
      (hv : isVerbatim r = false) :
      Lockstep grammar v.view v.Level n v.Gap v.Ended (nt r) := by
    have hbody :=
      (heads (List.mem_append_left _ (List.mem_append_left _ hr))).closed
      (v := v) (n := n)
    rw [← body_of_closed hr] at hbody
    exact .call v.steady hv hbody
  exact .alt (hblock.mono (fun _ _ => id) hT) <| .alt hif <|
    .alt (enclosing (by decide) rfl) <| .alt (enclosing (by decide) rfl) <|
    .alt (enclosing (by decide) rfl) <| .alt (closing (by decide) rfl) <|
    .alt (closing (by decide) rfl) <| .alt (closing (by decide) rfl) <|
    .alt (closing (by decide) rfl) <|
    .alt (closing (by decide) rfl) ruleInvocation.closed

end Statements

/-- Statements in braces, if the statements are. -/
theorem block_of (hw : v.whole)
    (hs : Lockstep grammar v.view v.Level n v.Gap v.Ended (nt .statement)) :
    Lockstep grammar v.view v.Level n v.Gap v.Ended (nt .block) := by
  have toWord : ∀ xs ys, v.Ended xs ys → v.Word xs ys :=
    fun _ _ => Comparison.ended_word hw
  refine .call v.steady rfl <|
    .thenSpaced (.seq (S := v.Word) ?_ (.many rfl ?_)) (.stopMark rfl rfl) rfl
  · exact (stopMark rfl rfl).mono (fun _ _ => id) toWord
  · exact .spaced (hs.mono (fun _ _ => id) toWord) rfl

/-- Statements and choices of texts that are compared to their ends. -/
theorem statements_whole (hw : v.whole) (n : Nat) :
    Lockstep grammar v.view v.Level n v.Gap v.Ended (nt .statement) ∧
      Lockstep grammar v.view v.Level n v.Gap v.Ended (nt .ifStatement) := by
  induction n with
  | zero => exact ⟨.zero, .zero⟩
  | succ n ih =>
    obtain ⟨hs, hif⟩ := ih
    have hblock := block_of hw hs
    have toWord : ∀ xs ys, v.Ended xs ys → v.Word xs ys :=
      fun _ _ => Comparison.ended_word hw
    have helse : Lockstep grammar v.view v.Level n v.Ended v.Ended
        (.opt elseBranch) := by
      refine .opt (.mono (.thenSpaced (.spaced (.keyword rfl) rfl)
        (.alt hif hblock) rfl) toWord fun _ _ => id) fun _ _ => id
    exact ⟨.enter v.steady rfl (statement_of hblock (fun _ _ => id) hif),
      .enter v.steady rfl (ifStatement_of hblock helse)⟩

end Lockstep

-- ================================================ blocks that are none

/-- A brace with something glued to it begins no block. -/
theorem found_block_none {m : Mode} {c : Cursor}
    (h : ∀ xs, c.rest = '\x7b' :: xs → ∃ x us,
      xs = x :: us ∧ isInner x = true) :
    grammar.found m (nt .block) c = none := by
  obtain ⟨xs, p⟩ := c
  rw [nt, Grammar.found_call _ _ _ (by decide)]
  refine Option.map_eq_none_iff.mpr ?_
  change grammar.found _
    (.seq (.seq (.seq (.chars ['\x7b']) (.many (nt .blanks ++ nt .statement)))
      (nt .blanks)) (Peg.lit "\x7d")) _ = none
  cases xs with
  | nil => exact found_end rfl rfl
  | cons x xs =>
    rw [Grammar.found_seq, Grammar.found_seq, Grammar.found_seq, found_sign]
    by_cases hx : x = '\x7b'
    · subst hx
      obtain ⟨y, us, rfl, hy⟩ := h xs rfl
      have hnone : grammar.found (grammar.bodyMode .block m)
          (nt .blanks ++ nt .statement) ⟨y :: us, p.after '\x7b'⟩ = none := by
        change grammar.found _ (.seq (nt .blanks) (nt .statement)) _ = none
        rw [Grammar.found_seq, found_blanks_of_inner hy]
        rfl
      rw [if_pos rfl, Option.bind_some, found_many_none hnone, Option.map_some,
        Option.bind_some]
      change Option.bind
        (Option.map _ (grammar.found _ (nt .blanks) ⟨y :: us, _⟩)) _ = none
      rw [found_blanks_of_inner hy]
      rfl
    · rw [if_neg hx]
      rfl

/-- Where a word begins the texts have the first character in common. -/
theorem Comparison.Gap.common {xs ys : List Char} (h : v.Gap xs ys) :
    xs = [] ∧ ys = [] ∨ ∃ c us ws, xs = c :: us ∧ ys = c :: ws := by
  cases h with
  | nothing => exact .inl ⟨rfl, rfl⟩
  | fresh | stop | quote => exact .inr ⟨_, _, _, rfl, rfl⟩

/-- If the texts are compared to a semicolon, then a brace before it does not
stand alone. -/
theorem glued_brace (hw : ¬ v.whole) (hset : v.Settled) {xs ys : List Char}
    (h : v.Gap ('\x7b' :: xs) ys) :
    ∃ c us ws, xs = c :: us ∧ ys = '\x7b' :: c :: ws ∧ isInner c = true := by
  cases h with
  | fresh _ _ hs hword =>
    cases hword with
    | inside hc => exact ⟨_, _, _, rfl, rfl, hc⟩
    | pause hx => exact absurd (hs rfl hx) hw
  | stop hcut => exact absurd (hset _ _ _ hcut) (by decide)

namespace Lockstep

/-- So no block begins before it. -/
theorem block_none (hw : ¬ v.whole) (hset : v.Settled) :
    Lockstep grammar v.view v.Level n v.Gap (fun _ _ => False) (nt .block) := by
  intro m c c' _ _ hg
  obtain ⟨xs, p⟩ := c
  obtain ⟨ys, p'⟩ := c'
  dsimp only at hg
  rw [found_block_none, found_block_none]
  · exact .none
  · rintro ws rfl
    rcases hg.common with ⟨-, hnil⟩ | ⟨c, us, ws', rfl, heq⟩
    · cases hnil
    · cases heq
      obtain ⟨y, us, ws', -, heq, hy⟩ := glued_brace hw hset hg
      exact ⟨y, ws', (List.cons.inj heq).2, hy⟩
  · rintro us rfl
    obtain ⟨y, us, ws, rfl, -, hy⟩ := glued_brace hw hset hg
    exact ⟨y, us, rfl, hy⟩

/-- A statement is in step if the texts are compared to their ends, or to a
semicolon. -/
theorem statement (hset : v.Settled) :
    Lockstep grammar v.view v.Level n v.Gap v.Ended (nt .statement) := by
  by_cases hw : v.whole
  · exact (statements_whole hw n).1
  · have never : ∀ xs ys, False → v.Ended xs ys := fun _ _ => False.elim
    have hblock : Lockstep grammar v.view v.Level n v.Gap (fun _ _ => False)
        (nt .block) :=
      block_none hw hset
    have hif := ifStatement_of hblock fun _ _ _ _ _ h => h.elim
    exact .call v.steady rfl
      (statement_of hblock never (.call v.steady rfl hif))

end Lockstep

end Jam
