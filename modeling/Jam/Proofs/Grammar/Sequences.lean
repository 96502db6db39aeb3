/-
Statements one after the other.

In a block and in a program stand statements with blanks between them. A
`Sequence` is such a row of statements, told from one beginning of a word
to another: each statement begins where the blanks before it end, and ends
where a word does. In tidy texts this is all there is to a block
(`sequence_of_block`, `block_of_sequence`) and to a program
(`sequence_of_program`, `program_of_sequence`).

A sequence of statements of one text is one of any text that has the same
words, with the comparison of the two being whole (`Sequence.follow`).
-/
import Jam.Proofs.Grammar.Phrases
import Jam.Proofs.Grammar.Children

namespace Jam

open Nonterminal

-- =================================== comparisons of a text with itself

namespace Comparison

/-- The same text at other places. -/
def moved (f : Point → Point)
    (hf : ∀ p c, f (Point.after p c) = (f p).after c) : Comparison where
  left := f
  right := id
  after c h := by rw [hf, h]; rfl
  gaps u w := u = w
  afterAll {p p' u w} hu h := by
    subst hu
    induction u generalizing p p' with
    | nil => exact h
    | cons c u ih =>
      rw [Point.afterAll_cons, Point.afterAll_cons]
      exact ih (by rw [hf, h]; rfl)
  whole := True
  cut _ _ _ := False
  cut_stop := Comparison.uncut

/-- A text and itself. -/
def alone : Comparison := moved id fun _ _ => rfl

theorem moved_settled {f : Point → Point}
    {hf : ∀ p c, f (Point.after p c) = (f p).after c} : (moved f hf).Settled :=
  fun _ _ _ h => h.elim

end Comparison

open Comparison (alone)

variable {v : Comparison}

/-- A tidy text is aligned with itself. -/
theorem aligned_of_tidy (hw : v.whole) (hv : ∀ u, v.gaps u u) {φ : Phase}
    {cs : List Char} (h : tidy φ cs = true) (hφ : φ ≠ .comment)
    (hgap : φ = .gap → strip false cs = cs) : Aligned v φ cs cs := by
  refine tidy_induct (P := fun φ cs => Aligned v φ cs cs) .nothing ?_
    (fun _ => .quote) ?_ ?_ .unclosed ?_ (fun _ => .closing)
    (fun _ => .backslash) .broken (fun _ _ => .escaped) φ cs h hφ hgap
  · exact fun c cs hc hq => .fresh hc hq fun _ _ => hw
  · exact fun c cs hc => .inside hc
  · exact fun cs hb => .pause hb hb (hv _)
  · exact fun c cs hq hb => .plain hq hb

/-- Behind the blanks that it begins with, a tidy text is aligned with
itself. -/
theorem moved_of_tidy {f : Point → Point}
    {hf : ∀ p c, f (Point.after p c) = (f p).after c} {cs : List Char}
    (h : tidy .gap cs = true) :
    (Comparison.moved f hf).Gap (strip false cs) (strip false cs) :=
  aligned_of_tidy trivial (fun _ => rfl) ((tidy_strip false cs).trans h) nofun
    fun _ => strip_strip cs

theorem alone_of_tidy {cs : List Char} (h : tidy .gap cs = true) :
    alone.Gap (strip false cs) (strip false cs) := moved_of_tidy h

-- ======================================== the beginnings of statements

/-- What a sequence begins with. -/
def Peg.leftmost {N : Type} : Peg N → Peg N
  | .seq a _ => a.leftmost
  | e => e

variable {m : Mode} {r : Nonterminal} {x y : Char} {xs ys : List Char}
  {p : Point} {c d e : Cursor} {t : Node} {ts : List Node}

theorem found_none_of_leftmost {a : Peg Nonterminal}
    (h : grammar.found m a.leftmost c = none) : grammar.found m a c = none := by
  induction a with
  | seq a b ih _ =>
    rw [Grammar.found_seq, ih h]
    rfl
  | _ => exact h

/-- A nonterminal is not found where its production does not match. -/
theorem found_none_of_body (h : ∀ m, grammar.found m (body r) c = none) :
    grammar.found m (nt r) c = none := by
  by_cases hs : retention r = .silent
  · rw [nt, Grammar.found_silent _ _ _ hs]
    exact h m
  · rw [nt, Grammar.found_call grammar m _ hs]
    exact Option.map_eq_none_iff.mpr (h _)

/-- What begins with a keyword is not found where another character comes
next. -/
theorem found_none_of_keyword (hr : (body r).leftmost = .chars (y :: ys))
    (h : x ≠ y) : grammar.found m (nt r) ⟨x :: xs, p⟩ = none := by
  refine found_none_of_body fun m => found_none_of_leftmost ?_
  rw [hr, Grammar.found_chars, Cursor.skip?, if_neg (Ne.symm h)]
  rfl

/-- Names begin with a letter, a digit or a variable. -/
theorem found_name_none (hx : isAlnum x = false ∧ x ≠ '$') :
    grammar.found m (nt .name) ⟨x :: xs, p⟩ = none := by
  have hidentifier {m : Mode} : grammar.found m (nt .identifier) ⟨x :: xs, p⟩ =
      none := by
    refine found_none_of_body fun m => found_none_of_leftmost ?_
    change grammar.found _ (.one isAlnum) _ = none
    rw [Grammar.found_one_cons, hx.1]
    rfl
  have hvariable {m : Mode} : grammar.found m (nt .variable) ⟨x :: xs, p⟩ =
      none :=
    found_none_of_keyword rfl hx.2
  refine found_none_of_body fun m => found_none_of_leftmost ?_
  change grammar.found _ (.alt (nt .identifier) (nt .variable)) _ = none
  rw [Grammar.found_alt, hidentifier, hvariable]
  rfl

/-- The characters that a statement can begin with if it is not told by a
name. -/
def initials : List Char := ['\x7b', 'i', 'f', 'w', 'r', 'b', 'c', 'l']

/-- Where none of these comes next a statement is an assignment or an
invocation. -/
theorem found_statement_of_initial (h : x ∉ initials) :
    grammar.found m (nt .statement) ⟨x :: xs, p⟩ =
      (grammar.found m (nt .assignment) ⟨x :: xs, p⟩).or (grammar.found m
        (nt .ruleInvocation ++ nt .blanks ++ Peg.lit ";") ⟨x :: xs, p⟩) := by
  have none {r : Nonterminal} {y : Char} {ys : List Char}
      (hr : (body r).leftmost = .chars (y :: ys)) (hy : y ∈ initials) :
      grammar.found m (nt r) ⟨x :: xs, p⟩ = none :=
    found_none_of_keyword hr fun he => h (he ▸ hy)
  rw [nt, Grammar.found_silent _ _ _ rfl]
  change grammar.found m
    (.alt (nt .block) (.alt (nt .ifStatement)
      (.alt (nt .forStatement) (.alt (nt .whileStatement)
        (.alt (nt .ruleDefinition) (.alt (nt .returnStatement)
          (.alt (nt .breakStatement) (.alt (nt .continueStatement)
            (.alt (nt .localStatement) (.alt (nt .assignment) _)))))))))) _ = _
  simp only [Grammar.found_alt]
  rw [none (r := .block) rfl (by decide), none (r := .ifStatement) rfl
    (by decide), none (r := .forStatement) rfl (by decide),
    none (r := .whileStatement) rfl (by decide), none (r := .ruleDefinition) rfl
    (by decide), none (r := .returnStatement) rfl (by decide),
    none (r := .breakStatement) rfl (by decide), none (r := .continueStatement)
    rfl (by decide), none (r := .localStatement) rfl (by decide)]
  simp only [Option.none_or]

/-- No statement begins with a closing brace. -/
theorem found_statement_none (hc : c.rest = [] ∨ ∃ xs, c.rest = '\x7d' :: xs) :
    grammar.found m (nt .statement) c = none := by
  obtain ⟨cs, p⟩ := c
  rcases hc with rfl | ⟨xs, rfl⟩
  · exact found_end rfl rfl
  · have hname {m : Mode} : grammar.found m (nt .name) ⟨'\x7d' :: xs, p⟩ =
        none :=
      found_name_none (by decide)
    rw [found_statement_of_initial (by decide)]
    have hassignment : grammar.found m (nt .assignment) ⟨'\x7d' :: xs, p⟩ =
        none :=
      found_none_of_body fun _ => found_none_of_leftmost hname
    have hinvocation : grammar.found m (nt .ruleInvocation) ⟨'\x7d' :: xs, p⟩ =
        none :=
      found_none_of_body fun _ => found_none_of_leftmost hname
    rw [hassignment, found_none_of_leftmost hinvocation]
    rfl

-- ======================================================= one statement

/-- A statement leaves one node. -/
theorem single_of_statement {ns : List Node}
    (h : Derives grammar .plain (nt .statement) c d ns) : ∃ t, ns = [t] := by
  obtain ⟨t, -, ht⟩ := leaves_statement.mp h.leaves
  exact ⟨t, ht⟩

/-- In a tidy text a statement ends where a word does. -/
theorem word_of_statement {ns : List Node}
    (h : Derives grammar .plain (nt .statement) c d ns)
    (hc : alone.Gap c.rest c.rest) : alone.Word d.rest d.rest :=
  Comparison.ended_word trivial <|
    Lockstep.self (fun _ => .statement (v := alone) Comparison.moved_settled)
      h rfl hc

-- =========================================================== sequences

/-- From one beginning of a word to another there are these statements, each
behind the blanks that follow the one before. -/
inductive Sequence : Cursor → List Node → Cursor → Prop
  | done (c : Cursor) : Sequence c [] c
  | more {c d e : Cursor} {t : Node} {ts : List Node} :
      Derives grammar .plain (nt .statement) c d [t] → bounded d.rest = true →
      Sequence d.next ts e → Sequence c (t :: ts) e

theorem Sequence.append {us : List Node} (h : Sequence c ts d)
    (h' : Sequence d us e) : Sequence c (ts ++ us) e := by
  induction h with
  | done => exact h'
  | more hs hb _ ih => exact .more hs hb (ih h')

/-- A repetition of statements behind blanks is a sequence of statements. -/
theorem sequence_of_many
    (h : Derives grammar .plain (.many (nt .blanks ++ nt .statement)) c d ts)
    (hc : alone.Word c.rest c.rest) :
    alone.Word d.rest d.rest ∧ (bounded d.rest = true →
      bounded c.rest = true ∧ Sequence c.next ts d.next) := by
  generalize he : Peg.many (nt .blanks ++ nt .statement) = a at h
  generalize hm : Mode.plain = m at h
  induction h with
  | @stop _ _ c => exact ⟨hc, fun hb => ⟨hb, .done c.next⟩⟩
  | last hx heq =>
    cases he
    exact absurd heq (offset_behind hx.found rfl)
  | more hx _ _ _ ih =>
    cases he
    subst hm
    cases hx with
    | seq hblanks hs =>
      obtain ⟨hl, rfl, rfl⟩ := derives_blanks.mp hblanks
      obtain ⟨t, rfl⟩ := single_of_statement hs
      have hb := bounded_of_lead hc hl
      obtain ⟨hw, hseq⟩ :=
        ih (word_of_statement hs (gap_of_bounded hc hb).2.2) rfl rfl
      refine ⟨hw, fun hd => ⟨hb, ?_⟩⟩
      obtain ⟨hb', hseq⟩ := hseq hd
      exact .more hs hb' hseq
  | _ => cases he

/-- A sequence of statements is a repetition, if no statement follows. -/
theorem many_of_sequence (h : Sequence c.next ts e) (hb : bounded c.rest = true)
    (hend : grammar.found .plain (nt .statement) e = none) :
    ∃ d, Derives grammar .plain (.many (nt .blanks ++ nt .statement)) c d ts ∧
      bounded d.rest = true ∧ d.next = e := by
  generalize hn : c.next = b at h
  induction h generalizing c with
  | done b =>
    refine ⟨c, .stop ?_, hb, hn⟩
    change grammar.found .plain (.seq (nt .blanks) (nt .statement)) c = none
    rw [Grammar.found_seq, found_blanks]
    split
    · rfl
    · rw [Option.bind_some, hn, hend]
      rfl
  | @more b d e t ts hs hd _ ih =>
    subst hn
    obtain ⟨d', hm, hb', hnext⟩ := ih hd hend rfl
    have hl : lead false c.rest ≠ [] := by
      intro hnil
      have hc : c.next.rest = [] := by
        rw [next_of_lead_nil hnil]
        exact (lead_eq_nil_iff hb).mp hnil
      have hf := hs.found
      rw [found_end rfl hc] at hf
      cases hf
    have hx : Derives grammar .plain (nt .blanks ++ nt .statement) c d
        ([] ++ [t]) :=
      .seq (derives_blanks.mpr ⟨hl, rfl, rfl⟩) hs
    exact ⟨d', .more hx (offset_behind hx.found rfl) hm, hb', hnext⟩

/-- A sequence of statements is one in every text that has the same words. -/
theorem Sequence.follow (hw : v.whole) (h : Sequence c ts e) :
    ∀ {c'}, v.Level c c' → v.Gap c.rest c'.rest → ∃ ts' e',
      Sequence c' ts' e' ∧ List.Forall₂ (Alike v.view) ts ts' ∧ v.Level e e' ∧
      v.Gap e.rest e'.rest := by
  induction h with
  | done c => exact fun {c'} hk hg => ⟨[], c', .done c', .nil, hk, hg⟩
  | @more _ d _ _ _ hs hb _ ih =>
    intro c' hk hg
    have hset : v.Settled := fun _ _ _ hcut => absurd hw (v.cut_stop hcut).1
    obtain ⟨d', ns', hs', hk', hend, hns⟩ :=
      Lockstep.derives (fun _ => .statement hset) hs hk hg
    obtain ⟨t', rfl⟩ := single_of_statement hs'
    obtain ⟨hb', hgap, hg'⟩ := gap_of_bounded (Comparison.ended_word hw hend) hb
    have hnext : v.Level d.next d'.next := v.afterAll hgap hk'
    obtain ⟨ts', e', hseq, hts, hke, hge⟩ := ih hnext hg'
    cases hns with
    | cons ht =>
      exact ⟨t' :: ts', e', .more hs' hb' hseq, .cons ht hts, hke, hge⟩

/-- Along a sequence one is at the beginning of a word, in a tidy text. -/
theorem Sequence.gap (h : Sequence c ts e) (hc : alone.Gap c.rest c.rest) :
    alone.Gap e.rest e.rest := by
  induction h with
  | done => exact hc
  | more hs hb _ ih =>
    exact ih (gap_of_bounded (word_of_statement hs hc) hb).2.2

-- ============================================================== blocks

theorem takes_of_lit {text : String} {ns : List Node}
    (h : Derives grammar m (Peg.lit text) c d ns) :
    c.Takes text.toList d ∧ ns = [] := by
  cases h with
  | chars hs => exact ⟨.of_skip? hs, rfl⟩

theorem derives_lit {text : String} (hc : c.rest = text.toList ++ xs) :
    Derives grammar m (Peg.lit text) c ⟨xs, c.point.afterAll text.toList⟩
      [] := by
  have skip {cs : List Char} {p : Point} :
      Cursor.skip? cs ⟨cs ++ xs, p⟩ = some ⟨xs, p.afterAll cs⟩ := by
    induction cs generalizing p with
    | nil => rfl
    | cons x cs ih =>
      rw [List.cons_append, Cursor.skip?, if_pos rfl, ih]
      rfl
  obtain ⟨cs, p⟩ := c
  dsimp only at hc
  subst hc
  exact .chars skip

theorem takes_of_sign {text : String} {ns : List Node} (ht : text.toList = [x])
    (h : Derives grammar m (Peg.lit text) c d ns) :
    c.rest = x :: d.rest ∧ d.point = c.point.after x ∧ ns = [] := by
  obtain ⟨htakes, hns⟩ := takes_of_lit h
  rw [ht] at htakes
  exact ⟨htakes.rest, htakes.point, hns⟩

theorem derives_sign {text : String} (ht : text.toList = [x])
    (hc : c.rest = x :: xs) :
    Derives grammar m (Peg.lit text) c ⟨xs, c.point.after x⟩ [] := by
  have h : Derives grammar m (Peg.lit text) c
      ⟨xs, c.point.afterAll text.toList⟩ [] :=
    derives_lit (by rw [hc, ht]; rfl)
  rwa [ht] at h

/-- In a block there is a sequence of statements. -/
theorem sequence_of_block {ns : List Node}
    (h : Derives grammar .plain (nt .block) c d ns)
    (hc : alone.Gap c.rest c.rest) :
    ∃ xs ts e, c.rest = '\x7b' :: xs ∧ bounded xs = true ∧
      Sequence (Cursor.next ⟨xs, c.point.after '\x7b'⟩) ts e ∧
      e.rest = '\x7d' :: d.rest ∧ d.point = e.point.after '\x7d' ∧
      ns = [.node .block c d ts] := by
  obtain ⟨children, rfl, hb⟩ := h.retained (by decide)
  cases hb with
  | seq hb hclose =>
    cases hb with
    | seq hb hblanks =>
      cases hb with
      | @seq _ _ _ _ b _ _ ts hopen hmany =>
        obtain ⟨hrest, hpoint, rfl⟩ := takes_of_sign (x := '\x7b') rfl hopen
        obtain ⟨hl, rfl, rfl⟩ := derives_blanks.mp hblanks
        obtain ⟨hrest', hpoint', rfl⟩ := takes_of_sign (x := '\x7d') rfl hclose
        have hw : alone.Word b.rest b.rest := Comparison.ended_word trivial <|
          Lockstep.self (fun _ => .stopMark rfl rfl) hopen rfl hc
        obtain ⟨hw', hseq⟩ := sequence_of_many hmany hw
        obtain ⟨hb, hseq⟩ := hseq (bounded_of_lead hw' hl)
        refine ⟨b.rest, ts, _, hrest, hb, ?_, hrest', hpoint', by simp⟩
        rwa [← hpoint]

/-- A sequence of statements in braces is a block. -/
theorem block_of_sequence (hc : c.rest = '\x7b' :: xs) (hb : bounded xs = true)
    (h : Sequence (Cursor.next ⟨xs, c.point.after '\x7b'⟩) ts e)
    (he : e.rest = '\x7d' :: ys) :
    Derives grammar .plain (nt .block) c ⟨ys, e.point.after '\x7d'⟩
      [.node .block c ⟨ys, e.point.after '\x7d'⟩ ts] := by
  obtain ⟨d, hm, hbd, hnext⟩ :=
    many_of_sequence h hb (found_statement_none (.inr ⟨ys, he⟩))
  have hl : lead false d.rest ≠ [] := by
    intro hnil
    rw [← hnext, next_of_lead_nil hnil, (lead_eq_nil_iff hbd).mp hnil] at he
    cases he
  have hbody : Derives grammar .plain (grammar.body .block) c
      ⟨ys, e.point.after '\x7d'⟩ ([] ++ ts ++ [] ++ []) :=
    .seq (.seq (.seq (derives_sign rfl hc) hm)
      (derives_blanks.mpr ⟨hl, hnext.symm, rfl⟩)) (derives_sign rfl he)
  simp only [List.nil_append, List.append_nil] at hbody
  exact .node (by decide) rfl hbody

-- ============================================================ programs

/-- The node of a program, whose last child marks the end of the text. -/
def programNode (c e : Cursor) (ts : List Node) : Node :=
  .node .program c e (ts ++ [.node .endOfInput e e []])

/-- In a program there is a sequence of statements, up to the end of the
text. -/
theorem sequence_of_program {ns : List Node}
    (h : Derives grammar .plain (nt .program) c e ns)
    (hc : alone.Gap c.next.rest c.next.rest) :
    ∃ ts, Sequence c.next ts e ∧ e.rest = [] ∧ ns = [programNode c e ts] := by
  obtain ⟨children, rfl, hb⟩ := h.retained (by decide)
  have ofOpt {b d : Cursor} {xs : List Node}
      (hd : Derives grammar .plain (.opt (nt .blanks)) b d xs) : d = b.next ∧
      xs = [] := by
    cases hd.found.symm.trans found_opt_blanks
    exact ⟨rfl, rfl⟩
  cases hb with
  | seq hb hend =>
    cases hb with
    | seq hb hafter =>
      cases hb with
      | @seq _ _ _ _ d _ _ ts hb hstatements =>
        cases hb with
        | seq hstart hbefore =>
          cases hstart
          obtain ⟨rfl, rfl⟩ := ofOpt hbefore
          obtain ⟨rfl, rfl⟩ := ofOpt hafter
          obtain ⟨_, rfl, hfinish⟩ := hend.retained (by decide)
          cases hfinish with
          | finish hnil =>
            refine ⟨ts, ?_, hnil, by simp [programNode]⟩
            cases hstatements with
            | without =>
              rw [next_next] at hnil ⊢
              exact .done _
            | «with» hs =>
              cases hs with
              | @seq _ _ _ _ b _ _ _ hs hm =>
                obtain ⟨t, rfl⟩ := single_of_statement hs
                obtain ⟨hw, hseq⟩ :=
                  sequence_of_many hm (word_of_statement hs hc)
                obtain ⟨hb, hseq⟩ := hseq (bounded_of_strip hw hnil)
                exact .more hs hb hseq

/-- A sequence of statements up to the end of the text is a program. -/
theorem program_of_sequence (h : Sequence c.next ts e) (he : e.rest = [])
    (hc : c.offset = 0) :
    Derives grammar .plain (nt .program) c e [programNode c e ts] := by
  have hend :
      Derives grammar .plain (nt .endOfInput) e e [.node .endOfInput e e []] :=
    .node (by decide) rfl (.finish he)
  have blanks : ∀ b : Cursor,
      Derives grammar .plain (.opt (nt .blanks)) b b.next [] := fun b =>
    derives_iff.mpr found_opt_blanks
  have hnone := found_statement_none (m := .plain) (c := e) (.inl he)
  obtain ⟨d, hs, hnext⟩ : ∃ d, Derives grammar .plain
      (.opt (nt .statement ++ .many (nt .blanks ++ nt .statement))) c.next d
      ts ∧ d.next = e := by
    generalize hn : c.next = b at h
    cases h with
    | done =>
      refine ⟨e, .without (found_none_of_leftmost hnone), ?_⟩
      rw [← hn, next_next]
    | more hs hb hseq =>
      obtain ⟨d, hm, -, hnext⟩ := many_of_sequence hseq hb hnone
      exact ⟨d, .with (.seq hs hm), hnext⟩
  have hbody : Derives grammar .plain (grammar.body .program) c e
      ([] ++ [] ++ ts ++ [] ++ [.node .endOfInput e e []]) :=
    .seq (.seq (.seq (.seq (.start hc) (blanks c)) hs) (hnext ▸ blanks d)) hend
  simp only [List.nil_append, List.append_nil] at hbody
  exact .node (by decide) rfl hbody

end Jam
