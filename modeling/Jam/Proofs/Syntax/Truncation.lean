/-
Errors in programs that are cut off.

If a program is cut off inside of one of its statements, and what is left
is no program, then the error names that statement: its second place is
where the statement begins (`truncated_statement`). The statements before
it are the same with and without the rest of the text, and what is left of
the statement is none, so the search for the statement around the error
goes as far as there and no further.

This is so for tidy texts, and as long as what is cut off a choice is not
only of its other branch. Otherwise what is left of the choice is a choice
by itself, and the error lies in the statement behind that; and in other
texts a hash sign in a word begins a comment or does not, depending on what
follows (`truncated_elsewhere`).
-/
import Jam.Proofs.Grammar.Enclosing
import Jam.Proofs.Grammar.Truncation
import Jam.Proofs.Syntax.Division
import Jam.Proofs.Text.Shift

namespace Jam

open Nonterminal
open Comparison (alone)
open Except (Yields)

variable {source context : String} {text pre as bs cs ds : List Char}
  {b c d e g : Cursor} {t : Node} {ts xs ys ns : List Node}

-- ==================================================== places in a text

/-- The place of a text that has so many bytes before it. -/
def Cursor.ofOffset (text : List Char) (bytes : Nat) : Cursor :=
  let taken := Cursor.takeBytes bytes text
  ⟨text.drop taken.length, Point.origin.afterAll taken⟩

/-- A place is told by its bytes. -/
theorem Cursor.Takes.ofOffset_eq (h : (Cursor.ofText text).Takes pre c) :
    Cursor.ofOffset text c.offset = c := by
  have htext : text = pre ++ c.rest := h.rest
  have hpoint : c.point = Point.origin.afterAll pre := h.point
  have htaken : Cursor.takeBytes c.offset text = pre := by
    rw [Cursor.offset, hpoint, htext]
    exact Cursor.takeBytes_append pre c.rest .origin
  unfold Cursor.ofOffset
  dsimp only
  rw [htaken, htext, List.drop_left, ← hpoint]

/-- Of two beginnings of a text the one with fewer bytes is a part of the
other. -/
theorem exists_of_offset_lt (h : as ++ bs = cs ++ ds)
    (hlt : (Point.origin.afterAll as).offset <
      (Point.origin.afterAll cs).offset) :
    ∃ xs, xs ≠ [] ∧ cs = as ++ xs ∧ bs = xs ++ ds := by
  rcases List.append_eq_append_iff.mp h with ⟨xs, rfl, rfl⟩ | ⟨xs, rfl, -⟩
  · refine ⟨xs, ?_, rfl, rfl⟩
    rintro rfl
    rw [List.append_nil] at hlt
    exact absurd hlt (Nat.lt_irrefl _)
  · rw [Point.afterAll_append] at hlt
    exact absurd hlt (Nat.not_lt.mpr (Point.offset_le_afterAll _ _))

/-- A cut between the two ends of a stretch of the text. -/
theorem exists_cut {xs zs X : List Char}
    (hpre : (Cursor.ofText (xs ++ zs)).Takes pre b) (hX : b.Takes X d)
    (hlt : b.offset < (Point.origin.afterAll xs).offset)
    (hlt' : (Point.origin.afterAll xs).offset < d.offset) :
    ∃ us ws, us ≠ [] ∧ ws ≠ [] ∧ xs = pre ++ us ∧
      b.rest = us ++ (ws ++ d.rest) := by
  have hfirst : pre ++ b.rest = xs ++ zs := hpre.rest.symm
  have hlast : xs ++ zs = pre ++ X ++ d.rest := (hpre.append hX).rest
  rw [Cursor.offset, hpre.point] at hlt
  rw [Cursor.offset, (hpre.append hX).point] at hlt'
  obtain ⟨us, hus, hxs, hrest⟩ := exists_of_offset_lt hfirst hlt
  obtain ⟨ws, hws, -, hzs⟩ := exists_of_offset_lt hlast hlt'
  exact ⟨us, ws, hus, hws, hxs, hzs ▸ hrest⟩

theorem utf8ByteSize_eq_offset (y : String) :
    y.utf8ByteSize = (Point.origin.afterAll y.toList).offset := by
  rw [Point.offset_afterAll, String.ofList_toList]
  exact (Nat.zero_add _).symm

-- ============================================== the end of a statement

/-- The byte of the text at which a statement ends. A rule invocation is
followed by its semicolon, all other statements hold theirs. -/
def Statement.stop (text : List Char) : Statement → Nat
  | .invocation _ _ span =>
    (Cursor.ofOffset text span.last.offset).next.offset + 1
  | s => s.span.last.offset

/-- Where a statement ends whose node is known. -/
def stopOfNode (text : List Char) (t : Node) : Nat :=
  if t.kind = .ruleInvocation then
    (Cursor.ofOffset text t.last.offset).next.offset + 1
  else t.last.offset

/-- The statement that is read from a node covers the node. -/
def Covers (source : String) (text : List Char) (t : Node) (s : Statement) :
    Prop :=
  s.span = t.span source ∧ s.stop text = stopOfNode text t

theorem covers_of_ne {s : Statement} (hk : t.kind ≠ .ruleInvocation)
    (hspan : s.span = t.span source)
    (hstop : s.stop text = s.span.last.offset) : Covers source text t s := by
  refine ⟨hspan, ?_⟩
  rw [hstop, hspan, stopOfNode, if_neg hk]
  rfl

theorem covers_of_node {kind : Nonterminal} {s : Statement}
    (hk : kind ≠ .ruleInvocation)
    (hspan : s.span = (Tree.node kind c d ts).span source)
    (hstop : s.stop text = s.span.last.offset) :
    Covers source text (.node kind c d ts) s :=
  covers_of_ne hk hspan hstop

theorem simpleOfTree_covers (t : Node) :
    Yields (Covers source text t) (simpleOfTree source t) := by
  unfold simpleOfTree
  dsimp only
  split
  · next hk =>
    exact .bind fun _ _ => .pure (covers_of_ne (by rw [hk]; decide) rfl rfl)
  · next hk => exact .pure (covers_of_ne (by rw [hk]; decide) rfl rfl)
  · next hk => exact .pure (covers_of_ne (by rw [hk]; decide) rfl rfl)
  · next hk =>
    have hne : t.kind ≠ .ruleInvocation := by
      rw [hk]
      decide
    split
    · exact .bind fun _ _ => .bind fun _ _ => .pure (covers_of_ne hne rfl rfl)
    · exact .bind fun _ _ => .bind fun _ _ => .bind fun _ _ => .bind fun _ _ =>
        .pure (covers_of_ne hne rfl rfl)
    · exact .throw _
    · exact .throw _
  · next hk =>
    split
    · refine .bind fun _ _ => .bind fun _ _ => ?_
      split
      · exact .bind fun _ _ => .pure (covers_of_ne (by rw [hk]; decide) rfl rfl)
      · exact .throw _
    · exact .throw _
  · next hk =>
    split
    · refine .bind fun _ _ => .bind fun _ _ => .pure ⟨rfl, ?_⟩
      rw [stopOfNode, if_pos hk]
      rfl
    · exact .throw _
  · exact .throw _

theorem Statement.ofTree_covers (t : Node) :
    Yields (Covers source text t) (Statement.ofTree source t) := by
  cases t with
  | node kind first last children =>
    unfold Statement.ofTree
    split
    · exact .bind fun _ _ => .pure (covers_of_node (by decide) rfl rfl)
    · split
      · exact .bind fun _ _ => .bind fun _ _ =>
          .pure (covers_of_node (by decide) rfl rfl)
      · refine .bind fun _ _ => .bind fun _ _ => ?_
        split
        · exact .bind fun _ _ => .pure (covers_of_node (by decide) rfl rfl)
        · exact .throw _
      · split
        · exact .throw _
        · exact .throw _
    · split
      · exact .bind fun _ _ => .bind fun _ _ => .bind fun _ _ =>
          .bind fun _ _ =>
          .pure (covers_of_node (by decide) rfl rfl)
      · exact .throw _
    · split
      · exact .bind fun _ _ => .bind fun _ _ =>
          .pure (covers_of_node (by decide) rfl rfl)
      · exact .throw _
    · split
      · exact .bind fun _ _ => .bind fun _ _ =>
          .pure (covers_of_node (by decide) rfl rfl)
      · exact .bind fun _ _ => .bind fun _ _ => .bind fun _ _ =>
          .pure (covers_of_node (by decide) rfl rfl)
      · split
        · exact .throw _
        · exact .throw _
    · exact simpleOfTree_covers _

/-- The node of a statement begins and ends where the statement does, up to the
semicolon of a rule invocation. -/
theorem stopOfNode_of_statement (hpre : (Cursor.ofText text).Takes pre c)
    (h : Derives grammar .plain (nt .statement) c d [t]) :
    t.first = c ∧ stopOfNode text t = d.offset := by
  generalize hn : [t] = ns at h
  cases h with
  | node hs => exact absurd rfl hs
  | bare hs => exact absurd rfl hs
  | silent _ hbody =>
    obtain ⟨a, ha, h⟩ := hbody.alternative
    clear hbody
    rw [show (grammar.body .statement).alternatives = _
      from alternatives_statement] at ha
    rcases List.mem_append.mp ha with ha | ha
    · obtain ⟨r, hr, rfl⟩ := List.mem_map.mp ha
      have hkinds : ∀ r ∈ compoundKinds ++ closedKinds,
          grammar.retention r ≠ .silent ∧ r ≠ .ruleInvocation := by decide
      obtain ⟨_, rfl, -⟩ := h.retained (hkinds r hr).1
      obtain rfl := List.singleton_inj.mp hn
      exact ⟨rfl, if_neg (hkinds r hr).2⟩
    · obtain rfl := List.mem_singleton.mp ha
      cases h with
      | seq h hmark =>
        cases h with
        | @seq _ _ _ _ e _ _ _ hname hblanks =>
          obtain ⟨-, rfl, rfl⟩ := derives_blanks.mp hblanks
          obtain ⟨hrest, hpoint, rfl⟩ := takes_of_sign (x := ';') rfl hmark
          obtain ⟨X, hX⟩ := hname.takes
          obtain ⟨_, rfl, -⟩ := hname.retained (by decide)
          obtain rfl := List.singleton_inj.mp hn
          refine ⟨rfl, (if_pos rfl).trans ?_⟩
          change (Cursor.ofOffset text e.offset).next.offset + 1 = d.offset
          rw [(hpre.append hX).ofOffset_eq, Cursor.offset, Cursor.offset,
            hpoint, Point.offset_after]
          rfl

/-- A statement of a sequence ends where its match does. -/
theorem stop_of_statement {s : Statement}
    (hpre : (Cursor.ofText text).Takes pre c)
    (h : Derives grammar .plain (nt .statement) c d [t])
    (hs : Statement.ofTree source t = .ok s) :
    s.span.first = c.point ∧ s.stop text = d.offset := by
  obtain ⟨hspan, hstop⟩ : Covers source text t s :=
    Statement.ofTree_covers t s hs
  obtain ⟨hfirst, hlast⟩ := stopOfNode_of_statement hpre h
  rw [hspan, hstop]
  exact ⟨congrArg Cursor.point hfirst, hlast⟩

-- ========================================= choices with another branch

theorem Block.ofTree_span (t : Node) :
    Yields (fun b => b.span = t.span source)
      (Block.ofTree source context t) := by
  cases t with
  | node =>
    unfold Block.ofTree
    exact .bind fun _ _ => .bind fun _ _ => .pure rfl

/-- Where the first branch of a choice ends, if there is another one. -/
def Statement.branchEnd? : Statement → Option Nat
  | .choice _ yes (some _) _ => some yes.span.last.offset
  | _ => none

/-- Three nodes below a choice are its condition and its two branches. -/
theorem Statement.ofTree_choice (condition yes no : Node) :
    Yields (fun s => s.branchEnd? = some yes.last.offset) (Statement.ofTree
      source (.node .ifStatement c d [condition, yes, no])) := by
  unfold Statement.ofTree
  refine .bind fun _ _ => .bind fun yes' hyes => ?_
  split
  · refine .bind fun _ _ => .pure ?_
    rw [branchEnd?, Block.ofTree_span yes yes' hyes]
    rfl
  · exact .throw _

/-- The first branch of a choice with another branch ends with the block. -/
theorem branchEnd_of_else {s : Statement} {n : Node}
    (ho : Opening .ifStatement c e g xs n)
    (helse : Derives grammar .plain elseBranch g d ys)
    (hs : Statement.ofTree source (.node .ifStatement c d (xs ++ [n] ++ ys)) =
      .ok s) : s.branchEnd? = some g.offset := by
  obtain ⟨condition, -, rfl⟩ : ∃ t, Is [.disjunction] t ∧ xs = [t] := by
    simpa [head] using ho.head.leaves
  obtain ⟨no, -, rfl⟩ : ∃ t, Is [.ifStatement, .block] t ∧ ys = [t] := by
    simpa (disch := decide) [elseBranch, leaves_nt] using helse.leaves
  obtain ⟨_, hblock, -⟩ := ho.block.retained (by decide)
  obtain rfl := List.singleton_inj.mp hblock
  exact Statement.ofTree_choice _ _ _ s hs

-- ============================================================== errors

/-- The error of a text that is no program has a second place, if the statement
around it begins before the first. -/
theorem mismatch_within {t : Attempts Nonterminal} {primary : Span}
    (hprimary : (mismatch source .program text t).spans.head? = some primary)
    (hb : b.offset < primary.first.offset)
    (hbegins : b.offset ≤ t.furthest → enclosingStatement t.furthest text = b) :
    (mismatch source .program text t).spans =
      [primary, .ofPoint source b.point] := by
  have hfirst : primary = .ofPoint source (Point.ofOffset text t.furthest) := by
    unfold mismatch at hprimary
    dsimp only at hprimary
    rw [if_pos rfl] at hprimary
    split at hprimary <;> exact (Option.some.inj hprimary).symm
  have hlt : b.offset < t.furthest := by
    rw [hfirst] at hb
    exact Nat.lt_of_lt_of_le hb (Nat.min_le_left _ _)
  unfold mismatch
  dsimp only
  rw [if_pos rfl, hbegins (Nat.le_of_lt hlt)]
  change (if b.offset < t.furthest then _ else _ : Error).spans = _
  rw [if_pos hlt, hfirst]
  rfl

/-- If there is no parse of a tidy text, then the grammar does not match. -/
theorem mismatch_of_error {y : String} {err : Error}
    (hy : tidy .gap y.toList = true) (h : Program.parse source y = .error err) :
    ∃ t, err = mismatch source .program y.toList t := by
  have hf :=
    grammar.fst_run_eq_found .plain (.ofText y.toList) .none (nt .program)
  rcases hrun : grammar.run .plain (.call .program)
      (.ofText y.toList) .none with ⟨_ | f, t⟩
  · unfold Program.parse parseTree matchAt at h
    rw [hrun] at h
    exact ⟨t, (Except.error.inj h).symm⟩
  · rw [nt, hrun] at hf
    obtain ⟨ts, hs, he, -⟩ :=
      sequence_of_program (derives_of_found hf.symm) (alone_of_tidy hy)
    obtain ⟨p, hp, -⟩ := parse_of_sequence source hs he
    cases hp.symm.trans h

-- =========================================== programs that are cut off

variable {x y z : String} {p : Program} {s : Statement} {err : Error}
  {primary : Span}

/-- What is left of a statement is no statement, if the statements before it
with it are no program. -/
theorem found_none_of_cut {us ws : List Char} {start : Cursor}
    (h : Derives grammar .plain (nt .statement) b d [t])
    (hb : alone.Gap b.rest b.rest) (hcut : b.rest = us ++ (ws ++ d.rest))
    (hws : ws ≠ []) (hbranch : ¬ Branching b d t us)
    (hseq : Sequence start ts ⟨us, b.point⟩)
    (hend : ∀ ts e, Sequence start ts e → e.rest ≠ []) :
    grammar.found .plain (nt .statement) ⟨us, b.point⟩ = none := by
  cases hf : grammar.found .plain (nt .statement) ⟨us, b.point⟩ with
  | none => rfl
  | some f =>
    have h' := derives_of_found hf
    obtain ⟨t', ht'⟩ := single_of_statement h'
    rw [ht'] at h'
    by_cases hnil : f.stop.rest = []
    · -- The statement goes to the end of what is left.
      have hbounded : bounded f.stop.rest = true := by
        rw [hnil]
        rfl
      refine absurd ?_ (hend _ _ (hseq.append (.more h' hbounded (.done _))))
      rw [Cursor.next, hnil]
      rfl
    · exact absurd (branching_of_shorter h hb hcut hws h' hnil) hbranch

/-- A choice with another branch is cut in front of the end of the first. -/
theorem not_branching {us : List Char} (hpre : (Cursor.ofText text).Takes pre b)
    (hs : Statement.ofTree source t = .ok s)
    (hcut : ∀ n ∈ s.branchEnd?,
      (Point.origin.afterAll (pre ++ us)).offset < n) :
    ¬ Branching b d t us := by
  rintro ⟨e, g, xs, n, ys, Y, Z, ho, helse, rfl, hY, rfl⟩
  have hlt := hcut _ (branchEnd_of_else ho helse hs)
  rw [Cursor.offset, (hpre.append hY).point, ← List.append_assoc,
    Point.afterAll_append] at hlt
  exact absurd hlt (Nat.not_lt.mpr (Point.offset_le_afterAll _ _))

/-- If a program is cut off inside of a statement and what is left is no
program, then the error has two places, if it is not at the very beginning of
the statement: the second one is where the statement begins. -/
theorem truncated_statement (hx : tidy .gap (y ++ z).toList = true)
    (hp : Program.parse source (y ++ z) = .ok p) (hs : s ∈ p.statements)
    (hfirst : s.span.first.offset < y.utf8ByteSize)
    (hstop : y.utf8ByteSize < s.stop (y ++ z).toList)
    (hcut : ∀ n ∈ s.branchEnd?, y.utf8ByteSize < n)
    (herr : Program.parse source y = .error err)
    (hprimary : err.spans.head? = some primary)
    (hbehind : s.span.first.offset < primary.first.offset) :
    err.spans = [primary, .ofPoint source s.span.first] := by
  obtain ⟨all, e, hseq, he, hread⟩ := (parse_iff_sequence hx).mp hp
  obtain ⟨t, ht, hst⟩ := Yields.of_mapM _ (mapM_of_program hseq hread) s hs
  obtain ⟨ts, ns, rfl⟩ := List.append_of_mem ht
  obtain ⟨b, d, hbefore, hstatement, hbounded, -⟩ := hseq.split
  obtain ⟨A, hA⟩ := hbefore.takes
  have hpre := (Cursor.takes_next _).append hA
  obtain ⟨X, hX⟩ := hstatement.takes
  obtain ⟨hfirst', hstop'⟩ := stop_of_statement hpre hstatement hst
  rw [hfirst'] at hfirst hbehind ⊢
  rw [hstop'] at hstop
  rw [utf8ByteSize_eq_offset] at hfirst hstop hcut
  rw [String.toList_append] at hx hpre hbefore
  obtain ⟨us, ws, hus, hws, hy, hrest⟩ := exists_cut hpre hX hfirst hstop
  -- What is left is the same sequence up to the statement.
  have hgap := hbefore.gap (alone_of_tidy hx)
  obtain ⟨ts', hseq'⟩ := hbefore.cut hx hpre hrest hus
    (elseless_of_cut hstatement hgap hrest hbounded hus)
  rw [← hy] at hseq'
  -- There is no further statement, as what is left is no program.
  have hnone := found_none_of_cut hstatement hgap hrest hws
    (not_branching hpre hst (hy ▸ hcut)) hseq' fun us f hseq hnil => by
      obtain ⟨q, hq, -⟩ := parse_of_sequence source hseq hnil
      cases hq.symm.trans herr
  obtain ⟨attempts, rfl⟩ := mismatch_of_error (tidy_of_append hx) herr
  exact mismatch_within (b := ⟨us, b.point⟩) hprimary hbehind fun hle =>
    enclosingStatement_of_sequence hseq' hle hnone

/-- A choice that is cut off in its first branch. -/
theorem truncated_choice :
    ∃ p err, Program.parse "t"
      ("k ;\nif a \x7b b" ++ " ; \x7d else \x7b \x7d") = .ok p ∧
      Program.parse "t" "k ;\nif a \x7b b" = .error err ∧
      ∃ s ∈ p.statements, ∃ primary ∈ err.spans.head?,
        s.span.first.offset = 4 ∧ primary.first.offset = 12 ∧
        err.spans = [primary, .ofPoint "t" s.span.first] := by
  have hparse : (Program.parse "t"
      ("k ;\nif a \x7b b" ++ " ; \x7d else \x7b \x7d")).toOption.elim
      false (fun p => decide (∃ s ∈ p.statements, s.span.first.offset = 4 ∧
        12 < s.stop ("k ;\nif a \x7b b" ++ " ; \x7d else \x7b \x7d").toList ∧
        ∀ n ∈ s.branchEnd?, 12 < n)) = true := by
    decide +kernel
  have herror :
      (Program.parse "t" "k ;\nif a \x7b b").error?.elim false (fun err =>
      decide (∃ primary ∈ err.spans.head?, primary.first.offset = 12)) =
        true := by
    decide +kernel
  obtain ⟨p, hp, htest⟩ := Except.exists_ok_of_elim hparse
  obtain ⟨err, herr, htest'⟩ := Except.exists_error_of_elim herror
  obtain ⟨s, hs, hfirst, hstop, hcut⟩ := of_decide_eq_true htest
  obtain ⟨primary, hprimary, hoffset⟩ := of_decide_eq_true htest'
  refine ⟨p, err, hp, herr, s, hs, primary, hprimary, hfirst, hoffset, ?_⟩
  refine truncated_statement (by decide +kernel) hp hs ?_ hstop hcut herr
    hprimary ?_
  · rw [hfirst]
    decide +kernel
  · rw [hfirst, hoffset]
    decide

/-- A statement of a program is cut off, and the error lies inside of it but
does not name it. -/
def Misnamed (y z : String) : Prop :=
  ∃ p err, Program.parse "t" (y ++ z) = .ok p ∧
    Program.parse "t" y = .error err ∧
    ∃ s ∈ p.statements, s.span.first.offset < y.utf8ByteSize ∧
      y.utf8ByteSize < s.stop (y ++ z).toList ∧
      ∃ primary ∈ err.spans.head?, s.span.first.offset < primary.first.offset ∧
        err.spans ≠ [primary, .ofPoint "t" s.span.first]

/-- Behind the first branch of a choice another statement may be named, and also
in a text that is not tidy. -/
theorem truncated_elsewhere :
    Misnamed "if a \x7b \x7d el" "se \x7b \x7d" ∧
      Misnamed "if a \x7b#x ;\n b" " ; \x7d" := by
  have misnamed {y z : String}
      (htest : (Program.parse "t" (y ++ z)).toOption.elim false
        (fun p => (Program.parse "t" y).error?.elim false fun err =>
        decide (∃ s ∈ p.statements, s.span.first.offset < y.utf8ByteSize ∧
          y.utf8ByteSize < s.stop (y ++ z).toList ∧
          ∃ primary ∈ err.spans.head?,
            s.span.first.offset < primary.first.offset ∧
            err.spans ≠ [primary, .ofPoint "t" s.span.first])) = true) :
            Misnamed y z := by
    obtain ⟨p, hp, htest⟩ := Except.exists_ok_of_elim htest
    obtain ⟨err, herr, htest⟩ := Except.exists_error_of_elim htest
    exact ⟨p, err, hp, herr, of_decide_eq_true htest⟩
  exact ⟨misnamed (by decide +kernel), misnamed (by decide +kernel)⟩

end Jam
