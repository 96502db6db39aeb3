/-
Statements that are cut off.

What is left of a statement that is cut off may begin with a statement
again. If something follows that one, then the whole statement begins with
the same: a statement does not depend on what follows it, and only a break
and a continue end with a semicolon that does not stand alone. But the
whole statement is longer. So there is no such statement, except for the
first part of a choice, whose other branch was cut off
(`branching_of_shorter`).
-/
import Jam.Proofs.Grammar.Greedy
import Jam.Proofs.Grammar.Replay

namespace Jam

open Nonterminal
open Comparison (alone)

variable {r : Nonterminal} {b c d e f : Cursor} {φ : Phase}
  {A us ws xs ys zs : List Char} {x : Char} {t t' : Node} {ns ts : List Node}

-- ============================================== texts that are cut off

/-- A tidy text may be cut off. -/
theorem Aligned.take (h : Aligned alone φ xs ys) (hxs : xs = us ++ ws) :
    Aligned alone φ us us := by
  have ended : Aligned alone .word [] [] := .pause rfl rfl rfl .nothing
  induction h generalizing us with
  | nothing =>
    obtain ⟨rfl, -⟩ := List.append_eq_nil_iff.mp hxs.symm
    exact .nothing
  | fresh hc hq _ _ ih =>
    cases us with
    | nil => exact .nothing
    | cons =>
      cases hxs
      exact .fresh hc hq (fun _ _ => trivial) (ih rfl)
  | stop hcut => exact hcut.elim
  | quote _ ih =>
    cases us with
    | nil => exact .nothing
    | cons =>
      cases hxs
      exact .quote (ih rfl)
  | inside hc _ ih =>
    cases us with
    | nil => exact ended
    | cons =>
      cases hxs
      exact .inside hc (ih rfl)
  | pause hb _ _ _ ih =>
    subst hxs
    cases us with
    | nil => exact ended
    | cons u us =>
      have hb : bounded (u :: us) = true := hb
      refine .pause hb hb rfl ?_
      cases hs : strip false (u :: us) with
      | nil => exact .nothing
      | cons y zs =>
        -- The cut is behind the blanks.
        have happend : strip false (lead false (u :: us) ++ y :: (zs ++ ws)) =
            y :: (zs ++ ws) :=
          (lead_append hs (isInner_of_strip hs)).2
        rw [← List.cons_append, ← hs, ← List.append_assoc, lead_append_strip,
          hs] at happend
        exact ih happend
  | unclosed =>
    obtain ⟨rfl, -⟩ := List.append_eq_nil_iff.mp hxs.symm
    exact .unclosed
  | plain hq hb _ ih =>
    cases us with
    | nil => exact .unclosed
    | cons =>
      cases hxs
      exact .plain hq hb (ih rfl)
  | closing _ ih =>
    cases us with
    | nil => exact .unclosed
    | cons =>
      cases hxs
      exact .closing (ih rfl)
  | backslash _ ih =>
    cases us with
    | nil => exact .unclosed
    | cons =>
      cases hxs
      exact .backslash (ih rfl)
  | broken =>
    obtain ⟨rfl, -⟩ := List.append_eq_nil_iff.mp hxs.symm
    exact .broken
  | escaped _ ih =>
    cases us with
    | nil => exact .broken
    | cons =>
      cases hxs
      exact .escaped (ih rfl)

-- ====================================== the mark of a simple statement

/-- A simple statement has no first mark but its semicolon. -/
theorem Simple.eq_semicolon (h : Simple r c e d ns) (hc : c.rest = A ++ x :: zs)
    (hm : Marked .gap A x) (hz : bounded zs = true)
    (hd : bounded d.rest = true) : x = ';' := by
  have hg :=
    hm.2 (.upTo x zs zs hm.1 hz hz) zs zs (fun _ => rfl) ⟨rfl, rfl, rfl⟩
  rw [← hc] at hg
  have hg' :=
    gap_of_phrase (fun _ => .heads h.mem_headKinds) hg rfl h.head h.blanks
  rw [h.mark] at hg'
  exact (cut_of_gap id hg' rfl hd).1.symm

/-- A break or a continue stays the same, whatever is glued to its semicolon. -/
theorem Simple.glued_elsewhere {X : List Char} (h : Simple r c e d ns)
    (hr : r ∈ [.breakStatement, .continueStatement]) (hX : c.Takes X d)
    (zs : List Char) :
    ∃ ns', Derives grammar .plain (nt .statement) ⟨X ++ zs, c.point⟩
      ⟨zs, d.point⟩ ns' := by
  have hs : ∀ r ∈ [.breakStatement, .continueStatement],
      r ∈ closedKinds ∧ r ∈ keywordKinds ∧ r ≠ .returnStatement ∧
      grammar.retention r ≠ .silent ∧ grammar.retention r ≠ .leaf := by
    decide
  obtain ⟨hclosed, hkeyword, hne, hsilent, hleaf⟩ := hs r hr
  obtain ⟨text, htext⟩ : ∃ text, Nonterminal.head r = Peg.lit text := by
    simp only [List.mem_cons, List.not_mem_nil, or_false] at hr
    rcases hr with rfl | rfl <;> exact ⟨_, rfl⟩
  have hhead := h.head
  rw [htext] at hhead
  obtain ⟨hlit, -⟩ := takes_of_lit hhead
  have hmark : e.next.Takes [';'] ⟨d.rest, e.next.point.after ';'⟩ :=
    ⟨h.mark, rfl⟩
  have hall := (hlit.append e.takes_next).append hmark
  obtain rfl : X = text.toList ++ lead false e.rest ++ [';'] :=
    List.append_cancel_right (hX.rest.symm.trans hall.rest)
  have hfront : Derives grammar .plain (Peg.lit text)
      ⟨text.toList ++ (lead false e.rest ++ ';' :: zs), c.point⟩
      ⟨lead false e.rest ++ ';' :: zs, e.point⟩ [] := by
    rw [hlit.point]
    exact derives_lit rfl
  have hblanks : Derives grammar .plain (nt .blanks)
      ⟨lead false e.rest ++ ';' :: zs, e.point⟩ ⟨';' :: zs, e.next.point⟩ [] :=
    blanks_elsewhere h.blanks h.mark rfl
  have hsign : Derives grammar .plain (Peg.lit ";") ⟨';' :: zs, e.next.point⟩
      ⟨zs, e.next.point.after ';'⟩ [] := derives_sign rfl rfl
  have hbody : Derives grammar .plain (grammar.body r)
      ⟨text.toList ++ (lead false e.rest ++ ';' :: zs), c.point⟩
      ⟨zs, e.next.point.after ';'⟩ ([] ++ [] ++ []) := by
    rw [show grammar.body r = _ from body_of_closed hclosed, htext]
    exact .seq (.seq hfront hblanks) hsign
  rw [show d.point = e.next.point.after ';' from hX.point.trans hall.point.symm]
  refine ⟨[.node r _ _ []],
    statement_of_keyword hkeyword hne (.node hsilent ?_ ?_)⟩
  · rw [Grammar.ownMode_plain]
    rfl
  · rw [Grammar.bodyMode_plain hleaf]
    simpa using hbody

/-- A simple statement that something follows stays the same if the text goes
on. -/
theorem Simple.extend {X : List Char} (hs : Simple r c e d ns)
    (h : Derives grammar .plain (nt .statement) c d [t])
    (hc : alone.Gap c.rest c.rest) (hX : c.Takes X d) (hd : d.rest ≠ [])
    (zs : List Char) :
    ∃ ns', Derives grammar .plain (nt .statement) ⟨X ++ (d.rest ++ zs), c.point⟩
      ⟨d.rest ++ zs, d.point⟩ ns' := by
  obtain ⟨x, xs, hx⟩ := List.exists_cons_of_ne_nil hd
  have hword := word_of_statement h hc
  by_cases hb : bounded d.rest = true
  · have hb' : bounded (d.rest ++ zs) = true := by
      rw [hx] at hb ⊢
      exact hb
    obtain ⟨t', h', -⟩ := hs.elsewhere h hX hc hb hb'
    exact ⟨_, h'⟩
  · rw [hx] at hword hb
    have hin : isInner x = true := by
      cases hword with
      | inside hin => exact hin
      | pause hb' => exact absurd hb' hb
    exact hs.glued_elsewhere (hs.keyword_of_glued hx hin) hX _

-- ========================================= statements that are cut off

/-- A statement does not end twice. -/
theorem not_shorter {p : Point}
    (h : Derives grammar .plain (nt .statement) c d [t]) (hws : ws ≠ [])
    (h' : Derives grammar .plain (nt .statement) c
      ⟨zs ++ (ws ++ d.rest), p⟩ ns) : False := by
  have hend :=
    congrArg Match.stop (Option.some.inj (h.found.symm.trans h'.found))
  have hlen := congrArg (fun c => c.rest.length) hend
  simp only [List.length_append] at hlen
  exact hws (List.length_eq_zero_iff.mp (by omega))

/-- A choice with another branch, of which the first is among these
characters. -/
def Branching (c d : Cursor) (t : Node) (us : List Char) : Prop :=
  ∃ e g xs b ys Y Z,
    Opening .ifStatement c e g xs b ∧ Derives grammar .plain elseBranch g d ys ∧
    t = .node .ifStatement c d (xs ++ [b] ++ ys) ∧ c.Takes Y g ∧ us = Y ++ Z

section Cut

variable (h : Derives grammar .plain (nt .statement) c d [t])
  (hc : alone.Gap c.rest c.rest) (hcut : c.rest = us ++ (ws ++ d.rest))
include h hc hcut

/-- What is left of a statement is no other branch of a choice. -/
theorem elseless_of_cut (hd : bounded d.rest = true) (hus : us ≠ []) :
    Elseless us := by
  rcases statement_cases h with ⟨r, e, ns, hs⟩ | ⟨r, hr, h⟩
  · have hgap : alone.Gap us us := Aligned.take hc hcut
    intro c' d' ns' hc' helse
    rcases first_mark_of_aligned hgap with ⟨A, x, zs, hus, hz, hm⟩ | hnone
    · have hg :=
        hm.2 (.upTo x zs zs hm.1 hz hz) zs zs (fun _ => rfl) ⟨rfl, rfl, rfl⟩
      rw [← hus, ← hc'] at hg
      obtain ⟨zs, hne, hx, rfl, -⟩ := cut_of_else id hg (fun _ => rfl) helse
      -- The brace of the other branch would be the first mark of the statement.
      obtain ⟨z, zs, rfl⟩ := List.exists_cons_of_ne_nil hne
      subst hus
      have hrest : c.rest = A ++ x :: z :: (zs ++ (ws ++ d.rest)) := by
        simpa using hcut
      have hmark : x = ';' := hs.eq_semicolon hrest hm hz hd
      rw [← hx] at hmark
      exact absurd hmark (by decide)
    · have hg := hnone (.cutting (fun _ _ _ => False) False.elim) fun _ => rfl
      rw [← hc'] at hg
      obtain ⟨zs, -, hcut⟩ := cut_of_else id hg (fun _ => rfl) helse
      exact hcut
  · obtain ⟨ys, hy⟩ := starts_of_keyword (keyword_of_compound hr).1 h
    refine elseless_of_head fun x hx => ?_
    obtain ⟨u, us, rfl⟩ := List.exists_cons_of_ne_nil hus
    obtain rfl := Option.some.inj hx
    obtain ⟨rfl, -⟩ := List.cons.inj (hcut.symm.trans hy)
    have hne : ∀ r ∈ compoundKinds, initial r ≠ 'e' := by decide
    exact hne r hr

/-- If what is left of a statement begins with a shorter statement, then this is
the first part of a choice that had another branch. -/
theorem branching_of_shorter (hws : ws ≠ [])
    (h' : Derives grammar .plain (nt .statement) ⟨us, c.point⟩ f [t'])
    (hf : f.rest ≠ []) : Branching c d t us := by
  have hgap : alone.Gap us us := Aligned.take hc hcut
  obtain ⟨Y, hY⟩ := h'.takes
  have htext : Y ++ (f.rest ++ (ws ++ d.rest)) = c.rest := by
    rw [← List.append_assoc, ← hY.rest, ← hcut]
  rcases statement_cases h' with ⟨r, e, ns, hs⟩ | ⟨r, hr, hcompound⟩
  · obtain ⟨ns', hshort⟩ := hs.extend h' hgap hY hf (ws ++ d.rest)
    rw [htext] at hshort
    exact (not_shorter h hws hshort).elim
  · have shorter {ns' : List Node} {p : Point}
        (hn : Derives grammar .plain (nt r) ⟨Y ++ (f.rest ++ (ws ++ d.rest)),
          c.point⟩ ⟨f.rest ++ (ws ++ d.rest), p⟩ ns') : False := by
      rw [htext] at hn
      exact not_shorter h hws (statement_of_compound hr hn)
    simp only [compoundKinds, List.mem_cons] at hr
    rcases hr with rfl | rfl | hr
    · obtain ⟨_, hblock, -⟩ :=
        block_elsewhere hcompound hY hgap (f.rest ++ (ws ++ d.rest))
      exact (shorter hblock).elim
    · obtain ⟨e, g, xs, b, ys, ho, helse, -⟩ := opening_of_if.mp hcompound
      obtain ⟨X, hX⟩ := ho.derives.takes
      obtain ⟨Z, hZ⟩ := helse.takes
      obtain rfl := hY.unique (hX.append hZ)
      obtain ⟨e', xs', b', ho', -⟩ :=
        ho.elsewhere hX hgap (Z ++ (f.rest ++ (ws ++ d.rest)))
      rw [← List.append_assoc, htext] at ho'
      -- Where the block of the choice ends, the whole statement goes on with
      -- another branch.
      cases hf' : grammar.found .plain elseBranch
          ⟨Z ++ (f.rest ++ (ws ++ d.rest)), g.point⟩ with
      | none =>
        have hif :=
          opening_of_if.mpr ⟨e', _, xs', b', [], ho', .without hf', rfl⟩
        rw [← List.append_assoc] at hif
        exact (not_shorter h hws (statement_of_compound (by decide) hif)).elim
      | some m =>
        have helse' := derives_of_found hf'
        have hif :=
          opening_of_if.mpr ⟨e', _, xs', b', m.nodes, ho', .with helse', rfl⟩
        have hmatch :=
          h.found.symm.trans (statement_of_compound (by decide) hif).found
        obtain ⟨hstop, hnode⟩ := Match.mk.inj (Option.some.inj hmatch)
        rw [← hstop] at helse' hnode
        refine ⟨e', _, xs', b', m.nodes, X, Z ++ f.rest, ho', helse',
          List.singleton_inj.mp hnode, ⟨?_, hX.point⟩, ?_⟩
        · rw [← htext, List.append_assoc]
        · rw [← List.append_assoc]
          exact hY.rest
    · obtain ⟨e, xs, b, ho, -⟩ := (opening_of_block hr).mp hcompound
      obtain ⟨e', xs', b', ho', -⟩ :=
        ho.elsewhere hY hgap (f.rest ++ (ws ++ d.rest))
      exact (shorter ((opening_of_block hr).mpr ⟨e', xs', b', ho', rfl⟩)).elim

end Cut

-- ========================================== sequences that are cut off

/-- A sequence up to one of its statements, and from there on. -/
theorem Sequence.split (h : Sequence c (ts ++ t :: ns) e) :
    ∃ b d, Sequence c ts b ∧ Derives grammar .plain (nt .statement) b d [t] ∧
      bounded d.rest = true ∧ Sequence d.next ns e := by
  induction ts generalizing c with
  | nil =>
    cases h with
    | more hs hb hseq => exact ⟨c, _, .done c, hs, hb, hseq⟩
  | cons t' ts ih =>
    cases h with
    | more hs hb hseq =>
      obtain ⟨b, d, hfront, hrest⟩ := ih hseq
      exact ⟨b, d, .more hs hb hfront, hrest⟩

/-- The statements before a cut are the same, if the text goes on with the same
word. -/
theorem Sequence.cut {pre : List Char}
    (h : Sequence (Cursor.ofText xs).next ts b) (hx : tidy .gap xs = true)
    (hpre : (Cursor.ofText xs).Takes pre b) (hb : b.rest = us ++ ws)
    (hus : us ≠ []) (he : Elseless us) :
    ∃ ts', Sequence (Cursor.ofText (pre ++ us)).next ts' ⟨us, b.point⟩ := by
  obtain ⟨X, hX⟩ := h.takes
  obtain rfl := hpre.unique ((Cursor.takes_next _).append hX)
  have hc := alone_of_tidy hx
  obtain ⟨u, us, rfl⟩ := List.exists_cons_of_ne_nil hus
  have hg := h.gap hc
  rw [hb] at hg
  have hin : isInner u = true := inner_of_gap hg
  obtain ⟨c', ts', hseq, -, hreach, -⟩ :=
    h.elsewhere hX hc (redirects_word hb hin hin) he
  obtain ⟨-, rfl⟩ :=
    hreach (.ofText xs) _ rfl (Cursor.takes_next (.ofText xs)).rest
  rw [List.append_assoc]
  exact ⟨ts', hseq⟩

end Jam
