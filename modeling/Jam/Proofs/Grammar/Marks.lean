/-
The first mark of a statement.

What a statement is, as far as a stop mark can tell, is told by the first
stop mark that stands alone: by a semicolon a simple statement ends, with
a brace the block of a compound one begins. Nothing before that mark looks
behind it. So a text may be cut at its first mark (`Marked`), and the head
of a statement is the same whatever follows.

Each tidy text has a first mark or has none (`first_mark_of_aligned`). In
either case it is in step with itself under a comparison that goes no
further, and under such a comparison there is no other mark that stands
alone (`cut_of_gap`). This is how it is shown that the mark behind the head
of a statement is the first.
-/
import Jam.Proofs.Grammar.Shapes

namespace Jam

open Nonterminal
open Comparison (alone)

-- ============================================ comparisons that are cut

/-- The same text in the same places, to one of these marks. -/
def Comparison.cutting (cut : Char → List Char → List Char → Prop)
    (hcut : ∀ {c xs ys}, cut c xs ys →
      isStop c = true ∧ bounded xs = true ∧ bounded ys = true) :
    Comparison where
  left := id
  right := id
  after c h := by rw [id, id] at h ⊢; rw [h]
  gaps u w := u = w
  afterAll hu h := by
    rw [id, id] at h ⊢
    rw [hu, h]
  whole := False
  cut := cut
  cut_stop h := ⟨id, hcut h⟩

/-- The comparison of texts that go on differently behind a mark. -/
def Comparison.upTo (b : Char) (zs ws : List Char) (hb : isStop b = true)
    (hz : bounded zs = true) (hw : bounded ws = true) : Comparison :=
  cutting (fun c us vs => c = b ∧ us = zs ∧ vs = ws) fun h => by
    obtain ⟨rfl, rfl, rfl⟩ := h
    exact ⟨hb, hz, hw⟩

variable {v : Comparison} {φ : Phase} {A : List Char} {b : Char}
  {xs ys zs ws : List Char}

-- ====================================================== the first mark

/-- The stop mark `b` behind `A` is the first that stands alone: texts may go on
in any way behind it. -/
def Marked (φ : Phase) (A : List Char) (b : Char) : Prop :=
  isStop b = true ∧ ∀ (v : Comparison) (zs ws : List Char), (∀ u, v.gaps u u) →
    v.cut b zs ws → Aligned v φ (A ++ b :: zs) (A ++ b :: ws)

/-- Blanks in front of a word do not depend on how the text goes on. -/
theorem lead_append_of_strip {inside : Bool} {cs : List Char}
    (h : strip inside cs = A ++ b :: ys) (hb : isInner b = true)
    (zs : List Char) :
    lead inside (lead inside cs ++ (A ++ b :: zs)) = lead inside cs ∧
      strip inside (lead inside cs ++ (A ++ b :: zs)) = A ++ b :: zs := by
  cases A with
  | nil => exact lead_append h hb
  | cons a A => exact lead_append h (isInner_of_strip h)

theorem isInner_of_stop {c : Char} (h : isStop c = true) :
    isInner c = true := by
  simp only [isStop, Bool.or_eq_true, beq_iff_eq] at h
  rcases h with (rfl | rfl) | rfl <;> decide

/-- A text with no further blanks begins with a word. -/
theorem bounded_lead_append (hb : bounded xs = true)
    (h : strip false xs = A ++ b :: ys) (zs : List Char) :
    bounded (lead false xs ++ (A ++ b :: zs)) = true := by
  rw [← List.append_assoc, bounded_append_cons _ b zs ys, List.append_assoc,
    ← h, lead_append_strip]
  exact hb

/-- A tidy text has a first mark, or can be compared without one. -/
theorem first_mark_of_aligned (h : Aligned alone φ xs ys) :
    (∃ A b zs, xs = A ++ b :: zs ∧ bounded zs = true ∧ Marked φ A b) ∨
      ∀ v : Comparison, (∀ u, v.gaps u u) → Aligned v φ xs xs := by
  -- Along the text: where one more character stands in front, the mark stays
  -- the first.
  have further {ψ χ : Phase} {c : Char} {xs : List Char}
      (step : ∀ {v : Comparison} {zs ws}, Aligned v ψ zs ws →
        bounded zs = bounded xs → Aligned v χ (c :: zs) (c :: ws))
      (ih : (∃ A b zs, xs = A ++ b :: zs ∧ bounded zs = true ∧ Marked ψ A b) ∨
        ∀ v : Comparison, (∀ u, v.gaps u u) → Aligned v ψ xs xs) :
      (∃ A b zs, c :: xs = A ++ b :: zs ∧ bounded zs = true ∧ Marked χ A b) ∨
        ∀ v : Comparison, (∀ u, v.gaps u u) →
          Aligned v χ (c :: xs) (c :: xs) := by
    rcases ih with ⟨A, b, zs, rfl, hz, hb, hm⟩ | h
    · refine .inl ⟨c :: A, b, zs, rfl, hz, hb, fun v zs' ws hv hcut => ?_⟩
      exact step (hm v zs' ws hv hcut) (bounded_append_cons A b zs' zs)
    · exact .inr fun v hv => step (h v hv) rfl
  induction h with
  | nothing => exact .inr fun _ _ => .nothing
  | @fresh c xs _ hc hq _ _ ih =>
    by_cases hs : isStop c = true ∧ bounded xs = true
    · exact .inl ⟨[], c, xs, rfl, hs.2, hs.1, fun _ _ _ _ hcut => .stop hcut⟩
    · refine further
        (fun hw hb => .fresh hc hq (fun hstop hbounded => ?_) hw) ih
      exact absurd ⟨hstop, hb ▸ hbounded⟩ hs
  | stop hcut => exact hcut.elim
  | quote _ ih => exact further (fun h _ => .quote h) ih
  | inside hc _ ih => exact further (fun h _ => .inside hc h) ih
  | @pause xs _ hx _ _ _ ih =>
    rcases ih with ⟨A, b, zs, hs, hz, hb, hm⟩ | h
    · refine .inl
        ⟨lead false xs ++ A, b, zs, ?_, hz, hb, fun v zs' ws hv hcut => ?_⟩
      · rw [List.append_assoc, ← hs, lead_append_strip]
      · obtain ⟨hl, hr⟩ := lead_append_of_strip hs (isInner_of_stop hb) zs'
        obtain ⟨hl', hr'⟩ := lead_append_of_strip hs (isInner_of_stop hb) ws
        rw [List.append_assoc, List.append_assoc]
        refine .pause (bounded_lead_append hx hs zs')
          (bounded_lead_append hx hs ws) ?_ ?_
        · rw [hl, hl']
          exact hv _
        · rw [hr, hr']
          exact hm v zs' ws hv hcut
    · exact .inr fun v hv => .pause hx hx (hv _) (h v hv)
  | unclosed => exact .inr fun _ _ => .unclosed
  | plain hq hb _ ih => exact further (fun h _ => .plain hq hb h) ih
  | closing _ ih => exact further (fun h _ => .closing h) ih
  | backslash _ ih => exact further (fun h _ => .backslash h) ih
  | broken => exact .inr fun _ _ => .broken
  | escaped _ ih => exact further (fun h _ => .escaped h) ih

-- ================================================ marks behind phrases

variable {e : Peg Nonterminal} {r : Nonterminal} {c d : Cursor} {x : Char}
  {ns : List Node}

/-- Behind a phrase and blanks the next word begins. -/
theorem gap_of_phrase
    (he : ∀ n, Lockstep grammar v.view v.Level n v.Gap v.Word e)
    (hg : v.Gap c.rest c.rest) (hk : v.Level c c)
    (hd : Derives grammar .plain e c d ns) (hl : lead false d.rest ≠ []) :
    v.Gap d.next.rest d.next.rest := by
  have hw := Lockstep.self he hd hk hg
  exact (gap_of_bounded hw (bounded_of_lead hw hl)).2.2

/-- A stop mark that stands alone is the one at which the comparison is cut. -/
theorem cut_of_gap (hw : ¬ v.whole) (hg : v.Gap (x :: zs) (x :: ws))
    (hx : isStop x = true) (hz : bounded zs = true) : v.cut x zs ws := by
  cases hg with
  | fresh _ _ hs => exact absurd (hs hx hz) hw
  | stop hcut => exact hcut
  | quote => cases hx

-- ================================================== marks behind heads

/-- The stop mark behind the head of a statement is its first, if it stands
alone. -/
theorem marked_of_head {zs : List Char} {e : Cursor} (hr : r ∈ headKinds)
    (hd : Derives grammar .plain (head r) c e ns) (hl : lead false e.rest ≠ [])
    (hc : alone.Gap c.rest c.rest) (hx : e.next.rest = x :: zs)
    (hs : isStop x = true) (hz : bounded zs = true) :
    ∃ A, c.rest = A ++ x :: zs ∧ Marked .gap A x := by
  rcases first_mark_of_aligned hc with ⟨A, b, ys, hrest, hy, hm⟩ | hnone
  · have hg :=
      hm.2 (.upTo b ys ys hm.1 hy hy) ys ys (fun _ => rfl) ⟨rfl, rfl, rfl⟩
    rw [← hrest] at hg
    have hg' := gap_of_phrase (fun _ => .heads hr) hg rfl hd hl
    rw [hx] at hg'
    obtain ⟨rfl, rfl, -⟩ := cut_of_gap id hg' hs hz
    exact ⟨A, hrest, hm⟩
  · have hg := hnone (.cutting (fun _ _ _ => False) False.elim) fun _ => rfl
    have hg' := gap_of_phrase (fun _ => .heads hr) hg rfl hd hl
    rw [hx] at hg'
    exact (cut_of_gap id hg' hs hz).elim

/-- The head of a statement does not depend on what follows its first mark. -/
theorem head_elsewhere {e : Cursor} (hr : r ∈ headKinds)
    (hd : Derives grammar .plain (head r) c e ns) (hl : lead false e.rest ≠ [])
    (hc : alone.Gap c.rest c.rest) (hx : e.next.rest = x :: zs)
    (hs : isStop x = true) (hz : bounded zs = true) (hw : bounded ws = true) :
    ∃ A e' ns', c.rest = A ++ x :: zs ∧
      Derives grammar .plain (head r) ⟨A ++ x :: ws, c.point⟩ e' ns' ∧
      lead false e'.rest ≠ [] ∧ e'.next = ⟨x :: ws, e.next.point⟩ ∧
      List.Forall₂ (Alike alone.view) ns ns' := by
  obtain ⟨A, hrest, hm⟩ := marked_of_head hr hd hl hc hx hs hz
  have hg := hm.2 (.upTo x zs ws hs hz hw) zs ws (fun _ => rfl) ⟨rfl, rfl, rfl⟩
  have hk : (Comparison.upTo x zs ws hs hz hw).Level c
      ⟨A ++ x :: ws, c.point⟩ := rfl
  obtain ⟨e', ns', hd', hk, hword, hns⟩ :=
    Lockstep.derives (fun _ => .heads hr) hd hk (hrest ▸ hg)
  obtain ⟨-, hgap, hg'⟩ := gap_of_bounded hword (bounded_of_lead hword hl)
  change lead false e.rest = lead false e'.rest at hgap
  refine ⟨A, e', ns', hrest, hd', fun hnil => hl (hgap.trans hnil), ?_, hns⟩
  rw [show strip false e.rest = _ from hx] at hg'
  have hrest' : strip false e'.rest = x :: ws := by
    rcases hg'.common with ⟨hnil, -⟩ | ⟨y, us, vs, heq, heq'⟩
    · cases hnil
    · cases heq
      rw [heq'] at hg' ⊢
      rw [(cut_of_gap id hg' hs hz).2.2]
  rw [Cursor.next, Cursor.next, hrest', ← hgap,
    show e'.point = e.point from hk.symm]

-- ====================================================== other branches

/-- The brace of a block stands alone, in tidy texts. -/
theorem brace_of_block (hg : v.Gap c.rest c.rest)
    (h : Derives grammar .plain (nt .block) c d ns) :
    ∃ xs, c.rest = '\x7b' :: xs ∧ xs ≠ [] ∧ bounded xs = true := by
  obtain ⟨xs, hc, hl⟩ := opened_of_block h
  refine ⟨xs, hc, fun hnil => hl (by rw [hnil]; rfl), ?_⟩
  rw [hc] at hg
  cases hg with
  | fresh _ _ _ hw => exact bounded_of_lead hw hl
  | stop hcut => exact (v.cut_stop hcut).2.2.1

/-- If there is another branch, then it begins with a block or a choice, and the
first mark is the brace of a block. -/
theorem cut_of_else (hw : ¬ v.whole) (hg : v.Gap c.next.rest c.next.rest)
    (hk : ∀ c, v.Level c c) (h : Derives grammar .plain elseBranch c d ns) :
    ∃ zs, zs ≠ [] ∧ v.cut '\x7b' zs zs := by
  have brace {c d : Cursor} {ns : List Node} (hg : v.Gap c.rest c.rest)
      (h : Derives grammar .plain (nt .block) c d ns) : ∃ zs,
      zs ≠ [] ∧ v.cut '\x7b' zs zs := by
    obtain ⟨zs, hc, hne, hb⟩ := brace_of_block hg h
    exact ⟨zs, hne, cut_of_gap hw (hc ▸ hg) rfl hb⟩
  cases h with
  | seq h hbranch =>
    cases h with
    | seq h hblanks =>
      cases h with
      | seq hbefore helse =>
        obtain ⟨-, rfl, -⟩ := derives_blanks.mp hbefore
        obtain ⟨hl, rfl, -⟩ := derives_blanks.mp hblanks
        have hg := gap_of_phrase (fun _ => .keyword rfl) hg (hk _) helse hl
        cases hbranch with
        | right _ hblock => exact brace hg hblock
        | left hif =>
          obtain ⟨e, f, xs, b, ys, ho, -, -⟩ := opening_of_if.mp hif
          exact brace (gap_of_phrase (fun _ => .heads ho.mem_headKinds) hg
            (hk _) ho.head ho.blanks) ho.block

/-- No other branch begins where these characters are the next word. -/
def Elseless (xs : List Char) : Prop :=
  ∀ c d ns, c.next.rest = xs → ¬ Derives grammar .plain elseBranch c d ns

theorem elseless_of_head (h : ∀ x ∈ xs.head?, x ≠ 'e') : Elseless xs := by
  rintro c d ns rfl hd
  cases hd with
  | seq hd =>
    cases hd with
    | seq hd =>
      cases hd with
      | seq hbefore helse =>
        obtain ⟨-, rfl, -⟩ := derives_blanks.mp hbefore
        cases helse with
        | chars hs =>
          have hrest := (Cursor.Takes.of_skip? hs).rest
          refine h 'e' ?_ rfl
          rw [hrest]
          rfl

/-- If the first mark is a semicolon, then there is no other branch. -/
theorem elseless_of_semicolon (hm : Marked .gap A ';')
    (hz : bounded zs = true) : Elseless (A ++ ';' :: zs) := by
  intro c d ns hc h
  have hg :=
    hm.2 (.upTo ';' zs zs rfl hz hz) zs zs (fun _ => rfl) ⟨rfl, rfl, rfl⟩
  rw [← hc] at hg
  obtain ⟨ws, -, hcut⟩ := cut_of_else id hg (fun _ => rfl) h
  exact absurd hcut.1 (by decide)

/-- The semicolon of a simple statement is its first mark. -/
theorem Simple.marked {e : Cursor} (h : Simple r c e d ns)
    (hc : alone.Gap c.rest c.rest) (hd : bounded d.rest = true) :
    ∃ A, c.rest = A ++ ';' :: d.rest ∧ Marked .gap A ';' :=
  marked_of_head h.mem_headKinds h.head h.blanks hc h.mark rfl hd

/-- What begins with a statement is no other branch of a choice. -/
theorem elseless_of_statement {X : List Char}
    (h : Derives grammar .plain (nt .statement) c d ns)
    (hc : alone.Gap c.rest c.rest) (hX : c.rest = X ++ d.rest)
    (hd : bounded d.rest = true) (hz : bounded zs = true) :
    Elseless (X ++ zs) := by
  rcases statement_cases h with ⟨r, e, xs, hs⟩ | ⟨r, hr, h⟩
  · obtain ⟨A, hA, hm⟩ := hs.marked hc hd
    obtain rfl : X = A ++ [';'] :=
      List.append_cancel_right
        (hX.symm.trans (hA.trans (List.append_cons A ';' d.rest)))
    rw [List.append_assoc]
    exact elseless_of_semicolon hm hz
  · obtain ⟨ys, hy⟩ := starts_of_keyword (keyword_of_compound hr).1 h
    have hlt := length_behind (statement_of_compound hr h).found rfl
    cases X with
    | nil =>
      rw [hX] at hlt
      exact absurd hlt (Nat.lt_irrefl _)
    | cons x X =>
      obtain ⟨rfl, -⟩ := List.cons.inj (hy.symm.trans hX)
      refine elseless_of_head fun x hx => ?_
      obtain rfl := Option.some.inj hx
      have hne : ∀ r ∈ compoundKinds, initial r ≠ 'e' := by decide
      exact hne r hr

end Jam
