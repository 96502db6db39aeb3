/-
Statements do not depend on what follows them.

A statement that takes a stretch `X` of a text takes the same stretch of
any other text that goes on differently behind it, and leaves a node that
is alike (`statement_elsewhere`). So does a sequence of statements
(`Sequence.elsewhere`). What may follow is all but arbitrary: it has to
begin with a blank, as the statement would not end there otherwise, and it
must not be another branch of a choice (`Elseless`).

# The induction

A simple statement ends with its first mark, and a comparison that is cut
there is all that is needed. Before the block of a compound statement there
is a head, for which the same holds; the block itself is a sequence of
shorter statements. So the induction is on the length of the stretch, and
for each length it goes from blocks to choices and to statements. A
sequence is replayed from its end: what follows a statement is only known
to be no other branch once it has been replayed itself.
-/
import Jam.Proofs.Grammar.Marks

namespace Jam

open Nonterminal
open Comparison (alone)

variable {c d e f c' d' e' : Cursor} {t : Node} {ts ns : List Node}
  {X xs zs : List Char} {n : Nat} {r : Nonterminal}

/-- What leads from one place to another is told by the places. -/
theorem Cursor.Takes.unique {Y : List Char} (h : c.Takes X d)
    (h' : c.Takes Y d) : X = Y :=
  List.append_cancel_right (h.rest.symm.trans h'.rest)

-- ==================================================== blanks elsewhere

/-- Blanks lead to the next word, whatever the word is. -/
theorem next_elsewhere {x y : Char} {us ws : List Char}
    (hx : c.next.rest = x :: us) (hy : isInner y = true) :
    lead false (lead false c.rest ++ y :: ws) = lead false c.rest ∧
      Cursor.next ⟨lead false c.rest ++ y :: ws, c.point⟩ =
      ⟨y :: ws, c.next.point⟩ := by
  obtain ⟨hl, hs⟩ : lead false (lead false c.rest ++ y :: ws) =
      lead false c.rest ∧
      strip false (lead false c.rest ++ y :: ws) = y :: ws := lead_append hx hy
  refine ⟨hl, ?_⟩
  rw [Cursor.next, hl, hs]
  rfl

theorem blanks_elsewhere {m : Mode} {x y : Char} {us ws : List Char}
    (hl : lead false c.rest ≠ []) (hx : c.next.rest = x :: us)
    (hy : isInner y = true) :
    Derives grammar m (nt .blanks) ⟨lead false c.rest ++ y :: ws, c.point⟩
      ⟨y :: ws, c.next.point⟩ [] := by
  obtain ⟨hlead, hnext⟩ : lead false (lead false c.rest ++ y :: ws) =
      lead false c.rest ∧
      Cursor.next ⟨lead false c.rest ++ y :: ws, c.point⟩ =
      ⟨y :: ws, c.next.point⟩ :=
    next_elsewhere hx hy
  exact derives_blanks.mpr ⟨hlead.symm ▸ hl, hnext.symm, rfl⟩

/-- Where blanks lead to `c`, they lead to `c'` if `xs` stands for the rest of
the text. -/
def Redirects (c : Cursor) (xs : List Char) (c' : Cursor) : Prop :=
  ∀ (d : Cursor) (L : List Char), d.next = c → d.rest = L ++ c.rest →
    (bounded d.rest = true → bounded (L ++ xs) = true) ∧
      Cursor.next ⟨L ++ xs, d.point⟩ = c'

/-- One word may stand for another. -/
theorem redirects_word {x y : Char} {us ws : List Char} (hc : c.rest = x :: us)
    (hx : isInner x = true) (hy : isInner y = true) :
    Redirects c (y :: ws) ⟨y :: ws, c.point⟩ := by
  rintro d L rfl hL
  obtain rfl : L = lead false d.rest :=
    List.append_cancel_right
      (hL.symm.trans (lead_append_strip false d.rest).symm)
  refine ⟨fun hb => ?_, (next_elsewhere hc hy).2⟩
  cases hl : lead false d.rest with
  | nil =>
    rw [hL, hl, List.nil_append, hc] at hb
    exact absurd hb (by rw [not_bounded_of_inner hx]; exact Bool.false_ne_true)
  | cons z L =>
    rw [hL, hl] at hb
    exact hb

/-- A word that begins where one does. -/
theorem inner_of_gap {x : Char} {us : List Char} {v : Comparison}
    (h : v.Gap (x :: us) (x :: us)) : isInner x = true := by
  cases h with
  | fresh hx => exact hx
  | stop hcut => exact isInner_of_stop (v.cut_stop hcut).2.1
  | quote => decide

-- ================================================= sequences elsewhere

theorem Sequence.takes (h : Sequence c ts e) : ∃ X, c.Takes X e := by
  induction h with
  | done c => exact ⟨[], .nil c⟩
  | more hs _ _ ih =>
    obtain ⟨X, hX⟩ := hs.takes
    obtain ⟨Y, hY⟩ := ih
    exact ⟨_, (hX.append (Cursor.takes_next _)).append hY⟩

/-- Matches that take less than `n` characters may stand in other texts. -/
def Movable (r : Nonterminal) (n : Nat) : Prop :=
  ∀ ⦃c d : Cursor⦄ ⦃t : Node⦄ ⦃X zs : List Char⦄, X.length < n →
    Derives grammar .plain (nt r) c d [t] → c.Takes X d →
      alone.Gap c.rest c.rest →
    bounded d.rest = true → bounded zs = true → Elseless (strip false zs) →
    ∃ t', Derives grammar .plain (nt r) ⟨X ++ zs, c.point⟩ ⟨zs, d.point⟩ [t'] ∧
      Alike alone.view t t'

/-- A sequence in another text, if its statements may stand there. -/
theorem Sequence.elsewhere_of (hn : Movable .statement n)
    (h : Sequence c ts e) :
    ∀ {X}, X.length < n → c.Takes X e → alone.Gap c.rest c.rest →
      Redirects e zs e' → Elseless e'.rest →
      ∃ c' ts', Sequence c' ts' e' ∧ List.Forall₂ (Alike alone.view) ts ts' ∧
        Redirects c (X ++ zs) c' ∧ Elseless c'.rest := by
  induction h with
  | done c =>
    intro X _ hX _ hr he
    obtain rfl : X = [] := List.append_left_eq_self.mp hX.rest.symm
    exact ⟨e', [], .done e', .nil, hr, he⟩
  | @more c d _ t _ hs hb hseq ih =>
    intro X hlen hX hc hr he
    obtain ⟨X₁, hX₁⟩ := hs.takes
    obtain ⟨X₂, hX₂⟩ := hseq.takes
    have hL := d.takes_next
    obtain rfl : X = X₁ ++ lead false d.rest ++ X₂ :=
      hX.unique ((hX₁.append hL).append hX₂)
    simp only [List.length_append] at hlen
    have hg := (gap_of_bounded (word_of_statement hs hc) hb).2.2
    obtain ⟨c₂, ts', hseq', hts, hr', he'⟩ := ih (by omega) hX₂ hg hr he
    obtain ⟨hb', hnext⟩ := hr' d _ rfl hL.rest
    obtain ⟨t', hs', ht⟩ := hn (by omega) hs hX₁ hc hb (hb' hb) (by
      rw [← hnext] at he'
      exact he')
    refine ⟨_, t' :: ts', .more hs' (hb' hb) (hnext ▸ hseq'), .cons ht hts, ?_,
      elseless_of_statement hs hc hX₁.rest hb (hb' hb)⟩
    -- The statement begins with the same character in both texts.
    have hlt := length_behind hs.found rfl
    cases X₁ with
    | nil =>
      rw [hX₁.rest] at hlt
      exact absurd hlt (Nat.lt_irrefl _)
    | cons x X₁ =>
      have hrest := hX₁.rest
      rw [List.cons_append] at hrest
      have hx : isInner x = true := inner_of_gap (hrest ▸ hc)
      simp only [List.cons_append, List.append_assoc]
      exact redirects_word hrest hx hx

-- ==================================================== blocks elsewhere

/-- The parts of a block: braces, blanks and a sequence of statements. -/
theorem parts_of_block (h : Derives grammar .plain (nt .block) c d ns)
    (hc : alone.Gap c.rest c.rest) :
    ∃ o ts e Y, c.Takes ['\x7b'] o ∧ bounded o.rest = true ∧
      alone.Gap o.next.rest o.next.rest ∧ Sequence o.next ts e ∧
      o.next.Takes Y e ∧ e.Takes ['\x7d'] d ∧ ns = [.node .block c d ts] := by
  obtain ⟨xs, ts, e, hrest, hb, hseq, he, hp, hns⟩ := sequence_of_block h hc
  obtain ⟨Y, hY⟩ := hseq.takes
  have hword : alone.Word xs xs := by
    rw [hrest] at hc
    cases hc with
    | fresh _ _ _ hw => exact hw
    | stop hcut => exact hcut.elim
  exact ⟨⟨xs, _⟩, ts, e, Y, ⟨hrest, rfl⟩, hb, (gap_of_bounded hword hb).2.2,
    hseq, hY, ⟨he, hp⟩, hns⟩

/-- A block goes from brace to brace, and its brace stands alone whatever
follows. -/
theorem takes_of_block (h : Derives grammar .plain (nt .block) c d ns)
    (hc : alone.Gap c.rest c.rest) :
    ∃ Y, c.Takes ('\x7b' :: (Y ++ ['\x7d'])) d ∧ ∀ zs,
      bounded (Y ++ '\x7d' :: zs) = true := by
  obtain ⟨o, ts, e, Y, ho, hb, -, -, hY, hd, -⟩ := parts_of_block h hc
  have hL := o.takes_next.append hY
  have htakes := (ho.append hL).append hd
  refine ⟨lead false o.rest ++ Y, by simpa using htakes, fun zs => ?_⟩
  rw [hL.rest, hd.rest] at hb
  exact (bounded_append_cons _ _ zs _).trans hb

/-- A block in another text. -/
theorem block_elsewhere_of (hn : Movable .statement n) (hlen : X.length ≤ n)
    (h : Derives grammar .plain (nt .block) c d [t]) (hX : c.Takes X d)
    (hc : alone.Gap c.rest c.rest) (zs : List Char) :
    ∃ t', Derives grammar .plain
      (nt .block) ⟨X ++ zs, c.point⟩ ⟨zs, d.point⟩ [t'] ∧
      Alike alone.view t t' := by
  obtain ⟨o, ts, e, Y, ho, hb, hg, hseq, hY, hd, hns⟩ := parts_of_block h hc
  have hL := o.takes_next
  obtain rfl : X = ['\x7b'] ++ lead false o.rest ++ Y ++ ['\x7d'] :=
    hX.unique (((ho.append hL).append hY).append hd)
  simp only [List.length_append, List.length_singleton] at hlen
  have hr : Redirects e ('\x7d' :: zs) ⟨'\x7d' :: zs, e.point⟩ :=
    redirects_word hd.rest rfl rfl
  obtain ⟨c', ts', hseq', hts, hreach, -⟩ :=
    hseq.elsewhere_of hn (by omega) hY hg hr (elseless_of_head (by simp))
  obtain ⟨hb', hnext⟩ := hreach o _ rfl hL.rest
  obtain rfl : t = .node .block c d ts := List.singleton_inj.mp hns
  have hrest : (Cursor.mk
      (['\x7b'] ++ lead false o.rest ++ Y ++ ['\x7d'] ++ zs) c.point).rest =
      '\x7b' :: (lead false o.rest ++ (Y ++ '\x7d' :: zs)) := by
    simp
  have hstart : o.point = c.point.after '\x7b' := ho.point
  have hstop : d.point = e.point.after '\x7d' := hd.point
  have hblock := block_of_sequence hrest (hb' hb) (hstart ▸ hnext ▸ hseq') rfl
  rw [hstop]
  exact ⟨_, hblock, .node rfl hstop nofun hts⟩

-- ======================================= compound statements elsewhere

/-- A head and a block in another text. -/
theorem Opening.elsewhere_of {b : Node} (hn : Movable .statement n)
    (hlen : X.length ≤ n) (h : Opening r c e f ns b) (hX : c.Takes X f)
    (hc : alone.Gap c.rest c.rest) (zs : List Char) :
    ∃ e' ns' b', Opening r ⟨X ++ zs, c.point⟩ e' ⟨zs, f.point⟩ ns' b' ∧
      List.Forall₂ (Alike alone.view) (ns ++ [b]) (ns' ++ [b']) := by
  have hg :=
    gap_of_phrase (fun _ => .heads h.mem_headKinds) hc rfl h.head h.blanks
  obtain ⟨Y, hB, hb⟩ := takes_of_block h.block hg
  have hbrace : e.next.rest = '\x7b' :: (Y ++ '\x7d' :: f.rest) := by
    rw [hB.rest]
    simp
  obtain ⟨A, e', ns', hA, hhead, hl, hnext, hns⟩ :=
    head_elsewhere h.mem_headKinds h.head h.blanks hc hbrace rfl (hb _) (hb zs)
  obtain rfl : X = A ++ '\x7b' :: (Y ++ ['\x7d']) := by
    refine List.append_cancel_right (hX.rest.symm.trans (hA.trans ?_))
    simp
  simp only [List.length_append] at hlen
  obtain ⟨b', hb', hbb⟩ := block_elsewhere_of hn (by omega) h.block hB hg zs
  refine ⟨e', ns', b', ⟨h.kind, by simpa using hhead, hl, ?_⟩,
    List.rel_append hns (.cons hbb .nil)⟩
  rw [hnext]
  simpa using hb'

/-- A choice or a block, as another branch, in another text. -/
theorem branch_elsewhere_of (hn : Movable .statement n)
    (hif : Movable .ifStatement n) (hlen : X.length < n)
    (h : Derives grammar .plain (nt .ifStatement <|> nt .block) c d ns)
    (hX : c.Takes X d) (hc : alone.Gap c.rest c.rest)
    (hd : bounded d.rest = true) (hz : bounded zs = true)
    (he : Elseless (strip false zs)) :
    ∃ ns', Derives grammar .plain (nt .ifStatement <|> nt .block)
      ⟨X ++ zs, c.point⟩ ⟨zs, d.point⟩ ns' ∧
      List.Forall₂ (Alike alone.view) ns ns' := by
  cases h with
  | left h =>
    obtain ⟨_, rfl, -⟩ := h.retained (by decide)
    obtain ⟨t', h', ht⟩ := hif hlen h hX hc hd hz he
    exact ⟨_, .left h', .cons ht .nil⟩
  | right _ h =>
    obtain ⟨_, rfl, -⟩ := h.retained (by decide)
    obtain ⟨t', h', ht⟩ := block_elsewhere_of hn (Nat.le_of_lt hlen) h hX hc zs
    obtain ⟨us, hus⟩ := starts_of_keyword (by decide) h'
    refine ⟨_, .right ?_ h', .cons ht .nil⟩
    -- The brace tells that it is no choice.
    dsimp only at hus
    rw [hus]
    exact found_none_of_keyword rfl (by decide)

/-- Another branch in another text. -/
theorem else_elsewhere_of (hn : Movable .statement n)
    (hif : Movable .ifStatement n) (hlen : X.length ≤ n)
    (h : Derives grammar .plain elseBranch c d ns) (hX : c.Takes X d)
    (hc : alone.Word c.rest c.rest) (hd : bounded d.rest = true)
    (hz : bounded zs = true) (he : Elseless (strip false zs)) :
    ∃ ns', Derives grammar .plain elseBranch
      ⟨X ++ zs, c.point⟩ ⟨zs, d.point⟩ ns' ∧
      List.Forall₂ (Alike alone.view) ns ns' := by
  cases h with
  | seq h hbranch =>
    cases h with
    | @seq _ _ _ _ g _ _ _ h hblanks =>
      cases h with
      | seq hbefore helse =>
        obtain ⟨hl, rfl, rfl⟩ := derives_blanks.mp hbefore
        obtain ⟨hl', rfl, rfl⟩ := derives_blanks.mp hblanks
        obtain ⟨hword, rfl⟩ := takes_of_lit helse
        obtain ⟨B, hB⟩ := hbranch.takes
        have htext :=
          ((c.takes_next.append hword).append g.takes_next).append hB
        obtain rfl := hX.unique htext
        have hg := (gap_of_bounded hc (bounded_of_lead hc hl)).2.2
        have hg' : alone.Gap g.next.rest g.next.rest :=
          gap_of_phrase (fun _ => .keyword rfl) hg rfl helse hl'
        have hlen' : B.length < n := by
          have hfour : "else".toList.length = 4 := rfl
          simp only [List.length_append] at hlen
          omega
        obtain ⟨ns', hbranch', hns⟩ :=
          branch_elsewhere_of hn hif hlen' hbranch hB hg' hd hz he
        -- The branch begins with a word, and so does what leads to it.
        have hne : B ≠ [] := by
          rintro rfl
          exact absurd (length_behind hbranch.found rfl)
            (by rw [hB.rest]; exact Nat.lt_irrefl _)
        obtain ⟨x, B, rfl⟩ := List.exists_cons_of_ne_nil hne
        have hx : isInner x = true := inner_of_gap (hB.rest ▸ hg')
        have hrest : g.next.rest = x :: (B ++ d.rest) := hB.rest
        have hafter : Derives grammar .plain (nt .blanks)
            ⟨lead false g.rest ++ x :: (B ++ zs), g.point⟩
            ⟨x :: (B ++ zs), g.next.point⟩ [] :=
          blanks_elsewhere hl' hrest hx
        have helse' : Derives grammar .plain (Peg.lit "else") ⟨"else".toList ++
            (lead false g.rest ++ x :: (B ++ zs)), c.next.point⟩
            ⟨lead false g.rest ++ x :: (B ++ zs), g.point⟩ [] := by
          rw [hword.point]
          exact derives_lit rfl
        have hbefore' : Derives grammar .plain (nt .blanks)
            ⟨lead false c.rest ++
              ("else".toList ++ (lead false g.rest ++ x :: (B ++ zs))), c.point⟩
            ⟨"else".toList ++ (lead false g.rest ++ x :: (B ++ zs)),
              c.next.point⟩ [] :=
          blanks_elsewhere hl hword.rest rfl
        refine ⟨[] ++ [] ++ [] ++ ns', ?_, by simpa using hns⟩
        simp only [List.append_assoc]
        exact .seq (.seq (.seq hbefore' helse') hafter) hbranch'

/-- Where another branch cannot begin there is none. -/
theorem Elseless.found_none (he : Elseless (strip false zs)) (p : Point) :
    grammar.found .plain elseBranch ⟨zs, p⟩ = none := by
  cases hf : grammar.found .plain elseBranch ⟨zs, p⟩ with
  | none => rfl
  | some f => exact absurd (derives_of_found hf) (he _ _ _ rfl)

theorem if_elsewhere_of (hn : Movable .statement n)
    (hif : Movable .ifStatement n) : Movable .ifStatement (n + 1) := by
  intro c d t X zs hlen h hX hc hd hz he
  obtain ⟨e, f, xs, b, ys, ho, helse, hns⟩ := opening_of_if.mp h
  obtain rfl := List.singleton_inj.mp hns
  obtain ⟨X₁, hX₁⟩ := ho.derives.takes
  obtain ⟨X₂, hX₂⟩ := helse.takes
  obtain rfl := hX.unique (hX₁.append hX₂)
  rw [List.length_append] at hlen
  obtain ⟨e', xs', b', ho', hxs⟩ :=
    ho.elsewhere_of hn (by omega) hX₁ hc (X₂ ++ zs)
  have hg :=
    gap_of_phrase (fun _ => .heads ho.mem_headKinds) hc rfl ho.head ho.blanks
  have hf := word_of_statement (statement_of_compound (by decide) ho.block) hg
  obtain ⟨ys', helse', hys⟩ : ∃ ys', Derives grammar .plain (.opt elseBranch)
      ⟨X₂ ++ zs, f.point⟩ ⟨zs, d.point⟩ ys' ∧
      List.Forall₂ (Alike alone.view) ys ys' := by
    cases helse with
    | without =>
      obtain rfl := hX₂.unique (.nil d)
      exact ⟨[], .without (he.found_none _), .nil⟩
    | «with» helse =>
      obtain ⟨ys', helse', hys⟩ :=
        else_elsewhere_of hn hif (by omega) helse hX₂ hf hd hz he
      exact ⟨ys', .with helse', hys⟩
  rw [List.append_assoc]
  exact ⟨_, opening_of_if.mpr ⟨e', _, xs', b', ys', ho', helse', rfl⟩,
    .node rfl rfl nofun (List.rel_append hxs hys)⟩

-- ================================================ statements elsewhere

/-- A simple statement ends with its first mark. -/
theorem Simple.elsewhere (hs : Simple r c e d ns)
    (h : Derives grammar .plain (nt .statement) c d [t]) (hX : c.Takes X d)
    (hc : alone.Gap c.rest c.rest) (hd : bounded d.rest = true)
    (hz : bounded zs = true) :
    ∃ t', Derives grammar .plain (nt .statement)
        ⟨X ++ zs, c.point⟩ ⟨zs, d.point⟩ [t'] ∧
      Alike alone.view t t' := by
  obtain ⟨A, hA, hm⟩ := hs.marked hc hd
  obtain rfl : X = A ++ [';'] :=
    List.append_cancel_right
      (hX.rest.symm.trans (hA.trans (List.append_cons A ';' d.rest)))
  have hset : (Comparison.upTo ';' d.rest zs rfl hd hz).Settled :=
    fun _ _ _ hcut => hcut.1
  have hg := hm.2 (.upTo ';' d.rest zs rfl hd hz) d.rest zs (fun _ => rfl)
    ⟨rfl, rfl, rfl⟩
  have hk : (Comparison.upTo ';' d.rest zs rfl hd hz).Level c
      ⟨A ++ ';' :: zs, c.point⟩ := rfl
  obtain ⟨d', ns', h', hp, hend, hns⟩ :=
    Lockstep.derives (fun _ => .statement hset) h hk (hA ▸ hg)
  obtain ⟨t', rfl⟩ := single_of_statement h'
  obtain rfl : d' = ⟨zs, d.point⟩ := by
    rcases hend with ⟨-, hw⟩ | ⟨_, -, -, hrest⟩
    · exact (hw hd).elim
    · rw [← hrest, show d.point = d'.point from hp]
  cases hns with
  | cons ht => exact ⟨t', by simpa using h', ht⟩

theorem statement_elsewhere_of (hn : Movable .statement n)
    (hif : Movable .ifStatement (n + 1)) : Movable .statement (n + 1) := by
  intro c d t X zs hlen h hX hc hd hz he
  rcases statement_cases h with ⟨r, e, ns, hs⟩ | ⟨r, hr, h⟩
  · exact hs.elsewhere h hX hc hd hz
  · suffices hmove : ∃ t',
        Derives grammar .plain (nt r) ⟨X ++ zs, c.point⟩ ⟨zs, d.point⟩ [t'] ∧
        Alike alone.view t t' by
      obtain ⟨t', h', ht⟩ := hmove
      exact ⟨t', statement_of_compound hr h', ht⟩
    have hlen' := Nat.le_of_lt_succ hlen
    simp only [compoundKinds, List.mem_cons] at hr
    rcases hr with rfl | rfl | hr
    · exact block_elsewhere_of hn hlen' h hX hc zs
    · exact hif hlen h hX hc hd hz he
    · obtain ⟨e, ns, b, ho, hns⟩ := (opening_of_block hr).mp h
      obtain rfl := List.singleton_inj.mp hns
      obtain ⟨e', ns', b', ho', hns'⟩ := ho.elsewhere_of hn hlen' hX hc zs
      refine ⟨_, (opening_of_block hr).mpr ⟨e', ns', b', ho', rfl⟩,
        .node rfl rfl ?_ hns'⟩
      have hverbatim : ∀ r ∈ blockKinds, isVerbatim r = false := by decide
      exact fun hv => absurd (hv.symm.trans (hverbatim r hr)) (by decide)

/-- Statements and choices of any length. -/
theorem movable (n : Nat) : Movable .statement n ∧ Movable .ifStatement n := by
  induction n with
  | zero =>
    have none {r : Nonterminal} : Movable r 0 := fun _ _ _ _ _ hlen =>
      absurd hlen (Nat.not_lt_zero _)
    exact ⟨none, none⟩
  | succ n ih =>
    obtain ⟨hn, hif⟩ := ih
    have hif' := if_elsewhere_of hn hif
    exact ⟨statement_elsewhere_of hn hif', hif'⟩

/-- A statement does not depend on what follows it. -/
theorem statement_elsewhere (h : Derives grammar .plain (nt .statement) c d [t])
    (hX : c.Takes X d) (hc : alone.Gap c.rest c.rest)
    (hd : bounded d.rest = true) (hz : bounded zs = true)
    (he : Elseless (strip false zs)) :
    ∃ t', Derives grammar .plain (nt .statement)
        ⟨X ++ zs, c.point⟩ ⟨zs, d.point⟩ [t'] ∧
      Alike alone.view t t' :=
  (movable _).1 (Nat.lt_succ_self _) h hX hc hd hz he

/-- Nor does a block. -/
theorem block_elsewhere (h : Derives grammar .plain (nt .block) c d [t])
    (hX : c.Takes X d) (hc : alone.Gap c.rest c.rest) (zs : List Char) :
    ∃ t', Derives grammar .plain
      (nt .block) ⟨X ++ zs, c.point⟩ ⟨zs, d.point⟩ [t'] ∧
      Alike alone.view t t' :=
  block_elsewhere_of (movable _).1 (Nat.le_refl _) h hX hc zs

/-- Nor does the first part of a compound statement. -/
theorem Opening.elsewhere {b : Node} (h : Opening r c e f ns b)
    (hX : c.Takes X f) (hc : alone.Gap c.rest c.rest) (zs : List Char) :
    ∃ e' ns' b', Opening r ⟨X ++ zs, c.point⟩ e' ⟨zs, f.point⟩ ns' b' ∧
      List.Forall₂ (Alike alone.view) (ns ++ [b]) (ns' ++ [b']) :=
  h.elsewhere_of (movable _).1 (Nat.le_refl _) hX hc zs

/-- Nor does a sequence of statements. -/
theorem Sequence.elsewhere (h : Sequence c ts e) (hX : c.Takes X e)
    (hc : alone.Gap c.rest c.rest) (hr : Redirects e zs e')
    (he : Elseless e'.rest) :
    ∃ c' ts', Sequence c' ts' e' ∧ List.Forall₂ (Alike alone.view) ts ts' ∧
      Redirects c (X ++ zs) c' ∧ Elseless c'.rest :=
  h.elsewhere_of (movable _).1 (Nat.lt_succ_self _) hX hc hr he

end Jam
