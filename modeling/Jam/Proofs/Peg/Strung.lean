/-
Nodes along a text.

The nodes that a match leaves stand one behind the other on the way from
the beginning of the match to its end, and below each of them its children
do the same on the way from its own beginning to its end (`Strung`). Some
of the text may lie between them, but nothing of one lies in another that
is not below it. Every node is strung so, at any depth, and is `Grown`.

# What follows

- In a list of all nodes, each before those below it, a node begins no later
  than those behind it (`Strung.bounds`), and earlier if it takes something
  before it comes to its children (`Strung.pairwise_nodes`).
- An expression that takes text only by nonterminals that are retained takes
  the texts of the nodes that it leaves (`Derives.takes_texts`).
-/
import Jam.Proofs.Peg.Leaves

namespace Jam

-- ======================================================== strung nodes

/-- The nodes stand one behind the other between two places, and so do those
below each of them between its ends. -/
inductive Strung {N : Type} (g : Grammar N) :
    Cursor → List (Tree N) → Cursor → Prop
  | nil {c d : Cursor} {taken : List Char} : c.Takes taken d → Strung g c [] d
  | cons {c d : Cursor} {t : Tree N} {ts : List (Tree N)} {taken : List Char} :
      c.Takes taken t.first → Grown g t → Strung g t.first t.children t.last →
      Strung g t.last ts d → Strung g c (t :: ts) d

variable {N : Type} {g : Grammar N} {m : Mode} {e : Peg N} {b c d : Cursor}
  {t : Tree N} {ts us : List (Tree N)} {taken : List Char}

namespace Strung

/-- More text may lie before them. -/
theorem behind (h : Strung g c ts d) (hb : b.Takes taken c) :
    Strung g b ts d := by
  cases h with
  | nil ht => exact .nil (hb.append ht)
  | cons ht hg hc hs => exact .cons (hb.append ht) hg hc hs

theorem append {e : Cursor} (h : Strung g c ts d) (h' : Strung g d us e) :
    Strung g c (ts ++ us) e := by
  induction h with
  | nil ht => exact h'.behind ht
  | cons ht hg hc _ _ ih => exact .cons ht hg hc (ih h')

/-- There is a stretch of text that they stand on. -/
theorem takes (h : Strung g c ts d) : ∃ taken, c.Takes taken d := by
  induction h with
  | nil ht => exact ⟨_, ht⟩
  | cons ht _ _ _ ihc ihs =>
    obtain ⟨_, hc⟩ := ihc
    obtain ⟨_, hs⟩ := ihs
    exact ⟨_, (ht.append hc).append hs⟩

theorem offset_le (h : Strung g c ts d) : c.offset ≤ d.offset := by
  obtain ⟨_, ht⟩ := h.takes
  exact ht.offset_le

/-- So does what is left of them behind the first one. -/
theorem uncons (h : Strung g c (t :: ts) d) :
    (∃ taken, c.Takes taken t.first) ∧ Grown g t ∧
      Strung g t.first t.children t.last ∧ Strung g t.last ts d := by
  cases h with
  | cons ht hg hc hs => exact ⟨⟨_, ht⟩, hg, hc, hs⟩

end Strung

/-- A node that is left outside of lookaheads and leaves comes from a match
there. -/
theorem Grammar.bodyMode_of_keepsNodes {r : N}
    (h : (g.ownMode r m).keepsNodes = true) :
    g.bodyMode r m = g.bodyMode r .plain := by
  obtain ⟨polarity, atomic⟩ := m
  unfold ownMode at h
  unfold bodyMode
  cases hr : g.retention r with
  | group | leaf | silent | branch =>
    simp only [hr, Mode.keepsNodes, Bool.and_eq_true, decide_eq_true_eq,
      Bool.not_eq_true'] at h
    simp only [Mode.plain, h]

/-- The nodes of a match are strung. -/
theorem Derives.strung (h : Derives g m e c d ts) : Strung g c ts d := by
  induction h with
  | one => exact .nil (.cons ..)
  | chars hd => exact .nil (.of_skip? hd)
  | start | finish | stop | without | ahead | notAhead => exact .nil (.nil _)
  | seq _ _ ih ih' | more _ _ _ ih ih' => exact ih.append ih'
  | left _ ih | right _ _ ih | last _ _ ih | «with» _ ih | silent _ _ ih
    | bare _ _ _ ih =>
    exact ih
  | node _ hk hb ih =>
    have hg : Grown g (.node _ _ _ _) :=
      (Grammar.bodyMode_of_keepsNodes hk) ▸ hb
    exact .cons (.nil _) hg ih (.nil (.nil _))

-- =========================================================== all nodes

mutual

/-- A node and all nodes below it, each before those below it. -/
def Tree.nodes : Tree N → List (Tree N)
  | .node kind first last children =>
    .node kind first last children :: forestNodes children
termination_by structural t => t

/-- All nodes of several trees. -/
def forestNodes : List (Tree N) → List (Tree N)
  | [] => []
  | t :: ts => t.nodes ++ forestNodes ts
termination_by structural ts => ts

end

theorem Tree.nodes_eq (t : Tree N) : t.nodes = t :: forestNodes t.children := by
  cases t
  rfl

/-- All nodes stand between the two places, the end of each not before its
beginning. -/
theorem Strung.bounds (h : Strung g c ts d) : ∀ t ∈ forestNodes ts,
    Grown g t ∧ c.offset ≤ t.first.offset ∧ t.first.offset ≤ t.last.offset ∧
      t.last.offset ≤ d.offset := by
  induction h with
  | nil => exact List.forall_mem_nil _
  | @cons c d t ts taken ht hg hc hs ihc ihs =>
    have hfirst := ht.offset_le
    have hmid := hc.offset_le
    have hlast := hs.offset_le
    intro u hu
    rw [forestNodes, Tree.nodes_eq, List.mem_append, List.mem_cons] at hu
    rcases hu with (rfl | hu) | hu
    · exact ⟨hg, hfirst, hmid, hlast⟩
    · obtain ⟨hgu, h₁, h₂, h₃⟩ := ihc u hu
      exact ⟨hgu, by omega, h₂, by omega⟩
    · obtain ⟨hgu, h₁, h₂, h₃⟩ := ihs u hu
      exact ⟨hgu, by omega, h₂, h₃⟩

/-- Nodes that take something before they come to their children begin before
all nodes that are listed behind them. -/
theorem Strung.pairwise_nodes {P : Tree N → Prop}
    (hP : ∀ t, Grown g t → P t → ∃ c taken,
      t.first.Takes taken c ∧ taken ≠ [] ∧ Strung g c t.children t.last)
    (h : Strung g c ts d) :
    (forestNodes ts).Pairwise fun t u =>
      P t → t.first.offset < u.first.offset := by
  induction h with
  | nil => exact .nil
  | @cons c d t ts taken ht hg hc hs ihc ihs =>
    rw [forestNodes, Tree.nodes_eq, List.pairwise_append]
    refine ⟨List.pairwise_cons.mpr ⟨fun u hu hp => ?_, ihc⟩, ihs,
      fun u hu w hw hp => ?_⟩
    · obtain ⟨b, _, hb, hne, hbelow⟩ := hP t hg hp
      have hlt := hb.offset_lt hne
      have hle := (hbelow.bounds u hu).2.1
      omega
    · -- The nodes behind begin where this one has ended.
      obtain ⟨hgu, hend⟩ : Grown g u ∧ u.last.offset ≤ t.last.offset := by
        rcases List.mem_cons.mp hu with rfl | hu
        · exact ⟨hg, Nat.le_refl _⟩
        · exact ⟨(hc.bounds u hu).1, (hc.bounds u hu).2.2.2⟩
      obtain ⟨b, _, hb, hne, hbelow⟩ := hP u hgu hp
      have hlt := hb.offset_lt hne
      have hle := hbelow.offset_le
      have hbehind := (hs.bounds w hw).2.1
      omega

-- ================================================ what leaves no nodes

/-- Without a call there are no nodes. -/
theorem Derives.nodes_eq_nil (h : Derives g m e c d ts) (he : e.calls = []) :
    ts = [] := by
  refine List.eq_nil_iff_forall_not_mem.mpr fun t ht => ?_
  obtain ⟨r, hr, -⟩ := h.exists_call ht
  rw [he] at hr
  cases hr

/-- Nor are there any inside of a leaf, where what is called is no group and
calls nothing. -/
theorem Derives.nodes_eq_nil_of_atomic (h : Derives g m e c d ts)
    (hm : m.atomic = true)
    (he : ∀ r ∈ e.calls, g.retention r = .leaf ∧ (g.body r).calls = []) :
    ts = [] := by
  refine List.eq_nil_iff_forall_not_mem.mpr fun t ht => ?_
  obtain ⟨r, hr, c', d', ns, hcall, ht⟩ := h.exists_call ht
  obtain ⟨hleaf, hnone⟩ := he r hr
  have hown : (g.ownMode r m).keepsNodes = false := by
    simp [Grammar.ownMode, hleaf, Mode.keepsNodes, hm]
  cases hcall with
  | silent hs => rw [hleaf] at hs; cases hs
  | node _ hk => rw [hown] at hk; cases hk
  | bare _ _ hb =>
    rw [hb.nodes_eq_nil hnone] at ht
    cases ht

-- ====================================================== texts of nodes

/-- The expression takes text only by nonterminals that are retained. -/
def Grammar.Covers (g : Grammar N) : Peg N → Prop
  | .one _ | .chars _ => False
  | .start | .finish | .ahead _ | .notAhead _ => True
  | .seq a b | .alt a b => g.Covers a ∧ g.Covers b
  | .many a | .opt a => g.Covers a
  | .call r => g.retention r ≠ .silent

/-- What such an expression takes is the texts of its nodes. -/
theorem Derives.takes_texts (h : Derives g .plain e c d ts) (he : g.Covers e) :
    c.Takes (ts.flatMap Tree.text) d := by
  generalize hm : Mode.plain = m at h
  induction h with
  | one | chars => exact he.elim
  | start | finish | stop | without | ahead | notAhead => exact .nil _
  | seq _ _ ih ih' =>
    rw [List.flatMap_append]
    exact (ih he.1 hm).append (ih' he.2 hm)
  | left _ ih => exact ih he.1 hm
  | right _ _ ih => exact ih he.2 hm
  | last _ _ ih | «with» _ ih => exact ih he hm
  | more _ _ _ ih ih' =>
    rw [List.flatMap_append]
    exact (ih he hm).append (ih' he hm)
  | silent hs => exact absurd hs he
  | @node m r c d xs hs hk hb =>
    obtain ⟨taken, ht⟩ := Derives.takes hb
    have htext : (Tree.node r c d xs).text = taken := ht.upTo_eq
    rw [List.flatMap_cons, List.flatMap_nil, List.append_nil, htext]
    exact ht
  | @bare m r c d xs hs hk =>
    subst hm
    rw [g.ownMode_plain] at hk
    cases hk

end Jam
