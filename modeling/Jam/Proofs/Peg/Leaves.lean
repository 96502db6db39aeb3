/-
The nodes that a match can leave.

A parse tree is read node by node, and what a reader has to know of a node
is which nodes can stand below it. This is a question about one
expression, the body of the nonterminal, and neither places nor what was
not found have a part in it: `Leaves g e nodes` forgets them and keeps
which nodes come in which order. So it has an equivalence for each form of
expression, and what a body can leave is computed by rewriting.

The rewriting ends at nonterminals that are retained: they leave one node,
of which is kept that it is `Grown`, that is, that its own children come
from a match of its own body. A statement about all nodes of a parse tree
is proved by induction over the tree, with what its body can leave at
each node.
-/
import Jam.Proofs.Peg.Derivation

namespace Jam

-- ==================================================== nodes of matches

/-- The node stands for a match of its nonterminal, outside of lookaheads and
leaves. -/
def Grown {N : Type} (g : Grammar N) (t : Tree N) : Prop :=
  Derives g (g.bodyMode t.kind .plain) (g.body t.kind) t.first t.last t.children

/-- The expression can leave these nodes. -/
inductive Leaves {N : Type} (g : Grammar N) : Peg N → List (Tree N) → Prop
  | one {accepts} : Leaves g (.one accepts) []
  | chars {text} : Leaves g (.chars text) []
  | start : Leaves g .start []
  | finish : Leaves g .finish []
  | seq {a b xs ys} :
      Leaves g a xs → Leaves g b ys → Leaves g (.seq a b) (xs ++ ys)
  | left {a b xs} : Leaves g a xs → Leaves g (.alt a b) xs
  | right {a b xs} : Leaves g b xs → Leaves g (.alt a b) xs
  | stop {a} : Leaves g (.many a) []
  | more {a xs ys} :
      Leaves g a xs → Leaves g (.many a) ys → Leaves g (.many a) (xs ++ ys)
  | without {a} : Leaves g (.opt a) []
  | with {a xs} : Leaves g a xs → Leaves g (.opt a) xs
  | ahead {a} : Leaves g (.ahead a) []
  | notAhead {a} : Leaves g (.notAhead a) []
  | silent {r xs} :
      g.retention r = .silent → Leaves g (g.body r) xs → Leaves g (.call r) xs
  | node {r t} :
      g.retention r ≠ .silent → t.kind = r → Grown g t → Leaves g (.call r) [t]

variable {N : Type} {g : Grammar N} {e a b : Peg N} {r : N} {c d : Cursor}
  {nodes : List (Tree N)}

theorem Grammar.ownMode_plain (g : Grammar N) (r : N) :
    g.ownMode r .plain = .plain := by
  unfold ownMode
  split <;> rfl

theorem Grammar.bodyMode_plain (h : g.retention r ≠ .leaf) :
    g.bodyMode r .plain = .plain := by
  unfold bodyMode
  split
  · rfl
  · next hl => exact absurd hl h
  · rfl
  · rfl

/-- A match outside of lookaheads and leaves leaves what its expression can
leave. -/
theorem Derives.leaves (h : Derives g .plain e c d nodes) :
    Leaves g e nodes := by
  generalize hm : Mode.plain = m at h
  induction h with
  | one => exact .one
  | chars => exact .chars
  | start => exact .start
  | finish => exact .finish
  | seq _ _ ih ih' => exact .seq (ih hm) (ih' hm)
  | left _ ih => exact .left (ih hm)
  | right _ _ ih => exact .right (ih hm)
  | stop => exact .stop
  | last _ _ ih =>
    have hx := Leaves.more (ih hm) .stop
    rwa [List.append_nil] at hx
  | more _ _ _ ih ih' => exact .more (ih hm) (ih' hm)
  | without => exact .without
  | «with» _ ih => exact .with (ih hm)
  | ahead => exact .ahead
  | notAhead => exact .notAhead
  | silent hs _ ih => exact .silent hs (ih hm)
  | node hs _ hb =>
    subst hm
    exact .node hs rfl hb
  | @bare m r c d xs hs hk =>
    -- Outside of lookaheads and leaves nodes are kept.
    subst hm
    rw [g.ownMode_plain] at hk
    cases hk

/-- What stands below a node that is no leaf. -/
theorem Grown.leaves {t : Tree N} (h : Grown g t)
    (hr : g.retention t.kind ≠ .leaf) :
    Leaves g (g.body t.kind) t.children := by
  unfold Grown at h
  rw [Grammar.bodyMode_plain hr] at h
  exact h.leaves

-- ======================================================== form by form

@[simp] theorem leaves_one {accepts : Char → Bool} :
    Leaves g (.one accepts) nodes ↔ nodes = [] :=
  ⟨fun | .one => rfl, fun h => h ▸ .one⟩

@[simp] theorem leaves_chars {text : List Char} :
    Leaves g (.chars text) nodes ↔ nodes = [] :=
  ⟨fun | .chars => rfl, fun h => h ▸ .chars⟩

@[simp] theorem leaves_lit {text : String} :
    Leaves g (Peg.lit text) nodes ↔ nodes = [] :=
  leaves_chars

@[simp] theorem leaves_start : Leaves g .start nodes ↔ nodes = [] :=
  ⟨fun | .start => rfl, fun h => h ▸ .start⟩

@[simp] theorem leaves_finish : Leaves g .finish nodes ↔ nodes = [] :=
  ⟨fun | .finish => rfl, fun h => h ▸ .finish⟩

@[simp] theorem leaves_ahead : Leaves g (.ahead a) nodes ↔ nodes = [] :=
  ⟨fun | .ahead => rfl, fun h => h ▸ .ahead⟩

@[simp] theorem leaves_notAhead : Leaves g (.notAhead a) nodes ↔ nodes = [] :=
  ⟨fun | .notAhead => rfl, fun h => h ▸ .notAhead⟩

@[simp] theorem leaves_seq : Leaves g (a ++ b) nodes ↔
    ∃ xs, Leaves g a xs ∧ ∃ ys, Leaves g b ys ∧ nodes = xs ++ ys := by
  constructor
  · rintro (_ | _)
    exact ⟨_, ‹_›, _, ‹_›, rfl⟩
  · rintro ⟨xs, ha, ys, hb, rfl⟩
    exact .seq ha hb

@[simp] theorem leaves_alt :
    Leaves g (a <|> b) nodes ↔ Leaves g a nodes ∨ Leaves g b nodes := by
  constructor
  · intro h
    cases h with
    | left h => exact .inl h
    | right h => exact .inr h
  · rintro (h | h)
    · exact .left h
    · exact .right h

@[simp] theorem leaves_opt :
    Leaves g (.opt a) nodes ↔ nodes = [] ∨ Leaves g a nodes := by
  constructor
  · intro h
    cases h with
    | without => exact .inl rfl
    | «with» h => exact .inr h
  · rintro (rfl | h)
    · exact .without
    · exact .with h

/-- A repetition leaves what its matches leave, one after the other. -/
theorem leaves_many : Leaves g (.many a) nodes ↔
    ∃ parts : List (List (Tree N)), (∀ part ∈ parts, Leaves g a part) ∧
      nodes = parts.flatten := by
  constructor
  · intro h
    generalize he : Peg.many a = e at h
    induction h with
    | stop => exact ⟨[], List.forall_mem_nil _, rfl⟩
    | more hx _ _ ih =>
      cases he
      obtain ⟨parts, hp, rfl⟩ := ih rfl
      exact ⟨_ :: parts, List.forall_mem_cons.mpr ⟨hx, hp⟩, rfl⟩
    | _ => cases he
  · rintro ⟨parts, hp, rfl⟩
    induction parts with
    | nil => exact .stop
    | cons part parts ih =>
      obtain ⟨hx, hp⟩ := List.forall_mem_cons.mp hp
      exact .more hx (ih hp)

/-- A repetition of what leaves nothing leaves nothing. -/
theorem leaves_many_nil (h : ∀ {xs}, Leaves g a xs ↔ xs = []) :
    Leaves g (.many a) nodes ↔ nodes = [] := by
  rw [leaves_many]
  constructor
  · rintro ⟨parts, hp, rfl⟩
    exact List.flatten_eq_nil_iff.mpr fun part hpart => h.mp (hp part hpart)
  · rintro rfl
    exact ⟨[], List.forall_mem_nil _, rfl⟩

/-- A repetition of what leaves one node leaves any number of such nodes. -/
theorem leaves_many_single {P : Tree N → Prop}
    (h : ∀ {xs}, Leaves g a xs ↔ ∃ t, P t ∧ xs = [t]) :
    Leaves g (.many a) nodes ↔ ∀ t ∈ nodes, P t := by
  rw [leaves_many]
  constructor
  · rintro ⟨parts, hp, rfl⟩ t ht
    obtain ⟨part, hpart, ht⟩ := List.mem_flatten.mp ht
    obtain ⟨u, hu, rfl⟩ := h.mp (hp part hpart)
    exact List.mem_singleton.mp ht ▸ hu
  · intro hn
    refine ⟨nodes.map ([·]), fun part hpart => ?_,
      (List.flatMap_singleton' nodes).symm⟩
    obtain ⟨t, ht, rfl⟩ := List.mem_map.mp hpart
    exact h.mpr ⟨t, hn t ht, rfl⟩

theorem leaves_silent (h : g.retention r = .silent) :
    Leaves g (.call r) nodes ↔ Leaves g (g.body r) nodes := by
  constructor
  · intro hl
    cases hl with
    | silent _ hb => exact hb
    | node hs => exact absurd h hs
  · exact .silent h

theorem leaves_node (h : g.retention r ≠ .silent) :
    Leaves g (.call r) nodes ↔ ∃ t, (t.kind = r ∧ Grown g t) ∧ nodes = [t] := by
  constructor
  · intro hl
    cases hl with
    | silent hs => exact absurd hs h
    | node _ hk ht => exact ⟨_, ⟨hk, ht⟩, rfl⟩
  · rintro ⟨t, ⟨hk, ht⟩, rfl⟩
    exact .node h hk ht

-- =============================================== where nodes come from

/-- The nonterminals that an expression calls, outside of lookaheads. -/
def Peg.calls {N : Type} : Peg N → List N
  | one _ | chars _ | start | finish | ahead _ | notAhead _ => []
  | seq a b | alt a b => a.calls ++ b.calls
  | many a | opt a => a.calls
  | call r => [r]

/-- What a match leaves is left by matches of nonterminals that are called. -/
theorem Derives.exists_call {m : Mode} {t : Tree N}
    (h : Derives g m e c d nodes) (ht : t ∈ nodes) :
    ∃ r ∈ e.calls, ∃ c' d' ns, Derives g m (.call r) c' d' ns ∧ t ∈ ns := by
  induction h with
  | one | chars | start | finish | stop | without | ahead | notAhead => cases ht
  | seq _ _ ih ih' =>
    rcases List.mem_append.mp ht with ht | ht
    · obtain ⟨r, hr, h⟩ := ih ht
      exact ⟨r, List.mem_append_left _ hr, h⟩
    · obtain ⟨r, hr, h⟩ := ih' ht
      exact ⟨r, List.mem_append_right _ hr, h⟩
  | left _ ih =>
    obtain ⟨r, hr, h⟩ := ih ht
    exact ⟨r, List.mem_append_left _ hr, h⟩
  | right _ _ ih =>
    obtain ⟨r, hr, h⟩ := ih ht
    exact ⟨r, List.mem_append_right _ hr, h⟩
  | more _ _ _ ih ih' =>
    rcases List.mem_append.mp ht with ht | ht
    · exact ih ht
    · exact ih' ht
  | last _ _ ih | «with» _ ih => exact ih ht
  | silent hs hb =>
    exact ⟨_, List.mem_singleton_self _, _, _, _, .silent hs hb, ht⟩
  | node hs hk hb =>
    exact ⟨_, List.mem_singleton_self _, _, _, _, .node hs hk hb, ht⟩
  | bare hs hk hb =>
    exact ⟨_, List.mem_singleton_self _, _, _, _, .bare hs hk hb, ht⟩

/-- A nonterminal that is retained leaves one node, from the beginning of the
match to its end. -/
theorem Derives.retained (h : Derives g .plain (.call r) c d nodes)
    (hr : g.retention r ≠ .silent) :
    ∃ xs, nodes = [.node r c d xs] ∧
      Derives g (g.bodyMode r .plain) (g.body r) c d xs := by
  cases h with
  | silent hs => exact absurd hs hr
  | node _ _ hb => exact ⟨_, rfl, hb⟩
  | bare _ hk =>
    rw [g.ownMode_plain] at hk
    cases hk

/-- A repetition of what leaves nodes takes nothing, if it leaves none. -/
theorem Derives.eq_of_many_nil {m : Mode} (ha : ∀ {c d}, ¬ Derives g m a c d [])
    (h : Derives g m (.many a) c d []) : d = c := by
  generalize hn : [] = nodes at h
  cases h with
  | stop => rfl
  | last hx =>
    subst hn
    exact absurd hx ha
  | more hx =>
    obtain ⟨rfl, -⟩ := List.append_eq_nil_iff.mp hn.symm
    exact absurd hx ha

end Jam
