/-
Matching without a guard, and why it ends.

The matcher stops a repetition at a match that takes nothing, so that it is
a total function for all grammars. Ordered choice as such knows no such
rule: a repetition goes on for as long as there is a match. `Matches` is
this matching, by rules for success and for failure, and nothing in it says
that there is an outcome.

# When it ends

The tables of a grammar exclude left recursion. If besides every repeated
expression takes something (`Grammar.Advances`), then matching ends
(`matches_found`), in one way only (`Matches.unique`), and the guard of the
matcher is never needed: both have the same outcome.

# The way to a match

`Asks` is one step of matching: which expression is tried next, and where.
Each step either takes some of the text or stays where it is with an
expression of a smaller cost (`Grammar.Onward`), and so does any number of
them (`onward_of_asks`). A nonterminal costs more than its
production, so on the way it never comes back to where it was entered.
-/
import Mathlib.Logic.Relation
import Jam.Proofs.Peg.Derivation

namespace Jam

-- =================================================== matching by rules

/-- Matching the expression at the cursor ends: behind a match, or without
one. -/
inductive Matches {N : Type} (g : Grammar N) :
    Peg N → Cursor → Option Cursor → Prop
  | one {accepts x xs p} : accepts x = true →
      Matches g (.one accepts) ⟨x :: xs, p⟩ (some ⟨xs, p.after x⟩)
  | other {accepts x xs p} :
      accepts x = false → Matches g (.one accepts) ⟨x :: xs, p⟩ none
  | no {accepts p} : Matches g (.one accepts) ⟨[], p⟩ none
  | chars {text c} : Matches g (.chars text) c (Cursor.skip? text c)
  | start {c} : Matches g .start c (if c.offset = 0 then some c else none)
  | finish {c} : Matches g .finish c (if c.rest.isEmpty then some c else none)
  | seq {a b c d o} :
      Matches g a c (some d) → Matches g b d o → Matches g (.seq a b) c o
  | broken {a b c} : Matches g a c none → Matches g (.seq a b) c none
  | left {a b c d} : Matches g a c (some d) → Matches g (.alt a b) c (some d)
  | right {a b c o} :
      Matches g a c none → Matches g b c o → Matches g (.alt a b) c o
  | stop {a c} : Matches g a c none → Matches g (.many a) c (some c)
  /-- After a match comes the repetition again, whatever the match has taken. -/
  | more {a c d o} :
      Matches g a c (some d) → Matches g (.many a) d o → Matches g (.many a) c o
  | without {a c} : Matches g a c none → Matches g (.opt a) c (some c)
  | with {a c d} : Matches g a c (some d) → Matches g (.opt a) c (some d)
  | ahead {a c o} : Matches g a c o → Matches g (.ahead a) c (o.map fun _ => c)
  | notAhead {a c o} : Matches g a c o →
      Matches g (.notAhead a) c (if o.isSome then none else some c)
  | call {r c o} : Matches g (g.body r) c o → Matches g (.call r) c o

variable {N : Type} {g : Grammar N} {a b e : Peg N} {c d : Cursor}
  {o o' : Option Cursor}

/-- There is but one outcome. -/
theorem Matches.unique (h : Matches g e c o) (h' : Matches g e c o') :
    o = o' := by
  induction h generalizing o' with
  | one hx =>
    cases h' with
    | one => rfl
    | other hx' => rw [hx] at hx'; cases hx'
  | other hx =>
    cases h' with
    | one hx' => rw [hx] at hx'; cases hx'
    | other => rfl
  | no => cases h'; rfl
  | chars => cases h'; rfl
  | start => cases h'; rfl
  | finish => cases h'; rfl
  | seq _ _ iha ihb =>
    cases h' with
    | seq ha' hb' =>
      cases iha ha'
      exact ihb hb'
    | broken ha' => cases iha ha'
  | broken _ iha =>
    cases h' with
    | seq ha' => cases iha ha'
    | broken => rfl
  | left _ iha =>
    cases h' with
    | left ha' => exact iha ha'
    | right ha' => cases iha ha'
  | right _ _ iha ihb =>
    cases h' with
    | left ha' => cases iha ha'
    | right _ hb' => exact ihb hb'
  | stop _ iha =>
    cases h' with
    | stop => rfl
    | more ha' => cases iha ha'
  | more _ _ iha ihm =>
    cases h' with
    | stop ha' => cases iha ha'
    | more ha' hm' =>
      cases iha ha'
      exact ihm hm'
  | without _ iha =>
    cases h' with
    | without => rfl
    | «with» ha' => cases iha ha'
  | «with» _ iha =>
    cases h' with
    | without ha' => cases iha ha'
    | «with» ha' => exact iha ha'
  | ahead _ iha => cases h' with | ahead ha' => rw [iha ha']
  | notAhead _ iha => cases h' with | notAhead ha' => rw [iha ha']
  | call _ ihb => cases h' with | call hb' => exact ihb hb'

/-- A match is a stretch of the text, and not an empty one if the expression
cannot be. -/
theorem Matches.takes (h : Matches g e c o) :
    ∀ d, o = some d → ∃ taken,
      c.Takes taken d ∧ (g.mayBeEmpty e = false → taken ≠ []) := by
  induction h with
  | @one accepts x xs p =>
    rintro _ ⟨⟩
    exact ⟨[x], .cons x xs p, fun _ => List.cons_ne_nil x []⟩
  | other | no | broken =>
    intro d hd
    cases hd
  | @chars text c =>
    intro d hd
    refine ⟨text, .of_skip? hd, fun he => ?_⟩
    rintro rfl
    cases he
  | start | finish =>
    intro d hd
    split at hd
    · cases hd
      exact ⟨[], .nil _, fun he => by cases he⟩
    · cases hd
  | seq _ _ iha ihb =>
    intro e he
    obtain ⟨taken, ht, hne⟩ := iha _ rfl
    obtain ⟨more, hm, hne'⟩ := ihb e he
    refine ⟨taken ++ more, ht.append hm, fun hab hnil => ?_⟩
    obtain ⟨rfl, rfl⟩ := List.append_eq_nil_iff.mp hnil
    rcases Bool.and_eq_false_iff.mp hab with ha | hb
    · exact hne ha rfl
    · exact hne' hb rfl
  | left _ iha =>
    intro d hd
    obtain ⟨taken, ht, hne⟩ := iha d hd
    exact ⟨taken, ht, fun hab => hne (Grammar.mayBeEmpty_alt hab).1⟩
  | right _ _ _ ihb =>
    intro d hd
    obtain ⟨taken, ht, hne⟩ := ihb d hd
    exact ⟨taken, ht, fun hab => hne (Grammar.mayBeEmpty_alt hab).2⟩
  | stop | without =>
    rintro _ ⟨⟩
    exact ⟨[], .nil _, fun he => by cases he⟩
  | more _ _ iha ihm =>
    intro e he
    obtain ⟨taken, ht, -⟩ := iha _ rfl
    obtain ⟨more, hm, -⟩ := ihm e he
    exact ⟨taken ++ more, ht.append hm, fun he => by cases he⟩
  | «with» _ iha =>
    intro d hd
    obtain ⟨taken, ht, -⟩ := iha d hd
    exact ⟨taken, ht, fun he => by cases he⟩
  | ahead =>
    intro d hd
    obtain ⟨_, -, rfl⟩ := Option.map_eq_some_iff.mp hd
    exact ⟨[], .nil _, fun he => by cases he⟩
  | notAhead =>
    intro d hd
    split at hd
    · cases hd
    · cases hd
      exact ⟨[], .nil _, fun he => by cases he⟩
  | call _ ihb =>
    intro d hd
    obtain ⟨taken, ht, hne⟩ := ihb d hd
    exact ⟨taken, ht, fun he => hne (Grammar.mayBeEmpty_body he)⟩

-- ============================================ repetitions that advance

/-- The expressions that are repeated in an expression. -/
def Peg.repeated : Peg N → List (Peg N)
  | .one _ | .chars _ | .start | .finish | .call _ => []
  | .seq a b | .alt a b => a.repeated ++ b.repeated
  | .many a => a :: a.repeated
  | .opt a | .ahead a | .notAhead a => a.repeated

namespace Grammar

/-- What is repeated in an expression takes something. -/
def Advances (g : Grammar N) (e : Peg N) : Prop :=
  ∀ a ∈ e.repeated, g.mayBeEmpty a = false

instance (g : Grammar N) (e : Peg N) : Decidable (g.Advances e) :=
  inferInstanceAs (Decidable (∀ a ∈ e.repeated, g.mayBeEmpty a = false))

theorem Advances.of_subset (h : g.Advances e) (hs : a.repeated ⊆ e.repeated) :
    g.Advances a :=
  fun x hx => h x (hs hx)

theorem Advances.once (h : g.Advances (.many a)) : g.Advances a :=
  h.of_subset (List.subset_cons_self a a.repeated)

/-- Then the guard of the matcher is of no use: a match is never where the
repetition was. -/
theorem Advances.lt_stop (h : g.Advances (.many a)) {m : Mode} {x : Match N}
    (hx : g.found m a c = some x) :
    x.stop.rest.length < c.rest.length ∧ x.stop.offset ≠ c.offset := by
  have ha : g.mayBeEmpty a = false := h a List.mem_cons_self
  have hr : g.Reaches a c (some x) := hx ▸ g.reaches_run m c .none a
  have hlt := (hr x rfl).2 ha
  obtain ⟨taken, ht⟩ := (derives_of_found hx).takes
  have hne : taken ≠ [] := by
    rintro rfl
    rw [ht.rest] at hlt
    exact Nat.lt_irrefl _ hlt
  exact ⟨hlt, Nat.ne_of_gt (ht.offset_lt hne)⟩

theorem stop_enclose (r : N) (m : Mode) (c : Cursor) (f : Match N) :
    (g.enclose r m c f).stop = f.stop := by
  unfold enclose
  split <;> rfl

end Grammar

/-- Where repetitions advance, matching ends, with the outcome of the
matcher. -/
theorem matches_found (hg : ∀ r, g.Advances (g.body r)) (he : g.Advances e)
    (m : Mode) (c : Cursor) : Matches g e c ((g.found m e c).map (·.stop)) := by
  -- By the work that is left, as for the matcher itself.
  induction hn : g.work e c.rest.length
    using Nat.strongRecOn generalizing m e c with
  | ind n ih =>
    subst hn
    have part {a : Peg N} {d : Cursor}
        (hlt : g.work a d.rest.length < g.work e c.rest.length)
        (ha : g.Advances a) (m : Mode) :
        Matches g a d ((g.found m a d).map (·.stop)) :=
      ih _ hlt ha m d rfl
    cases e with
    | one accepts =>
      obtain ⟨rest, p⟩ := c
      cases rest with
      | nil =>
        rw [Grammar.found_one_nil]
        exact .no
      | cons x xs =>
        rw [Grammar.found_one_cons]
        cases hx : accepts x with
        | true => exact .one hx
        | false => exact .other hx
    | chars text =>
      rw [Grammar.found_chars, Option.map_map]
      show Matches g _ c (Option.map (fun d => d) _)
      rw [Option.map_id']
      exact .chars
    | start =>
      rw [Grammar.found_start, apply_ite (Option.map _)]
      exact .start
    | finish =>
      rw [Grammar.found_finish, apply_ite (Option.map _)]
      exact .finish
    | seq a b =>
      rw [Grammar.found_seq]
      have ha :=
        part Grammar.work_seq_left (he.of_subset (List.subset_append_left ..)) m
      cases hx : g.found m a c with
      | none =>
        rw [hx] at ha
        exact .broken ha
      | some x =>
        rw [hx] at ha
        have hr : g.Reaches a c (some x) := hx ▸ g.reaches_run m c .none a
        have hb := part (Grammar.work_seq_right hr.le (hr x rfl).2)
          (he.of_subset (List.subset_append_right ..)) m
        rw [Option.bind_some, Option.map_map]
        exact .seq ha hb
    | alt a b =>
      rw [Grammar.found_alt]
      have ha :=
        part Grammar.work_alt_left (he.of_subset (List.subset_append_left ..)) m
      have hb := part Grammar.work_alt_right
        (he.of_subset (List.subset_append_right ..)) m
      cases hx : g.found m a c with
      | some x =>
        rw [hx] at ha
        exact .left ha
      | none =>
        rw [hx] at ha
        exact .right ha hb
    | many a =>
      rw [Grammar.found_many]
      have ha := part Grammar.work_many he.once m
      cases hx : g.found m a c with
      | none =>
        rw [hx] at ha
        exact .stop ha
      | some x =>
        rw [hx] at ha
        obtain ⟨hlt, hne⟩ := he.lt_stop hx
        have hm :=
          part (g.work_lt (Nat.le_refl (g.maxCost (.many a))) (.inl hlt)) he m
        dsimp only
        rw [if_neg hne, Option.map_map]
        exact .more ha hm
    | opt a =>
      rw [Grammar.found_opt]
      have ha := part Grammar.work_opt he m
      cases hx : g.found m a c with
      | none =>
        rw [hx] at ha
        exact .without ha
      | some x =>
        rw [hx] at ha
        exact .with ha
    | ahead a =>
      have ha := Matches.ahead (part Grammar.work_ahead he m.ahead)
      rw [Option.map_map] at ha
      rwa [Grammar.found_ahead, Option.map_map]
    | notAhead a =>
      have ha := Matches.notAhead (part Grammar.work_notAhead he m.notAhead)
      rw [Option.isSome_map] at ha
      rwa [Grammar.found_notAhead, apply_ite (Option.map _)]
    | call r =>
      by_cases hs : g.retention r = .silent
      · rw [Grammar.found_silent _ _ _ hs]
        exact .call (part Grammar.work_body (hg r) m)
      · rw [Grammar.found_call _ _ _ hs, Option.map_map]
        simp only [Function.comp_def, Grammar.stop_enclose]
        exact .call (part Grammar.work_body (hg r) (g.bodyMode r m))

-- ================================================== the way to a match

/-- Matching the one expression at its cursor asks for matching the other at its
own: first of all, or after what has been matched so far. -/
inductive Asks {N : Type} (g : Grammar N) :
    Peg N × Cursor → Peg N × Cursor → Prop
  | head {a b : Peg N} {c : Cursor} : Asks g (.seq a b, c) (a, c)
  | tail {a b : Peg N} {c d : Cursor} :
      Matches g a c (some d) → Asks g (.seq a b, c) (b, d)
  | left {a b : Peg N} {c : Cursor} : Asks g (.alt a b, c) (a, c)
  | right {a b : Peg N} {c : Cursor} :
      Matches g a c none → Asks g (.alt a b, c) (b, c)
  | once {a : Peg N} {c : Cursor} : Asks g (.many a, c) (a, c)
  | again {a : Peg N} {c d : Cursor} :
      Matches g a c (some d) → Asks g (.many a, c) (.many a, d)
  | opt {a : Peg N} {c : Cursor} : Asks g (.opt a, c) (a, c)
  | ahead {a : Peg N} {c : Cursor} : Asks g (.ahead a, c) (a, c)
  | notAhead {a : Peg N} {c : Cursor} : Asks g (.notAhead a, c) (a, c)
  | body {r : N} {c : Cursor} : Asks g (.call r, c) (g.body r, c)

variable {s t u : Peg N × Cursor}

namespace Grammar

/-- The second is behind the first, or at the same place and cheaper. -/
def Onward (g : Grammar N) (s t : Peg N × Cursor) : Prop :=
  ∃ taken, s.2.Takes taken t.2 ∧ (taken = [] → g.cost t.1 < g.cost s.1)

theorem Onward.here (h : g.cost a < g.cost e) : g.Onward (e, c) (a, c) :=
  ⟨[], .nil c, fun _ => h⟩

theorem Onward.trans (h : g.Onward s t) (h' : g.Onward t u) : g.Onward s u := by
  obtain ⟨taken, ht, hlt⟩ := h
  obtain ⟨more, hm, hlt'⟩ := h'
  refine ⟨taken ++ more, ht.append hm, fun hnil => ?_⟩
  obtain ⟨h₁, h₂⟩ := List.append_eq_nil_iff.mp hnil
  exact Nat.lt_trans (hlt' h₂) (hlt h₁)

/-- What costs as much is behind. -/
theorem Onward.offset_lt (h : g.Onward s t) (hle : g.cost s.1 ≤ g.cost t.1) :
    s.2.offset < t.2.offset := by
  obtain ⟨taken, ht, hlt⟩ := h
  exact ht.offset_lt fun hnil => Nat.not_lt.mpr hle (hlt hnil)

end Grammar

/-- One step goes onward. -/
theorem Asks.onward (h : Asks g s t) (hs : g.Advances s.1) : g.Onward s t := by
  cases h with
  | head => exact .here (by simp only [Grammar.cost, Peg.cost]; omega)
  | @tail a b c d ha =>
    obtain ⟨taken, ht, hne⟩ := ha.takes d rfl
    refine ⟨taken, ht, fun hnil => ?_⟩
    -- The first part has taken nothing, so the cost counts the second one.
    have he : a.nullable g.nullable = true :=
      Bool.of_not_eq_false fun hb => hne hb hnil
    simp only [Grammar.cost, Peg.cost, he, if_true]
    omega
  | left => exact .here (by simp only [Grammar.cost, Peg.cost]; omega)
  | right => exact .here (by simp only [Grammar.cost, Peg.cost]; omega)
  | once => exact .here (by simp only [Grammar.cost, Peg.cost]; omega)
  | @again a c d ha =>
    obtain ⟨taken, ht, hne⟩ := ha.takes d rfl
    exact ⟨taken, ht, fun hnil => absurd hnil (hne (hs a List.mem_cons_self))⟩
  | opt => exact .here (by simp only [Grammar.cost, Peg.cost]; omega)
  | ahead => exact .here (by simp only [Grammar.cost, Peg.cost]; omega)
  | notAhead => exact .here (by simp only [Grammar.cost, Peg.cost]; omega)
  | body => exact .here (g.cost_body_lt _)

/-- It leads to expressions whose repetitions advance. -/
theorem Asks.advances (hg : ∀ r, g.Advances (g.body r)) (h : Asks g s t)
    (hs : g.Advances s.1) : g.Advances t.1 := by
  cases h with
  | head | left => exact hs.of_subset (List.subset_append_left ..)
  | tail | right => exact hs.of_subset (List.subset_append_right ..)
  | once => exact hs.once
  | again | opt | ahead | notAhead => exact hs
  | body => exact hg _

/-- So do any number of steps. -/
theorem onward_of_asks (hg : ∀ r, g.Advances (g.body r)) (hs : g.Advances s.1)
    (h : Relation.TransGen (Asks g) s t) : g.Onward s t := by
  have hboth : g.Onward s t ∧ g.Advances t.1 := by
    induction h with
    | single h => exact ⟨h.onward hs, h.advances hg hs⟩
    | tail _ h ih => exact ⟨ih.1.trans (h.onward ih.2), h.advances hg ih.2⟩
  exact hboth.1

end Jam
