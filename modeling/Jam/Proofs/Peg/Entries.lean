/-
Where nonterminals are entered.

On its way through an expression a run enters nonterminals at many places:
those of its match, those under lookaheads, and those of alternatives that
fail. `Enters` says at which places it enters one that is retained outside
of leaves. Only there can something be noted for the sake of error
messages, so the furthest place of a run's attempts is one that was
entered, if it has moved at all (`furthest_run`); and only there can a node
begin, at any depth (`Derives.enters`).

What is tried behind a match is entered from where the match ends. So a
property of the places that are entered is shown by induction over
`Enters`, with what is known of the ends of matches at the two rules that
have one.
-/
import Jam.Proofs.Peg.Strung

namespace Jam

-- ============================================= places that are entered

/-- A run of the expression at `c` comes to a nonterminal at `d` that is
retained, and not inside of a leaf. -/
inductive Enters {N : Type} (g : Grammar N) :
    Mode → Peg N → Cursor → Cursor → Prop
  | here {m r c} : g.retention r ≠ .silent → (g.ownMode r m).atomic = false →
      Enters g m (.call r) c c
  | silent {m r c d} : g.retention r = .silent → Enters g m (g.body r) c d →
      Enters g m (.call r) c d
  | inside {m r c d} :
      g.retention r ≠ .silent → Enters g (g.bodyMode r m) (g.body r) c d →
      Enters g m (.call r) c d
  | first {m a b c d} : Enters g m a c d → Enters g m (.seq a b) c d
  | second {m a b c x d xs} :
      Derives g m a c x xs → Enters g m b x d → Enters g m (.seq a b) c d
  | left {m a b c d} : Enters g m a c d → Enters g m (.alt a b) c d
  | right {m a b c d} : Enters g m b c d → Enters g m (.alt a b) c d
  | once {m a c d} : Enters g m a c d → Enters g m (.many a) c d
  | again {m a c x d xs} : Derives g m a c x xs → Enters g m (.many a) x d →
      Enters g m (.many a) c d
  | opt {m a c d} : Enters g m a c d → Enters g m (.opt a) c d
  | ahead {m a c d} : Enters g m.ahead a c d → Enters g m (.ahead a) c d
  | notAhead {m a c d} :
      Enters g m.notAhead a c d → Enters g m (.notAhead a) c d

variable {N : Type} {g : Grammar N} {m m' : Mode} {e a b : Peg N} {c d : Cursor}
  {r : N} {ts : List (Tree N)} {t s u : Attempts N}

theorem forestNodes_append (ts us : List (Tree N)) :
    forestNodes (ts ++ us) = forestNodes ts ++ forestNodes us := by
  induction ts with
  | nil => rfl
  | cons t ts ih =>
    rw [List.cons_append, forestNodes, forestNodes, ih, List.append_assoc]

/-- A node begins where its nonterminal was entered, and so do all nodes below
it. -/
theorem Derives.enters (h : Derives g m e c d ts) :
    ∀ t ∈ forestNodes ts,
      g.retention t.kind ≠ .silent ∧ Enters g m e c t.first := by
  induction h with
  | one | chars | start | finish | stop | without | ahead | notAhead =>
    exact List.forall_mem_nil _
  | seq ha _ ih ih' =>
    rw [forestNodes_append]
    exact List.forall_mem_append.mpr ⟨fun t ht => (ih t ht).imp_right .first,
      fun t ht => (ih' t ht).imp_right (.second ha)⟩
  | left _ ih => exact fun t ht => (ih t ht).imp_right .left
  | right _ _ ih => exact fun t ht => (ih t ht).imp_right .right
  | last _ _ ih => exact fun t ht => (ih t ht).imp_right .once
  | more ha _ _ ih ih' =>
    rw [forestNodes_append]
    exact List.forall_mem_append.mpr ⟨fun t ht => (ih t ht).imp_right .once,
      fun t ht => (ih' t ht).imp_right (.again ha)⟩
  | «with» _ ih => exact fun t ht => (ih t ht).imp_right .opt
  | silent hs _ ih => exact fun t ht => (ih t ht).imp_right (.silent hs)
  | node hs hk _ ih =>
    rw [Mode.keepsNodes, Bool.and_eq_true, Bool.not_eq_true'] at hk
    rw [forestNodes, Tree.nodes_eq, forestNodes, List.append_nil]
    exact List.forall_mem_cons.mpr
      ⟨⟨hs, .here hs hk.2⟩, fun t ht => (ih t ht).imp_right (.inside hs)⟩
  | bare hs _ _ ih => exact fun t ht => (ih t ht).imp_right (.inside hs)

-- ====================================== expressions that enter nothing

/-- The nonterminals that an expression calls, also in lookaheads. -/
def Peg.mentions : Peg N → List N
  | one _ | chars _ | start | finish => []
  | seq a b | alt a b => a.mentions ++ b.mentions
  | many a | opt a | ahead a | notAhead a => a.mentions
  | call r => [r]

/-- What is entered is entered by way of a nonterminal that is called. -/
theorem Enters.exists_call (h : Enters g m e c d) :
    ∃ r ∈ e.mentions, ∃ m' c',
      m'.atomic = m.atomic ∧ Enters g m' (.call r) c' d := by
  induction h with
  | here hs ha => exact ⟨_, List.mem_singleton_self _, _, _, rfl, .here hs ha⟩
  | silent hs hb =>
    exact ⟨_, List.mem_singleton_self _, _, _, rfl, .silent hs hb⟩
  | inside hs hb =>
    exact ⟨_, List.mem_singleton_self _, _, _, rfl, .inside hs hb⟩
  | first _ ih | left _ ih =>
    obtain ⟨r, hr, h⟩ := ih
    exact ⟨r, List.mem_append_left _ hr, h⟩
  | second _ _ ih | right _ ih =>
    obtain ⟨r, hr, h⟩ := ih
    exact ⟨r, List.mem_append_right _ hr, h⟩
  | once _ ih | again _ _ ih | opt _ ih | ahead _ ih | notAhead _ ih => exact ih

theorem not_enters_of_nil (he : e.mentions = []) : ¬ Enters g m e c d := by
  intro h
  obtain ⟨r, hr, -⟩ := h.exists_call
  rw [he] at hr
  cases hr

/-- Nothing is entered if what is called leaves no nodes, as it is silent or a
leaf inside of a leaf, and calls nothing. -/
theorem not_enters (he : ∀ r ∈ e.mentions, (g.body r).mentions = [] ∧
    (g.retention r = .silent ∨ g.retention r = .leaf ∧ m.atomic = true)) :
    ¬ Enters g m e c d := by
  intro h
  obtain ⟨r, hr, m', c', hm, hcall⟩ := h.exists_call
  obtain ⟨hnil, hkind⟩ := he r hr
  cases hcall with
  | here hs ha =>
    rcases hkind with hsilent | ⟨hleaf, hatomic⟩
    · exact hs hsilent
    · have hown : g.ownMode r m' = m' := by simp only [Grammar.ownMode, hleaf]
      rw [hown, hm, hatomic] at ha
      cases ha
  | silent _ hb | inside _ hb => exact not_enters_of_nil hnil hb

-- ============================================================ attempts

theorem Attempts.furthest_note (t : Attempts N) (r : N) (place : Nat)
    (before : Tally) (negated : Bool) :
    (t.note r place before negated).furthest = t.furthest ∨
      (t.note r place before negated).furthest = place := by
  unfold note
  dsimp only
  split
  · exact .inl rfl
  · split
    · exact .inl rfl
    · right
      split <;> split <;> rfl

/-- The furthest place of the attempts is the same, or one that the run
enters. -/
def Moves (g : Grammar N) (m : Mode) (e : Peg N) (c : Cursor)
    (before after : Attempts N) : Prop :=
  after.furthest = before.furthest ∨ ∃ d,
    Enters g m e c d ∧ after.furthest = d.offset

namespace Moves

theorem refl (t : Attempts N) : Moves g m e c t t := .inl rfl

theorem trans (h : Moves g m e c t s) (h' : Moves g m e c s u) :
    Moves g m e c t u := by
  rcases h' with heq | hentered
  · rw [Moves, heq]
    exact h
  · exact .inr hentered

theorem mono (h : Moves g m a c t s)
    (he : ∀ x, Enters g m a c x → Enters g m' e d x) : Moves g m' e d t s := by
  rcases h with heq | ⟨x, hx, heq⟩
  · exact .inl heq
  · exact .inr ⟨x, he x hx, heq⟩

/-- A nonterminal that is closed may be noted where it was entered. -/
theorem close (hr : g.retention r ≠ .silent) (before : Tally) {o : Outcome N}
    (h : Moves g m (.call r) c t o.2) :
    Moves g m (.call r) c t ((g.ownMode r m).close r c before o).2 := by
  unfold Mode.close
  dsimp only
  split
  · next hnoted =>
    rw [Bool.and_eq_true, Bool.not_eq_true'] at hnoted
    refine h.trans ?_
    rcases o.2.furthest_note r c.offset before
        ((g.ownMode r m).polarity = .negative) with
      heq | heq
    · exact .inl heq
    · exact .inr ⟨c, .here hr hnoted.1, heq⟩
  · exact h

end Moves

-- ================================================== runs, form by form

/-- What a run finds is derived. -/
theorem derives_of_run {f : Match N} (h : g.run m e c t = (some f, s)) :
    Derives g m e c f.stop f.nodes :=
  derives_of_found
    ((g.fst_run_eq_found m c t e).symm.trans (congrArg Prod.fst h))

theorem moves_seq (ha : Moves g m a c t (g.run m a c t).2)
    (hb : ∀ f s, g.run m a c t = (some f, s) →
      Moves g m b f.stop s (g.run m b f.stop s).2) :
    Moves g m (.seq a b) c t (g.run m (.seq a b) c t).2 := by
  have hfirst := ha.mono fun _ => Enters.first (b := b)
  rw [Grammar.run_seq]
  rcases hrun : g.run m a c t with ⟨_ | f, s⟩
  · rw [hrun] at hfirst
    exact hfirst
  · rw [hrun] at hfirst
    have hboth := hfirst.trans
      ((hb f s hrun).mono fun _ => Enters.second (derives_of_run hrun))
    dsimp only
    split
    · next hrun' =>
      rw [hrun'] at hboth
      exact hboth
    · next hrun' =>
      rw [hrun'] at hboth
      exact hboth

theorem moves_alt (ha : Moves g m a c t (g.run m a c t).2)
    (hb : ∀ s, Moves g m b c s (g.run m b c s).2) :
    Moves g m (.alt a b) c t (g.run m (.alt a b) c t).2 := by
  have hleft := ha.mono fun _ => Enters.left (b := b)
  rw [Grammar.run_alt]
  rcases hrun : g.run m a c t with ⟨_ | f, s⟩
  · rw [hrun] at hleft
    exact hleft.trans ((hb s).mono fun _ => Enters.right)
  · rw [hrun] at hleft
    exact hleft

theorem moves_many (ha : Moves g m a c t (g.run m a c t).2)
    (hm : ∀ f s, g.run m a c t = (some f, s) → f.stop.offset ≠ c.offset →
      Moves g m (.many a) f.stop s (g.run m (.many a) f.stop s).2) :
    Moves g m (.many a) c t (g.run m (.many a) c t).2 := by
  have honce := ha.mono fun _ => Enters.once
  rw [Grammar.run_many]
  rcases hrun : g.run m a c t with ⟨_ | f, s⟩
  · rw [hrun] at honce
    exact honce
  · rw [hrun] at honce
    dsimp only
    split
    · exact honce
    · next hne =>
      exact honce.trans
        ((hm f s hrun hne).mono fun _ => Enters.again (derives_of_run hrun))

theorem moves_call
    (hs : ∀ m, Moves g m (g.body r) c t (g.run m (g.body r) c t).2) :
    Moves g m (.call r) c t (g.run m (.call r) c t).2 := by
  by_cases hr : g.retention r = .silent
  · rw [Grammar.run_call_silent _ _ _ _ hr]
    exact (hs m).mono fun _ => Enters.silent hr
  · rw [Grammar.run_call _ _ _ _ hr]
    exact Moves.close hr _
      ((hs (g.bodyMode r m)).mono fun _ => Enters.inside hr)

namespace Grammar

/-- The furthest place of the attempts of a run is one that it enters, if the
run has moved it. -/
theorem furthest_run (g : Grammar N) (m : Mode) (e : Peg N) (c : Cursor)
    (t : Attempts N) : Moves g m e c t (g.run m e c t).2 := by
  -- By the work that is left, as for what a run finds.
  induction hn : g.work e c.rest.length
    using Nat.strongRecOn generalizing m e c t with
  | ind n ih =>
    subst hn
    have reaches {a : Peg N} {f : Match N}
        {s : Attempts N} (h : g.run m a c t = (some f, s)) :
        g.Reaches a c (some f) := by
      have hr := g.reaches_run m c t a
      rwa [h] at hr
    cases e with
    | one accepts =>
      obtain ⟨rest, p⟩ := c
      cases rest with
      | nil =>
        rw [run_one_nil]
        exact .refl t
      | cons x xs =>
        rw [run_one_cons]
        split <;> exact .refl t
    | chars text =>
      rw [run_chars]
      exact .refl t
    | start =>
      rw [run_start]
      exact .refl t
    | finish =>
      rw [run_finish]
      exact .refl t
    | seq a b =>
      refine moves_seq (ih _ work_seq_left m a c t rfl) fun f s hrun => ?_
      have hr := reaches hrun
      exact ih _ (work_seq_right hr.le (hr f rfl).2) m b f.stop s rfl
    | alt a b =>
      exact moves_alt (ih _ work_alt_left m a c t rfl) fun s =>
        ih _ work_alt_right m b c s rfl
    | many a =>
      refine moves_many (ih _ work_many m a c t rfl) fun f s hrun hne => ?_
      have hlt := g.work_lt (Nat.le_refl (g.maxCost (.many a)))
        (.inl ((reaches hrun).lt_of_offset_ne hne))
      exact ih _ hlt m (.many a) f.stop s rfl
    | opt a =>
      have honce := (ih _ work_opt m a c t rfl).mono fun _ => Enters.opt
      rw [run_opt]
      rcases hrun : g.run m a c t with ⟨_ | f, s⟩ <;> rw [hrun] at honce <;>
          exact honce
    | ahead a =>
      have honce :=
        (ih _ work_ahead m.ahead a c t rfl).mono fun _ => Enters.ahead
      rw [run_ahead]
      rcases hrun : g.run m.ahead a c t with ⟨_ | f, s⟩ <;>
          rw [hrun] at honce <;> exact honce
    | notAhead a =>
      have honce :=
        (ih _ work_notAhead m.notAhead a c t rfl).mono fun _ => Enters.notAhead
      rw [run_notAhead]
      rcases hrun : g.run m.notAhead a c t with ⟨_ | f, s⟩ <;>
          rw [hrun] at honce <;> exact honce
    | call r => exact moves_call fun m => ih _ work_body m (g.body r) c t rfl

end Grammar

end Jam
