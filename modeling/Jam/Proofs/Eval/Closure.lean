/-
Properties of actions that go through composition.

A run is put together from few small actions, by sequence, by looking at the
world, and by loops over them. So a property of actions that goes through
sequences, and holds of what does nothing, holds of whatever is put together
from actions that have it (`Eval.Closed`). The larger pieces that an
evaluation consists of, which are no statements themselves, are gone through
here once and for all such properties: each of them has the property if the
single steps in it have.

Loops are gone through for more than properties. Two runs may be compared,
action by action, and an action may be begun under another condition than it
leaves, as a pass of a loop is. What both need is the rule for sequences
(`Eval.Congruent`), and a property is a comparison that looks at the first
action only, under no condition.
-/
import Jam.Eval.Statements

namespace Jam

variable {α β : Type}

namespace Eval

-- ============================================= worlds before and after

/-- A transitive relation between the world before an action and the world after
it goes through sequences, whether or not the first action has a value. -/
theorem rel_bind {R : World → World → Prop}
    (ht : ∀ {world middle after : World}, R world middle → R middle after →
      R world after) {x : Eval α} {f : α → Eval β}
    (hx : ∀ world, R world (x.runIn world).2)
    (hf : ∀ a world, R world ((f a).runIn world).2) (world : World) :
    R world ((x >>= f).runIn world).2 := by
  have hrel := hx world
  rw [runIn_bind]
  split
  · next a middle hrun =>
    rw [hrun] at hrel
    exact ht hrel (hf a middle)
  · next halt middle hrun =>
    rw [hrun] at hrel
    exact hrel

/-- What two actions leave as it is they leave together. -/
theorem view_bind {γ : Type} (view : World → γ) {x : Eval α} {f : α → Eval β}
    (hx : ∀ world, view (x.runIn world).2 = view world)
    (hf : ∀ a world, view ((f a).runIn world).2 = view world) (world : World) :
    view ((x >>= f).runIn world).2 = view world :=
  rel_bind (R := fun world after => view after = view world)
    (fun h h' => h'.trans h) hx hf world

/-- That an error learns what it lies within is nothing that is done to the
world. -/
theorem runIn_inside_world (span : Span) (x : Eval α) (world : World) :
    ((inside span x).runIn world).2 = (x.runIn world).2 := by
  rw [runIn_inside]
  split
  · next hrun => rw [hrun]
  · rfl

-- ========================================================= comparisons

/-- The comparison, from one condition to another, holds of what does nothing,
and goes through sequences. -/
structure Congruent {ι : Type}
    (R : ι → ι → {α : Type} → Eval α → Eval α → Prop) : Prop where
  pure (i : ι) {α : Type} (a : α) : R i i (Pure.pure a : Eval α) (Pure.pure a)
  bind {i j k : ι} {α β : Type} {x y : Eval α} {f g : α → Eval β} :
    R i j x y → (∀ a, R j k (f a) (g a)) → R i k (x >>= f) (y >>= g)

namespace Congruent

variable {ι : Type} {i j : ι} {R : ι → ι → {α : Type} → Eval α → Eval α → Prop}
  (h : Congruent R)
include h

/-- Doing something for each member of a list. -/
theorem forM {γ : Type} {f g : γ → Eval Unit} (as : List γ)
    (hf : ∀ a ∈ as, R i i (f a) (g a)) : R i i (as.forM f) (as.forM g) := by
  induction as with
  | nil => exact h.pure i ()
  | cons a as ih =>
    obtain ⟨ha, has⟩ := List.forall_mem_cons.mp hf
    exact h.bind ha fun _ => ih has

section Loops

variable (hl : R j i loopEnds loopEnds)
include hl

/-- A pass is begun under the condition of the loop, and the end of the pass
goes back to it. -/
theorem forEach {f g : String → Eval Value} (hb : ∀ x, R i j (f x) (g x))
    (values : List String) (last : Value) :
    R i i (forEach f values last) (forEach g values last) := by
  induction values generalizing last with
  | nil => exact h.pure i last
  | cons x xs ih =>
    refine h.bind (hb x) fun value => h.bind hl fun ends => ?_
    split
    · exact h.pure i value
    · exact ih value

/-- The second loop may go on where the first one runs out of passes. -/
theorem repeatWhile {t u : Eval Bool} {b c : Eval Value} (ht : R i i t u)
    (hb : R i j b c) {m n : Nat} (hle : m ≤ n)
    (ho : ∀ y : Eval Value, m < n ∨ y = throw .outOfPasses →
      R i i (throw .outOfPasses) y) (last : Value) :
    R i i (repeatWhile t b m last) (repeatWhile u c n last) := by
  induction m generalizing n last with
  | zero =>
    unfold Jam.repeatWhile
    refine h.bind ht fun holds => ?_
    split
    · refine ho _ ?_
      cases n with
      | zero => exact .inr rfl
      | succ n => exact .inl n.succ_pos
    · exact h.pure i last
  | succ m ih =>
    obtain ⟨n, rfl⟩ : ∃ n', n = n' + 1 := ⟨n - 1, by omega⟩
    unfold Jam.repeatWhile
    refine h.bind ht fun holds => ?_
    split
    · refine h.bind hb fun value => h.bind hl fun ends => ?_
      split
      · exact h.pure i value
      · exact ih (by omega)
          (fun y hy => ho y (hy.imp_left Nat.succ_lt_succ)) value
    · exact h.pure i last

end Loops

end Congruent

-- ========================================================== properties

/-- The property holds of what does nothing, and goes through composition. -/
structure Closed (P : {α : Type} → Eval α → Prop) : Prop where
  pure {α : Type} (a : α) : P (Pure.pure a)
  bind {α β : Type} {x : Eval α} {f : α → Eval β} : P x → (∀ a, P (f a)) →
    P (x >>= f)
  /-- What is done with the world is done with some world. -/
  get_bind {α : Type} {f : World → Eval α} : (∀ world, P (f world)) →
    P (get >>= f)

namespace Closed

variable {P : {α : Type} → Eval α → Prop} (h : Closed P)
include h

-- ========================================================== many names

/-- As a comparison it looks at the first action only. -/
theorem congruent : Congruent fun (_ _ : Unit) _ (x _ : Eval _) => P x where
  pure _ _ a := h.pure a
  bind hx hf := h.bind hx hf

/-- Doing something for each member of a list. -/
theorem forM {γ : Type} {f : γ → Eval Unit} (as : List γ)
    (hf : ∀ a ∈ as, P (f a)) : P (as.forM f) :=
  h.congruent.forM (i := ()) (g := f) as hf

theorem assignVariable {frame : FrameId} {name : String}
    (ha : ∀ value, P (modify (·.assign frame name value))) (op : AssignOp)
    (value : Value) : P (assignVariable frame op name value) := by
  unfold Jam.assignVariable
  refine h.get_bind fun world => ?_
  split
  · exact h.pure _
  · exact h.bind (ha _) fun _ => h.pure _
  · exact h.bind (ha value) fun _ => h.pure value

-- ============================================================= signals

section Signals

variable (hn : P (modify (·.raise .none)))
include hn

theorem loopEnds : P loopEnds := by
  unfold Jam.loopEnds
  refine h.get_bind fun world => ?_
  have ends (b : Bool) : P (do modify (·.raise .none); return b : Eval Bool) :=
    h.bind hn fun _ => h.pure b
  split
  · exact h.pure false
  · exact ends false
  · exact ends true
  · exact h.pure true
  · exact h.pure true

theorem settle {settings : Settings} {span : Span}
    (hw : ∀ kind message, P (Eval.warn settings kind message span))
    (place : String) : P (settle settings place span) := by
  unfold Jam.settle
  refine h.get_bind fun world => ?_
  have strays (keyword : String) :
      P (do modify (·.raise .none); warnStray settings keyword place span :
        Eval Unit) :=
    h.bind hn fun _ => hw _ _
  split
  · exact hn
  · exact strays "break"
  · exact strays "continue"
  · exact h.pure ()
  · exact h.pure ()

end Signals

theorem invokeUndefined {settings : Settings} {span : Span}
    {arguments : List Value} (he : P (echoFirst arguments))
    (hx : P (modify (·.raise .exit)))
    (hw : ∀ message, P (Eval.warn settings .undefinedRule message span))
    (name : String) : P (invokeUndefined settings name arguments span) := by
  unfold Jam.invokeUndefined
  split
  · exact h.bind he fun _ => h.pure []
  · exact h.bind he fun _ => h.bind hx fun _ => h.pure []
  · exact h.bind (hw _) fun _ => h.pure []

-- =============================================================== loops

section Loops

variable (hl : P Jam.loopEnds)
include hl

theorem forEach {body : String → Eval Value} (hb : ∀ x, P (body x))
    (values : List String) (last : Value) : P (forEach body values last) :=
  h.congruent.forEach (i := ()) (j := ()) (g := body) hl hb values last

theorem repeatWhile {test : Eval Bool} {body : Eval Value} (ht : P test)
    (hb : P body) (ho : P (throw .outOfPasses : Eval Value)) (passes : Nat)
    (last : Value) : P (repeatWhile test body passes last) :=
  h.congruent.repeatWhile (i := ()) (j := ()) (u := test) (c := body) hl ht hb
    (Nat.le_refl passes) (fun _ _ => ho) last

end Loops

end Closed

end Eval

end Jam
