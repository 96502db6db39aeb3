/-
Names that hide what lies behind them.

A search for a variable stops at the first frame that has it. So while a
name is bound in some frame, whoever looks or assigns from there or from a
frame opened above never gets to the frames behind it. `Hides base name`
says this of a frame: on the way from it through its parents, the name is
met in a frame numbered `base` or above. What makes it useful is how little
it takes to keep it. It speaks of parents and of bound names only, not of
values, and a run keeps the parents of open frames and unbinds nothing
(`Hides.mono`).

# What is proved

- `Hides.le_target`: an assignment changes no frame below `base`.
- `find?_congr`: what a search gives depends only on the parents and on
  the values of that one name in the open frames.
-/
import Mathlib.Data.List.Basic
import Jam.Proofs.Scopes.Frames

namespace Jam

namespace Scopes

variable {s s' : Scopes} {base id : FrameId} {name : String}

-- =========================================================== the chain

/-- The chain follows the parents. -/
theorem chainFrom_succ (s : Scopes) (steps : Nat) (id : FrameId) :
    s.chainFrom (steps + 1) id =
      match s.parent? id with
      | none => []
      | some parent => id :: (parent.map (s.chainFrom steps)).getD [] := by
  unfold parent?
  rw [chainFrom]
  cases s.frames[id]? <;> rfl

/-- The chain depends on the parents only. -/
theorem chainFrom_congr (h : ∀ id, s'.parent? id = s.parent? id) (steps : Nat)
    (id : FrameId) : s'.chainFrom steps id = s.chainFrom steps id := by
  induction steps generalizing id with
  | zero => rfl
  | succ steps ih =>
    have hf : s'.chainFrom steps = s.chainFrom steps := funext ih
    rw [chainFrom_succ, chainFrom_succ, h id, hf]

/-- The frames of a chain are open. -/
theorem lt_depth_of_mem_chainFrom {steps : Nat} {other : FrameId}
    (h : other ∈ s.chainFrom steps id) : other < s.depth := by
  induction steps generalizing id with
  | zero => cases h
  | succ steps ih =>
    rw [chainFrom_succ] at h
    cases hp : s.parent? id with
    | none =>
      rw [hp] at h
      cases h
    | some parent =>
      have hid : id < s.depth := lt_depth_of_parent? hp
      rw [hp] at h
      rcases List.mem_cons.mp h with rfl | h
      · exact hid
      · cases parent with
        | none => cases h
        | some parent => exact ih h

/-- A search gives the same where the frames have the same parents and the
name has the same values. -/
theorem find?_congr (hd : s'.depth = s.depth)
    (hp : ∀ id, s'.parent? id = s.parent? id)
    (hv : ∀ id < s.depth, s'.valueIn name id = s.valueIn name id)
    (id : FrameId) : s'.find? id name = s.find? id name := by
  have hc : s'.chain id = s.chain id := by
    unfold chain
    rw [hd]
    exact chainFrom_congr hp s.depth id
  have hm : ∀ i ∈ s.chain id, s'.valueIn name i = s.valueIn name i :=
    fun i hi => hv i (lt_depth_of_mem_chainFrom hi)
  unfold find?
  rw [hc, ← List.head?_filterMap, ← List.head?_filterMap,
    List.filterMap_congr hm]

-- ============================================================== hiding

/-- From the frame, the name is met in a frame numbered `base` or above. -/
inductive Hides (s : Scopes) (base : FrameId) (name : String) : FrameId → Prop
  /-- The frame has the name itself. -/
  | here {id : FrameId} : base ≤ id → s.Binds id name → Hides s base name id
  /-- The name is met from the parent, a frame opened before. -/
  | above {id parent : FrameId} :
      s.parent? id = some (some parent) → parent < id →
      Hides s base name parent → Hides s base name id

namespace Hides

theorem base_le (h : s.Hides base name id) : base ≤ id := by
  induction h with
  | here hle _ => exact hle
  | above _ hlt _ ih => exact Nat.le_trans ih (Nat.le_of_lt hlt)

theorem lt_depth (h : s.Hides base name id) : id < s.depth := by
  cases h with
  | here _ hb => exact hb.lt_depth
  | above hp _ _ => exact lt_depth_of_parent? hp

/-- Names go on hiding while frames keep their parents and their names. -/
theorem mono (h : s.Hides base name id)
    (hp : ∀ id < s.depth, s'.parent? id = s.parent? id)
    (hb : ∀ id, s.Binds id name → s'.Binds id name) :
    s'.Hides base name id := by
  induction h with
  | here hle hbinds => exact .here hle (hb _ hbinds)
  | @above id parent hparent hlt hrest ih =>
    have hid : id < s.depth := (Hides.above hparent hlt hrest).lt_depth
    exact .above ((hp id hid).trans hparent) hlt ih

/-- The first frame with the name, on a chain that is long enough. Parents
come before, so the number of the frame bounds the length. -/
theorem exists_owner (h : s.Hides base name id) {steps : Nat}
    (hs : id < steps) :
    ∃ owner, (s.chainFrom steps id).find? (fun i => (s.valueIn name i).isSome) =
      some owner ∧ base ≤ owner := by
  induction h generalizing steps with
  | @here id hle hbinds =>
    cases steps with
    | zero => exact absurd hs (Nat.not_lt_zero id)
    | succ steps =>
      have hid : (s.parent? id).isSome = true :=
        (s.isSome_parent? id).mpr hbinds.lt_depth
      obtain ⟨parent, hparent⟩ := Option.isSome_iff_exists.mp hid
      refine ⟨id, ?_, hle⟩
      rw [chainFrom_succ, hparent]
      exact List.find?_cons_of_pos hbinds
  | @above id parent hparent hlt hrest ih =>
    cases steps with
    | zero => exact absurd hs (Nat.not_lt_zero id)
    | succ steps =>
      have hle : base ≤ id := (Hides.above hparent hlt hrest).base_le
      have hlt' : parent < steps :=
        Nat.lt_of_lt_of_le hlt (Nat.le_of_lt_succ hs)
      obtain ⟨owner, howner, hbase⟩ := ih hlt'
      rw [chainFrom_succ, hparent]
      by_cases hbinds : (s.valueIn name id).isSome = true
      · exact ⟨id, List.find?_cons_of_pos hbinds, hle⟩
      · refine ⟨owner, ?_, hbase⟩
        simpa [hbinds] using howner

/-- An assignment changes no frame below. -/
theorem le_target (h : s.Hides base name id) : base ≤ s.target id name := by
  obtain ⟨owner, howner, hle⟩ := h.exists_owner h.lt_depth
  have : s.owner? id name = some owner := howner
  unfold target
  rw [this]
  exact hle

end Hides

end Scopes

end Jam
