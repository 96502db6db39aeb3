/-
Searches that follow the parents without counting.

The chain of a frame is cut off after as many frames as there are. The
search it stands for is not: it goes from a frame to its parent until the
variable is met or no parent is left (`Walk`), and where parents lead in a
circle it need not end at all. Numbers of closed frames are used again, so
whether it ends is a matter of how frames are opened and closed, and of
nothing that the search does itself.

# What is proved

- `Walk.owner?_eq`: where the search ends, the chain has its outcome. This
  is so in all scopes, circles or not: a search that ends looks into no
  frame twice, hence into no more frames than there are.
- `lookups_end`: where frames are opened below open frames, no parents form
  a circle, and every search ends, from an open frame or from any other
  number.
- `lookups_go_round`: a frame that is opened below a closed one can become
  its own ancestor, and then a search goes on forever.
-/
import Mathlib.Data.List.Nodup
import Mathlib.Data.List.Perm.Subperm
import Mathlib.Data.List.Range
import Mathlib.Logic.Relation
import Jam.Proofs.Scopes.Arena

namespace Jam

namespace Scopes

variable {s : Scopes} {id parent : FrameId} {name : String}
  {path : List FrameId} {owner : Option FrameId}

-- ========================================================== the search

/-- The search for a variable from a frame on: the frames it looks into, and the
one that has the variable. -/
inductive Walk (s : Scopes) (name : String) :
    FrameId → List FrameId → Option FrameId → Prop
  | closed {id : FrameId} : s.parent? id = none → Walk s name id [] none
  | here {id : FrameId} : s.Binds id name → Walk s name id [id] (some id)
  | top {id : FrameId} :
      s.parent? id = some none → ¬ s.Binds id name → Walk s name id [id] none
  | up {id parent : FrameId} {path : List FrameId} {owner : Option FrameId} :
      s.parent? id = some (some parent) → ¬ s.Binds id name →
      Walk s name parent path owner → Walk s name id (id :: path) owner

/-- One frame was opened below the other. -/
def Below (s : Scopes) (id parent : FrameId) : Prop :=
  s.parent? id = some (some parent)

/-- A frame with a variable is open. -/
theorem Binds.parent?_ne_none (h : s.Binds id name) : s.parent? id ≠ none := by
  intro hp
  have hopen := (s.isSome_parent? id).mpr h.lt_depth
  rw [hp] at hopen
  cases hopen

namespace Walk

/-- From a frame there is but one search. -/
theorem unique (h : s.Walk name id path owner) {path' : List FrameId}
    {owner' : Option FrameId} (h' : s.Walk name id path' owner') :
    path = path' ∧ owner = owner' := by
  induction h generalizing path' owner' with
  | closed hp =>
    cases h' with
    | closed => exact ⟨rfl, rfl⟩
    | here hb => exact absurd hp hb.parent?_ne_none
    | top hp' => rw [hp] at hp'; cases hp'
    | up hp' => rw [hp] at hp'; cases hp'
  | here hb =>
    cases h' with
    | closed hp => exact absurd hp hb.parent?_ne_none
    | here => exact ⟨rfl, rfl⟩
    | top _ hn => exact absurd hb hn
    | up _ hn => exact absurd hb hn
  | top hp hn =>
    cases h' with
    | closed hp' => rw [hp] at hp'; cases hp'
    | here hb => exact absurd hb hn
    | top => exact ⟨rfl, rfl⟩
    | up hp' => rw [hp] at hp'; cases hp'
  | up hp hn _ ih =>
    cases h' with
    | closed hp' => rw [hp] at hp'; cases hp'
    | here hb => exact absurd hb hn
    | top hp' => rw [hp] at hp'; cases hp'
    | up hp' _ hrest =>
      rw [hp] at hp'
      cases hp'
      obtain ⟨rfl, rfl⟩ := ih hrest
      exact ⟨rfl, rfl⟩

/-- A search looks into open frames only. -/
theorem lt_depth (h : s.Walk name id path owner) : ∀ i ∈ path, i < s.depth := by
  induction h with
  | closed => exact List.forall_mem_nil _
  | here hb => exact List.forall_mem_singleton.mpr hb.lt_depth
  | top hp => exact List.forall_mem_singleton.mpr (lt_depth_of_parent? hp)
  | up hp _ _ ih => exact List.forall_mem_cons.mpr ⟨lt_depth_of_parent? hp, ih⟩

/-- From a frame that a search looks into, the search is what is left of it. -/
theorem of_mem (h : s.Walk name id path owner) {i : FrameId} (hi : i ∈ path) :
    ∃ rest, s.Walk name i rest owner ∧ rest.length ≤ path.length := by
  induction h with
  | closed => cases hi
  | here hb =>
    obtain rfl := List.mem_singleton.mp hi
    exact ⟨_, .here hb, Nat.le_refl _⟩
  | top hp hn =>
    obtain rfl := List.mem_singleton.mp hi
    exact ⟨_, .top hp hn, Nat.le_refl _⟩
  | up hp hn hrest ih =>
    rcases List.mem_cons.mp hi with rfl | hi
    · exact ⟨_, .up hp hn hrest, Nat.le_refl _⟩
    · obtain ⟨rest, hwalk, hle⟩ := ih hi
      exact ⟨rest, hwalk, Nat.le_succ_of_le hle⟩

/-- A search that ends looks into no frame twice. -/
theorem nodup (h : s.Walk name id path owner) : path.Nodup := by
  induction h with
  | closed => exact List.nodup_nil
  | here => exact List.nodup_singleton _
  | top => exact List.nodup_singleton _
  | @up id parent path owner hp hn hrest ih =>
    refine List.nodup_cons.mpr ⟨?_, ih⟩
    intro hmem
    -- The search from the frame would be longer than itself.
    obtain ⟨rest, hwalk, hle⟩ := hrest.of_mem hmem
    obtain ⟨rfl, -⟩ := hwalk.unique (.up hp hn hrest)
    rw [List.length_cons] at hle
    omega

/-- So it looks into no more frames than there are. -/
theorem length_le (h : s.Walk name id path owner) : path.length ≤ s.depth := by
  have hsub : path ⊆ List.range s.depth :=
    fun i hi => List.mem_range.mpr (h.lt_depth i hi)
  have hle := (List.subperm_of_subset h.nodup hsub).length_le
  rwa [List.length_range] at hle

-- ================================================= searches and chains

/-- A chain that is long enough has the outcome of the search. -/
theorem find?_chainFrom (h : s.Walk name id path owner) {steps : Nat}
    (hsteps : path.length ≤ steps) :
    (s.chainFrom steps id).find? (fun i => (s.valueIn name i).isSome) =
      owner := by
  induction h generalizing steps with
  | closed hp =>
    cases steps with
    | zero => rfl
    | succ steps =>
      rw [chainFrom_succ, hp]
      rfl
  | @here id hb =>
    obtain ⟨steps, rfl⟩ := Nat.exists_eq_succ_of_ne_zero (Nat.ne_of_gt hsteps)
    rw [chainFrom_succ]
    cases hp : s.parent? id with
    | none => exact absurd hp hb.parent?_ne_none
    | some parent => exact List.find?_cons_of_pos hb
  | top hp hn =>
    obtain ⟨steps, rfl⟩ := Nat.exists_eq_succ_of_ne_zero (Nat.ne_of_gt hsteps)
    rw [chainFrom_succ, hp]
    exact List.find?_cons_of_neg hn
  | up hp hn _ ih =>
    obtain ⟨steps, rfl⟩ :=
      Nat.exists_eq_succ_of_ne_zero (Nat.ne_of_gt (Nat.zero_lt_of_lt hsteps))
    rw [chainFrom_succ, hp]
    show List.find? _ (_ :: s.chainFrom _ _) = _
    exact Eq.trans (List.find?_cons_of_neg hn)
      (ih (Nat.le_of_succ_le_succ hsteps))

/-- Where the search ends, the chain gives the frame that it finds. -/
theorem owner?_eq (h : s.Walk name id path owner) : s.owner? id name = owner :=
  h.find?_chainFrom h.length_le

/-- Reading gives the value in that frame. -/
theorem find?_eq (h : s.Walk name id path owner) :
    s.find? id name = owner.bind (s.valueIn name) := by
  rw [← h.owner?_eq, find?, owner?]
  generalize s.chain id = chain
  induction chain with
  | nil => rfl
  | cons i chain ih =>
    cases hv : s.valueIn name i with
    | some value =>
      rw [List.findSome?_cons_of_isSome (by rw [hv]; rfl),
        List.find?_cons_of_pos (by rw [hv]; rfl), Option.bind_some]
    | none =>
      rw [List.findSome?_cons_of_isNone (by rw [hv]; rfl), ih,
        List.find?_cons_of_neg (by rw [hv]; exact Bool.false_ne_true)]

/-- Assigning gives a value in that frame, or in the root. -/
theorem assign_eq (h : s.Walk name id path owner) (value : Value) :
    s.assign id name value = s.set (owner.getD root) name value := by
  rw [assign, h.owner?_eq]

end Walk

-- ============================================== scopes without circles

/-- A frame on the way to the root has a smaller number. -/
theorem Rooted.lt_of_ancestor (h : s.Rooted) {ancestor : FrameId}
    (ha : Relation.TransGen s.Below id ancestor) : ancestor < id := by
  induction ha with
  | single hb => exact h.parent_lt hb
  | tail _ hb ih => exact Nat.lt_trans (h.parent_lt hb) ih

/-- Every search ends, also one from a number that no open frame has. -/
theorem Rooted.exists_walk (h : s.Rooted) (id : FrameId) (name : String) :
    ∃ path owner, s.Walk name id path owner := by
  induction id using Nat.strongRecOn with
  | ind id ih =>
    by_cases hb : s.Binds id name
    · exact ⟨_, _, .here hb⟩
    · cases hp : s.parent? id with
      | none => exact ⟨_, _, .closed hp⟩
      | some parent =>
        cases parent with
        | none => exact ⟨_, _, .top hp hb⟩
        | some parent =>
          obtain ⟨path, owner, hwalk⟩ := ih parent (h.parent_lt hp)
          exact ⟨_, _, .up hp hb hwalk⟩

/-- In scopes whose frames were opened below open frames, no parents form a
circle, and every search ends: from an open frame, from the number of a closed
one, and from any other number. Reading and assigning have its outcome. -/
theorem lookups_end (os : List Operation) (ho : initial.AllOrderly os) :
    let s := initial.performAll os
    (∀ id, ¬ Relation.TransGen s.Below id id) ∧
    ∀ id name, ∃ path owner, s.Walk name id path owner ∧
      s.find? id name = owner.bind (s.valueIn name) ∧
      ∀ value, s.assign id name value = s.set (owner.getD root) name value := by
  have hs : (initial.performAll os).Rooted := rooted_initial.performAll ho
  refine ⟨fun id hcircle => Nat.lt_irrefl id (hs.lt_of_ancestor hcircle),
    fun id name => ?_⟩
  obtain ⟨path, owner, hwalk⟩ := hs.exists_walk id name
  exact ⟨path, owner, hwalk, hwalk.find?_eq, hwalk.assign_eq⟩

/-- The number 2 has been given out and is of no use any more, and the number 1
has come to stand for another frame. -/
def outdated : List Operation :=
  [.createSubscope root, .createSubscope 1,
    .set 2 "X" ["a"], .release 2, .set 2 "X" ["b"],
    .assign 2 "X" ["c"], .release 1, .createSubscope root, .assign 1 "Y" ["d"]]

theorem outdated_lookups_end :
    initial.AllOrderly outdated ∧
      (∃ path owner, (initial.performAll outdated).Walk "X" 2 path owner) ∧
      (initial.performAll outdated).find? 2 "X" = none ∧
      (initial.performAll outdated).find? 1 "X" = some ["c"] := by
  have ho : initial.AllOrderly outdated := by decide
  obtain ⟨path, owner, hwalk, -⟩ := (lookups_end outdated ho).2 2 "X"
  exact ⟨ho, ⟨path, owner, hwalk⟩, by decide, by decide⟩

-- ============================================================= circles

/-- Numbers are used that were given out, be their frames open or closed, and
frames are closed in the opposite order. -/
def Operation.Permitted (s : Scopes) (issued : List FrameId) : Operation → Prop
  | .set id _ _ | .assign id _ _ => id ∈ issued
  | .createSubscope parent => parent ∈ issued
  | .release id => id ∈ issued ∧ (id + 1 = s.depth ∨ id = root)
  | .importEnvironment _ => True

instance (s : Scopes) (issued : List FrameId) (o : Operation) :
    Decidable (o.Permitted s issued) :=
  match o with
  | .set id _ _ | .assign id _ _ => inferInstanceAs (Decidable (id ∈ issued))
  | .createSubscope parent => inferInstanceAs (Decidable (parent ∈ issued))
  | .release id =>
    inferInstanceAs (Decidable (id ∈ issued ∧ (id + 1 = s.depth ∨ id = root)))
  | .importEnvironment _ => inferInstanceAs (Decidable True)

/-- The numbers that an operation gives out. -/
def Operation.issues (s : Scopes) : Operation → List FrameId
  | .createSubscope parent => [(s.createSubscope parent).1]
  | .set .. | .assign .. | .release _ | .importEnvironment _ => []

/-- Each operation is permitted where it is performed. -/
def AllPermitted : Scopes → List FrameId → List Operation → Prop
  | _, _, [] => True
  | s, issued, o :: os =>
    o.Permitted s issued ∧ AllPermitted (s.perform o) (o.issues s ++ issued) os

instance decidableAllPermitted :
    (s : Scopes) → (issued : List FrameId) → (os : List Operation) →
      Decidable (s.AllPermitted issued os)
  | _, _, [] => inferInstanceAs (Decidable True)
  | s, issued, o :: os =>
    have := decidableAllPermitted (s.perform o) (o.issues s ++ issued) os
    inferInstanceAs (Decidable (o.Permitted s issued ∧
      AllPermitted (s.perform o) (o.issues s ++ issued) os))

/-- Where two frames are each other's parents, a search for what neither has
does not end. -/
theorem Walk.not_between (hid : s.Below id parent) (hparent : s.Below parent id)
    (hn : ¬ s.Binds id name) (hn' : ¬ s.Binds parent name) :
    ¬ s.Walk name id path owner := by
  intro h
  have onward {i j : FrameId} {path : List FrameId} (hb : s.Below i j)
      (hn : ¬ s.Binds i name) (h : s.Walk name i path owner) : ∃ rest,
      path = i :: rest ∧ s.Walk name j rest owner := by
    cases h with
    | closed hp => rw [hb] at hp; cases hp
    | here hbinds => exact absurd hbinds hn
    | top hp => rw [hb] at hp; cases hp
    | up hp _ hrest =>
      rw [hb] at hp
      cases hp
      exact ⟨_, rfl, hrest⟩
  obtain ⟨rest, rfl, h₁⟩ := onward hid hn h
  obtain ⟨rest, rfl, h₂⟩ := onward hparent hn' h₁
  obtain ⟨rest, rfl, -⟩ := onward hid hn h₂
  have hnodup := h.nodup
  exact (List.nodup_cons.mp hnodup).1
    (List.mem_cons_of_mem _ List.mem_cons_self)

/-- Two frames are closed, then one is opened below the number 2, which is free,
and a second one below it, which takes that number. -/
def recycled : List Operation :=
  [.createSubscope root, .createSubscope 1, .release 2, .release 1,
    .createSubscope 2, .createSubscope 1, .set 1 "Y" ["c"], .set 2 "X" ["b"]]

/-- Frames opened below closed ones can have each other for parents. From either
one reads what is in the other, and a search for anything else never ends. -/
theorem lookups_go_round :
    initial.AllPermitted [root] recycled ∧
      Relation.TransGen (initial.performAll recycled).Below 1 1 ∧
      (initial.performAll recycled).find? 1 "X" = some ["b"] ∧
      (initial.performAll recycled).find? 2 "Y" = some ["c"] ∧
      ¬ ∃ path owner, (initial.performAll recycled).Walk "Z" 1 path owner := by
  have hup : (initial.performAll recycled).Below 1 2 := rfl
  have hback : (initial.performAll recycled).Below 2 1 := rfl
  have hn : ∀ id < 3, ¬ (initial.performAll recycled).Binds id "Z" := by
    unfold Binds
    decide
  refine ⟨by decide, .tail (.single hup) hback, by decide, by decide, ?_⟩
  rintro ⟨path, owner, hwalk⟩
  exact Walk.not_between hup hback (hn 1 (by decide)) (hn 2 (by decide)) hwalk

end Scopes

end Jam
