/-
The frames of scopes as chains that lead to the root.

Frames are addressed by numbers, the numbers of closed frames are used
again, and frames may be opened below any open frame, so the parents make
up a tree. Nothing of this shows as long as frames are opened below open
frames and closed in the opposite order (`Operation.Orderly`). Then from
every open frame the parents lead down to the root (`Path`), and:

- reading finds the first frame on that path that has the variable;
- assigning changes the value in this very frame, or makes one in the
  root, so that it is read afterwards;
- a new frame is empty, and closing a frame takes away that frame alone.

# The invariant

One fact about single frames carries all of this: an open frame other than
the root has a parent with a smaller number (`Rooted`). It is kept by every
orderly operation, and it makes the chain of a frame, which is bounded by
the number of frames, long enough to reach the root.
-/
import Jam.Proofs.Scopes.Shadowing

namespace Jam

namespace Scopes

variable {s : Scopes} {id parent : FrameId} {name : String} {value : Value}
  {path : List FrameId}

-- ========================================================== operations

/-- What can be done to scopes. -/
inductive Operation
  | set (id : FrameId) (name : String) (value : Value)
  | assign (id : FrameId) (name : String) (value : Value)
  | createSubscope (parent : FrameId)
  | release (id : FrameId)
  | importEnvironment (env : List (String × String))

/-- The scopes after an operation. -/
def perform (s : Scopes) : Operation → Scopes
  | .set id name value => s.set id name value
  | .assign id name value => s.assign id name value
  | .createSubscope parent => (s.createSubscope parent).2
  | .release id => s.release id
  | .importEnvironment env => s.importEnvironment env

/-- Frames are opened below open frames, and the frame closed is the one opened
last, or the root, which stays. -/
def Operation.Orderly (s : Scopes) : Operation → Prop
  | .createSubscope parent => parent < s.depth
  | .release id => id + 1 = s.depth ∨ id = root
  | .set .. | .assign .. | .importEnvironment _ => True

instance (s : Scopes) (o : Operation) : Decidable (o.Orderly s) :=
  match o with
  | .createSubscope parent => inferInstanceAs (Decidable (parent < s.depth))
  | .release id => inferInstanceAs (Decidable (id + 1 = s.depth ∨ id = root))
  | .set .. | .assign .. | .importEnvironment _ =>
    inferInstanceAs (Decidable True)

/-- The scopes after some operations. -/
def performAll (s : Scopes) (os : List Operation) : Scopes := os.foldl perform s

/-- Each operation is orderly where it is performed. -/
def AllOrderly : Scopes → List Operation → Prop
  | _, [] => True
  | s, o :: os => o.Orderly s ∧ AllOrderly (s.perform o) os

instance decidableAllOrderly :
    (s : Scopes) → (os : List Operation) → Decidable (s.AllOrderly os)
  | _, [] => inferInstanceAs (Decidable True)
  | s, o :: os =>
    have := decidableAllOrderly (s.perform o) os
    inferInstanceAs (Decidable (o.Orderly s ∧ AllOrderly (s.perform o) os))

-- ======================================================= the invariant

/-- The root has no parent, and every other open frame one that was opened
before. -/
structure Rooted (s : Scopes) : Prop where
  bottom : s.parent? root = some none
  above : ∀ id < s.depth, id ≠ root → ∃ parent < id,
    s.parent? id = some (some parent)

theorem rooted_initial : initial.Rooted where
  bottom := rfl
  above id hid hne := by
    have hz : id < 1 := hid
    exact absurd (Nat.lt_one_iff.mp hz) hne

/-- Values have nothing to do with it. -/
theorem Rooted.set (h : s.Rooted) (id : FrameId) (name : String)
    (value : Value) : (s.set id name value).Rooted where
  bottom := by
    rw [parent?_set]
    exact h.bottom
  above j hj hne := by
    rw [depth_set] at hj
    rw [parent?_set]
    exact h.above j hj hne

theorem Rooted.importEnvironment (h : s.Rooted) (env : List (String × String)) :
    (s.importEnvironment env).Rooted := by
  unfold Scopes.importEnvironment
  induction env generalizing s with
  | nil => exact h
  | cons e env ih => exact ih (h.set ..)

/-- A frame opened below an open one is above it. -/
theorem Rooted.createSubscope (h : s.Rooted) (hp : parent < s.depth) :
    (s.createSubscope parent).2.Rooted where
  bottom := by
    have hp : root < s.depth := s.depth_pos
    rw [parent?_createSubscope s parent hp]
    exact h.bottom
  above j hj hne := by
    rw [depth_createSubscope] at hj
    rcases Nat.lt_succ_iff_lt_or_eq.mp hj with hj | rfl
    · rw [parent?_createSubscope s parent hj]
      exact h.above j hj hne
    · exact ⟨parent, hp, parent?_createSubscope_self s parent⟩

theorem Rooted.release (h : s.Rooted) (hid : id + 1 = s.depth ∨ id = root) :
    (s.release id).Rooted := by
  by_cases hr : id = root
  · rw [Scopes.release, dif_pos hr]
    exact h
  · have hd : id + 1 = s.depth := hid.resolve_right hr
    have hle : id ≤ s.depth := hd ▸ Nat.le_succ id
    have hpos : root < id := Nat.pos_of_ne_zero hr
    refine ⟨?_, fun j hj hne => ?_⟩
    · rw [parent?_release s id hpos]
      exact h.bottom
    · rw [depth_release s id hr hle] at hj
      rw [parent?_release s id hj]
      exact h.above j (Nat.lt_of_lt_of_le hj hle) hne

/-- The parent of a frame has a smaller number. -/
theorem Rooted.parent_lt (h : s.Rooted)
    (hp : s.parent? id = some (some parent)) : parent < id := by
  have hne : id ≠ root := by
    rintro rfl
    rw [h.bottom] at hp
    cases hp
  obtain ⟨q, hlt, hq⟩ := h.above id (lt_depth_of_parent? hp) hne
  rw [hp] at hq
  cases hq
  exact hlt

/-- Only the number of frames and their parents count. -/
theorem Rooted.congr {s' : Scopes} (h : s.Rooted) (hd : s'.depth = s.depth)
    (hp : ∀ id, s'.parent? id = s.parent? id) : s'.Rooted where
  bottom := (hp root).trans h.bottom
  above id hid hne := by
    obtain ⟨parent, hlt, hparent⟩ := h.above id (hd ▸ hid) hne
    exact ⟨parent, hlt, (hp id).trans hparent⟩

/-- One operation keeps the invariant. -/
theorem Rooted.perform (h : s.Rooted) {o : Operation} (ho : o.Orderly s) :
    (s.perform o).Rooted := by
  cases o with
  | set id name value => exact h.set id name value
  | assign id name value => exact h.set _ name value
  | createSubscope parent => exact h.createSubscope ho
  | release id => exact h.release ho
  | importEnvironment env => exact h.importEnvironment env

/-- So do any number of them. -/
theorem Rooted.performAll (h : s.Rooted) {os : List Operation}
    (ho : s.AllOrderly os) : (s.performAll os).Rooted := by
  induction os generalizing s with
  | nil => exact h
  | cons o os ih => exact ih (h.perform ho.1) ho.2

-- =============================================================== paths

/-- The frames from one on to the root, each followed by its parent. -/
inductive Path (s : Scopes) : FrameId → List FrameId → Prop
  | bottom : Path s root [root]
  | above {id parent : FrameId} {path : List FrameId} :
      s.parent? id = some (some parent) → Path s parent path →
      Path s id (id :: path)

/-- The root is where every path ends. -/
theorem Path.root_mem (h : s.Path id path) : root ∈ path := by
  induction h with
  | bottom => exact List.mem_singleton_self _
  | above _ _ ih => exact List.mem_cons_of_mem _ ih

/-- Paths go by the parents. -/
theorem Path.congr {s' : Scopes} (h : s.Path id path)
    (hp : ∀ id, s'.parent? id = s.parent? id) : s'.Path id path := by
  induction h with
  | bottom => exact .bottom
  | above hparent _ ih => exact .above ((hp _).trans hparent) ih

/-- A chain that may be longer than the number of its frame is the path. -/
theorem Path.chainFrom_eq (h : s.Path id path) (hs : s.Rooted) {steps : Nat}
    (hid : id < steps) : s.chainFrom steps id = path := by
  induction h generalizing steps with
  | bottom =>
    obtain ⟨steps, rfl⟩ := Nat.exists_eq_succ_of_ne_zero (Nat.ne_of_gt hid)
    rw [chainFrom_succ, hs.bottom]
    rfl
  | @above id parent path hp _ ih =>
    obtain ⟨steps, rfl⟩ :=
      Nat.exists_eq_succ_of_ne_zero (Nat.ne_of_gt (Nat.zero_lt_of_lt hid))
    have hlt : parent < steps :=
      Nat.lt_of_lt_of_le (hs.parent_lt hp) (Nat.le_of_lt_succ hid)
    rw [chainFrom_succ, hp]
    exact congrArg (id :: ·) (ih hlt)

theorem Path.chain_eq (h : s.Path id path) (hs : s.Rooted)
    (hid : id < s.depth) : s.chain id = path := h.chainFrom_eq hs hid

/-- There is a path from every open frame. -/
theorem Rooted.exists_path (h : s.Rooted) (hid : id < s.depth) :
    ∃ path, s.Path id path := by
  induction id using Nat.strongRecOn with
  | ind id ih =>
    by_cases hr : id = root
    · subst hr
      exact ⟨[root], .bottom⟩
    · obtain ⟨parent, hlt, hp⟩ := h.above id hid hr
      obtain ⟨path, hpath⟩ := ih parent hlt (Nat.lt_trans hlt hid)
      exact ⟨id :: path, .above hp hpath⟩

-- =============================================== reading and assigning

/-- A frame that is not open has no values. -/
theorem valueIn_of_le (h : s.depth ≤ id) (name : String) :
    s.valueIn name id = none := by
  by_contra hne
  have hb : s.Binds id name := Option.isSome_iff_ne_none.mpr hne
  exact Nat.not_lt.mpr h hb.lt_depth

/-- The first frame on a path that has a variable, or else the root. -/
def ownerOn (s : Scopes) (path : List FrameId) (name : String) : FrameId :=
  (path.find? fun i => (s.valueIn name i).isSome).getD root

/-- Reading gives the value in the first frame on the path that has one. -/
theorem Path.find?_eq (h : s.Path id path) (hs : s.Rooted) (hid : id < s.depth)
    (name : String) : s.find? id name = path.findSome? (s.valueIn name) := by
  rw [find?, h.chain_eq hs hid]

/-- Assigning gives a value in that frame, or in the root. -/
theorem Path.assign_eq (h : s.Path id path) (hs : s.Rooted) (hid : id < s.depth)
    (name : String) (value : Value) :
    s.assign id name value = s.set (s.ownerOn path name) name value := by
  rw [assign, owner?, h.chain_eq hs hid, ownerOn]

/-- The frame that is assigned to lies on the path, and none before it has the
variable. -/
theorem Path.ownerOn_split (h : s.Path id path) (name : String) :
    ∃ before after, path = before ++ s.ownerOn path name :: after ∧
      ∀ i ∈ before, s.valueIn name i = none ∧ i ≠ s.ownerOn path name := by
  unfold ownerOn
  cases ho : path.find? fun i => (s.valueIn name i).isSome with
  | some owner =>
    obtain ⟨hb, before, after, rfl, hn⟩ := List.find?_eq_some_iff_append.mp ho
    refine ⟨before, after, rfl, fun i hi => ?_⟩
    have hnone : s.valueIn name i = none := by simpa using hn i hi
    refine ⟨hnone, fun heq => ?_⟩
    rw [Option.getD_some] at heq
    rw [← heq, hnone] at hb
    cases hb
  | none =>
    rw [List.find?_eq_none] at ho
    -- The path may be cut at the first place where the root stands on it.
    obtain ⟨before, after, hsplit, hn⟩ := List.eq_append_cons_of_mem h.root_mem
    refine ⟨before, after, hsplit, fun i hi => ⟨?_, ?_⟩⟩
    · have hmem : i ∈ path := hsplit ▸ List.mem_append_left _ hi
      simpa using ho i hmem
    · rintro rfl
      exact hn hi

theorem Path.ownerOn_lt (h : s.Path id path) (hs : s.Rooted)
    (hid : id < s.depth) (name : String) : s.ownerOn path name < s.depth := by
  obtain ⟨before, after, hsplit, -⟩ := h.ownerOn_split name
  have hmem : s.ownerOn path name ∈ before ++ s.ownerOn path name :: after :=
    List.mem_append_right _ List.mem_cons_self
  rw [← hsplit] at hmem
  have hchain : s.ownerOn path name ∈ s.chainFrom s.depth id := by
    rwa [h.chainFrom_eq hs hid]
  exact lt_depth_of_mem_chainFrom hchain

/-- What was assigned is read. -/
theorem Path.find?_assign (h : s.Path id path) (hs : s.Rooted)
    (hid : id < s.depth) (name : String) (value : Value) :
    (s.assign id name value).find? id name = some value := by
  rw [h.assign_eq hs hid]
  generalize ht : s.ownerOn path name = target
  obtain ⟨before, after, hpath, hbefore⟩ := h.ownerOn_split name
  rw [ht] at hpath hbefore
  have hopen : target < s.depth := ht ▸ h.ownerOn_lt hs hid name
  have hp := h.congr fun j => parent?_set s target name value j
  rw [hp.find?_eq (hs.set ..) (by rwa [depth_set]), List.findSome?_eq_some_iff]
  refine ⟨before, target, after, hpath, ?_, fun i hi => ?_⟩
  · rw [valueIn_set, if_pos ⟨rfl, rfl, hopen⟩]
  · obtain ⟨hnone, hne⟩ := hbefore i hi
    rw [valueIn_set, if_neg fun hc => hne hc.1.symm]
    exact hnone

-- ============================================= all operations together

/-- No frame is opened or closed, and no value changes but that of one variable
in one frame, which becomes `value`. -/
structure ChangesOnly (s s' : Scopes) (id : FrameId) (name : String)
    (value : Value) : Prop where
  depth : s'.depth = s.depth
  parents : ∀ j, s'.parent? j = s.parent? j
  changed : s'.valueIn name id = some value
  kept : ∀ j other, j ≠ id ∨ other ≠ name →
    s'.valueIn other j = s.valueIn other j

theorem changesOnly_set (h : id < s.depth) (name : String) (value : Value) :
    s.ChangesOnly (s.set id name value) id name value where
  depth := depth_set ..
  parents j := parent?_set ..
  changed := by rw [valueIn_set, if_pos ⟨rfl, rfl, h⟩]
  kept j other hne := by
    rw [valueIn_set, if_neg]
    rintro ⟨rfl, rfl, -⟩
    exact hne.elim (fun h => h rfl) fun h => h rfl

/-- Where a variable is read, it has its value already. -/
theorem Path.changesOnly_self (h : s.Path id path) (hs : s.Rooted)
    (hid : id < s.depth) (hf : s.find? id name = some value) :
    s.ChangesOnly s (s.ownerOn path name) name value where
  depth := rfl
  parents _ := rfl
  changed := by
    rw [h.find?_eq hs hid, List.findSome?_eq_some_iff] at hf
    obtain ⟨before, owner, rest, rfl, howner, hbefore⟩ := hf
    have hfirst : s.ownerOn (before ++ owner :: rest) name = owner := by
      unfold ownerOn
      rw [List.find?_append, List.find?_eq_none.mpr, Option.none_or,
        List.find?_cons_of_pos, Option.getD_some]
      · rw [howner]
        rfl
      · intro i hi
        rw [hbefore i hi]
        exact Bool.false_ne_true
    rw [hfirst, howner]
  kept _ _ _ := rfl

/-- A frame that is not open takes no value. -/
theorem set_of_le (h : s.depth ≤ id) (name : String) (value : Value) :
    s.set id name value = s := by
  have hf : (s.set id name value).frames = s.frames := by
    unfold set
    exact Array.ext (Array.size_modify ..) fun j hj hj' => by
      rw [Array.getElem_modify_of_ne]
      exact fun heq => Nat.not_lt.mpr h (heq ▸ hj')
  cases s
  exact Scopes.mk.injEq .. |>.mpr hf

/-- The frames with numbers below `depth` are the same in both. -/
structure SameBelow (depth : Nat) (s s' : Scopes) : Prop where
  parents : ∀ j < depth, s'.parent? j = s.parent? j
  values : ∀ j < depth, ∀ name, s'.valueIn name j = s.valueIn name j

/-- One frame was opened below `parent`, and nothing is in it yet. -/
structure OpensEmpty (s : Scopes) (parent : FrameId) (s' : Scopes) : Prop where
  depth : s'.depth = s.depth + 1
  parent : s'.parent? s.depth = some (some parent)
  empty : ∀ name, s'.valueIn name s.depth = none
  below : SameBelow s.depth s s'

theorem opensEmpty_createSubscope (s : Scopes) (parent : FrameId) :
    s.OpensEmpty parent (s.createSubscope parent).2 where
  depth := depth_createSubscope ..
  parent := parent?_createSubscope_self ..
  empty name := by
    rw [valueIn_createSubscope]
    exact valueIn_of_le (Nat.le_refl _) name
  below := ⟨fun _ hj => parent?_createSubscope s parent hj,
    fun _ _ _ => valueIn_createSubscope ..⟩

/-- In scopes that orderly operations lead to, the frames make up chains: each
open frame has a path to the root, over parents with smaller numbers; reading
and assigning go by that path; and opening and closing frames changes nothing in
the others. -/
theorem orderly_scopes_are_chains (os : List Operation)
    (ho : initial.AllOrderly os) :
    let s := initial.performAll os
    -- The root is open, and the parent of any other open frame has a smaller
    -- number.
    (root < s.depth ∧ s.parent? root = some none ∧
      ∀ id < s.depth, id ≠ root →
        ∃ parent < id, s.parent? id = some (some parent)) ∧
    -- Reading gives the value in the first frame that has one.
    (∀ id < s.depth, ∃ path, s.Path id path ∧
      ∀ name, s.find? id name = path.findSome? (s.valueIn name)) ∧
    -- Values are changed in one frame: the given one, or the one that reading
    -- finds.
    (∀ id name value,
      if id < s.depth then s.ChangesOnly (s.set id name value) id name value
      else s.set id name value = s) ∧
    (∀ id < s.depth, ∀ path, s.Path id path → ∀ name value,
      s.ChangesOnly (s.assign id name value) (s.ownerOn path name) name value ∧
      (s.assign id name value).find? id name = some value) ∧
    -- A new frame is empty.
    (∀ parent < s.depth, (s.createSubscope parent).1 = s.depth ∧
      s.OpensEmpty parent (s.createSubscope parent).2) ∧
    -- The frame opened last is taken away alone, and the root not at all.
    (∀ id, id + 1 = s.depth → id ≠ root →
      (s.release id).depth = id ∧ SameBelow id s (s.release id)) ∧
    s.release root = s := by
  have hs : (initial.performAll os).Rooted := rooted_initial.performAll ho
  generalize initial.performAll os = s at hs
  refine ⟨⟨s.depth_pos, hs.bottom, hs.above⟩, fun id hid => ?_,
    fun id name value => ?_, fun id hid path hpath name value =>
    ⟨?_, hpath.find?_assign hs hid name value⟩, fun parent _ =>
    ⟨rfl, opensEmpty_createSubscope s parent⟩, fun id hid hne => ?_, rfl⟩
  · obtain ⟨path, hpath⟩ := hs.exists_path hid
    exact ⟨path, hpath, hpath.find?_eq hs hid⟩
  · split
    · next hid => exact changesOnly_set hid name value
    · next hid => exact set_of_le (Nat.not_lt.mp hid) name value
  · rw [hpath.assign_eq hs hid]
    exact changesOnly_set (hpath.ownerOn_lt hs hid name) name value
  · have hle : id ≤ s.depth := hid ▸ Nat.le_succ id
    exact ⟨depth_release s id hne hle, fun j hj => parent?_release s id hj,
      fun j hj name => valueIn_release s id name hj⟩

/-- Two frames side by side below one that has the variable, the first of them
closed before the second takes its number. -/
def siblings : List Operation :=
  [.createSubscope root, .set 1 "X" ["a"], .createSubscope 1, .set 2 "X" ["b"],
    .release 2, .createSubscope 1, .assign 2 "X" ["c"], .assign 2 "Y" ["d"]]

/-- What is assigned in the second changes the frame below, and a new variable
the root. -/
theorem siblings_are_chains :
    initial.AllOrderly siblings ∧
      (∃ path, (initial.performAll siblings).Path 2 path ∧
        ∀ name, (initial.performAll siblings).find? 2 name
          = path.findSome? ((initial.performAll siblings).valueIn name)) ∧
      (initial.performAll siblings).valueIn "X" 1 = some ["c"] ∧
      (initial.performAll siblings).valueIn "Y" root = some ["d"] := by
  have ho : initial.AllOrderly siblings := by decide
  exact ⟨ho, (orderly_scopes_are_chains siblings ho).2.1 2
    (by decide), by decide, by decide⟩

end Scopes

end Jam
