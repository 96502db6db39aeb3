/-
What the operations on scopes do to each single frame.

Three views say all there is to a frame: whether it is open (its number
is below `Scopes.depth`), its parent (`Scopes.parent?`), and the value of
each variable in it (`Scopes.valueIn`). Every operation is described by
what it does to the three, for every frame and every name:

- giving a variable a value changes one value in one frame;
- opening a frame adds an empty one behind the others;
- closing the frame opened last removes it, and nothing else.
-/
import Jam.Scopes

namespace Jam

namespace Scopes

variable (s : Scopes) (id : FrameId) (name : String) (value : Value)

-- =============================================================== views

/-- The parent of an open frame; the root has none. -/
def parent? (s : Scopes) (id : FrameId) : Option (Option FrameId) :=
  s.frames[id]?.map (·.parent)

/-- Whether a variable has a value in a frame. -/
def Binds (s : Scopes) (id : FrameId) (name : String) : Prop :=
  (s.valueIn name id).isSome = true

theorem depth_pos : 0 < s.depth := s.size_pos

/-- A frame is open exactly if it has a place for its parent. -/
theorem isSome_parent? : (s.parent? id).isSome = true ↔ id < s.depth := by
  unfold parent? depth
  rw [Option.isSome_map, isSome_getElem?]

theorem lt_depth_of_parent? {s : Scopes} {id : FrameId}
    {parent : Option FrameId} (h : s.parent? id = some parent) : id < s.depth :=
  (s.isSome_parent? id).mp (by rw [h]; rfl)

/-- Variables have values in open frames only. -/
theorem Binds.lt_depth {s : Scopes} {id : FrameId} {name : String}
    (h : s.Binds id name) : id < s.depth := by
  unfold Binds valueIn at h
  cases hf : s.frames[id]? with
  | none => simp [hf] at h
  | some frame => exact (Array.getElem?_eq_some_iff.mp hf).1

-- ====================================================== giving a value

@[simp] theorem depth_set : (s.set id name value).depth = s.depth := by
  simp [set, depth]

@[simp] theorem parent?_set (other : FrameId) :
    (s.set id name value).parent? other = s.parent? other := by
  unfold parent? set
  rw [Array.getElem?_modify]
  split
  · rw [Option.map_map]
    rfl
  · rfl

/-- Giving a variable a value changes the value of one name in one frame. -/
theorem valueIn_set (other : String) (j : FrameId) :
    (s.set id name value).valueIn other j = if id = j ∧ name = other ∧
      j < s.depth then some value else s.valueIn other j := by
  unfold valueIn set depth
  rw [Array.getElem?_modify]
  by_cases hid : id = j
  · subst hid
    cases hf : s.frames[id]? with
    | none =>
      have : ¬ id < s.frames.size := by simpa using hf
      simp [this]
    | some frame =>
      have : id < s.frames.size := (Array.getElem?_eq_some_iff.mp hf).1
      simp [this, Table.find?_insert]
  · simp [hid]

/-- A name that has a value keeps one, in every frame. -/
theorem Binds.set {s : Scopes} {j : FrameId} {other : String}
    (h : s.Binds j other) : (s.set id name value).Binds j other := by
  unfold Binds
  rw [valueIn_set]
  split
  · rfl
  · exact h

/-- Giving a variable a value in one frame gives none in another. -/
theorem Binds.of_set {s : Scopes} {j : FrameId} {other : String}
    (h : (s.set id name value).Binds j other) (hj : j ≠ id ∨ s.Binds id name) :
    s.Binds j other := by
  unfold Binds at h
  rw [valueIn_set] at h
  split at h
  · next hc =>
    obtain ⟨rfl, rfl, -⟩ := hc
    exact hj.resolve_left fun hne => hne rfl
  · exact h

-- =========================================================== assigning

/-- The frame that an assignment changes. -/
def target (s : Scopes) (id : FrameId) (name : String) : FrameId :=
  (s.owner? id name).getD root

/-- An assignment changes a frame that has the variable already, or the root. -/
theorem binds_target :
    s.Binds (s.target id name) name ∨ s.target id name = root := by
  unfold target
  cases ho : s.owner? id name with
  | none => exact .inr rfl
  | some owner =>
    unfold owner? at ho
    have := List.find?_some ho
    exact .inl this

-- ================================================= opening and closing

@[simp] theorem depth_createSubscope :
    (s.createSubscope id).2.depth = s.depth + 1 := by
  simp [createSubscope, depth]

theorem parent?_createSubscope {other : FrameId} (h : other < s.depth) :
    (s.createSubscope id).2.parent? other = s.parent? other := by
  unfold parent? createSubscope
  have hne : other ≠ s.frames.size := Nat.ne_of_lt h
  rw [Array.getElem?_push, if_neg hne]

/-- The parent of a new frame is the one it was opened in. -/
theorem parent?_createSubscope_self :
    (s.createSubscope id).2.parent? s.depth = some (some id) := by
  unfold parent? createSubscope depth
  rw [Array.getElem?_push_size]
  rfl

/-- A new frame is empty, and the others keep their values. -/
@[simp] theorem valueIn_createSubscope (other : FrameId) :
    (s.createSubscope id).2.valueIn name other = s.valueIn name other := by
  unfold valueIn createSubscope
  rw [Array.getElem?_push]
  split
  · next h => simp [h]
  · rfl

theorem binds_createSubscope (other : FrameId) :
    (s.createSubscope id).2.Binds other name ↔ s.Binds other name := by
  unfold Binds
  rw [valueIn_createSubscope]

theorem depth_release (h : id ≠ root) (hd : id ≤ s.depth) :
    (s.release id).depth = id := by
  unfold depth at hd
  simp [release, depth, h, hd]

/-- Closing a frame leaves those opened before it as they are. -/
theorem getElem?_release {other : FrameId} (h : other < id) :
    (s.release id).frames[other]? = s.frames[other]? := by
  unfold release
  split
  · rfl
  · show (s.frames.shrink id)[other]? = s.frames[other]?
    rw [← Array.getElem?_toList, Array.toList_shrink,
      List.getElem?_take_of_lt h, Array.getElem?_toList]

theorem parent?_release {other : FrameId} (h : other < id) :
    (s.release id).parent? other = s.parent? other := by
  unfold parent?
  rw [getElem?_release s id h]

theorem valueIn_release {other : FrameId} (h : other < id) :
    (s.release id).valueIn name other = s.valueIn name other := by
  unfold valueIn
  rw [getElem?_release s id h]

theorem binds_release {other : FrameId} (h : other < id) :
    (s.release id).Binds other name ↔ s.Binds other name := by
  unfold Binds
  rw [valueIn_release s id name h]

/-- Closing a frame gives no values. -/
theorem Binds.of_release {s : Scopes} {id other : FrameId} {name : String}
    (h : (s.release id).Binds other name) : s.Binds other name := by
  by_cases hlt : other < id
  · exact (binds_release s id name hlt).mp h
  · by_cases hroot : id = root
    · rwa [release, dif_pos hroot] at h
    · -- the frame is closed
      have hopen := h.lt_depth
      rw [release, dif_neg hroot] at hopen
      have hlt' : other < (s.frames.shrink id).size := hopen
      rw [Array.size_shrink] at hlt'
      exact absurd (Nat.lt_of_lt_of_le hlt' (Nat.min_le_left ..)) hlt

end Scopes

end Jam
