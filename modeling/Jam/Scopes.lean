/-
Variables and the frames they live in.

A frame is a table of variables and refers to the frame it was opened in,
its parent. Frames are numbered in the order in which they were opened.
The first one, the root, has no parent and is never closed; the others
are closed in the opposite order, so a number may come to stand for
another frame later.

A variable is looked for along the chain from a frame to the root
(`Scopes.chain`). Reading gives the value in the first frame of the chain
that has one, and assigning replaces the value in that same frame, or
makes one in the root. Both go by the one chain, so they cannot disagree
about the frame.

A number of a frame that was closed may still be used; its chain is
empty. A chain is never longer than there are frames: if parents ever
formed a circle, it would be followed once.
-/
import Jam.Table
import Jam.Value

namespace Jam

/-- The number of a frame. -/
abbrev FrameId := Nat

/-- Variables that were introduced together. -/
structure Frame where
  bindings : Table Value := .empty
  /-- Where to go on looking. -/
  parent : Option FrameId := none
deriving Repr, DecidableEq

/-- All open frames, in the order in which they were opened. The root is
always among them. -/
structure Scopes where
  frames : Array Frame
  size_pos : 0 < frames.size
deriving Repr, DecidableEq

namespace Scopes

/-- The frame of global variables. -/
def root : FrameId := 0

/-- Only the root, without variables. -/
def initial : Scopes := ⟨#[{}], by decide⟩

/-- How many frames are open. -/
def depth (s : Scopes) : Nat := s.frames.size

-- ============================================================= looking

/-- At most so many frames, from one on to its parents. -/
def chainFrom (s : Scopes) : Nat → FrameId → List FrameId
  | 0, _ => []
  | steps + 1, id =>
    match s.frames[id]? with
    | none => []
    | some frame => id :: (frame.parent.map (chainFrom s steps)).getD []

/-- The frames in which a variable is looked for from the frame `id`. -/
def chain (s : Scopes) (id : FrameId) : List FrameId := s.chainFrom s.depth id

/-- The value a variable has in one frame. -/
def valueIn (s : Scopes) (name : String) (id : FrameId) : Option Value :=
  s.frames[id]?.bind (·.bindings.find? name)

/-- The value a variable has for the frame `id`. -/
def find? (s : Scopes) (id : FrameId) (name : String) : Option Value :=
  (s.chain id).findSome? (s.valueIn name)

/-- The frame that value is in. -/
def owner? (s : Scopes) (id : FrameId) (name : String) : Option FrameId :=
  (s.chain id).find? fun i => (s.valueIn name i).isSome

-- ============================================================ changing

/-- Give a variable a value in one frame. A closed frame takes none. -/
def set (s : Scopes) (id : FrameId) (name : String) (value : Value) : Scopes :=
  ⟨s.frames.modify id fun f =>
      { f with bindings := f.bindings.insert name value },
    by simpa using s.size_pos⟩

/-- Give a variable a value where it has one already, or else in the root. -/
def assign (s : Scopes) (id : FrameId) (name : String) (value : Value) :
    Scopes :=
  s.set ((s.owner? id name).getD root) name value

/-- Open a frame below `parent`. -/
def createSubscope (s : Scopes) (parent : FrameId) : FrameId × Scopes :=
  (s.depth, ⟨s.frames.push { parent := some parent }, by simp⟩)

/-- Close a frame, and those opened after it. The root stays. -/
def release (s : Scopes) (id : FrameId) : Scopes :=
  if h : id = root then s
  else ⟨s.frames.shrink id, by
    rw [Array.size_shrink]
    exact Nat.lt_min.mpr ⟨Nat.pos_of_ne_zero h, s.size_pos⟩⟩

-- ===================================================== the environment

/-- The value of a variable of the environment: a search path is a list of
its segments, anything else is one element. -/
def environmentValue (name value : String) : Value :=
  if name.endsWith "PATH" then (value.splitOn ":").filter (· ≠ "") else [value]

/-- Take variables of the environment into the root. -/
def importEnvironment (s : Scopes) (env : List (String × String)) : Scopes :=
  env.foldl
    (fun s (name, value) => s.set root name (environmentValue name value)) s

end Scopes

end Jam
