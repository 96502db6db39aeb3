/-
Tables: values under names.

A table holds at most one value for each name. `Table.find?` is the view
through which everything else is said: inserting changes what is found
under one name and nothing else (`find?_insert`).
-/
namespace Jam

/-- Values under names, in the order in which the names were first used. -/
structure Table (α : Type) where
  entries : List (String × α)
deriving Repr, DecidableEq

namespace Table

variable {α : Type}

/-- No names at all. -/
def empty : Table α := ⟨[]⟩

/-- The value under `name` among `entries`. -/
def findIn (name : String) : List (String × α) → Option α
  | [] => none
  | (n, v) :: es => if n = name then some v else findIn name es

/-- The entries with `value` under `name`. -/
def insertIn (name : String) (value : α) : List (String × α) → List (String × α)
  | [] => [(name, value)]
  | (n, v) :: es =>
    if n = name then (n, value) :: es else (n, v) :: insertIn name value es

/-- The value under a name. -/
def find? (t : Table α) (name : String) : Option α := findIn name t.entries

/-- Whether there is a value under a name. -/
def binds (t : Table α) (name : String) : Bool := (t.find? name).isSome

/-- Put a value under a name, in place of the one there was. -/
def insert (t : Table α) (name : String) (value : α) : Table α :=
  ⟨insertIn name value t.entries⟩

@[simp] theorem find?_empty (name : String) :
    (empty : Table α).find? name = none := rfl

theorem findIn_insertIn (name other : String) (value : α)
    (es : List (String × α)) :
    findIn other (insertIn name value es) = if name = other then some value
      else findIn other es := by
  induction es with
  | nil => simp [findIn, insertIn]
  | cons e es ih =>
    obtain ⟨n, v⟩ := e
    by_cases hn : n = name
    · subst hn
      simp only [insertIn, if_true, findIn]
      split <;> simp
    · simp only [insertIn, hn, if_false, findIn, ih]
      grind

/-- Inserting changes what is found under one name. -/
@[simp] theorem find?_insert (t : Table α) (name other : String) (value : α) :
    (t.insert name value).find? other = if name = other then some value
      else t.find? other :=
  findIn_insertIn name other value t.entries

end Table

end Jam
