/-
What can be said of a reading that may fail.

A reading of a parse tree gives syntax or an error. Two things are said
of readings, and both go along the way a reading is put together:

- `Except.Yields post x`: if `x` succeeds, its value satisfies `post`.
  This needs no knowledge of the tree.
- `Except.Succeeds x`: `x` has a value. This is where the grammar comes
  in, which rules out the trees that a reading refuses.
-/
import Jam.Syntax.OfTree

namespace Except

variable {ε α β : Type} {post : α → Prop}

-- ============================================================== values

/-- Every value that is given satisfies `post`. -/
def Yields (post : α → Prop) (x : Except ε α) : Prop :=
  ∀ a, x = .ok a → post a

namespace Yields

theorem pure {a : α} (h : post a) : Yields post (Pure.pure a : Except ε α) := by
  rintro _ ⟨⟩
  exact h

theorem throw (e : ε) : Yields post (throw e : Except ε α) := by
  rintro _ ⟨⟩

theorem bind {x : Except ε β} {f : β → Except ε α}
    (h : ∀ b, x = .ok b → Yields post (f b)) : Yields post (x >>= f) := by
  intro a ha
  cases hx : x with
  | error e =>
    rw [hx] at ha
    cases ha
  | ok b =>
    rw [hx] at ha
    exact h b hx a ha

theorem map {x : Except ε β} {f : β → α} (h : Yields (fun b => post (f b)) x) :
    Yields post (f <$> x) := by
  cases x with
  | error e => exact .throw e
  | ok b => exact .pure (h b rfl)

section MapM

variable {f : β → Except ε α} {bs : List β}

/-- Every value of several is the value of one of the arguments. -/
theorem of_mapM :
    Yields (fun as => ∀ a ∈ as, ∃ b ∈ bs, f b = .ok a) (bs.mapM f) := by
  induction bs with
  | nil => exact .pure fun _ ha => nomatch ha
  | cons b bs ih =>
    rw [List.mapM_cons]
    refine .bind fun a ha => .bind fun as has => .pure fun x hx => ?_
    rcases List.mem_cons.mp hx with rfl | hx
    · exact ⟨b, List.mem_cons_self, ha⟩
    · obtain ⟨y, hy, hread⟩ := ih as has x hx
      exact ⟨y, List.mem_cons_of_mem _ hy, hread⟩

/-- There are as many values as arguments. -/
theorem length_mapM : Yields (·.length = bs.length) (bs.mapM f) := by
  induction bs with
  | nil => exact .pure rfl
  | cons b bs ih =>
    rw [List.mapM_cons]
    refine .bind fun a _ => .bind fun as has => .pure ?_
    rw [List.length_cons, List.length_cons, ih as has]

end MapM

end Yields

-- ============================================================= success

/-- There is a value. -/
def Succeeds (x : Except ε α) : Prop := ∃ a, x = .ok a

/-- A test that only values pass was passed by one. -/
theorem exists_ok_of_elim {x : Except ε α} {test : α → Bool}
    (h : x.toOption.elim false test = true) :
    ∃ a, x = .ok a ∧ test a = true := by
  cases x with
  | error e => cases h
  | ok a => exact ⟨a, rfl, h⟩

/-- The error, if there is one. -/
def error? : Except ε α → Option ε
  | .ok _ => none
  | .error e => some e

/-- A test that only errors pass was passed by one. -/
theorem exists_error_of_elim {x : Except ε α} {test : ε → Bool}
    (h : x.error?.elim false test = true) :
    ∃ e, x = .error e ∧ test e = true := by
  cases x with
  | error e => exact ⟨e, rfl, h⟩
  | ok a => cases h

namespace Succeeds

theorem pure (a : α) : Succeeds (Pure.pure a : Except ε α) := ⟨a, rfl⟩

theorem bind {x : Except ε β} {f : β → Except ε α} (hx : Succeeds x)
    (hf : ∀ b, x = .ok b → Succeeds (f b)) : Succeeds (x >>= f) := by
  obtain ⟨b, rfl⟩ := hx
  exact hf b rfl

theorem map {x : Except ε β} {f : β → α} (hx : Succeeds x) :
    Succeeds (f <$> x) := by
  obtain ⟨b, rfl⟩ := hx
  exact ⟨f b, rfl⟩

theorem mapM {γ : Type} {f : γ → Except ε α} {as : List γ}
    (h : ∀ a ∈ as, Succeeds (f a)) : Succeeds (as.mapM f) := by
  induction as with
  | nil => exact .pure []
  | cons a as ih =>
    rw [List.mapM_cons]
    refine bind (h a List.mem_cons_self) fun b _ => ?_
    refine bind (ih fun x hx => h x (List.mem_cons_of_mem a hx)) fun bs _ => ?_
    exact .pure (b :: bs)

end Succeeds

end Except

-- ================================================== nodes side by side

namespace Jam

variable (source : String) (ts : List Node)

theorem conditionsOfTrees_eq_mapM :
    conditionsOfTrees source ts = ts.mapM (Condition.ofTree source) := by
  induction ts with
  | nil => rfl
  | cons t ts ih => rw [conditionsOfTrees, List.mapM_cons, ih]

theorem statementsOfTrees_eq_mapM :
    statementsOfTrees source ts = ts.mapM (Statement.ofTree source) := by
  induction ts with
  | nil => rfl
  | cons t ts ih => rw [statementsOfTrees, List.mapM_cons, ih]

end Jam
