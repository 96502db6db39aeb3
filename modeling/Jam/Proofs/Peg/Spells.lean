/-
The texts that an expression can take.

`Spells g m e P` says that every match of `e` in the mode `m` takes a text
with the property `P`. It is closed under the forms of expressions, so
that the texts of a token are known from its production without following
any run. What a match takes depends on what it does not match first; of
this only one instance is needed, a character that is excluded by a
lookahead (`Spells.excluding`).

The text of a node is what its match took, so what a production spells is
what a reader of the node finds (`Grown.text`).
-/
import Jam.Proofs.Peg.Leaves

namespace Jam

-- ========================================================= definitions

/-- Every match of `e` takes a text with this property. -/
def Spells {N : Type} (g : Grammar N) (m : Mode) (e : Peg N)
    (P : List Char → Prop) : Prop :=
  ∀ c d nodes, Derives g m e c d nodes → ∃ taken, c.Takes taken d ∧ P taken

/-- The expression matches wherever `x` comes next. -/
def Meets {N : Type} (g : Grammar N) (m : Mode) (e : Peg N) (x : Char) : Prop :=
  ∀ xs p, (g.found m e ⟨x :: xs, p⟩).isSome = true

variable {N : Type} {g : Grammar N} {m : Mode} {e a b : Peg N}
  {P Q R : List Char → Prop} {x : Char}

-- ================================================== the next character

namespace Meets

theorem lit : Meets g m (.chars [x]) x := by
  intro xs p
  rw [Grammar.found_chars]
  simp [Cursor.skip?]

theorem left (h : Meets g m a x) : Meets g m (a <|> b) x := by
  intro xs p
  have ha := h xs p
  change (g.found m (.alt a b) ⟨x :: xs, p⟩).isSome = true
  rw [Grammar.found_alt, Option.isSome_or, ha, Bool.true_or]

theorem right (h : Meets g m b x) : Meets g m (a <|> b) x := by
  intro xs p
  have hb := h xs p
  change (g.found m (.alt a b) ⟨x :: xs, p⟩).isSome = true
  rw [Grammar.found_alt, Option.isSome_or, hb, Bool.or_true]

end Meets

-- ================================================= texts, form by form

namespace Spells

theorem one {accepts : Char → Bool} (h : ∀ x, accepts x = true → P [x]) :
    Spells g m (.one accepts) P := by
  intro c d nodes hd
  cases hd with
  | one hx => exact ⟨_, .cons .., h _ hx⟩

theorem lit {text : String} (h : P text.toList) :
    Spells g m (Peg.lit text) P := by
  intro c d nodes hd
  cases hd with
  | chars hs => exact ⟨text.toList, .of_skip? hs, h⟩

theorem notAhead (h : P []) : Spells g m (.notAhead a) P := by
  intro c d nodes hd
  cases hd with
  | notAhead => exact ⟨[], .nil _, h⟩

theorem seq (ha : Spells g m a P) (hb : Spells g m b Q)
    (h : ∀ xs ys, P xs → Q ys → R (xs ++ ys)) : Spells g m (a ++ b) R := by
  intro c d nodes hd
  cases hd with
  | seq hx hy =>
    obtain ⟨xs, hxs, hP⟩ := ha _ _ _ hx
    obtain ⟨ys, hys, hQ⟩ := hb _ _ _ hy
    exact ⟨xs ++ ys, hxs.append hys, h xs ys hP hQ⟩

theorem alt (ha : Spells g m a P) (hb : Spells g m b P) :
    Spells g m (a <|> b) P := by
  intro c d nodes hd
  cases hd with
  | left hx => exact ha c d nodes hx
  | right _ hy => exact hb c d nodes hy

theorem opt (ha : Spells g m a P) (h : P []) : Spells g m (.opt a) P := by
  intro c d nodes hd
  cases hd with
  | without => exact ⟨[], .nil _, h⟩
  | «with» hx => exact ha c d nodes hx

theorem many (ha : Spells g m a P) (nil : P [])
    (append : ∀ xs ys, P xs → P ys → P (xs ++ ys)) :
    Spells g m (.many a) P := by
  intro c d nodes hd
  generalize he : Peg.many a = e at hd
  induction hd with
  | stop => exact ⟨[], .nil _, nil⟩
  | last hx =>
    cases he
    exact ha _ _ _ hx
  | more hx _ _ _ ih =>
    cases he
    obtain ⟨xs, hxs, hP⟩ := ha _ _ _ hx
    obtain ⟨ys, hys, hQ⟩ := ih ha rfl
    exact ⟨xs ++ ys, hxs.append hys, append xs ys hP hQ⟩
  | _ => cases he

theorem plus (ha : Spells g m a P) (nil : P [])
    (append : ∀ xs ys, P xs → P ys → P (xs ++ ys)) :
    Spells g m (Peg.plus a) P :=
  .seq ha (.many ha nil append) append

/-- What holds of the texts of a production in every mode holds of the texts
of its nonterminal. -/
theorem call {r : N} (h : ∀ m, Spells g m (g.body r) P) :
    Spells g m (.call r) P := by
  intro c d nodes hd
  cases hd with
  | silent _ hb | node _ _ hb | bare _ _ hb => exact h _ _ _ _ hb

/-- One character, but not one that the lookahead meets. -/
theorem excluding {accepts : Char → Bool}
    (h : ∀ x, ¬ Meets g m.notAhead e x → P [x]) :
    Spells g m (Peg.notAhead e ++ .one accepts) P := by
  intro c d nodes hd
  cases hd with
  | seq hn hy =>
    cases hn with
    | notAhead hn =>
      cases hy with
      | @one _ _ x xs p =>
        refine ⟨[x], .cons .., h x fun he => ?_⟩
        have hm := he xs p
        rw [hn] at hm
        cases hm

end Spells

/-- The text of a node is spelled by its production. -/
theorem Grown.text {t : Tree N} (h : Grown g t)
    (hs : ∀ m, Spells g m (g.body t.kind) P) : P t.text := by
  obtain ⟨taken, ht, hP⟩ := hs _ _ _ _ h
  rw [Tree.text, ht.upTo_eq]
  exact hP

/-- A nonterminal that cannot match nothing has no node without a text. -/
theorem Grown.text_ne_nil {t : Tree N} (h : Grown g t)
    (hn : g.mayBeEmpty (g.body t.kind) = false) : t.text ≠ [] := by
  obtain ⟨taken, ht⟩ := Derives.takes h
  have hlt :=
    (g.reaches_run _ t.first .none (g.body t.kind) _ (Derives.found h)).2 hn
  rw [Tree.text, ht.upTo_eq]
  rintro rfl
  rw [ht.rest] at hlt
  exact Nat.lt_irrefl _ hlt

end Jam
