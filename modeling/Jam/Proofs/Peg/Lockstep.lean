/-
Two matches of one expression, side by side.

An expression is matched in two texts, or at two places of one, and the
question is whether the texts are so much alike that nothing differs that
matters. `Lockstep g v K n R S e` says so: from texts related by `R` either
neither match succeeds or both do, what is left then is related by `S`,
and the nodes that are left are `Alike`. It is a Hoare triple for two
runs, and there is a rule for each form of expression.

Three things are kept apart.

- `R` and `S` relate the texts that are still to be read. They change
  along a match, as assertions do along a program.
- `K` relates the places. It only has to be kept by a character that both
  texts have (`Steady`), and stays the same along a match.
- `View` says what of a node is compared: its points, as far as two
  functions tell them apart, and the text of some nonterminals.

# Recursion

Productions refer to each other. The rules are therefore stated for
matches that take less than `n` steps in the sense of `Grammar.work`, and
the rule for a nonterminal gains a step (`Lockstep.enter`): to prove
something of a recursive nonterminal is an induction on `n`.

# Blanks at the end

Blanks that nothing follows are not lockstep: one text may have some and
the other none. `Loosely` permits that as long as there is nothing left to
read on either side. What has to take a character afterwards then fails
on both sides, and the two are lockstep again (`Loosely.seq`).
-/
import Jam.Proofs.Peg.Leaves
import Mathlib.Data.List.Forall2

-- ===================================================== related options

namespace Option.Rel

variable {α β γ δ : Type} {P Q : α → β → Prop} {x : Option α} {y : Option β}

theorem imp (h : Option.Rel P x y) (hPQ : ∀ a b, P a b → Q a b) :
    Option.Rel Q x y := by
  cases h with
  | some hab => exact .some (hPQ _ _ hab)
  | none => exact .none

theorem isSome_eq (h : Option.Rel P x y) : x.isSome = y.isSome := by
  cases h <;> rfl

theorem map {T : γ → δ → Prop} {f : α → γ} {f' : β → δ} (h : Option.Rel P x y)
    (hf : ∀ a b, x = .some a → y = .some b → P a b → T (f a) (f' b)) :
    Option.Rel T (x.map f) (y.map f') := by
  cases h with
  | some hab => exact .some (hf _ _ rfl rfl hab)
  | none => exact .none

theorem bind {T : γ → δ → Prop} {f : α → Option γ} {f' : β → Option δ}
    (h : Option.Rel P x y)
    (hf : ∀ a b, x = .some a → y = .some b → P a b →
      Option.Rel T (f a) (f' b)) : Option.Rel T (x.bind f) (y.bind f') := by
  cases h with
  | some hab => exact hf _ _ rfl rfl hab
  | none => exact .none

theorem exists_of_some {a : α} (h : Option.Rel P x y) (hx : x = .some a) :
    ∃ b, y = .some b ∧ P a b := by
  subst hx
  cases h with
  | some hab => exact ⟨_, rfl, hab⟩

theorem eq_none (h : Option.Rel P x y) (hx : x = .none) : y = .none := by
  subst hx
  cases h
  rfl

end Option.Rel

namespace Jam

variable {N : Type}

-- =============================================================== nodes

/-- What of two parse trees is compared. -/
structure View (N : Type) where
  /-- What counts of a point in the one tree. -/
  left : Point → Point
  /-- What counts of a point in the other. -/
  right : Point → Point
  /-- The nonterminals whose texts are compared. -/
  verbatim : N → Bool

/-- Two nodes that differ at most in what is not compared. -/
inductive Alike (v : View N) : Tree N → Tree N → Prop
  | node {kind : N} {first last first' last' : Cursor}
      {ts ts' : List (Tree N)} :
      v.left first.point = v.right first'.point →
        v.left last.point = v.right last'.point →
      (v.verbatim kind = true → first.upTo last = first'.upTo last') →
      List.Forall₂ (Alike v) ts ts' →
      Alike v (.node kind first last ts) (.node kind first' last' ts')

theorem Alike.kind_eq {v : View N} {t t' : Tree N} (h : Alike v t t') :
    t.kind = t'.kind := by
  cases h
  rfl

-- ==================================================== texts and places

/-- If one of two related texts begins with a character that the class accepts,
then so does the other, and what follows is related. -/
def Advances (R S : List Char → List Char → Prop) (accepts : Char → Bool) :
    Prop :=
  ∀ xs ys, R xs ys →
    (∃ x xs' ys', xs = x :: xs' ∧ ys = x :: ys' ∧
      (accepts x = true → S xs' ys')) ∨
    (∀ x ∈ xs.head?, accepts x = false) ∧ ∀ y ∈ ys.head?, accepts y = false

/-- A relation of places that a common character does not change. -/
structure Steady (v : View N) (K : Cursor → Cursor → Prop) : Prop where
  level : ∀ {c c'}, K c c' → v.left c.point = v.right c'.point
  step : ∀ {x xs ys p p'}, K ⟨x :: xs, p⟩ ⟨x :: ys, p'⟩ →
    K ⟨xs, p.after x⟩ ⟨ys, p'.after x⟩

/-- Behind the same text in both. -/
def Same (origin origin' c c' : Cursor) : Prop :=
  ∃ taken, origin.rest = taken ++ c.rest ∧ origin'.rest = taken ++ c'.rest

theorem Steady.same {v : View N} {K : Cursor → Cursor → Prop} (hK : Steady v K)
    (o o' : Cursor) : Steady v fun c c' => K c c' ∧ Same o o' c c' where
  level h := hK.level h.1
  step {x _ _ _ _} h := by
    obtain ⟨hk, taken, ho, ho'⟩ := h
    refine ⟨hK.step hk, taken ++ [x], ?_, ?_⟩
    · rw [ho, List.append_assoc]
      rfl
    · rw [ho', List.append_assoc]
      rfl

-- ============================================================ lockstep

/-- Two matches that end at related places and leave nodes that are alike. -/
structure Parallel (v : View N) (K : Cursor → Cursor → Prop)
    (S : List Char → List Char → Prop) (f f' : Match N) : Prop where
  place : K f.stop f'.stop
  rest : S f.stop.rest f'.stop.rest
  nodes : List.Forall₂ (Alike v) f.nodes f'.nodes

/-- The expression does the same on texts related by `R`, in fewer than `n`
steps. -/
def Lockstep (g : Grammar N) (v : View N) (K : Cursor → Cursor → Prop) (n : Nat)
    (R S : List Char → List Char → Prop) (e : Peg N) : Prop :=
  ∀ m c c', g.work e c.rest.length < n → K c c' → R c.rest c'.rest →
    Option.Rel (Parallel v K S) (g.found m e c) (g.found m e c')

/-- If there is a match, then nothing is left behind it. -/
def Spent (o : Option (Match N)) : Prop := ∀ f, o = some f → f.stop.rest = []

/-- The expression does the same on texts related by `R`, unless there is
nothing left to read behind it. -/
def Loosely (g : Grammar N) (v : View N) (K : Cursor → Cursor → Prop) (n : Nat)
    (R S : List Char → List Char → Prop) (e : Peg N) : Prop :=
  ∀ m c c', g.work e c.rest.length < n → K c c' → R c.rest c'.rest →
    Option.Rel (Parallel v K S) (g.found m e c) (g.found m e c') ∨
      Spent (g.found m e c) ∧ Spent (g.found m e c')

variable {g : Grammar N} {v : View N} {K : Cursor → Cursor → Prop} {n : Nat}
  {R R' S S' T : List Char → List Char → Prop} {a b e : Peg N} {r : N}
  {m : Mode} {c : Cursor}

theorem Parallel.mono {f f' : Match N} (h : Parallel v K S f f')
    (hS : ∀ xs ys, S xs ys → S' xs ys) : Parallel v K S' f f' :=
  ⟨h.place, hS _ _ h.rest, h.nodes⟩

theorem Parallel.behind {f f' h h' : Match N} (hf : Parallel v K S f f')
    (hh : Parallel v K T h h') :
    Parallel v K T (Grammar.behind f h) (Grammar.behind f' h') :=
  ⟨hh.place, hh.rest, List.rel_append hf.nodes hh.nodes⟩

/-- What cannot be empty is not found at the end of the text. -/
theorem found_end (h : g.mayBeEmpty e = false) (hc : c.rest = []) :
    g.found m e c = none := by
  cases hf : g.found m e c with
  | none => rfl
  | some f =>
    have hlt := (g.reaches_run m c .none e f hf).2 h
    rw [hc] at hlt
    exact absurd hlt (Nat.not_lt_zero _)

section Behind

variable {f : Match N} (hf : g.found m a c = some f)
include hf

/-- What is found behind a match takes less work. -/
theorem work_behind :
    g.work b f.stop.rest.length < g.work (.seq a b) c.rest.length := by
  have hr : g.Reaches a c (some f) := hf ▸ g.reaches_run m c .none a
  exact Grammar.work_seq_right hr.le (hr f rfl).2

/-- Behind something less is left. -/
theorem length_behind (ha : g.mayBeEmpty a = false) :
    f.stop.rest.length < c.rest.length :=
  (g.reaches_run m c .none a f hf).2 ha

/-- Behind something one is at another place. -/
theorem offset_behind (ha : g.mayBeEmpty a = false) :
    f.stop.offset ≠ c.offset := by
  obtain ⟨taken, ht⟩ := (derives_of_found hf).takes
  have hlt := length_behind hf ha
  cases taken with
  | nil =>
    rw [ht.rest] at hlt
    exact absurd hlt (Nat.lt_irrefl _)
  | cons x xs =>
    have hx := x.utf8Size_pos
    have hle := Point.offset_le_afterAll (c.point.after x) xs
    rw [Point.offset_after] at hle
    rw [Cursor.offset, Cursor.offset, ht.point, Point.afterAll_cons]
    omega

/-- A repetition goes on behind something. -/
theorem found_many_some (ha : g.mayBeEmpty a = false) :
    g.found m (.many a) c =
      (g.found m (.many a) f.stop).map (Grammar.behind f) := by
  rw [Grammar.found_many, hf]
  exact if_neg (offset_behind hf ha)

end Behind

/-- A repetition ends where there is nothing to repeat. -/
theorem found_many_none (h : g.found m a c = none) :
    g.found m (.many a) c = some ⟨c, []⟩ := by
  rw [Grammar.found_many, h]

/-- A repetition always matches, as it may be empty. -/
theorem found_many_isSome : (g.found m (.many a) c).isSome = true := by
  induction hl : c.rest.length using Nat.strongRecOn generalizing c with
  | ind l ih =>
    subst hl
    rw [Grammar.found_many]
    cases hf : g.found m a c with
    | none => rfl
    | some f =>
      dsimp only
      split
      · rfl
      · next hne =>
        have hr : g.Reaches a c (some f) := hf ▸ g.reaches_run m c .none a
        rw [Option.isSome_map]
        exact ih _ (hr.lt_of_offset_ne hne) rfl

namespace Lockstep

theorem mono (h : Lockstep g v K n R S e) (hR : ∀ xs ys, R' xs ys → R xs ys)
    (hS : ∀ xs ys, S xs ys → S' xs ys) : Lockstep g v K n R' S' e :=
  fun m c c' hn hk hr => (h m c c' hn hk (hR _ _ hr)).imp fun _ _ hp =>
    hp.mono hS

theorem le {n' : Nat} (h : Lockstep g v K n R S e) (hn : n' ≤ n) :
    Lockstep g v K n' R S e :=
  fun m c c' hlt hk hr => h m c c' (Nat.lt_of_lt_of_le hlt hn) hk hr

/-- Nothing takes fewer than no steps. -/
theorem zero : Lockstep g v K 0 R S e :=
  fun _ _ _ hn => absurd hn (Nat.not_lt_zero _)

-- ========================================================== characters

theorem one (hK : Steady v K) {accepts : Char → Bool}
    (h : Advances R S accepts) : Lockstep g v K n R S (.one accepts) := by
  intro m c c' _ hk hr
  obtain ⟨xs, p⟩ := c
  obtain ⟨ys, p'⟩ := c'
  have refused : ∀ {zs : List Char} {q : Point},
      (∀ z ∈ zs.head?, accepts z = false) →
      g.found m (.one accepts) ⟨zs, q⟩ = none := by
    intro zs q hz
    cases zs with
    | nil => exact Grammar.found_one_nil ..
    | cons z zs =>
      rw [Grammar.found_one_cons, hz z rfl]
      rfl
  rcases h xs ys hr with ⟨x, xs, ys, rfl, rfl, hs⟩ | ⟨hx, hy⟩
  · rw [Grammar.found_one_cons, Grammar.found_one_cons]
    split
    · next hx => exact .some ⟨hK.step hk, hs hx, .nil⟩
    · exact .none
  · rw [refused hx, refused hy]
    exact .none

theorem chars_nil (h : ∀ xs ys, R xs ys → S xs ys) :
    Lockstep g v K n R S (.chars []) := by
  intro m c c' _ hk hr
  rw [Grammar.found_chars, Grammar.found_chars]
  exact .some ⟨hk, h _ _ hr, .nil⟩

/-- The characters of a text, one after the other. -/
theorem chars_cons (hK : Steady v K) {x : Char} {xs : List Char}
    (h : Advances R S (· == x)) (hs : Lockstep g v K n S T (.chars xs)) :
    Lockstep g v K n R T (.chars (x :: xs)) := by
  intro m c c' hn hk hr
  obtain ⟨ys, p⟩ := c
  obtain ⟨zs, p'⟩ := c'
  have refused : ∀ {zs : List Char} {q : Point},
      (∀ z ∈ zs.head?, (z == x) = false) →
      g.found m (.chars (x :: xs)) ⟨zs, q⟩ = none := by
    intro zs q hz
    rw [Grammar.found_chars]
    cases zs with
    | nil => rfl
    | cons z zs =>
      have hne : x ≠ z := fun he => by simpa [he] using hz z rfl
      rw [Cursor.skip?, if_neg hne, Option.map_none]
  have taken : ∀ {zs : List Char} {q : Point},
      g.found m (.chars (x :: xs)) ⟨x :: zs, q⟩ =
      g.found m (.chars xs) ⟨zs, q.after x⟩ := by
    intro zs q
    rw [Grammar.found_chars, Grammar.found_chars, Cursor.skip?, if_pos rfl]
  rcases h ys zs hr with ⟨y, ys, zs, rfl, rfl, hS⟩ | ⟨hy, hz⟩
  · by_cases hxy : y = x
    · subst hxy
      rw [taken, taken]
      refine hs m _ _ (Nat.lt_of_le_of_lt ?_ hn) (hK.step hk)
        (hS (beq_self_eq_true y))
      exact Nat.add_le_add_right (Nat.mul_le_mul_right _ (Nat.le_succ _)) 0
    · have hne : ∀ ws : List Char, ∀ z ∈ (y :: ws).head?, (z == x) = false := by
        intro ws z hz
        simpa [← Option.some.inj hz] using hxy
      rw [refused (hne ys), refused (hne zs)]
      exact .none
  · rw [refused hy, refused hz]
    exact .none

-- ================================================ forms of expressions

theorem seq (ha : Lockstep g v K n R S a) (hb : Lockstep g v K n S T b) :
    Lockstep g v K n R T (a ++ b) := by
  intro m c c' hn hk hr
  change Option.Rel _ (g.found m (.seq a b) c) (g.found m (.seq a b) c')
  have h := ha m c c' (Nat.lt_trans Grammar.work_seq_left hn) hk hr
  rw [Grammar.found_seq, Grammar.found_seq]
  refine h.bind fun f f' hf _ hp => ?_
  have h' :=
    hb m f.stop f'.stop (Nat.lt_trans (work_behind hf) hn) hp.place hp.rest
  exact h'.map fun _ _ _ _ hp' => hp.behind hp'

theorem alt (ha : Lockstep g v K n R S a) (hb : Lockstep g v K n R S b) :
    Lockstep g v K n R S (a <|> b) := by
  intro m c c' hn hk hr
  change Option.Rel _ (g.found m (.alt a b) c) (g.found m (.alt a b) c')
  have h := ha m c c' (Nat.lt_trans Grammar.work_alt_left hn) hk hr
  have h' := hb m c c' (Nat.lt_trans Grammar.work_alt_right hn) hk hr
  rw [Grammar.found_alt, Grammar.found_alt]
  generalize g.found m a c = x at h
  generalize g.found m a c' = y at h
  cases h with
  | some hp => exact .some hp
  | none => exact h'

theorem opt (ha : Lockstep g v K n R S a) (hRS : ∀ xs ys, R xs ys → S xs ys) :
    Lockstep g v K n R S (.opt a) := by
  intro m c c' hn hk hr
  have h := ha m c c' (Nat.lt_trans Grammar.work_opt hn) hk hr
  rw [Grammar.found_opt, Grammar.found_opt]
  generalize g.found m a c = x at h
  generalize g.found m a c' = y at h
  cases h with
  | some hp => exact .some hp
  | none => exact .some ⟨hk, hRS _ _ hr, .nil⟩

theorem many (hn : g.mayBeEmpty a = false) (ha : Lockstep g v K n R R a) :
    Lockstep g v K n R R (.many a) := by
  intro m c c' hwork hk hr
  -- By the length of the text: each match of `a` leaves less of it.
  induction hl : c.rest.length using Nat.strongRecOn generalizing c c' with
  | ind l ih =>
    subst hl
    have h := ha m c c' (Nat.lt_trans Grammar.work_many hwork) hk hr
    cases hf : g.found m a c with
    | none =>
      rw [found_many_none hf, found_many_none (h.eq_none hf)]
      exact .some ⟨hk, hr, .nil⟩
    | some f =>
      obtain ⟨f', hf', hp⟩ := h.exists_of_some hf
      rw [found_many_some hf hn, found_many_some hf' hn]
      have hlt := length_behind hf hn
      have hless := g.work_lt (Nat.le_refl (g.maxCost (.many a))) (.inl hlt)
      have h := ih _ hlt _ _ (Nat.lt_trans hless hwork) hp.place hp.rest rfl
      exact h.map fun _ _ _ _ hp' => hp.behind hp'

theorem plus (hn : g.mayBeEmpty a = false) (ha : Lockstep g v K n R S a)
    (hSR : ∀ xs ys, S xs ys → R xs ys) : Lockstep g v K n R S (Peg.plus a) :=
  ha.seq (.many hn (ha.mono hSR fun _ _ h => h))

/-- Of a negative lookahead counts whether it matches. -/
theorem notAhead (h : ∀ m c c', K c c' → R c.rest c'.rest →
      (g.found m a c).isSome = (g.found m a c').isSome ∧
        (g.found m a c = none → S c.rest c'.rest)) :
    Lockstep g v K n R S (.notAhead a) := by
  intro m c c' _ hk hr
  obtain ⟨heq, hS⟩ := h m.notAhead c c' hk hr
  rw [Grammar.found_notAhead, Grammar.found_notAhead, ← heq]
  split
  · exact .none
  · next hs => exact .some ⟨hk, hS (by simpa using hs), .nil⟩

-- ======================================================== nonterminals

/-- What a nonterminal that is retained leaves is alike if what its body leaves
is. -/
theorem enclose (hK : Steady v K) {c' : Cursor} {f f' : Match N} (hk : K c c')
    (ht : v.verbatim r = true → c.upTo f.stop = c'.upTo f'.stop)
    (h : Parallel v K S f f') :
    Parallel v K S (g.enclose r m c f) (g.enclose r m c' f') := by
  unfold Grammar.enclose
  split
  · exact ⟨h.place, h.rest,
      .cons (.node (hK.level hk) (hK.level h.place) ht h.nodes) .nil⟩
  · exact h

/-- A nonterminal takes a step more than its body. -/
theorem enter (hK : Steady v K) (hr : v.verbatim r = false)
    (h : Lockstep g v K n R S (g.body r)) :
    Lockstep g v K (n + 1) R S (.call r) := by
  intro m c c' hn hk hR
  have hless := Nat.lt_of_lt_of_le Grammar.work_body (Nat.le_of_lt_succ hn)
  by_cases hs : g.retention r = .silent
  · rw [Grammar.found_silent _ _ _ hs, Grammar.found_silent _ _ _ hs]
    exact h m c c' hless hk hR
  · rw [Grammar.found_call _ _ _ hs, Grammar.found_call _ _ _ hs]
    refine (h (g.bodyMode r m) c c' hless hk hR).map fun f f' _ _ hp => ?_
    refine enclose hK hk (fun hv => ?_) hp
    rw [hr] at hv
    cases hv

/-- A nonterminal does what its body does. -/
theorem call (hK : Steady v K) (hr : v.verbatim r = false)
    (h : Lockstep g v K n R S (g.body r)) : Lockstep g v K n R S (.call r) :=
  (enter hK hr h).le (Nat.le_succ n)

/-- If its text is compared, then its body must take the same text on both
sides. -/
theorem spell (hK : Steady v K)
    (h : ∀ o o',
      Lockstep g v (fun c c' => K c c' ∧ Same o o' c c') n R S (g.body r)) :
    Lockstep g v K n R S (.call r) := by
  intro m c c' hn hk hR
  have hless := Nat.lt_trans Grammar.work_body hn
  have forget : ∀ {f f' : Match N},
      Parallel v (fun d d' => K d d' ∧ Same c c' d d') S f f' →
      Parallel v K S f f' := fun hp => ⟨hp.place.1, hp.rest, hp.nodes⟩
  have h' := fun m => h c c' m c c' hless ⟨hk, [], rfl, rfl⟩ hR
  by_cases hs : g.retention r = .silent
  · rw [Grammar.found_silent _ _ _ hs, Grammar.found_silent _ _ _ hs]
    exact (h' m).imp fun _ _ => forget
  · rw [Grammar.found_call _ _ _ hs, Grammar.found_call _ _ _ hs]
    refine (h' (g.bodyMode r m)).map fun f f' hf hf' hp => ?_
    obtain ⟨taken, ht, ht'⟩ := hp.place.2
    obtain ⟨xs, hx⟩ := (derives_of_found hf).takes
    obtain ⟨ys, hy⟩ := (derives_of_found hf').takes
    obtain rfl := List.append_cancel_right (hx.rest.symm.trans ht)
    obtain rfl := List.append_cancel_right (hy.rest.symm.trans ht')
    exact enclose hK hk (fun _ => hx.upTo_eq.trans hy.upTo_eq.symm) (forget hp)

end Lockstep

-- =================================================== blanks at the end

namespace Loosely

/-- What is not lockstep may stand at the end. -/
theorem after (h : Loosely g v K n S T b) (ha : Lockstep g v K n R S a) :
    Loosely g v K n R T (a ++ b) := by
  intro m c c' hn hk hr
  change Option.Rel _ (g.found m (.seq a b) c) (g.found m (.seq a b) c') ∨
    Spent (g.found m (.seq a b) c) ∧ Spent (g.found m (.seq a b) c')
  have h₁ := ha m c c' (Nat.lt_trans Grammar.work_seq_left hn) hk hr
  rw [Grammar.found_seq, Grammar.found_seq]
  cases hf : g.found m a c with
  | none =>
    rw [h₁.eq_none hf]
    exact .inl .none
  | some f =>
    obtain ⟨f', hf', hp⟩ := h₁.exists_of_some hf
    rw [hf']
    have spent : ∀ {f d}, Spent (g.found m b d) →
        Spent ((g.found m b d).map (Grammar.behind f)) := by
      intro f d hs _ hmap
      obtain ⟨f₀, h₀, rfl⟩ := Option.map_eq_some_iff.mp hmap
      exact hs f₀ h₀
    rcases h m _ _ (Nat.lt_trans (work_behind hf) hn) hp.place
        hp.rest with h' | ⟨h', h''⟩
    · exact .inl (h'.map fun _ _ _ _ hp' => hp.behind hp')
    · exact .inr ⟨spent h', spent h''⟩

/-- What has to take a character fails where nothing is left. -/
theorem seq (h : Loosely g v K n R S a) (hb : g.mayBeEmpty b = false)
    (h' : Lockstep g v K n S T b) : Lockstep g v K n R T (a ++ b) := by
  intro m c c' hn hk hr
  change Option.Rel _ (g.found m (.seq a b) c) (g.found m (.seq a b) c')
  rw [Grammar.found_seq, Grammar.found_seq]
  rcases h m c c' (Nat.lt_trans Grammar.work_seq_left hn) hk
      hr with ha | ⟨hs, hs'⟩
  · refine ha.bind fun f f' hf _ hp => ?_
    have h' :=
      h' m f.stop f'.stop (Nat.lt_trans (work_behind hf) hn) hp.place hp.rest
    exact h'.map fun _ _ _ _ hp' => hp.behind hp'
  · have nothing : ∀ {d : Cursor}, Spent (g.found m a d) →
        ((g.found m a d).bind fun f =>
          (g.found m b f.stop).map (Grammar.behind f)) = none := by
      intro d hd
      refine Option.bind_eq_none_iff.mpr fun f hf => ?_
      rw [found_end hb (hd f hf), Option.map_none]
    rw [nothing hs, nothing hs']
    exact .none

end Loosely

-- ========================================= from one match to the other

section Derived

variable {c' d : Cursor} {nodes : List (Tree N)}
  (h : ∀ n, Lockstep g v K n R S e) (hd : Derives g m e c d nodes)
include h hd

/-- What matches on the one side matches on the other. -/
theorem Lockstep.derives (hk : K c c') (hr : R c.rest c'.rest) :
    ∃ d' nodes', Derives g m e c' d' nodes' ∧ K d d' ∧ S d.rest d'.rest ∧
      List.Forall₂ (Alike v) nodes nodes' := by
  obtain ⟨f, hf, hp⟩ :=
    (h _ m c c' (Nat.lt_succ_self _) hk hr).exists_of_some hd.found
  exact ⟨f.stop, f.nodes, derives_of_found hf, hp.place, hp.rest, hp.nodes⟩

/-- A match compared with itself tells where it ends. -/
theorem Lockstep.self (hk : K c c) (hr : R c.rest c.rest) :
    S d.rest d.rest := by
  obtain ⟨d', nodes', hd', -, hS, -⟩ := Lockstep.derives h hd hk hr
  cases hd.found.symm.trans hd'.found
  exact hS

end Derived

end Jam
