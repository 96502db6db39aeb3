/-
What escape sequences stand for.

`Stands xs e` says that the text `xs` is one escape sequence, and that it
stands for the character `e`: by a table of signs, or by its place among the
code points, which is written with two hexadecimal digits or with up to
three octal ones. Digits are those of the standard library
(`Nat.digitChar`), and what they denote together is `Nat.ofDigits`.

`escape?` takes such a sequence off the beginning of a text
(`stands_of_escape?`), and of a sequence alone it leaves nothing
(`Stands.escape?_eq`). So a sequence stands for one character only.
-/
import Mathlib.Data.List.Forall2
import Mathlib.Data.Nat.Digits.Defs
import Mathlib.Tactic.Ring
import Jam.Proofs.Text.Escape

namespace Jam

-- ========================================================= definitions

/-- A digit and its value, letters being of either case. -/
structure IsDigit (base : Nat) (c : Char) (v : Nat) : Prop where
  lt : v < base
  spelled : c.toLower = Nat.digitChar v

/-- The letters and marks that stand for a character behind a backslash. -/
def signs : List (Char × Char) :=
  [('a', '\x07'), ('b', '\x08'), ('f', '\x0c'), ('n', '\n'), ('r', '\r'),
    ('t', '\t'), ('v', '\x0b'), ('\\', '\\'), ('\'', '\''), ('"', '"')]

/-- The text is an escape sequence for the character. -/
inductive Stands : List Char → Char → Prop
  | sign {x e} : (x, e) ∈ signs → Stands ['\\', x] e
  | hex {x y high low e} : IsDigit 16 x high → IsDigit 16 y low →
      e.toNat = Nat.ofDigits 16 [low, high] → Stands ['\\', 'x', x, y] e
  | octal {ds vs e} : ds ≠ [] → ds.length ≤ 3 → List.Forall₂ (IsDigit 8) ds vs →
      e.toNat = Nat.ofDigits 8 vs.reverse → Stands ('\\' :: ds) e

variable {c d e x : Char} {v n value : Nat} {cs ds rest xs : List Char}
  {vs : List Nat}

-- ==================================================== digits and signs

theorem toNat_toLower (c : Char) :
    c.toLower.toNat = if 65 ≤ c.toNat ∧ c.toNat ≤ 90 then c.toNat + 32
      else c.toNat := by
  unfold Char.toLower
  split
  · next hc =>
    have hupper : 65 ≤ c.toNat ∧ c.toNat ≤ 90 := hc
    rw [if_pos hupper]
    show (c.toNat + 32) % 2 ^ 32 = c.toNat + 32
    omega
  · next hc =>
    have hupper : ¬ (65 ≤ c.toNat ∧ c.toNat ≤ 90) := hc
    rw [if_neg hupper]

theorem toNat_digitChar (h : v < 16) :
    (Nat.digitChar v).toNat = if v < 10 then 48 + v else 87 + v := by
  have hall : ∀ v < 16, (Nat.digitChar v).toNat = if v < 10 then 48 + v
      else 87 + v := by
    decide
  exact hall v h

/-- Digits by their places among the code points. -/
theorem isDigit_iff {base : Nat} (hb : base ≤ 16) :
    IsDigit base c v ↔ v < base ∧ (v < 10 ∧ c.toNat = 48 + v ∨ 10 ≤ v ∧
      (c.toNat = 87 + v ∨ c.toNat = 55 + v)) := by
  constructor
  · intro h
    have heq := congrArg Char.toNat h.spelled
    rw [toNat_toLower, toNat_digitChar (Nat.lt_of_lt_of_le h.lt hb)] at heq
    refine ⟨h.lt, ?_⟩
    split at heq <;> split at heq <;> omega
  · rintro ⟨hv, h⟩
    refine ⟨hv, ?_⟩
    rw [← Char.toNat_inj, toNat_toLower,
      toNat_digitChar (Nat.lt_of_lt_of_le hv hb)]
    split <;> split <;> omega

theorem hexDigit?_eq_some_iff : hexDigit? c = some v ↔ IsDigit 16 c v := by
  have hdigit : ('0' ≤ c ∧ c ≤ '9') = (48 ≤ c.toNat ∧ c.toNat ≤ 57) := rfl
  have hlower : ('a' ≤ c ∧ c ≤ 'f') = (97 ≤ c.toNat ∧ c.toNat ≤ 102) := rfl
  have hupper : ('A' ≤ c ∧ c ≤ 'F') = (65 ≤ c.toNat ∧ c.toNat ≤ 70) := rfl
  rw [isDigit_iff (Nat.le_refl 16), hexDigit?]
  simp only [hdigit, hlower, hupper, Char.reduceToNat]
  split
  · rw [Option.some.injEq]
    omega
  split
  · rw [Option.some.injEq]
    omega
  split
  · rw [Option.some.injEq]
    omega
  · refine iff_of_false (Option.some_ne_none v).symm ?_
    omega

theorem octalDigit?_eq_some_iff : octalDigit? c = some v ↔ IsDigit 8 c v := by
  have hdigit : ('0' ≤ c ∧ c ≤ '7') = (48 ≤ c.toNat ∧ c.toNat ≤ 55) := rfl
  rw [isDigit_iff (by decide), octalDigit?]
  simp only [hdigit, Char.reduceToNat]
  split
  · rw [Option.some.injEq]
    omega
  · refine iff_of_false (Option.some_ne_none v).symm ?_
    omega

theorem IsDigit.isSome_octalDigit? (h : IsDigit 8 c v) :
    (octalDigit? c).isSome := by
  rw [octalDigit?_eq_some_iff.mpr h]
  rfl

theorem IsDigit.isSome_hexDigit? (h : IsDigit 16 c v) :
    (hexDigit? c).isSome := by
  rw [hexDigit?_eq_some_iff.mpr h]
  rfl

theorem named?_eq_some_iff : named? x = some e ↔ (x, e) ∈ signs := by
  constructor
  · intro h
    unfold named? at h
    split at h <;> cases h <;> decide
  · intro h
    have hall : ∀ s ∈ signs, named? s.1 = some s.2 := by decide
    exact hall _ h

theorem ne_of_mem_signs (h : (x, e) ∈ signs) : x ≠ 'x' := by
  rintro rfl
  cases named?_eq_some_iff.mpr h

/-- No octal digit is a sign. -/
theorem IsDigit.ne_sign (h : IsDigit 8 c v) : c ≠ 'x' ∧ named? c = none := by
  have hall : ∀ v < 8,
      Char.ofNat (48 + v) ≠ 'x' ∧ named? (Char.ofNat (48 + v)) = none := by
    decide
  obtain ⟨hv, hplace⟩ := (isDigit_iff (by decide)).mp h
  have hc : c = Char.ofNat (48 + v) := by
    rw [← Char.ofNat_toNat c]
    exact congrArg Char.ofNat (by omega)
  exact hc ▸ hall v hv

-- ======================================================= octal numbers

/-- The first digit counts most. -/
theorem ofDigits_reverse_cons (h : List.Forall₂ (IsDigit 8) ds vs) (v : Nat) :
    Nat.ofDigits 8 (v :: vs).reverse =
      v * 8 ^ ds.length + Nat.ofDigits 8 vs.reverse := by
  rw [List.reverse_cons, Nat.ofDigits_append, Nat.ofDigits_singleton,
    List.length_reverse, ← h.length_eq]
  ring

/-- The digits that a number goes on with. -/
theorem octal_spec (value n : Nat) (cs : List Char) :
    ∃ ds vs, cs = ds ++ (octal value n cs).2 ∧ ds.length ≤ n ∧
      List.Forall₂ (IsDigit 8) ds vs ∧ (octal value n cs).1 =
      value * 8 ^ ds.length + Nat.ofDigits 8 vs.reverse := by
  have hnone : ∀ {value n : Nat} {cs : List Char}, ∃ ds vs,
      cs = ds ++ cs ∧ ds.length ≤ n ∧ List.Forall₂ (IsDigit 8) ds vs ∧
      value = value * 8 ^ ds.length + Nat.ofDigits 8 vs.reverse :=
    ⟨[], [], rfl, Nat.zero_le _, .nil, (Nat.mul_one _).symm⟩
  fun_induction octal value n cs with
  | case1 value n c cs v hv ih =>
    obtain ⟨ds, vs, hcs, hlen, hds, heq⟩ := ih
    refine ⟨c :: ds, v :: vs, congrArg (c :: ·) hcs, Nat.succ_le_succ hlen,
      .cons (octalDigit?_eq_some_iff.mp hv) hds, ?_⟩
    rw [heq, List.length_cons, ofDigits_reverse_cons hds]
    ring
  | case2 => exact hnone
  | case3 => exact hnone

/-- So many digits, and nothing else, are taken whole. -/
theorem octal_digits (h : List.Forall₂ (IsDigit 8) ds vs) (hn : ds.length ≤ n) :
    octal value n ds =
      (value * 8 ^ ds.length + Nat.ofDigits 8 vs.reverse, []) := by
  induction h generalizing value n with
  | nil =>
    have hvalue : value *
        8 ^ ([] : List Char).length + Nat.ofDigits 8 ([] : List Nat).reverse =
        value := Nat.mul_one value
    rw [hvalue]
    cases n <;> rfl
  | @cons c v ds vs hc hds ih =>
    obtain ⟨n, rfl⟩ := Nat.exists_eq_succ_of_ne_zero
      (Nat.ne_of_gt (Nat.lt_of_lt_of_le (Nat.succ_pos ds.length) hn))
    rw [octal, octalDigit?_eq_some_iff.mpr hc]
    dsimp only
    rw [ih (Nat.le_of_succ_le_succ hn), List.length_cons,
      ofDigits_reverse_cons hds]
    ring_nf

-- ======================================================== one sequence

/-- Two hexadecimal digits, and three octal ones, denote a code point. -/
theorem toNat_ofNat_of_lt (h : n < 512) : (Char.ofNat n).toNat = n := by
  have hvalid : n.isValidChar := .inl (by omega)
  rw [Char.ofNat, dif_pos hvalid]
  rfl

theorem ofDigits_hex_lt (hx : IsDigit 16 c v) (hy : IsDigit 16 d n) :
    Nat.ofDigits 16 [n, v] = v * 16 + n ∧ v * 16 + n < 512 := by
  have hv := hx.lt
  have hn := hy.lt
  rw [Nat.ofDigits_cons, Nat.ofDigits_singleton]
  omega

/-- Digits denote less than one more digit would count. -/
theorem ofDigits_lt_pow (h : List.Forall₂ (IsDigit 8) ds vs) :
    Nat.ofDigits 8 vs.reverse < 8 ^ ds.length := by
  have hboth : List.Forall₂ (fun v c => v < 8 ∧ IsDigit 8 c v) vs ds := by
    have hflip : List.Forall₂ (flip fun v c => v < 8 ∧ IsDigit 8 c v) ds vs :=
      h.imp fun _ _ hc => ⟨hc.lt, hc⟩
    exact hflip.flip
  have hlt : ∀ v ∈ vs.reverse, v < 8 := fun v hv =>
    ((List.forall₂_and_left vs ds).mp hboth).1 v (List.mem_reverse.mp hv)
  have hpow := Nat.ofDigits_lt_base_pow_length (by decide) hlt
  rwa [List.length_reverse, ← h.length_eq] at hpow

theorem ofDigits_octal_lt (h : List.Forall₂ (IsDigit 8) ds vs)
    (hn : ds.length ≤ 3) : Nat.ofDigits 8 vs.reverse < 512 :=
  Nat.lt_of_lt_of_le (ofDigits_lt_pow h) (Nat.pow_le_pow_right (by decide) hn)

/-- What is taken off a text is an escape sequence. -/
theorem stands_of_escape? (h : escape? cs = some (e, rest)) :
    ∃ body, cs = body ++ rest ∧ Stands ('\\' :: body) e := by
  unfold escape? at h
  split at h
  · cases h
  · split at h
    · next x y r =>
      obtain ⟨high, hx, h⟩ := Option.bind_eq_some_iff.mp h
      obtain ⟨low, hy, h⟩ := Option.bind_eq_some_iff.mp h
      cases h
      have hx := hexDigit?_eq_some_iff.mp hx
      have hy := hexDigit?_eq_some_iff.mp hy
      obtain ⟨heq, hlt⟩ := ofDigits_hex_lt hx hy
      exact ⟨['x', x, y], rfl,
        .hex hx hy ((toNat_ofNat_of_lt hlt).trans heq.symm)⟩
    · cases h
  · next x r hx =>
    split at h
    · next hnamed =>
      cases h
      exact ⟨[x], rfl, .sign (named?_eq_some_iff.mp hnamed)⟩
    · next v _ hdigit =>
      cases h
      obtain ⟨ds, vs, hr, hlen, hds, heq⟩ := octal_spec v 2 r
      have hall : List.Forall₂ (IsDigit 8) (x :: ds) (v :: vs) :=
        .cons (octalDigit?_eq_some_iff.mp hdigit) hds
      refine ⟨x :: ds, congrArg (x :: ·) hr,
        .octal (List.cons_ne_nil x ds) (Nat.succ_le_succ hlen) hall ?_⟩
      rw [heq, ← ofDigits_reverse_cons hds]
      exact toNat_ofNat_of_lt (ofDigits_octal_lt hall (Nat.succ_le_succ hlen))
    · cases h

/-- Behind a backslash and anything but an `x` stands a sign, or an octal
number. -/
theorem escape?_of_ne (hx : x ≠ 'x') :
    escape? (x :: cs) = ((named? x).map fun e => (e, cs)).or
      ((octalDigit? x).map fun d =>
        (Char.ofNat (octal d 2 cs).1, (octal d 2 cs).2)) := by
  unfold escape?
  split
  · next heq => cases heq
  · next heq =>
    cases heq
    exact absurd rfl hx
  · next heq =>
    cases heq
    split
    · next hname => rw [hname, Option.map_some, Option.some_or]
    · next hname hdigit =>
      rw [hname, hdigit, Option.map_none, Option.none_or, Option.map_some]
    · next hname hdigit =>
      rw [hname, hdigit, Option.map_none, Option.none_or, Option.map_none]

theorem escape?_sign (h : (x, e) ∈ signs) :
    escape? (x :: cs) = some (e, cs) := by
  rw [escape?_of_ne (ne_of_mem_signs h), named?_eq_some_iff.mpr h,
    Option.map_some, Option.some_or]

theorem escape?_octal (h : IsDigit 8 c v) :
    escape? (c :: cs) =
      some (Char.ofNat (octal v 2 cs).1, (octal v 2 cs).2) := by
  obtain ⟨hx, hname⟩ := h.ne_sign
  rw [escape?_of_ne hx, hname, octalDigit?_eq_some_iff.mpr h, Option.map_none,
    Option.none_or, Option.map_some]

/-- A sequence alone is taken whole. -/
theorem Stands.escape?_eq (h : Stands ('\\' :: cs) e) :
    escape? cs = some (e, []) := by
  have hchar {n : Nat} (h : e.toNat = n) : Char.ofNat n = e := by
    rw [← h, Char.ofNat_toNat]
  cases h with
  | sign hx => exact escape?_sign hx
  | hex hx hy he =>
    rw [escape?, hexDigit?_eq_some_iff.mpr hx, hexDigit?_eq_some_iff.mpr hy]
    rw [(ofDigits_hex_lt hx hy).1] at he
    exact congrArg (fun c => some (c, [])) (hchar he)
  | octal hne hlen hds he =>
    cases hds with
    | nil => exact absurd rfl hne
    | @cons _ v ds vs hc hds =>
      rw [escape?_octal hc, octal_digits hds (Nat.le_of_succ_le_succ hlen)]
      rw [ofDigits_reverse_cons hds] at he
      exact congrArg (fun c => some (c, [])) (hchar he)

/-- An escape sequence begins with a backslash. -/
theorem Stands.begins (h : Stands xs e) : ∃ body, xs = '\\' :: body := by
  cases h <;> exact ⟨_, rfl⟩

/-- An escape sequence is one whatever follows. -/
theorem Stands.found_behind (h : Stands ('\\' :: cs) e) (rest : List Char) :
    ∃ r, escape? (cs ++ rest) = some r := by
  cases h with
  | sign hx => exact ⟨_, escape?_sign hx⟩
  | hex hx hy =>
    rw [List.cons_append, List.cons_append, List.cons_append, List.nil_append,
      escape?, hexDigit?_eq_some_iff.mpr hx, hexDigit?_eq_some_iff.mpr hy]
    exact ⟨_, rfl⟩
  | octal hne _ hds =>
    cases hds with
    | nil => exact absurd rfl hne
    | cons hc => exact ⟨_, escape?_octal hc⟩

theorem escaped_digits (h : List.Forall₂ (IsDigit 8) ds vs) : Escaped ds := by
  induction h with
  | nil => exact .nil
  | cons hc _ ih =>
    exact .plain (Escaped.ne_backslash_of_octalDigit? hc.isSome_octalDigit?) ih

theorem Stands.escaped (h : Stands xs e) : Escaped xs := by
  cases h with
  | sign hx =>
    refine .named ?_ .nil
    rw [named?_eq_some_iff.mpr hx]
    rfl
  | hex hx hy => exact .hex hx.isSome_hexDigit? hy.isSome_hexDigit? .nil
  | octal hne _ hds =>
    cases hds with
    | nil => exact absurd rfl hne
    | cons hc hds => exact .digit hc.isSome_octalDigit? (escaped_digits hds)

/-- A sequence stands for one character only. -/
theorem Stands.unique (h : Stands xs c) (h' : Stands xs d) : c = d := by
  obtain ⟨cs, rfl⟩ := h.begins
  have heq := h.escape?_eq.symm.trans h'.escape?_eq
  exact congrArg Prod.fst (Option.some.inj heq)

end Jam
