/-
How far the code points of escape sequences go.

A numeric escape sequence names a code point by a number, and how large
this is can be seen from its digits: two hexadecimal ones go up to U+00FF,
and one or two octal ones do not even get there. Three octal ones go up to
U+01FF, and the first of them tells whether they stay below U+0100
(`HighOctal`).

A text may have such a sequence in it although it was not put together
from one. Behind `\40` a digit that follows is taken in as the third, so
that what was meant as two small characters is resolved to a large one. So
it is the sequences met on the grammar's way through the text that count
(`Encounters`).

# What is proved

- `code_points_bounded`: a text of small characters and escape sequences is
  resolved to characters up to U+01FF, and to small ones if and only if no
  high octal number is met on the way.
- `octal_beyond_small`: so there are texts of escape sequences that are not
  resolved to small characters.
-/
import Jam.Proofs.Syntax.Unescaping

namespace Jam

-- ========================================================= definitions

/-- The characters that are numbered with one byte. -/
def IsSmall (c : Char) : Prop := c.toNat ≤ 0xFF

instance (c : Char) : Decidable (IsSmall c) :=
  inferInstanceAs (Decidable (c.toNat ≤ 0xFF))

/-- An octal sequence of three digits, the first of which is 4 or more. -/
inductive HighOctal : List Char → Prop
  | intro {x y z : Char} {a b c : Nat} :
      IsDigit 8 x a → IsDigit 8 y b → IsDigit 8 z c → 4 ≤ a →
      HighOctal ['\\', x, y, z]

/-- A small character that is no backslash, or a text that the grammar matches
as an escape sequence. -/
def IsSmallToken (source : String) (xs : List Char) : Prop :=
  (∃ x, x ≠ '\\' ∧ IsSmall x ∧ xs = [x]) ∨
    (parseTree source .escape xs).Succeeds

/-- The escape sequences that are met in the text behind a cursor, in steps from
left to right: of a character that is no backslash, and of what the grammar
matches as an escape sequence. -/
inductive Encounters : Cursor → List (List Char) → Prop
  | done {p} : Encounters ⟨[], p⟩ []
  | plain {x xs p met} :
      x ≠ '\\' → Encounters ⟨xs, p.after x⟩ met → Encounters ⟨x :: xs, p⟩ met
  | sequence {c d xs met} :
      stopOf? .escape c = some d → c.Takes xs d → Encounters d met →
      Encounters c (xs :: met)

variable {source : String} {c : Cursor} {e x : Char} {v : Nat}
  {ds xs text : List Char} {vs : List Nat} {pieces : List (List Char)}

-- ============================================================== digits

theorem IsDigit.unique {w : Nat} (h : IsDigit 8 x v) (h' : IsDigit 8 x w) :
    v = w :=
  Option.some.inj ((octalDigit?_eq_some_iff.mpr h).symm.trans
    (octalDigit?_eq_some_iff.mpr h'))

theorem IsDigit.small {base : Nat} (hb : base ≤ 16) (h : IsDigit base x v) :
    IsSmall x := by
  obtain ⟨hv, hplace⟩ := (isDigit_iff hb).mp h
  show x.toNat ≤ 0xFF
  omega

/-- The high ones among the octal sequences, by their digits. -/
theorem highOctal_iff (hx : IsDigit 8 x v)
    (h : List.Forall₂ (IsDigit 8) ds vs) :
    HighOctal ('\\' :: x :: ds) ↔ ds.length = 2 ∧ 4 ≤ v := by
  constructor
  · intro hhigh
    cases hhigh with
    | intro hx' _ _ ha => exact ⟨rfl, hx'.unique hx ▸ ha⟩
  · rintro ⟨hlen, hv⟩
    cases h with
    | nil => simp at hlen
    | cons hy h =>
      cases h with
      | nil => simp at hlen
      | cons hz h =>
        cases h with
        | nil => exact .intro hx hy hz hv
        | cons => simp at hlen

/-- An octal number is small unless it is high. -/
theorem ofDigits_octal_le_iff (hx : IsDigit 8 x v)
    (h : List.Forall₂ (IsDigit 8) ds vs) (hlen : ds.length ≤ 2) :
    Nat.ofDigits 8 (v :: vs).reverse ≤ 0xFF ↔
      ¬ HighOctal ('\\' :: x :: ds) := by
  have hv := hx.lt
  have hrest := ofDigits_lt_pow h
  rw [highOctal_iff hx h, ofDigits_reverse_cons h]
  have hcases : ds.length = 0 ∨ ds.length = 1 ∨ ds.length = 2 := by omega
  rcases hcases with hds | hds | hds <;> rw [hds] at hrest ⊢ <;> omega

-- ======================================================== one sequence

/-- A sequence stands for a small character unless it is a high octal number,
and goes up to U+01FF in any case. -/
theorem Stands.small_iff (h : Stands xs e) :
    e.toNat ≤ 0x1FF ∧ (IsSmall e ↔ ¬ HighOctal xs) := by
  have low {xs : List Char} (he : e.toNat ≤ 0xFF) (hxs : ¬ HighOctal xs) :
      e.toNat ≤ 0x1FF ∧ (IsSmall e ↔ ¬ HighOctal xs) :=
    ⟨Nat.le_trans he (by decide), iff_of_true he hxs⟩
  cases h with
  | sign hx =>
    have hsigns : ∀ s ∈ signs, s.2.toNat ≤ 0xFF := by decide
    exact low (hsigns _ hx) fun hhigh => nomatch hhigh
  | hex hx hy he =>
    have hhigh := hx.lt
    have hlow := hy.lt
    rw [(ofDigits_hex_lt hx hy).1] at he
    refine low (by omega) fun hoctal => ?_
    cases hoctal with
    | intro hx' => exact hx'.ne_sign.1 rfl
  | octal hne hlen hds he =>
    cases hds with
    | nil => exact absurd rfl hne
    | @cons _ v ds vs hx hds =>
      have hlt := ofDigits_octal_lt (.cons hx hds) hlen
      refine ⟨by omega, ?_⟩
      rw [← ofDigits_octal_le_iff hx hds (Nat.le_of_succ_le_succ hlen), ← he]
      rfl

/-- The sequences themselves are written with small characters. -/
theorem Stands.small (h : Stands xs e) : ∀ x ∈ xs, IsSmall x := by
  have digits
      {ds : List Char} {vs : List Nat} (h : List.Forall₂ (IsDigit 8) ds vs) :
      ∀ x ∈ ds, IsSmall x := by
    induction h with
    | nil => exact List.forall_mem_nil _
    | cons hx _ ih => exact List.forall_mem_cons.mpr ⟨hx.small (by decide), ih⟩
  have hslash : IsSmall '\\' := by decide
  cases h with
  | sign hx =>
    have hsigns : ∀ s ∈ signs, IsSmall s.1 := by decide
    exact List.forall_mem_cons.mpr
      ⟨hslash, List.forall_mem_singleton.mpr (hsigns _ hx)⟩
  | hex hx hy =>
    have hmark : IsSmall 'x' := by decide
    simp [hslash, hmark, hx.small, hy.small]
  | octal _ _ hds => exact List.forall_mem_cons.mpr ⟨hslash, digits hds⟩

-- ========================================================= whole texts

theorem IsSmallToken.isToken (h : IsSmallToken source xs) :
    IsToken source xs := by
  rcases h with ⟨x, hx, -, rfl⟩ | h
  · exact .inl ⟨x, hx, rfl⟩
  · exact .inr h

theorem IsSmallToken.small (h : IsSmallToken source xs) :
    ∀ x ∈ xs, IsSmall x := by
  rcases h with ⟨x, -, hx, rfl⟩ | h
  · exact List.forall_mem_singleton.mpr hx
  · obtain ⟨e, hstands⟩ := stands_of_parseTree h
    exact hstands.small

/-- A text of small characters is resolved to small ones unless a high octal
number is met. -/
theorem Resolves.small_iff (h : Resolves c text)
    (hc : ∀ x ∈ c.rest, IsSmall x) :
    (∀ e ∈ text, e.toNat ≤ 0x1FF) ∧ ∃ met, Encounters c met ∧
      ((∀ e ∈ text, IsSmall e) ↔ ∀ xs ∈ met, ¬ HighOctal xs) := by
  induction h with
  | done => exact ⟨List.forall_mem_nil _, [], .done, by simp⟩
  | @plain x xs p text hx _ ih =>
    obtain ⟨hsmall, hxs⟩ := List.forall_mem_cons.mp hc
    obtain ⟨hbound, met, hmet, hiff⟩ := ih hxs
    have hx' : x.toNat ≤ 0x1FF := Nat.le_trans hsmall (by decide)
    refine ⟨List.forall_mem_cons.mpr ⟨hx', hbound⟩, met, .plain hx hmet, ?_⟩
    rw [List.forall_mem_cons, ← hiff]
    exact and_iff_right hsmall
  | @sequence c d xs e text hstop ht hstands _ ih =>
    have hrest : ∀ x ∈ d.rest, IsSmall x := fun x hx =>
      hc x (ht.rest ▸ List.mem_append_right xs hx)
    obtain ⟨hbound, met, hmet, hiff⟩ := ih hrest
    obtain ⟨he, hsmall⟩ := hstands.small_iff
    refine ⟨List.forall_mem_cons.mpr ⟨he, hbound⟩, xs :: met,
      .sequence hstop ht hmet, ?_⟩
    rw [List.forall_mem_cons, List.forall_mem_cons, hsmall, hiff]

/-- A text that small characters and escape sequences make up is resolved. Its
characters go up to U+01FF, and they are small if and only if the sequences that
are met in it are no high octal numbers. Of single sequences all others stand
for small characters: those with two hexadecimal digits, with one or two octal
ones, with three that begin with 0 to 3, and the signs. -/
theorem code_points_bounded (source : String) :
    (∀ xs, (parseTree source .escape xs).Succeeds →
      ∃ e, unescape xs = some [e] ∧ e.toNat ≤ 0x1FF ∧
        (IsSmall e ↔ ¬ HighOctal xs)) ∧
    ∀ pieces : List (List Char), (∀ xs ∈ pieces, IsSmallToken source xs) →
      ∀ p : Point, ∃ text met,
        unescape pieces.flatten = some text ∧ (∀ e ∈ text, e.toNat ≤ 0x1FF) ∧
        Encounters ⟨pieces.flatten, p⟩ met ∧
        ((∀ e ∈ text, IsSmall e) ↔ ∀ xs ∈ met, ¬ HighOctal xs) := by
  constructor
  · intro xs h
    obtain ⟨e, hstands⟩ := stands_of_parseTree h
    obtain ⟨body, rfl⟩ := hstands.begins
    refine ⟨e, ?_, hstands.small_iff⟩
    rw [unescape_sequence hstands.escape?_eq, unescape.eq_1]
    rfl
  · intro pieces h p
    obtain ⟨text, htext⟩ :=
      (escaped_flatten fun xs hxs => (h xs hxs).isToken).resolves
    have hsmall : ∀ x ∈ pieces.flatten, IsSmall x := by
      intro x hx
      obtain ⟨xs, hxs, hmem⟩ := List.mem_flatten.mp hx
      exact (h xs hxs).small x hmem
    obtain ⟨hbound, met, hmet, hiff⟩ :=
      (resolves_of_unescape htext p).small_iff hsmall
    exact ⟨text, met, htext, hbound, hmet, hiff⟩

/-- Two sequences and a digit: behind the second one the digit is taken in as
well. -/
def straddlingPieces : List (List Char) :=
  [['é'], ['\\', 'x', 'f', 'f'], ['\\', '4', '0'], ['1']]

theorem straddlingPieces_small :
    ∀ xs ∈ straddlingPieces, IsSmallToken "t" xs := by
  have hfour : IsDigit 8 '4' 4 := by constructor <;> decide
  have hzero : IsDigit 8 '0' 0 := by constructor <;> decide
  have hf : IsDigit 16 'f' 15 := by constructor <;> decide
  have hhex : Stands ['\\', 'x', 'f', 'f'] 'ÿ' := .hex hf hf (by decide)
  have hoctal : Stands ['\\', '4', '0'] ' ' :=
    .octal (List.cons_ne_nil _ _) (by decide) (.cons hfour (.cons hzero .nil))
      (by decide)
  intro xs hxs
  simp only [straddlingPieces, List.mem_cons, List.not_mem_nil, or_false] at hxs
  rcases hxs with rfl | rfl | rfl | rfl
  · exact .inl ⟨_, by decide, by decide, rfl⟩
  · exact .inr (hhex.parses "t")
  · exact .inr (hoctal.parses "t")
  · exact .inl ⟨_, by decide, by decide, rfl⟩

theorem code_points_bounded_straddling :
    ∃ text met, unescape straddlingPieces.flatten = some text ∧
      text.map Char.toNat = [0xE9, 0xFF, 0x101] ∧
      Encounters ⟨straddlingPieces.flatten, .origin⟩ met ∧ ∃ xs ∈ met,
      HighOctal xs := by
  obtain ⟨text, met, htext, -, hmet, hiff⟩ :=
    (code_points_bounded "t").2 straddlingPieces straddlingPieces_small .origin
  have hvalue : (unescape straddlingPieces.flatten).map (List.map Char.toNat) =
      some [0xE9, 0xFF, 0x101] := by decide +kernel
  rw [htext, Option.map_some, Option.some.injEq] at hvalue
  refine ⟨text, met, htext, hvalue, hmet, ?_⟩
  by_contra hnone
  have hsmall := hiff.mpr fun xs hxs hhigh => hnone ⟨xs, hxs, hhigh⟩
  have hlast : 0x101 ∈ text.map Char.toNat := by
    rw [hvalue]
    decide
  obtain ⟨e, he, hplace⟩ := List.mem_map.mp hlast
  have hle : e.toNat ≤ 0xFF := hsmall e he
  omega

/-- So a text of small characters and escape sequences need not be resolved to
small ones. -/
theorem octal_beyond_small : ¬ ∀ pieces : List (List Char),
    (∀ xs ∈ pieces, IsSmallToken "t" xs) →
      ∃ text, unescape pieces.flatten = some text ∧ ∀ e ∈ text, IsSmall e := by
  intro hall
  have hfour : IsDigit 8 '4' 4 := by constructor <;> decide
  have hzero : IsDigit 8 '0' 0 := by constructor <;> decide
  have hoctal : Stands ['\\', '4', '0', '0'] 'Ā' :=
    .octal (List.cons_ne_nil _ _) (by decide)
      (.cons hfour (.cons hzero (.cons hzero .nil))) (by decide)
  obtain ⟨text, htext, hsmall⟩ := hall [['\\', '4', '0', '0']]
    (List.forall_mem_singleton.mpr (.inr (hoctal.parses "t")))
  have hvalue : unescape [['\\', '4', '0', '0']].flatten = some ['Ā'] := by
    decide +kernel
  rw [hvalue, Option.some.injEq] at htext
  have hplace : IsSmall 'Ā' := hsmall 'Ā' (htext ▸ List.mem_singleton_self 'Ā')
  exact absurd hplace (by decide)

end Jam
