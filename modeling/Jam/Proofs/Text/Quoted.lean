/-
What is written between quotes shows.

A text is clean if it has no control character, in particular no line
feed. Whatever a text consists of, it is clean when it is quoted
(`quoteString_clean`): a control character is spelled by its name or its
number, and the digits of the number are none.
-/
import Jam.Grammar.Productions
import Jam.Text.Quoted

namespace Jam

variable {c x mark : Char} {s t : List Char}

/-- There is no control character in a text. -/
def Clean (text : List Char) : Prop := ∀ c ∈ text, isControl c = false

instance (text : List Char) : Decidable (Clean text) :=
  decidable_of_iff (text.all (fun c => !isControl c) = true) (by simp [Clean])

theorem clean_append : Clean (s ++ t) ↔ Clean s ∧ Clean t :=
  List.forall_mem_append

theorem clean_cons : Clean (c :: s) ↔ isControl c = false ∧ Clean s :=
  List.forall_mem_cons

theorem clean_flatMap {α : Type} {f : α → List Char} {xs : List α}
    (h : ∀ x ∈ xs, Clean (f x)) : Clean (xs.flatMap f) := by
  intro c hc
  obtain ⟨x, hx, hc⟩ := List.mem_flatMap.mp hc
  exact h x hx c hc

theorem Clean.not_mem (h : Clean s) (hc : isControl c = true) : c ∉ s :=
  fun hm => Bool.false_ne_true ((h c hm).symm.trans hc)

theorem intercalate_clean {separator : String} {texts : List String}
    (hs : Clean separator.toList) (h : ∀ text ∈ texts, Clean text.toList) :
    Clean (separator.intercalate texts).toList := by
  induction texts with
  | nil => exact fun _ hc => absurd hc List.not_mem_nil
  | cons text texts ih =>
    obtain ⟨htext, htexts⟩ := List.forall_mem_cons.mp h
    cases texts with
    | nil => rwa [String.intercalate_singleton]
    | cons =>
      rw [String.intercalate_cons_cons, String.toList_append,
        String.toList_append]
      exact clean_append.mpr ⟨clean_append.mpr ⟨htext, hs⟩, ih htexts⟩

/-- The hexadecimal digits of a number are letters and digits. -/
theorem toDigits_clean (n : Nat) : Clean (Nat.toDigits 16 n) := by
  have hdigit : ∀ d < 16, isControl (Nat.digitChar d) = false := by decide
  induction n using Nat.strongRecOn with
  | ind n ih =>
    rw [Nat.toDigits_eq_if (by decide)]
    split
    · next hn => exact clean_cons.mpr ⟨hdigit n hn, by decide⟩
    · next hn =>
      have hd : Clean [Nat.digitChar (n % 16)] :=
        clean_cons.mpr ⟨hdigit _ (Nat.mod_lt n (by decide)), by decide⟩
      exact clean_append.mpr ⟨ih (n / 16) (by omega), hd⟩

/-- What shows is no control character. -/
theorem isControl_of_isShown (h : isShown x = true) : isControl x = false := by
  refine Bool.eq_false_iff.mpr fun hc => ?_
  rcases (Bool.or_eq_true _ _).mp hc with hc | hc
  · have hx : x.toNat ≤ 0x1f := of_decide_eq_true hc
    rw [isShown, if_pos (by omega), decide_eq_true_eq] at h
    omega
  · obtain rfl := eq_of_beq hc
    exact absurd h (by decide)

theorem spell_clean (hm : isControl mark = false) : Clean (spell mark x) := by
  have hshort {c : Char} (hc : isControl c = false) : Clean ['\\', c] :=
    clean_cons.mpr ⟨by decide, clean_cons.mpr ⟨hc, by decide⟩⟩
  unfold spell
  split
  · exact hshort (by decide)
  split
  · exact hshort (by decide)
  split
  · exact hshort (by decide)
  split
  · exact hshort (by decide)
  split
  · exact hshort (by decide)
  split
  · exact hshort hm
  split
  · next hx => exact clean_cons.mpr ⟨isControl_of_isShown hx, by decide⟩
  · have hopening : Clean ['\\', 'u', '\x7b'] := by decide
    exact clean_append.mpr
      ⟨hopening, clean_append.mpr ⟨toDigits_clean _, by decide⟩⟩

/-- Quoted texts are clean. -/
theorem quoteString_clean (text : String) :
    Clean (quoteString text).toList := by
  have hmark : isControl '"' = false := by decide
  rw [quoteString, quoteWith, String.toList_ofList, clean_cons, clean_append]
  exact ⟨hmark, clean_flatMap fun _ _ => spell_clean hmark, by decide⟩

end Jam
