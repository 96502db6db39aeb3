/-
Texts whose escape sequences can be resolved.

`Escaped` builds texts from characters that stand for themselves and from
escape sequences, in the order of the text. It does not ask for sequences
to be as long as they can be: a digit behind an octal sequence may be a
character of its own, although `unescape` counts it to the sequence. This
makes no difference to whether there is an answer, as what is left behind
a longer sequence is `Escaped` again (`Escaped.after_octal`).

So `unescape` has an answer for every such text (`Escaped.resolves`), by
induction on how it goes along the text and not on how the text was built.
-/
import Jam.Text.Escape

namespace Jam

/-- Characters that stand for themselves, and escape sequences. -/
inductive Escaped : List Char → Prop
  | nil : Escaped []
  | plain {c cs} : c ≠ '\\' → Escaped cs → Escaped (c :: cs)
  | hex {high low cs} :
      (hexDigit? high).isSome → (hexDigit? low).isSome → Escaped cs →
      Escaped ('\\' :: 'x' :: high :: low :: cs)
  | digit {d cs} :
      (octalDigit? d).isSome → Escaped cs → Escaped ('\\' :: d :: cs)
  | named {c cs} : (named? c).isSome → Escaped cs → Escaped ('\\' :: c :: cs)

namespace Escaped

variable {cs ds : List Char}

theorem append (h : Escaped cs) (h' : Escaped ds) : Escaped (cs ++ ds) := by
  induction h with
  | nil => exact h'
  | plain hc _ ih => exact .plain hc ih
  | hex hh hl _ ih => exact .hex hh hl ih
  | digit hd _ ih => exact .digit hd ih
  | named hc _ ih => exact .named hc ih

/-- The character behind a sign or sequence, if it is not a backslash, can be
taken away. -/
theorem of_cons {c : Char} (h : Escaped (c :: cs)) (hc : c ≠ '\\') :
    Escaped cs := by
  cases h with
  | plain _ h => exact h
  | hex | digit | named => exact absurd rfl hc

theorem ne_backslash_of_octalDigit? {c : Char} (h : (octalDigit? c).isSome) :
    c ≠ '\\' := by
  rintro rfl
  exact absurd h (by decide)

/-- What an octal sequence leaves of a text. -/
theorem after_octal (h : Escaped cs) (value n : Nat) :
    Escaped (octal value n cs).2 := by
  fun_induction octal value n cs with
  | case1 value n c cs d hd ih =>
    exact ih (h.of_cons (ne_backslash_of_octalDigit? (by rw [hd]; rfl)))
  | case2 => exact h
  | case3 => exact h

/-- Behind a backslash stands an escape sequence. -/
theorem sequence (h : Escaped ('\\' :: cs)) :
    ∃ c rest, escape? cs = some (c, rest) ∧ Escaped rest := by
  cases h with
  | plain hc => exact absurd rfl hc
  | @hex high low rest hh hl hr =>
    obtain ⟨i, hi⟩ := Option.isSome_iff_exists.mp hh
    obtain ⟨j, hj⟩ := Option.isSome_iff_exists.mp hl
    exact ⟨Char.ofNat (i * 16 + j), rest, by simp [escape?, hi, hj], hr⟩
  | @digit d rest hd hr =>
    unfold escape?
    split
    · next heq => cases heq
    · next heq =>
      cases heq
      exact absurd hd (by decide)
    · next heq =>
      cases heq
      split
      · exact ⟨_, _, rfl, hr⟩
      · exact ⟨_, _, rfl, hr.after_octal _ _⟩
      · next hn =>
        rw [hn] at hd
        cases hd
  | @named c rest hc hr =>
    unfold escape?
    split
    · next heq => cases heq
    · next heq =>
      cases heq
      exact absurd hc (by decide)
    · next heq =>
      cases heq
      split
      · exact ⟨_, _, rfl, hr⟩
      · next hn _ =>
        rw [hn] at hc
        cases hc
      · next hn _ =>
        rw [hn] at hc
        cases hc

/-- The escape sequences of such a text can be resolved. -/
theorem resolves (h : Escaped cs) : ∃ text, unescape cs = some text := by
  fun_induction unescape cs with
  | case1 => exact ⟨[], rfl⟩
  | case2 cs c rest he _ ih =>
    obtain ⟨c', rest', he', hr⟩ := h.sequence
    obtain ⟨rfl, rfl⟩ : c = c' ∧ rest = rest' := by simpa [he] using he'
    obtain ⟨text, ht⟩ := ih hr
    exact ⟨c :: text, by rw [ht]; rfl⟩
  | case3 cs he =>
    obtain ⟨_, _, he', _⟩ := h.sequence
    rw [he] at he'
    cases he'
  | case4 c cs hc ih =>
    obtain ⟨text, ht⟩ := ih (h.of_cons hc)
    exact ⟨c :: text, by rw [ht]; rfl⟩

end Escaped

theorem unescape_plain {x : Char} {cs : List Char} (hx : x ≠ '\\') :
    unescape (x :: cs) = (unescape cs).map (x :: ·) := by
  rw [unescape]
  exact fun heq => absurd heq hx

theorem unescape_sequence {e : Char} {cs rest : List Char}
    (h : escape? cs = some (e, rest)) :
    unescape ('\\' :: cs) = (unescape rest).map (e :: ·) := by
  rw [unescape]
  split
  · next heq =>
    rw [h] at heq
    cases heq
    rfl
  · next heq =>
    rw [h] at heq
    cases heq

/-- Escape sequences do not vanish: only the empty text is resolved to it. -/
theorem unescape_ne_nil {cs text : List Char} (hc : cs ≠ [])
    (h : unescape cs = some text) : text ≠ [] := by
  unfold unescape at h
  split at h
  · exact absurd rfl hc
  · split at h
    · obtain ⟨_, -, rfl⟩ := Option.map_eq_some_iff.mp h
      exact List.cons_ne_nil _ _
    · cases h
  · obtain ⟨_, -, rfl⟩ := Option.map_eq_some_iff.mp h
    exact List.cons_ne_nil _ _

end Jam
