/-
Escape sequences in the words of a program.

A backslash begins an escape sequence, which stands for one character: a
named one, the code point given by two hexadecimal digits after an `x`,
or the code point given by one to three octal digits. Numeric escapes
name code points, not bytes. Octal digits are taken greedily, so where a
sequence ends depends only on what follows the backslash (`escape?`).

`unescape` resolves all sequences of a text from left to right. It has no
answer when a backslash begins none.
-/
namespace Jam

-- ============================================================== digits

/-- The value of a hexadecimal digit of either case. -/
def hexDigit? (c : Char) : Option Nat :=
  if '0' ≤ c ∧ c ≤ '9' then some (c.toNat - '0'.toNat)
  else if 'a' ≤ c ∧ c ≤ 'f' then some (c.toNat - 'a'.toNat + 10)
  else if 'A' ≤ c ∧ c ≤ 'F' then some (c.toNat - 'A'.toNat + 10)
  else none

/-- The value of an octal digit. -/
def octalDigit? (c : Char) : Option Nat :=
  if '0' ≤ c ∧ c ≤ '7' then some (c.toNat - '0'.toNat) else none

/-- Continue the octal number `value` over at most `digits` more digits. -/
def octal (value : Nat) : Nat → List Char → Nat × List Char
  | digits + 1, c :: cs =>
    match octalDigit? c with
    | some d => octal (value * 8 + d) digits cs
    | none => (value, c :: cs)
  | _, cs => (value, cs)

-- =========================================================== sequences

/-- The characters that an escaped letter or mark stands for. -/
def named? : Char → Option Char
  | 'a' => some '\x07'
  | 'b' => some '\x08'
  | 'f' => some '\x0c'
  | 'n' => some '\n'
  | 'r' => some '\r'
  | 't' => some '\t'
  | 'v' => some '\x0b'
  | '\\' => some '\\'
  | '\'' => some '\''
  | '"' => some '"'
  | _ => none

/-- The character that the escape sequence behind a backslash stands for,
and the text behind the sequence. -/
def escape? : List Char → Option (Char × List Char)
  | [] => none
  | 'x' :: cs =>
    match cs with
    | high :: low :: rest => do
      let h ← hexDigit? high
      let l ← hexDigit? low
      return (Char.ofNat (h * 16 + l), rest)
    | _ => none
  | c :: cs =>
    match named? c, octalDigit? c with
    | some e, _ => some (e, cs)
    | none, some d =>
      let (value, rest) := octal d 2 cs
      some (Char.ofNat value, rest)
    | none, none => none

theorem length_octal_le (value n : Nat) (cs : List Char) :
    (octal value n cs).2.length ≤ cs.length := by
  fun_induction octal value n cs with
  | case1 => simp only [List.length_cons]; omega
  | case2 => exact Nat.le_refl _
  | case3 => exact Nat.le_refl _

theorem length_escape?_lt {cs rest : List Char} {c : Char}
    (h : escape? cs = some (c, rest)) : rest.length < cs.length := by
  fun_cases escape? cs with
  | case1 => simp [escape?] at h
  | case2 high low r =>
    simp only [escape?, Option.bind_eq_bind, Option.bind_eq_some_iff,
      Option.pure_def, Option.some.injEq, Prod.mk.injEq] at h
    obtain ⟨_, _, _, _, _, rfl⟩ := h
    simp only [List.length_cons]; omega
  | case3 => simp_all [escape?]
  | case4 => simp_all [escape?]
  | case5 c cs _ d ho hn value r heq =>
    have := length_octal_le d 2 cs
    simp_all only [escape?, Option.some.injEq, Prod.mk.injEq, List.length_cons]
    omega
  | case6 => simp_all [escape?]

/-- The text with every escape sequence resolved. -/
def unescape : List Char → Option (List Char)
  | [] => some []
  | '\\' :: cs =>
    match h : escape? cs with
    | some (c, rest) =>
      have := length_escape?_lt h
      (unescape rest).map (c :: ·)
    | none => none
  | c :: cs => (unescape cs).map (c :: ·)
termination_by cs => cs.length
decreasing_by all_goals (simp only [List.length_cons]; omega)

end Jam
