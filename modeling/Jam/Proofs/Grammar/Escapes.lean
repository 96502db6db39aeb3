/-
Where escape sequences end.

The language of escape sequences is scanned twice, by the grammar to find
the end of a word, and by `escape?` to find out what its sequences stand
for. Both scanners go as far as they can, which matters for octal numbers
only: the grammar has two options where `octal` has a loop (`octal_two`).

So the grammar matches wherever `escape?` finds something
(`derives_of_escape?`), and nowhere else, as what it matches stands for a
character (`spells_stands`) and does so with anything behind it
(`Stands.found_behind`). Both are one equation (`stopOf?_escape`).
-/
import Jam.Proofs.Grammar.Sequences
import Jam.Proofs.Grammar.Tokens
import Jam.Grammar.Parse

namespace Jam

open Nonterminal

variable {m : Mode} {x e : Char} {v : Nat} {cs rest : List Char} {p : Point}

-- ================================================ what a scanner takes

/-- Two hexadecimal digits. -/
def hexForm : Peg Nonterminal :=
  Peg.lit "x" ++ Peg.one isHexDigit ++ Peg.one isHexDigit

/-- Up to three octal digits. -/
def octalForm : Peg Nonterminal :=
  Peg.one isOctalDigit ++ .opt (Peg.one isOctalDigit) ++
    .opt (Peg.one isOctalDigit)

/-- A further octal digit, if there is one. -/
theorem derives_further (cs : List Char) (p : Point) (v : Nat) :
    ∃ q, Derives grammar m (.opt (.one isOctalDigit)) ⟨cs, p⟩
      ⟨(octal v 1 cs).2, q⟩ [] := by
  rcases cs with _ | ⟨x, cs⟩
  · exact ⟨p, .without (Grammar.found_one_nil ..)⟩
  · rw [octal]
    cases hx : octalDigit? x with
    | none =>
      refine ⟨p, .without ?_⟩
      rw [Grammar.found_one_cons, isOctalDigit_eq, hx]
      rfl
    | some d =>
      refine ⟨p.after x, .with (.one ?_)⟩
      rw [isOctalDigit_eq, hx]
      rfl

/-- Two steps of one digit are one step of two. -/
theorem octal_two (v : Nat) (cs : List Char) :
    octal v 2 cs = octal (octal v 1 cs).1 1 (octal v 1 cs).2 := by
  rcases cs with _ | ⟨x, cs⟩
  · rfl
  · cases hx : octalDigit? x with
    | none => simp only [octal, hx]
    | some d => simp only [octal, hx]

theorem derives_octalForm (cs : List Char) (p : Point)
    (hx : octalDigit? x = some v) :
    ∃ q, Derives grammar m octalForm ⟨x :: cs, p⟩ ⟨(octal v 2 cs).2, q⟩ [] := by
  have hfirst : isOctalDigit x = true := by
    rw [isOctalDigit_eq, hx]
    rfl
  obtain ⟨q, hsecond⟩ := derives_further (m := m) cs (p.after x) v
  obtain ⟨q', hthird⟩ :=
    derives_further (m := m) (octal v 1 cs).2 q (octal v 1 cs).1
  rw [octal_two]
  exact ⟨q', .seq (.seq (.one hfirst) hsecond) hthird⟩

theorem found_octalForm_none (hx : octalDigit? x = none) :
    grammar.found m octalForm ⟨x :: cs, p⟩ = none := by
  refine found_none_of_leftmost ((Grammar.found_one_cons ..).trans ?_)
  rw [isOctalDigit_eq, hx]
  rfl

theorem found_hexForm_none (hx : x ≠ 'x') :
    grammar.found m hexForm ⟨x :: cs, p⟩ = none :=
  found_none_of_leftmost (found_sign.trans (if_neg hx))

theorem derives_escapedSigns (h : (x, e) ∈ signs) :
    Derives grammar m escapedSigns ⟨x :: cs, p⟩ ⟨cs, p.after x⟩ [] := by
  rw [derives_iff]
  change grammar.found m (.alt (.chars ['a'])
    (.alt (.chars ['b']) (.alt (.chars ['f']) (.alt (.chars ['n'])
      (.alt (.chars ['r']) (.alt (.chars ['t']) (.alt (.chars ['v'])
        (.alt (.chars ['\\']) (.alt (.chars ['\'']) (.chars ['"'])))))))))) _ =
    _
  have hx : x ∈ signs.map Prod.fst := List.mem_map_of_mem h
  simp only [signs, List.map_cons, List.map_nil, List.mem_cons,
    List.not_mem_nil, or_false] at hx
  simp only [Grammar.found_alt, found_sign]
  rcases hx with rfl | rfl | rfl | rfl | rfl | rfl | rfl | rfl | rfl | rfl <;>
      rfl

/-- A sign behind a backslash is neither of the other forms. -/
theorem derives_signed (h : (x, e) ∈ signs) :
    Derives grammar m (.alt hexForm (.alt octalForm escapedSigns)) ⟨x :: cs, p⟩
      ⟨cs, p.after x⟩ [] := by
  have hname := named?_eq_some_iff.mpr h
  have hoctal : octalDigit? x = none := by
    refine Option.eq_none_iff_forall_ne_some.mpr fun v hv => ?_
    rw [(octalDigit?_eq_some_iff.mp hv).ne_sign.2] at hname
    cases hname
  exact .right (found_hexForm_none (ne_of_mem_signs h))
    (.right (found_octalForm_none hoctal) (derives_escapedSigns h))

/-- Where a scanner finds an escape sequence, the grammar matches it. -/
theorem derives_of_escape? (h : escape? cs = some (e, rest)) :
    ∃ q, Derives grammar m (body .escape) ⟨'\\' :: cs, p⟩ ⟨rest, q⟩ [] := by
  have hslash :
      Derives grammar m (Peg.lit "\\") ⟨'\\' :: cs, p⟩ ⟨cs, p.after '\\'⟩ [] :=
    derives_sign rfl rfl
  suffices ∃ q, Derives grammar m (.alt hexForm (.alt octalForm escapedSigns))
      ⟨cs, p.after '\\'⟩ ⟨rest, q⟩ [] by
    obtain ⟨q, hq⟩ := this
    exact ⟨q, .seq hslash hq⟩
  rcases cs with _ | ⟨x, cs⟩
  · cases h
  · by_cases hx : x = 'x'
    · subst hx
      rcases cs with _ | ⟨x, _ | ⟨y, cs⟩⟩
      · cases h
      · cases h
      · obtain ⟨high, hhigh, h⟩ := Option.bind_eq_some_iff.mp h
        obtain ⟨low, hlow, h⟩ := Option.bind_eq_some_iff.mp h
        cases h
        have hx : isHexDigit x = true := by
          rw [isHexDigit_eq, hhigh, Option.isSome_some]
        have hy : isHexDigit y = true := by
          rw [isHexDigit_eq, hlow, Option.isSome_some]
        exact ⟨_,
          .left (.seq (.seq (derives_sign rfl rfl) (.one hx)) (.one hy))⟩
    · rw [escape?_of_ne hx] at h
      cases hname : named? x with
      | some e' =>
        rw [hname] at h
        cases h
        exact ⟨_, derives_signed (named?_eq_some_iff.mp hname)⟩
      | none =>
        rw [hname, Option.map_none, Option.none_or] at h
        obtain ⟨v, hv, h⟩ := Option.map_eq_some_iff.mp h
        cases h
        obtain ⟨q, hq⟩ := derives_octalForm (m := m) cs (p.after '\\') hv
        exact ⟨q, .right (found_hexForm_none hx) (.left hq)⟩

/-- The grammar matches an escape sequence where a scanner finds one, and up to
the same place. -/
theorem stopOf?_escape (cs : List Char) (p : Point) :
    (stopOf? .escape ⟨'\\' :: cs, p⟩).map (·.rest) =
      (escape? cs).map (·.2) := by
  change ((grammar.found .plain (nt .escape) ⟨'\\' :: cs, p⟩).map (·.stop)).map
    _ = _
  cases he : escape? cs with
  | some r =>
    obtain ⟨q, hq⟩ :=
      derives_of_escape? (m := grammar.bodyMode .escape .plain) (p := p) he
    have hnode :
        Derives grammar .plain (nt .escape) ⟨'\\' :: cs, p⟩ ⟨r.2, q⟩ _ :=
      .node (by decide) rfl hq
    rw [hnode.found]
    rfl
  | none =>
    rcases hf :
        grammar.found .plain (nt .escape) ⟨'\\' :: cs, p⟩ with _ | ⟨d, ns⟩
    · rfl
    · obtain ⟨taken, ht, e, hstands⟩ :=
        spells_stands _ _ _ (derives_of_found hf)
      obtain ⟨body, rfl⟩ := hstands.begins
      obtain ⟨r, hr⟩ := hstands.found_behind d.rest
      have hcs : cs = body ++ d.rest := (List.cons.inj ht.rest).2
      rw [hcs, hr] at he
      cases he

end Jam
