/-
Places and offsets tell the same.

Every character moves a point forward, to a later line or to a later
column of its line (`Point.place_lt_after`), so the points that a text is
cut at are ordered by line and column as they are by their offsets, and
no two of them have the same (`positions_identify`). What stands between
two such offsets, inside of a character, has the place of that character,
and what is behind the text has the place of its end.
-/
import Mathlib.Data.List.DropRight
import Mathlib.Data.Prod.Lex
import Jam.Proofs.Text.Offsets

namespace Jam

/-- What a text has on its last line. -/
def lastLine (cs : List Char) : List Char := cs.rtakeWhile (· != '\n')

namespace Point

variable {p : Point} {pre rest : List Char} {c : Char} {offset k : Nat}

-- ============================================================== places

/-- A line and a column of it, ordered by lines first. -/
def place (p : Point) : ℕ ×ₗ ℕ := toLex (p.line, p.column)

theorem place_lt_after (p : Point) (c : Char) :
    p.place < (p.after c).place := by
  rw [place, place, Prod.Lex.toLex_lt_toLex, after]
  split
  · exact .inl (Nat.lt_succ_self p.line)
  · exact .inr ⟨rfl, Nat.lt_succ_self p.column⟩

theorem place_le_afterAll (p : Point) (cs : List Char) :
    p.place ≤ (p.afterAll cs).place := by
  induction cs generalizing p with
  | nil => exact le_refl p.place
  | cons c cs ih => exact (place_lt_after p c).le.trans (ih (p.after c))

/-- A text that is not empty moves a point forward. -/
theorem place_lt_afterAll (p : Point) {cs : List Char} (hcs : cs ≠ []) :
    p.place < (p.afterAll cs).place := by
  obtain ⟨c, cs, rfl⟩ := List.exists_cons_of_ne_nil hcs
  exact (place_lt_after p c).trans_le (place_le_afterAll (p.after c) cs)

/-- The column counts the characters since the last line feed. -/
theorem column_afterAll (cs : List Char) :
    (origin.afterAll cs).column = 1 + (lastLine cs).length := by
  induction cs using List.reverseRecOn with
  | nil => rfl
  | append_singleton cs c ih =>
    rw [afterAll_append, afterAll_cons, afterAll_nil, after, lastLine]
    by_cases hc : c = '\n'
    · rw [if_pos hc, List.rtakeWhile_concat_neg _ _ _ (by simpa using hc)]
      rfl
    · rw [if_neg hc, List.rtakeWhile_concat_pos _ _ _ (by simpa using hc),
        List.length_append]
      exact congrArg Nat.succ ih

-- ============================================================= offsets

/-- On the way to an offset one comes past every text that ends before. -/
theorem advanceTo_append (p : Point) (pre rest : List Char)
    (hle : (p.afterAll pre).offset ≤ offset) :
    p.advanceTo offset (pre ++ rest) =
      (p.afterAll pre).advanceTo offset rest := by
  induction pre generalizing p with
  | nil => rfl
  | cons c pre ih =>
    have hc := (offset_le_afterAll (p.after c) pre).trans hle
    rw [offset_after] at hc
    rw [List.cons_append, advanceTo, if_pos hc, afterAll_cons]
    exact ih (p.after c) hle

/-- An offset inside of a character has the line and the column of that
character. -/
theorem ofOffset_inside (pre rest : List Char) (hk : k < c.utf8Size) :
    ofOffset (pre ++ c :: rest) ((origin.afterAll pre).offset + k) =
      { origin.afterAll pre with offset := (origin.afterAll
        pre).offset + k } := by
  have hend := offset_le_afterAll ((origin.afterAll pre).after c) rest
  rw [offset_after] at hend
  unfold ofOffset
  dsimp only
  rw [advanceTo_append _ _ _ (Nat.le_add_right ..), advanceTo, if_neg
    (by omega), afterAll_append, afterAll_cons, Nat.min_eq_left (by omega)]

/-- An offset behind a text is taken for its end. -/
theorem ofOffset_behind {text : List Char}
    (hle : (origin.afterAll text).offset ≤ offset) :
    ofOffset text offset = origin.afterAll text := by
  have hwalk := advanceTo_append origin text [] hle
  rw [List.append_nil] at hwalk
  unfold ofOffset
  dsimp only
  rw [hwalk, Nat.min_eq_right hle]
  rfl

theorem offset_origin_afterAll (cs : List Char) :
    (origin.afterAll cs).offset = (String.ofList cs).utf8ByteSize :=
  (offset_afterAll origin cs).trans (Nat.zero_add _)

/-- A string is cut in two at its valid positions. -/
theorem exists_append_of_isValid {text : String}
    (h : (⟨offset⟩ : String.Pos.Raw).IsValid text) :
    ∃ pre rest,
      text.toList = pre ++ rest ∧ offset = (origin.afterAll pre).offset := by
  obtain ⟨s, t, rfl, hoffset⟩ := String.Pos.Raw.isValid_iff_exists_append.mp h
  refine ⟨s.toList, t.toList, String.toList_append, ?_⟩
  rw [offset_origin_afterAll, String.ofList_toList]
  exact congrArg String.Pos.Raw.byteIdx hoffset

/-- Of two texts in front of the same text, the one with fewer bytes is in front
of the other. -/
theorem exists_append_of_offset_lt {pre' rest' : List Char}
    (heq : pre ++ rest = pre' ++ rest')
    (hlt : (p.afterAll pre).offset < (p.afterAll pre').offset) :
    ∃ more, more ≠ [] ∧ pre' = pre ++ more := by
  rcases List.append_eq_append_iff.mp heq with ⟨more, hpre, -⟩ | ⟨more, hpre, -⟩
  · refine ⟨more, ?_, hpre⟩
    rintro rfl
    rw [hpre, List.append_nil] at hlt
    exact absurd hlt (lt_irrefl _)
  · have hle := offset_le_afterAll (p.afterAll pre') more
    rw [← afterAll_append, ← hpre] at hle
    omega

/-- Later offsets that a string can be cut at are at later places. -/
theorem place_lt_of_lt {text : String} {a b : Nat}
    (ha : (⟨a⟩ : String.Pos.Raw).IsValid text)
    (hb : (⟨b⟩ : String.Pos.Raw).IsValid text) (hlt : a < b) :
    (ofOffset text.toList a).place < (ofOffset text.toList b).place := by
  obtain ⟨pre, rest, htext, rfl⟩ := exists_append_of_isValid ha
  obtain ⟨pre', rest', htext', rfl⟩ := exists_append_of_isValid hb
  obtain ⟨more, hmore, rfl⟩ :=
    exists_append_of_offset_lt (htext.symm.trans htext') hlt
  have hplace := place_lt_afterAll (origin.afterAll pre) hmore
  rw [← afterAll_append] at hplace
  rw [htext, ofOffset_afterAll, ← htext, htext', ofOffset_afterAll]
  exact hplace

/-- Among the offsets that a text can be cut at, later ones have later places,
and so no two have the same. The line of an offset counts the line feeds before
it, and the column the characters since the last of them, both from one. An
offset inside of a character has the line and column of this character, and one
behind the text is taken for the end of the text. -/
theorem positions_identify (text : String) :
    (∀ a b, (⟨a⟩ : String.Pos.Raw).IsValid text →
      (⟨b⟩ : String.Pos.Raw).IsValid text →
      (a < b →
        (ofOffset text.toList a).place < (ofOffset text.toList b).place) ∧
      ((ofOffset text.toList a).place = (ofOffset text.toList b).place →
        a = b)) ∧
    (∀ pre rest, text.toList = pre ++ rest →
      ofOffset text.toList (String.ofList pre).utf8ByteSize =
        ⟨(String.ofList pre).utf8ByteSize, 1 + pre.count '\n',
          1 + (lastLine pre).length⟩) ∧
    (∀ pre c rest k, text.toList = pre ++ c :: rest → k < c.utf8Size →
      ofOffset text.toList ((String.ofList pre).utf8ByteSize + k) =
        { ofOffset text.toList (String.ofList pre).utf8ByteSize with
          offset := (String.ofList pre).utf8ByteSize + k }) ∧
    ∀ offset, text.utf8ByteSize ≤ offset →
      ofOffset text.toList offset = ofOffset text.toList text.utf8ByteSize := by
  refine ⟨fun a b ha hb => ⟨place_lt_of_lt ha hb, fun hplace => ?_⟩, ?_, ?_, ?_⟩
  · rcases lt_trichotomy a b with hlt | heq | hlt
    · exact absurd hplace (place_lt_of_lt ha hb hlt).ne
    · exact heq
    · exact absurd hplace (place_lt_of_lt hb ha hlt).ne'
  · intro pre rest htext
    have hcolumn := column_afterAll pre
    have hline := line_afterAll origin pre
    rw [← offset_origin_afterAll, htext, ofOffset_afterAll, ← hcolumn]
    exact hline ▸ rfl
  · intro pre c rest k htext hk
    rw [← offset_origin_afterAll, htext, ofOffset_inside pre rest hk,
      ofOffset_afterAll]
  · intro offset hle
    have hsize : (origin.afterAll text.toList).offset = text.utf8ByteSize := by
      rw [offset_origin_afterAll, String.ofList_toList]
    rw [← hsize] at hle ⊢
    rw [ofOffset_behind hle, ofOffset_behind (le_refl _)]

/-- Across a line break, inside of the last character, and behind it. -/
theorem positions_identify_multibyte :
    (ofOffset "aé\nb€".toList 3).place < (ofOffset "aé\nb€".toList 4).place ∧
      ofOffset "aé\nb€".toList 5 = ⟨5, 2, 2⟩ ∧
      ofOffset "aé\nb€".toList 7 = ⟨7, 2, 2⟩ ∧
      ofOffset "aé\nb€".toList 9 = ofOffset "aé\nb€".toList 8 := by
  obtain ⟨hplaces, hcut, hinside, hbehind⟩ := positions_identify "aé\nb€"
  have hfirst : "aé\nb€".toList = ['a', 'é'] ++ ['\n', 'b', '€'] := rfl
  have hsecond : "aé\nb€".toList = ['a', 'é', '\n'] ++ ['b', '€'] := rfl
  have hlast := hcut ['a', 'é', '\n', 'b'] ['€'] rfl
  have hbyte := hinside ['a', 'é', '\n', 'b'] '€' [] 2 rfl (by decide)
  rw [hlast] at hbyte
  exact ⟨(hplaces 3 4 (isValid_afterAll hfirst) (isValid_afterAll hsecond)).1
    (by decide), hlast, hbyte, hbehind 9 (by decide)⟩

end Point

end Jam
