/-
What a subscript selects.

The text of a subscript is a numeral, or a numeral and a dash, or two
numerals with a dash between them (`Subscript.Denotes`). Numerals may be of
any length, and what they denote is a natural number without a bound. The
readings know greater numbers only as the greatest index there is, so what
is read of a subscript is not always what its text denotes. Nothing that a
subscript does shows this: it is refused for the numbers that it denotes,
and it selects the elements that it denotes (`subscript_selects`), as no
value has as many elements as that index says. Only the range of
positions for that very length shows it (`oversized_range`).

The elements from one index to another are told by their places, counted
from one as in the text (`Elements`). That the positions of a range count
from zero, and end before the second, does not occur in it.
-/
import Mathlib.Data.Nat.Digits.Defs
import Jam.Subscript

namespace Jam

-- ============================================================ numerals

/-- The value of a decimal digit. -/
def digitValue (c : Char) : Nat := c.toNat - '0'.toNat

/-- There are digits, and they denote the number in the decimal system. -/
structure Numeral (ds : List Char) (n : Nat) : Prop where
  nonempty : ds ≠ []
  digits : ∀ c ∈ ds, isDigit c = true
  value : n = Nat.ofDigits 10 (ds.reverse.map digitValue)

namespace Subscript

-- ================================================= forms of subscripts

/-- The text has the form of a subscript that starts at the index `a`, and ends
there, or with the last element, or at another index. -/
inductive Denotes : List Char → Nat → SubscriptEnd → Prop
  | single {ds a} : Numeral ds a → Denotes ds a .single
  | unbounded {ds a} : Numeral ds a → Denotes (ds ++ ['-']) a .unbounded
  | closed {ds es a b} :
      Numeral ds a → Numeral es b → Denotes (ds ++ '-' :: es) a (.closed b)

/-- The end of a subscript from the digits behind its dash. -/
inductive Ends : Option (List Char) → SubscriptEnd → Prop
  | single : Ends none .single
  | unbounded : Ends (some []) .unbounded
  | closed {es b} : Numeral es b → Ends (some es) (.closed b)

-- ============================================================= numbers

variable {text ds es r : List Char} {second : Option (List Char)} {a b : Nat}
  {stop : SubscriptEnd}

/-- The number of some digits is the one that they denote, the last of them
counting least. -/
theorem number_eq_ofDigits (ds : List Char) :
    number ds = Nat.ofDigits 10 (ds.reverse.map digitValue) := by
  have hdigit : (fun n d => 10 * n + (d.toNat - '0'.toNat)) = fun n d =>
      digitValue d + 10 * n :=
    funext₂ fun n d => Nat.add_comm (10 * n) (digitValue d)
  rw [number, Nat.ofDigits_eq_foldr, List.foldr_map, List.foldr_reverse, hdigit]
  rfl

theorem numeral_number (hne : ds ≠ []) (hds : ∀ c ∈ ds, isDigit c = true) :
    Numeral ds (number ds) := ⟨hne, hds, number_eq_ofDigits ds⟩

theorem index_eq (h : Numeral ds a) : index ds = min a maxIndex := by
  rw [index, number_eq_ofDigits, ← h.value]

-- =========================================================== splitting

/-- Digits end where something else follows. -/
theorem takeWhile_digits (hds : ∀ c ∈ ds, isDigit c = true)
    (hr : ∀ c ∈ r.head?, isDigit c = false) :
    (ds ++ r).takeWhile isDigit = ds ∧ (ds ++ r).dropWhile isDigit = r := by
  rw [List.takeWhile_append_of_pos hds, List.dropWhile_append_of_pos hds]
  cases r with
  | nil => exact ⟨List.append_nil ds, rfl⟩
  | cons c r =>
    rw [List.takeWhile_cons, List.dropWhile_cons, hr c rfl]
    exact ⟨List.append_nil ds, rfl⟩

/-- A numeral and nothing behind it. -/
theorem split?_numeral (h : Numeral ds a) : split? ds = some (ds, none) := by
  obtain ⟨htake, hdrop⟩ := takeWhile_digits (r := []) h.digits (by rintro _ ⟨⟩)
  rw [List.append_nil] at htake hdrop
  unfold split?
  dsimp only
  rw [htake, hdrop, List.isEmpty_eq_false_iff.mpr h.nonempty]
  rfl

/-- A numeral and a dash, with digits behind it. -/
theorem split?_dash (h : Numeral ds a) (hes : ∀ c ∈ es, isDigit c = true) :
    split? (ds ++ '-' :: es) = some (ds, some es) := by
  have hdash : ∀ c ∈ ('-' :: es).head?, isDigit c = false := by
    rintro _ ⟨⟩
    rfl
  obtain ⟨htake, hdrop⟩ := takeWhile_digits h.digits hdash
  unfold split?
  dsimp only
  rw [htake, hdrop, List.isEmpty_eq_false_iff.mpr h.nonempty,
    if_neg Bool.false_ne_true]
  have hsecond : '-' = '-' ∧ es.all isDigit = true :=
    ⟨rfl, List.all_eq_true.mpr hes⟩
  exact if_pos hsecond

/-- A text of the form of a subscript is split into the numerals it is made
of. -/
theorem split?_of_denotes (h : Denotes text a stop) :
    ∃ first second, split? text = some (first, second) ∧ Numeral first a ∧
      Ends second stop := by
  cases h with
  | single h => exact ⟨_, _, split?_numeral h, h, .single⟩
  | unbounded h =>
    exact ⟨_, _, split?_dash h (List.forall_mem_nil _), h, .unbounded⟩
  | closed h h' => exact ⟨_, _, split?_dash h h'.digits, h, .closed h'⟩

/-- Only texts of the form of a subscript are split. -/
theorem denotes_of_split? {first : List Char}
    (h : split? text = some (first, second)) :
    ∃ a stop, Denotes text a stop := by
  have hall : ∀ c ∈ text.takeWhile isDigit, isDigit c = true :=
    List.all_eq_true.mp List.all_takeWhile
  have htext := List.takeWhile_append_dropWhile (p := isDigit) (l := text)
  unfold split? at h
  dsimp only at h
  split at h
  · cases h
  · next hne =>
    have hfirst :=
      numeral_number (fun heq => hne (List.isEmpty_iff.mpr heq)) hall
    cases hdrop : text.dropWhile isDigit with
    | nil =>
      rw [hdrop, List.append_nil] at htext
      rw [← htext]
      exact ⟨_, _, .single hfirst⟩
    | cons c es =>
      rw [hdrop] at h htext
      dsimp only at h
      split at h
      · next hdash =>
        obtain ⟨rfl, hes⟩ := hdash
        rw [← htext]
        cases es with
        | nil => exact ⟨_, _, .unbounded hfirst⟩
        | cons e es =>
          have hlast :=
            numeral_number (List.cons_ne_nil e es) (List.all_eq_true.mp hes)
          exact ⟨_, _, .closed hfirst hlast⟩
      · cases h

-- ======================================================== what is read

/-- What is read of the end of a subscript. -/
def saturated : SubscriptEnd → SubscriptEnd
  | .single => .single
  | .unbounded => .unbounded
  | .closed b => .closed (min b maxIndex)

theorem saturated_eq_closed_zero :
    saturated stop = .closed 0 ↔ stop = .closed 0 := by
  cases stop with
  | single | unbounded => exact Iff.rfl
  | closed b => simp [saturated, maxIndex]

/-- A text that has not the form of a subscript is refused for that. -/
theorem parse_of_not_denotes {text : String}
    (h : ¬ ∃ a stop, Denotes text.toList a stop) :
    parse text = .error (.malformed text) := by
  unfold parse
  split
  · rfl
  · next hsplit => exact absurd (denotes_of_split? hsplit) h

/-- One that has is refused for an index 0, and otherwise read with its indices
up to the greatest. -/
theorem parse_of_denotes {text : String} (h : Denotes text.toList a stop) :
    parse text =
      if a = 0 then .error (.zeroIndex text)
      else if stop = .closed 0 then .error (.reversed text)
      else .ok ⟨min a maxIndex, saturated stop⟩ := by
  obtain ⟨first, second, hsplit, hfirst, hends⟩ := split?_of_denotes h
  have hzero : min a maxIndex = 0 ↔ a = 0 := by
    have : maxIndex = 0xffff_ffff_ffff_ffff := rfl
    omega
  have reads (last : SubscriptEnd) (hlast : last = saturated stop) :
      (if index first = 0 then throw (.zeroIndex text)
        else if last = .closed 0 then throw (.reversed text)
        else return ⟨index first, last⟩ : Except SubscriptError Subscript) =
      if a = 0 then .error (.zeroIndex text)
      else if stop = .closed 0 then .error (.reversed text)
      else .ok ⟨min a maxIndex, saturated stop⟩ := by
    rw [hlast, index_eq hfirst]
    simp only [hzero, saturated_eq_closed_zero]
    rfl
  unfold parse
  rw [hsplit]
  cases hends with
  | single => exact reads .single rfl
  | unbounded => exact reads .unbounded rfl
  | @closed es b hes =>
    obtain ⟨e, es, rfl⟩ := List.exists_cons_of_ne_nil hes.nonempty
    exact reads (.closed (index (e :: es)))
      (congrArg SubscriptEnd.closed (index_eq hes))

theorem parse_eq_malformed {text t : String} :
    parse text = .error (.malformed t) ↔
      t = text ∧ ¬ ∃ a stop, Denotes text.toList a stop := by
  constructor
  · intro h
    by_cases hd : ∃ a stop, Denotes text.toList a stop
    · obtain ⟨a, stop, hd⟩ := hd
      rw [parse_of_denotes hd] at h
      split at h
      · cases h
      · split at h <;> cases h
    · rw [parse_of_not_denotes hd] at h
      cases h
      exact ⟨rfl, hd⟩
  · rintro ⟨rfl, hd⟩
    exact parse_of_not_denotes hd

-- ==================================================== what is selected

/-- The index of the last element, in a value of `length` elements. -/
def lastIndex (a length : Nat) : SubscriptEnd → Nat
  | .single => a
  | .unbounded => length
  | .closed b => b

/-- The positions from the first index to the last, if there are elements at all
of them. -/
theorem range_eq (s : Subscript) (length : Nat) :
    s.range length =
      if s.start ≤ lastIndex s.start length s.stop ∧
        lastIndex s.start length s.stop ≤ length then
        some (s.start - 1, lastIndex s.start length s.stop)
      else none := by
  have hrange : s.range length =
      if length < s.start ∨ length < lastIndex s.start length s.stop ∨
          lastIndex s.start length s.stop < s.start then none
      else some (s.start - 1, lastIndex s.start length s.stop) := by
    obtain ⟨start, _ | _ | _⟩ := s <;> rfl
  rw [hrange]
  by_cases h : s.start ≤ lastIndex s.start length s.stop ∧
    lastIndex s.start length s.stop ≤ length
  · rw [if_pos h, if_neg (by omega)]
  · rw [if_neg h, if_pos (by omega)]

/-- In a value that is shorter than the greatest index says, it makes no
difference whether an index is greater. -/
theorem range_of_saturated {length : Nat} (hlength : length < maxIndex) :
    range ⟨min a maxIndex, saturated stop⟩ length =
      if a ≤ lastIndex a length stop ∧ lastIndex a length stop ≤ length then
        some (a - 1, lastIndex a length stop)
      else none := by
  rw [range_eq]
  dsimp only
  by_cases h : a ≤ lastIndex a length stop ∧ lastIndex a length stop ≤ length
  · have hstart : min a maxIndex = a := by omega
    have hstop : saturated stop = stop := by
      cases stop with
      | single | unbounded => rfl
      | closed b =>
        have hb : b ≤ length := h.2
        exact congrArg SubscriptEnd.closed (Nat.min_eq_left (by omega))
    rw [hstart, hstop]
  · rw [if_neg h, if_neg]
    cases stop <;> simp only [lastIndex, saturated] at h ⊢ <;> omega

/-- The elements of `v` from the index `first` to the index `last`, counted from
one. -/
structure Elements (v : Value) (first last : Nat) (w : Value) : Prop where
  length_eq : w.length + first = last + 1
  get : ∀ k, first ≤ k → k ≤ last → w[k - first]? = v[k - 1]?

/-- From a position that counts from zero up to one that it does not reach. -/
theorem elements_take_drop {v : Value} {last : Nat} (ha : 0 < a)
    (hle : a ≤ last) (hlast : last ≤ v.length) :
    Elements v a last ((v.take last).drop (a - 1)) where
  length_eq := by
    rw [List.length_drop, List.length_take]
    omega
  get k hk hk' := by
    rw [List.getElem?_drop, List.getElem?_take_of_lt (by omega)]
    congr 1
    omega

/-- A subscript selects the elements from its first index to the last. -/
theorem select_of_saturated {v : Value} (ha : 0 < a)
    (hlength : v.length < maxIndex)
    (h : a ≤ lastIndex a v.length stop ∧ lastIndex a v.length stop ≤ v.length) :
    ∃ w, select ⟨min a maxIndex, saturated stop⟩ v = some w ∧
      Elements v a (lastIndex a v.length stop) w := by
  refine ⟨_, ?_, elements_take_drop ha h.1 h.2⟩
  rw [select, range_of_saturated hlength, if_pos h]
  rfl

/-- It selects nothing of a value in which they are not. -/
theorem select_of_saturated_eq_none {v : Value} (hlength : v.length < maxIndex)
    (h : ¬ (a ≤ lastIndex a v.length stop ∧
      lastIndex a v.length stop ≤ v.length)) :
    select ⟨min a maxIndex, saturated stop⟩ v = none := by
  rw [select, range_of_saturated hlength, if_neg h]
  rfl

/-- Positions in a range are positions in the value. -/
theorem range_inside {s : Subscript} (hs : 0 < s.start)
    {length first last : Nat} (h : s.range length = some (first, last)) :
    first < last ∧ last ≤ length := by
  rw [range_eq] at h
  split at h
  · cases h
    omega
  · cases h

/-- What a subscript is refused for, and what it selects, are told by the
natural numbers that its text denotes, be they ever so great. It is malformed if
its text has not the form of one; else it is refused for starting at 0, or else
for ending at 0. If it is not refused then it selects the elements from the one
index to the other of every value that a machine can hold, if they are all there
and there are any, and never comes to positions outside of a value. -/
theorem subscript_selects (text : String) :
    (parse text = .error (.malformed text) ↔
      ¬ ∃ a stop, Denotes text.toList a stop) ∧
    ∀ a stop, Denotes text.toList a stop →
      (parse text = .error (.zeroIndex text) ↔ a = 0) ∧
      (parse text = .error (.reversed text) ↔ 0 < a ∧ stop = .closed 0) ∧
      ((∃ s, parse text = .ok s) ↔ 0 < a ∧ stop ≠ .closed 0) ∧
      ∀ s, parse text = .ok s →
        (∀ v : Value, v.length < 0x8000_0000_0000_0000 →
          let last := lastIndex a v.length stop
          (a ≤ last ∧ last ≤ v.length →
            ∃ w, s.select v = some w ∧ Elements v a last w) ∧
          (¬ (a ≤ last ∧ last ≤ v.length) → s.select v = none)) ∧
        ∀ length first last, s.range length = some (first, last) →
          0 < s.start ∧ first < last ∧ last ≤ length := by
  constructor
  · exact parse_eq_malformed.trans (and_iff_right rfl)
  · intro a stop hd
    rw [parse_of_denotes hd]
    by_cases ha : a = 0
    · simp [ha]
    · by_cases hstop : stop = .closed 0
      · simp [ha, hstop, Nat.pos_of_ne_zero ha]
      · rw [if_neg ha, if_neg hstop]
        have ha := Nat.pos_of_ne_zero ha
        refine ⟨by simp; omega, by simp [hstop], by simp [ha, hstop], ?_⟩
        rintro _ ⟨⟩
        refine ⟨fun v hv => ?_, fun length first last h => ?_⟩
        · have hlength : v.length < maxIndex := Nat.lt_trans hv (by decide)
          exact ⟨select_of_saturated ha hlength,
            select_of_saturated_eq_none hlength⟩
        · have hs : 0 < min a maxIndex := Nat.lt_min.mpr ⟨ha, by decide⟩
          exact ⟨hs, range_inside hs h⟩

/-- Zeros in front count for nothing, and an index that 64 bits do not hold is
behind the end of every value. -/
theorem subscript_selects_padded :
    (Denotes "02-3".toList 2 (.closed 3) ∧ ∃ s, parse "02-3" = .ok s ∧
      ∃ w, s.select ["a", "b", "c"] = some w ∧ Elements ["a", "b", "c"] 2 3 w) ∧
    Denotes "1-18446744073709551616".toList 1
      (.closed 0x1_0000_0000_0000_0000) ∧
      ∃ s, parse "1-18446744073709551616" = .ok s ∧ s.select ["a"] = none := by
  have numeral (ds : List Char) (n : Nat) (hne : ds ≠ [])
      (hds : ds.all isDigit = true) (hn : number ds = n) : Numeral ds n :=
    hn ▸ numeral_number hne (List.all_eq_true.mp hds)
  have hsmall : Denotes "02-3".toList 2 (.closed 3) :=
    .closed (numeral ['0', '2'] 2 (by decide) rfl rfl)
      (numeral ['3'] 3 (by decide) rfl rfl)
  have hgreat : Denotes "1-18446744073709551616".toList 1
      (.closed 0x1_0000_0000_0000_0000) :=
    .closed (numeral ['1'] 1 (by decide) rfl rfl)
      (numeral "18446744073709551616".toList _ (by decide) rfl (by decide))
  obtain ⟨-, -, hok, hselects⟩ := (subscript_selects "02-3").2 _ _ hsmall
  obtain ⟨-, -, hok', hselects'⟩ :=
    (subscript_selects "1-18446744073709551616").2 _ _ hgreat
  obtain ⟨s, hs⟩ := hok.mpr ⟨by decide, by decide⟩
  obtain ⟨s', hs'⟩ := hok'.mpr ⟨by decide, by decide⟩
  exact ⟨⟨hsmall, s, hs,
    ((hselects s hs).1 ["a", "b", "c"] (by decide)).1 (by decide)⟩,
    hgreat, s', hs', ((hselects' s' hs').1 ["a"] (by decide)).2 (by decide)⟩

-- =================================== numbers beyond the greatest index

/-- An index of the subscript is greater than those that are told from greater
ones. -/
def Oversized (a : Nat) (stop : SubscriptEnd) : Prop :=
  maxIndex < a ∨ ∃ b, stop = .closed b ∧ maxIndex < b

/-- There are no elements at such an index. -/
theorem Oversized.not_inside {length : Nat} (h : Oversized a stop)
    (hlength : length ≤ maxIndex) :
    ¬ (a ≤ lastIndex a length stop ∧ lastIndex a length stop ≤ length) := by
  rintro ⟨hfirst, hlast⟩
  rcases h with ha | ⟨b, rfl, hb⟩
  · omega
  · have hb' : b ≤ length := hlast
    omega

/-- The end of the subscript is not an index before the greatest one. -/
def ReachesEnd (stop : SubscriptEnd) : Prop :=
  ∀ b, stop = .closed b → maxIndex ≤ b

/-- Of the greatest length, the index that a subscript is taken to end with is
the last one, wherever its end is taken for the greatest index. -/
theorem Oversized.lastIndex_saturated (h : Oversized a stop)
    (hstop : ReachesEnd stop) :
    lastIndex (min a maxIndex) maxIndex (saturated stop) = maxIndex := by
  cases stop with
  | single =>
    rcases h with ha | ⟨b, hb, -⟩
    · exact Nat.min_eq_right ha.le
    · cases hb
  | unbounded => rfl
  | closed b => exact Nat.min_eq_right (hstop b rfl)

/-- So it is in range there. -/
theorem Oversized.range_maxIndex (h : Oversized a stop)
    (hstop : ReachesEnd stop) :
    range ⟨min a maxIndex, saturated stop⟩ maxIndex =
      some (min a maxIndex - 1, maxIndex) := by
  rw [range_eq]
  dsimp only
  rw [h.lastIndex_saturated hstop]
  exact if_pos ⟨Nat.min_le_right a maxIndex, Nat.le_refl maxIndex⟩

/-- With an end before the greatest index it is the start that is too great, and
the end is before the start also in what is read. -/
theorem Oversized.range_maxIndex_eq_none {b : Nat} (h : Oversized a (.closed b))
    (hb : b < maxIndex) :
    range ⟨min a maxIndex, .closed (min b maxIndex)⟩ maxIndex = none := by
  have ha : maxIndex < a := by
    rcases h with ha | ⟨b', heq, hb'⟩
    · exact ha
    · cases heq
      omega
  rw [range_eq]
  refine if_neg fun hinside => ?_
  have hfirst : min a maxIndex ≤ min b maxIndex := hinside.1
  omega

/-- A subscript with an index greater than those that are told apart is out of
range for every length but the greatest. For that one it is out of range if it
ends at a smaller index; otherwise it is taken to end with the last element. -/
theorem oversized_range (text : String) (hd : Denotes text.toList a stop)
    (s : Subscript) (hs : parse text = .ok s) (hbig : Oversized a stop) :
    (∀ length < maxIndex, s.range length = none) ∧
    ((∃ b, stop = .closed b ∧ b < maxIndex) → s.range maxIndex = none) ∧
    (ReachesEnd stop →
      s.range maxIndex = some (min a maxIndex - 1, maxIndex)) := by
  rw [parse_of_denotes hd] at hs
  split at hs
  · cases hs
  · split at hs
    · cases hs
    · cases hs
      refine ⟨fun length hlength => ?_, ?_, hbig.range_maxIndex⟩
      · rw [range_of_saturated hlength, if_neg (hbig.not_inside hlength.le)]
      · rintro ⟨b, rfl, hb⟩
        exact hbig.range_maxIndex_eq_none hb

/-- The least number that 64 bits do not hold. -/
def beyondText : String := "18446744073709551616"

theorem beyondText_denotes :
    Denotes beyondText.toList 0x1_0000_0000_0000_0000 .single := by
  have hdigits : beyondText.toList.all isDigit = true := by decide
  have hnumber : number beyondText.toList = 0x1_0000_0000_0000_0000 := by decide
  exact .single
    (hnumber ▸ numeral_number (by decide) (List.all_eq_true.mp hdigits))

theorem beyondText_parses : parse beyondText = .ok ⟨maxIndex, .single⟩ := by
  rw [parse_of_denotes beyondText_denotes, if_neg (by decide),
    if_neg (by decide)]
  rfl

theorem beyondText_range :
    ∃ s, parse beyondText = .ok s ∧ s.range 5 = none ∧
      s.range maxIndex = some (0xffff_ffff_ffff_fffe, maxIndex) := by
  obtain ⟨hshort, -, hgreatest⟩ :=
    oversized_range beyondText beyondText_denotes _ beyondText_parses
      (.inl (by decide))
  exact ⟨_, beyondText_parses, hshort 5 (by decide), hgreatest (by rintro _ ⟨⟩)⟩

/-- So an index that is too great is not out of range for every length that
there is. -/
theorem oversized_in_range :
    ¬ ∀ text a stop s, Denotes (String.toList text) a stop →
      parse text = .ok s → Oversized a stop →
      ∀ length ≤ maxIndex, s.range length = none := by
  intro hall
  have hnone := hall beyondText _ _ _ beyondText_denotes beyondText_parses
    (.inl (by decide)) maxIndex (Nat.le_refl maxIndex)
  exact absurd hnone (by decide)

end Subscript

end Jam
