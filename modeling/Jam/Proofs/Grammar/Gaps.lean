/-
What the productions make of blanks and comments.

Where a production permits blanks it takes all that there are: a match of
them leads behind the lead of the text (`found_blanks`), and there is one
if the lead is not empty. Between words of aligned texts the leads of both
texts are taken, so the next words are aligned again (`Loosely.blanks`).

At the end of a text one text may have blanks and the other none. This is
the one place where two matches need not be in step.
-/
import Jam.Proofs.Grammar.Alignment

namespace Jam

open Nonterminal

-- ================================================= blanks and comments

/-- The place behind the blanks and comments that come next. -/
def Cursor.next (c : Cursor) : Cursor :=
  ⟨strip false c.rest, c.point.afterAll (lead false c.rest)⟩

theorem Cursor.takes_next (c : Cursor) : c.Takes (lead false c.rest) c.next :=
  ⟨(lead_append_strip false c.rest).symm, rfl⟩

variable {m : Mode} {x : Char} {xs : List Char} {p : Point}

theorem found_sign {c : Char} :
    grammar.found m (.chars [c]) ⟨x :: xs, p⟩ =
      if x = c then some ⟨⟨xs, p.after x⟩, []⟩ else none := by
  rw [Grammar.found_chars, Cursor.skip?]
  by_cases h : x = c
  · rw [if_pos h.symm, if_pos h]
    rfl
  · rw [if_neg (Ne.symm h), if_neg h]
    rfl

theorem found_blank :
    grammar.found m (nt .blank) ⟨x :: xs, p⟩ =
      if isBlank x then some ⟨⟨xs, p.after x⟩, []⟩ else none := by
  rw [nt, Grammar.found_silent _ _ _ rfl]
  change grammar.found m (.alt (.chars [' ']) (.alt (.chars ['\t'])
    (.alt (.chars ['\r']) (.chars ['\n'])))) _ = _
  simp only [Grammar.found_alt, found_sign, isBlank, Bool.or_eq_true,
    beq_iff_eq]
  split_ifs <;> simp_all

theorem found_lineEnd :
    grammar.found m (Peg.lit "\r" <|> Peg.lit "\n") ⟨x :: xs, p⟩ =
      if endsLine x then some ⟨⟨xs, p.after x⟩, []⟩ else none := by
  change grammar.found m (.alt (.chars ['\r']) (.chars ['\n'])) _ = _
  simp only [Grammar.found_alt, found_sign, endsLine, Bool.or_eq_true,
    beq_iff_eq]
  split_ifs <;> simp_all

/-- A comment goes to the end of the line. -/
theorem found_commentText :
    grammar.found m (.many (anyBut (Peg.lit "\r" <|> Peg.lit "\n"))) ⟨xs, p⟩ =
      some ⟨⟨xs.dropWhile (!endsLine ·),
        p.afterAll (xs.takeWhile (!endsLine ·))⟩, []⟩ := by
  induction xs generalizing p with
  | nil => exact found_many_none (found_end rfl rfl)
  | cons x xs ih =>
    have hx : grammar.found m
        (anyBut (Peg.lit "\r" <|> Peg.lit "\n")) ⟨x :: xs, p⟩ =
        if endsLine x then none else some ⟨⟨xs, p.after x⟩, []⟩ := by
      rw [found_anyBut, found_lineEnd]
      cases endsLine x <;> rfl
    rw [List.dropWhile_cons, List.takeWhile_cons]
    cases he : endsLine x with
    | true =>
      rw [he, if_pos rfl] at hx
      exact found_many_none hx
    | false =>
      rw [he, if_neg Bool.false_ne_true] at hx
      rw [found_many_some hx rfl, ih]
      rfl

theorem found_comment :
    grammar.found m (nt .comment) ⟨x :: xs, p⟩ =
      if x = '#' then
        some ⟨⟨xs.dropWhile (!endsLine ·),
          (p.after x).afterAll (xs.takeWhile (!endsLine ·))⟩, []⟩
      else none := by
  rw [nt, Grammar.found_silent _ _ _ rfl]
  change grammar.found m (.seq (.chars ['#']) _) _ = _
  rw [Grammar.found_seq, found_sign]
  split
  · rw [Option.bind_some, found_commentText]
    rfl
  · rfl

/-- One blank, or one comment. -/
theorem found_blankOrComment (x : Char) (xs : List Char) (p : Point) :
    grammar.found m (nt .blank <|> nt .comment) ⟨x :: xs, p⟩ =
      if isInner x then none
      else if x = '#' then
        some ⟨⟨xs.dropWhile (!endsLine ·),
          (p.after x).afterAll (xs.takeWhile (!endsLine ·))⟩, []⟩
      else some ⟨⟨xs, p.after x⟩, []⟩ := by
  change grammar.found m (.alt (nt .blank) (nt .comment)) _ = _
  rw [Grammar.found_alt, found_blank, found_comment, isInner]
  by_cases hs : x = '#'
  · subst hs
    rfl
  · cases hb : isBlank x <;> simp [hs]

/-- Blanks and comments are taken as long as there are any. -/
theorem found_blankRun (c : Cursor) :
    grammar.found m (.many (nt .blank <|> nt .comment)) c =
      some ⟨c.next, []⟩ := by
  induction hn : c.rest.length using Nat.strongRecOn generalizing c with
  | ind n ih =>
    subst hn
    obtain ⟨xs, p⟩ := c
    cases xs with
    | nil => exact found_many_none (found_end rfl rfl)
    | cons x xs =>
      have hx := found_blankOrComment (m := m) x xs p
      -- Behind one blank or comment the run goes on.
      have goOn {d : Cursor}
          (hd : grammar.found m (nt .blank <|> nt .comment) ⟨x :: xs, p⟩ =
            some ⟨d, []⟩) (hnext : d.next = Cursor.next ⟨x :: xs, p⟩) :
          grammar.found m (.many (nt .blank <|> nt .comment)) ⟨x :: xs, p⟩ =
          some ⟨Cursor.next ⟨x :: xs, p⟩, []⟩ := by
        rw [found_many_some hd rfl, ih _ (length_behind hd rfl) d rfl, hnext]
        rfl
      split at hx
      · next hin =>
        rw [found_many_none hx, Cursor.next, strip_of_inner hin,
          lead_of_inner hin]
        rfl
      · next hin =>
        have hs : strip false (x :: xs) = strip (x == '#') xs := by
          rw [strip, if_neg Bool.false_ne_true, if_neg hin]
        have hl : lead false (x :: xs) = x :: lead (x == '#') xs := by
          rw [lead, if_neg Bool.false_ne_true, if_neg hin]
        split at hx
        · next hsign =>
          subst hsign
          refine goOn hx ?_
          rw [Cursor.next, Cursor.next, hs, hl, beq_self_eq_true, strip_comment,
            lead_comment, Point.afterAll_cons, Point.afterAll_append]
        · next hsign =>
          refine goOn hx ?_
          rw [Cursor.next, Cursor.next, hs, hl, beq_eq_false_iff_ne.mpr hsign]
          rfl

/-- Blanks are found where there is a lead. -/
theorem found_blanks {c : Cursor} : grammar.found m (nt .blanks) c =
    if lead false c.rest = [] then none else some ⟨c.next, []⟩ := by
  obtain ⟨xs, p⟩ := c
  rw [nt, Grammar.found_silent _ _ _ rfl]
  change grammar.found m (.seq (nt .blank <|> nt .comment)
    (.many (nt .blank <|> nt .comment))) _ = _
  rw [Grammar.found_seq]
  cases xs with
  | nil =>
    rw [found_end rfl rfl]
    rfl
  | cons x xs =>
    have hx := found_blankOrComment (m := m) x xs p
    by_cases hin : isInner x = true
    · rw [if_pos hin] at hx
      rw [hx, lead_of_inner hin]
      rfl
    · have hlead : lead false (x :: xs) ≠ [] := by
        rw [lead, if_neg Bool.false_ne_true, if_neg hin]
        exact List.cons_ne_nil _ _
      obtain ⟨f, hf⟩ : ∃ f,
          grammar.found m (nt .blank <|> nt .comment) ⟨x :: xs, p⟩ =
          some f := by
        rw [if_neg hin] at hx
        split at hx <;> exact ⟨_, hx⟩
      rw [if_neg hlead, hf]
      exact (found_many_some hf rfl).symm.trans (found_blankRun _)

theorem next_of_lead_nil {c : Cursor} (h : lead false c.rest = []) :
    c.next = c := by
  have hs := lead_append_strip false c.rest
  rw [h, List.nil_append] at hs
  rw [Cursor.next, hs, h]
  rfl

theorem next_next (c : Cursor) : c.next.next = c.next := by
  refine next_of_lead_nil ?_
  have h := lead_append_strip false (strip false c.rest)
  rw [strip_strip] at h
  exact List.append_left_eq_self.mp h

theorem found_opt_blanks {c : Cursor} :
    grammar.found m (.opt (nt .blanks)) c = some ⟨c.next, []⟩ := by
  rw [Grammar.found_opt, found_blanks]
  split
  · next h => rw [next_of_lead_nil h, Option.getD_none]
  · rfl

theorem derives_blanks {c d : Cursor} {ns : List (Tree Nonterminal)} :
    Derives grammar m (nt .blanks) c d ns ↔
      lead false c.rest ≠ [] ∧ d = c.next ∧ ns = [] := by
  rw [derives_iff, found_blanks]
  split <;> simp_all [eq_comm]

/-- A word ends at a blank and at the end of the text. -/
theorem found_boundary {c : Cursor} :
    grammar.found m (nt .boundary) c = if bounded c.rest then some ⟨c, []⟩
      else none := by
  obtain ⟨xs, p⟩ := c
  rw [nt, Grammar.found_silent _ _ _ rfl]
  change grammar.found m (.ahead (.alt (nt .blank) (nt .endOfInput))) _ = _
  rw [Grammar.found_ahead, Grammar.found_alt, nt, nt,
    Grammar.found_call grammar _ _ (r := .endOfInput) (by decide)]
  change Option.map _ (Option.or _ (Option.map _ (grammar.found _ .finish _))) =
    _
  rw [Grammar.found_finish, ← nt]
  cases xs with
  | nil =>
    rw [found_end rfl rfl]
    rfl
  | cons x xs =>
    rw [found_blank, bounded]
    cases isBlank x <;> rfl

-- ========================================== gaps between aligned words

variable {v : Comparison} {K : Cursor → Cursor → Prop} {n : Nat}

/-- Where a word ends there is a lead, unless the text ends. -/
theorem lead_eq_nil_iff (h : bounded xs = true) :
    lead false xs = [] ↔ xs = [] := by
  cases xs with
  | nil => exact ⟨fun _ => rfl, fun _ => rfl⟩
  | cons x xs =>
    rw [lead, if_neg Bool.false_ne_true, not_inner_of_blank h,
      if_neg Bool.false_ne_true]
    simp

/-- Where a word ends all blanks are taken, if there are any. -/
theorem found_blanks_of_bounded (h : bounded xs = true) :
    grammar.found m (nt .blanks) ⟨xs, p⟩ =
      if xs = [] then none else some ⟨Cursor.next ⟨xs, p⟩, []⟩ := by
  rw [found_blanks]
  by_cases hx : xs = []
  · rw [if_pos ((lead_eq_nil_iff h).mpr hx), if_pos hx]
  · rw [if_neg (hx ∘ (lead_eq_nil_iff h).mp), if_neg hx]

/-- Where there are blanks a word has ended. -/
theorem bounded_of_lead {ys : List Char} (h : v.Word xs ys)
    (hl : lead false xs ≠ []) : bounded xs = true := by
  cases h with
  | inside hin => exact absurd (lead_of_inner hin) hl
  | pause hx => exact hx

/-- Where nothing but blanks is left a word has ended. -/
theorem bounded_of_strip {ys : List Char} (h : v.Word xs ys)
    (hs : strip false xs = []) : bounded xs = true := by
  cases h with
  | inside hin =>
    rw [strip_of_inner hin] at hs
    cases hs
  | pause hx => exact hx

/-- Behind the blanks that follow a word the next one begins. -/
theorem gap_of_bounded {ys : List Char} (h : v.Word xs ys)
    (hb : bounded xs = true) :
    bounded ys = true ∧ v.gaps (lead false xs) (lead false ys) ∧
      v.Gap (strip false xs) (strip false ys) := by
  cases h with
  | inside hin =>
    rw [not_bounded_of_inner hin] at hb
    cases hb
  | pause _ hy hgap hg => exact ⟨hy, hgap, hg⟩

/-- Inside of a word there are no blanks. -/
theorem found_blanks_of_inner (h : isInner x = true) :
    grammar.found m (nt .blanks) ⟨x :: xs, p⟩ = none := by
  rw [found_blanks, if_pos (lead_of_inner h)]

/-- Behind a word blanks lead to the next word. At the end of the text they need
not be there. -/
theorem Loosely.blanks :
    Loosely grammar v.view v.Level n v.Word v.Gap (nt .blanks) := by
  intro m c c' _ hk hw
  obtain ⟨xs, p⟩ := c
  obtain ⟨ys, p'⟩ := c'
  dsimp only at hw
  cases hw with
  | inside hin =>
    rw [found_blanks_of_inner hin, found_blanks_of_inner hin]
    exact .inl .none
  | pause hx hy hgap hg =>
    have spent : ∀ {zs : List Char} {q : Point}, bounded zs = true →
        strip false zs = [] → Spent (grammar.found m (nt .blanks) ⟨zs, q⟩) := by
      intro zs q hb hz f hf
      rw [found_blanks_of_bounded hb] at hf
      split at hf
      · cases hf
      · cases hf
        exact hz
    by_cases hxs : xs = []
    · subst hxs
      exact .inr ⟨spent hx rfl, spent hy (hg.nil_iff.mp rfl)⟩
    · by_cases hys : ys = []
      · subst hys
        exact .inr ⟨spent hx (hg.nil_iff.mpr rfl), spent hy rfl⟩
      · rw [found_blanks_of_bounded hx, found_blanks_of_bounded hy, if_neg hxs,
          if_neg hys]
        exact .inl (.some ⟨v.afterAll hgap hk, hg, .nil⟩)

namespace Lockstep

/-- Blanks that may be left out. -/
theorem opt_blanks :
    Lockstep grammar v.view v.Level n v.Word v.Along (.opt (nt .blanks)) := by
  intro m c c' _ hk hw
  rw [found_opt_blanks, found_opt_blanks]
  obtain ⟨xs, p⟩ := c
  obtain ⟨ys, p'⟩ := c'
  dsimp only at hw
  cases hw with
  | inside hin hw =>
    rw [next_of_lead_nil (lead_of_inner hin),
      next_of_lead_nil (lead_of_inner hin)]
    exact .some ⟨hk, .inr (.inside hin hw), .nil⟩
  | pause hx hy hgap hg => exact .some ⟨v.afterAll hgap hk, .inl hg, .nil⟩

theorem boundary :
    Lockstep grammar v.view K n v.Word v.Word (nt .boundary) := by
  intro m c c' _ hk hw
  rw [found_boundary, found_boundary, hw.bounded_eq]
  split
  · exact .some ⟨hk, hw, .nil⟩
  · exact .none

-- =============================================================== marks

/-- The marks of the language. -/
theorem marks (hK : Steady v.view K) :
    Lockstep grammar v.view K n v.Fresh v.Word marks := by
  have mark {text : String} {c : Char}
      {cs : List Char} (ht : text.toList = c :: cs)
      (hc : c ≠ '"') (hcs : cs.all (!isBlank ·) = true) :
      Lockstep grammar v.view K n v.Fresh v.Word (Peg.lit text) :=
    .lit_of_advances hK ht (.fresh (beq_eq_false_iff_ne.mpr hc.symm)) hcs
  exact .alt (mark rfl (by decide) rfl) <| .alt (mark rfl (by decide) rfl) <|
    .alt (mark rfl (by decide) rfl) <| .alt (mark rfl (by decide) rfl) <|
    .alt (mark rfl (by decide) rfl) <| .alt (mark rfl (by decide) rfl) <|
    .alt (mark rfl (by decide) rfl) <| .alt (mark rfl (by decide) rfl) <|
    .alt (mark rfl (by decide) rfl) <| .alt (mark rfl (by decide) rfl) <|
    .alt (mark rfl (by decide) rfl) <| .alt (mark rfl (by decide) rfl) <|
    .alt (mark rfl (by decide) rfl) <| .alt (mark rfl (by decide) rfl) <|
    .alt (mark rfl (by decide) rfl) <| .alt (mark rfl (by decide) rfl) <|
    mark rfl (by decide) rfl

end Lockstep

theorem found_marks_of_stop (h : isStop x = true) :
    grammar.found m marks ⟨x :: xs, p⟩ = some ⟨⟨xs, p.after x⟩, []⟩ := by
  change grammar.found m (.alt (.chars [';']) (.alt (.chars [':'])
    (.alt (.chars ['\x7b']) (.alt (.chars ['\x7d']) _)))) _ = _
  simp only [isStop, Bool.or_eq_true, beq_iff_eq] at h
  simp only [Grammar.found_alt, found_sign]
  rcases h with (rfl | rfl) | rfl <;> rfl

/-- A stop mark that stands alone is no word of a list. -/
theorem found_operator_of_stop (h : isStop x = true) (hb : bounded xs = true) :
    grammar.found m (nt .operator) ⟨x :: xs, p⟩ =
      some ⟨⟨xs, p.after x⟩, []⟩ := by
  rw [nt, Grammar.found_silent _ _ _ rfl]
  change grammar.found m (.seq marks (nt .boundary)) _ = _
  rw [Grammar.found_seq, found_marks_of_stop h, Option.bind_some,
    found_boundary, if_pos hb]
  rfl

/-- A mark that stands alone. -/
theorem Lockstep.operator (hK : Steady v.view K) :
    Lockstep grammar v.view K n v.Fresh v.Word (nt .operator) :=
  .call hK rfl ((marks hK).seq boundary)

/-- A word that is no mark is not the last mark of a comparison either. -/
theorem Lockstep.notOperator (hK : Steady v.view K) :
    Lockstep grammar v.view K n v.Gap v.Fresh (.notAhead (nt .operator)) := by
  refine .notAhead fun m c c' hk hg => ?_
  by_cases hcut : v.AtCut c.rest c'.rest
  · obtain ⟨xs, p⟩ := c
    obtain ⟨ys, p'⟩ := c'
    obtain ⟨x, us, ws, rfl, rfl, hc⟩ := hcut
    obtain ⟨-, hs, hu, hw⟩ := v.cut_stop hc
    rw [found_operator_of_stop hs hu, found_operator_of_stop hs hw]
    exact ⟨rfl, nofun⟩
  · have h := operator hK m c c' (Nat.lt_succ_self _) hk ⟨hg, hcut⟩
    exact ⟨h.isSome_eq, fun _ => ⟨hg, hcut⟩⟩

end Jam
