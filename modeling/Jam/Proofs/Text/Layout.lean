/-
The layout of a text: blanks, comments, words and quoted strings.

Words are separated by blanks and comments and by nothing else. A comment
begins with a hash sign and a string in quotes with a quote, but only where
a word could begin; in a word both are characters like any other. What a
character means is therefore told by what stands before it. A `Phase` is
as much of that as matters, and `Phase.next` goes from one character to
the next.

The productions do not keep a hash sign apart from a word in front of it:
where they permit blanks they permit a comment, also directly behind a
word. A text in which that cannot happen, because each hash sign outside of
quotes and comments has a blank before it, is `tidy`.

The blanks and comments at the beginning of a text are its `lead`, and
`strip` is what remains.
-/

namespace Jam

-- ========================================================== characters

/-- A character that separates words. -/
def isBlank (c : Char) : Bool := c == ' ' || c == '\t' || c == '\r' || c == '\n'

/-- A character that ends a line, and a comment with it. -/
def endsLine (c : Char) : Bool := c == '\r' || c == '\n'

/-- A character of a word that can be nothing else. -/
def isInner (c : Char) : Bool := !isBlank c && c != '#'

/-- Nothing follows, or a blank. -/
def bounded : List Char → Bool
  | [] => true
  | c :: _ => isBlank c

theorem isBlank_of_endsLine {c : Char} (h : endsLine c = true) :
    isBlank c = true := by
  simp only [endsLine, isBlank, Bool.or_eq_true] at h ⊢
  rcases h with h | h
  · exact .inl (.inr h)
  · exact .inr h

theorem not_inner_of_blank {c : Char} (h : isBlank c = true) :
    isInner c = false := by
  rw [isInner, h]
  rfl

/-- A blank begins no comment. -/
theorem beq_hash_of_blank {c : Char} (h : isBlank c = true) :
    (c == '#') = false := by
  rw [beq_eq_false_iff_ne]
  rintro rfl
  cases h

theorem not_bounded_of_inner {c : Char} {cs : List Char}
    (h : isInner c = true) : bounded (c :: cs) = false := by
  rw [isInner, Bool.and_eq_true, Bool.not_eq_true'] at h
  exact h.1

/-- Whether a text is bounded is told by its first character. -/
theorem bounded_append_cons (xs : List Char) (y : Char) (ys zs : List Char) :
    bounded (xs ++ y :: ys) = bounded (xs ++ y :: zs) := by
  cases xs <;> rfl

-- ============================================================== phases

/-- What the characters before a place have begun. -/
inductive Phase
  /-- Nothing: a word can begin. -/
  | gap
  | comment
  | word
  /-- A string in quotes. -/
  | quoted
  /-- A string in quotes, directly behind a backslash. -/
  | escape
deriving DecidableEq, Repr

/-- The phase behind a character. -/
def Phase.next : Phase → Char → Phase
  | .gap, c =>
    if isBlank c then .gap else if c = '#' then .comment
      else if c = '"' then .quoted else .word
  | .comment, c => if endsLine c then .gap else .comment
  | .word, c => if isBlank c then .gap else .word
  | .quoted, c =>
    if c = '"' then .word else if c = '\\' then .escape else .quoted
  | .escape, _ => .quoted

/-- The phase behind a text. -/
def Phase.after (φ : Phase) (cs : List Char) : Phase := cs.foldl next φ

/-- No word has a hash sign behind its first character. -/
def tidy : Phase → List Char → Bool
  | _, [] => true
  | φ, c :: cs => !(φ == .word && c == '#') && tidy (φ.next c) cs

theorem tidy_append (φ : Phase) (cs ds : List Char) :
    tidy φ (cs ++ ds) = (tidy φ cs && tidy (φ.after cs) ds) := by
  induction cs generalizing φ with
  | nil => rfl
  | cons c cs ih =>
    rw [List.cons_append, tidy, tidy, ih, Bool.and_assoc]
    rfl

theorem tidy_of_append {φ : Phase} {cs ds : List Char}
    (h : tidy φ (cs ++ ds) = true) : tidy φ cs = true := by
  rw [tidy_append, Bool.and_eq_true] at h
  exact h.1

-- ============================================= the beginning of a text

/-- The blanks and comments that a text begins with; `inside` says whether a
comment has begun already. -/
def lead : Bool → List Char → List Char
  | _, [] => []
  | inside, c :: cs =>
    if inside then c :: lead (!endsLine c) cs
    else if isInner c then [] else c :: lead (c == '#') cs

/-- What is left of a text behind the blanks and comments that it begins
with. -/
def strip : Bool → List Char → List Char
  | _, [] => []
  | inside, c :: cs =>
    if inside then strip (!endsLine c) cs
    else if isInner c then c :: cs else strip (c == '#') cs

variable {inside : Bool} {c : Char} {cs : List Char}

theorem lead_append_strip (inside : Bool) (cs : List Char) :
    lead inside cs ++ strip inside cs = cs := by
  induction cs generalizing inside with
  | nil => rfl
  | cons c cs ih =>
    unfold lead strip
    split
    · rw [List.cons_append, ih]
    · split
      · rfl
      · rw [List.cons_append, ih]

theorem length_strip_le (inside : Bool) (cs : List Char) :
    (strip inside cs).length ≤ cs.length := by
  have h := congrArg List.length (lead_append_strip inside cs)
  rw [List.length_append] at h
  omega

/-- Behind blanks and comments a word begins. -/
theorem isInner_of_strip {ds : List Char} (h : strip inside cs = c :: ds) :
    isInner c = true := by
  induction cs generalizing inside with
  | nil => cases h
  | cons d cs ih =>
    unfold strip at h
    split at h
    · exact ih h
    · split at h
      · next hd =>
        cases h
        exact hd
      · exact ih h

/-- There are no further blanks. -/
theorem strip_strip (cs : List Char) :
    strip false (strip inside cs) = strip inside cs := by
  cases h : strip inside cs with
  | nil => rfl
  | cons c ds =>
    rw [strip, if_neg Bool.false_ne_true, if_pos (isInner_of_strip h)]

theorem lead_of_inner (h : isInner c = true) : lead false (c :: cs) = [] := by
  rw [lead, if_neg Bool.false_ne_true, if_pos h]

theorem strip_of_inner (h : isInner c = true) :
    strip false (c :: cs) = c :: cs := by
  rw [strip, if_neg Bool.false_ne_true, if_pos h]

/-- The blanks and comments in front of a word do not depend on the word. -/
theorem lead_append {d e : Char} {ds es : List Char}
    (h : strip inside cs = d :: ds) (he : isInner e = true) :
    lead inside (lead inside cs ++ e :: es) = lead inside cs ∧
      strip inside (lead inside cs ++ e :: es) = e :: es := by
  induction cs generalizing inside with
  | nil => cases h
  | cons c cs ih =>
    unfold strip at h
    rw [lead]
    split at h
    · next hin =>
      obtain ⟨hl, hs⟩ := ih h
      simp only [hin, if_true, List.cons_append]
      exact ⟨by rw [lead, if_pos rfl, hl], by rw [strip, if_pos rfl, hs]⟩
    · next hin =>
      obtain rfl : inside = false := by simpa using hin
      rw [if_neg Bool.false_ne_true]
      split at h
      · next hc =>
        rw [if_pos hc]
        exact ⟨lead_of_inner he, strip_of_inner he⟩
      · next hc =>
        obtain ⟨hl, hs⟩ := ih h
        rw [if_neg hc, List.cons_append]
        exact ⟨by rw [lead, if_neg Bool.false_ne_true, if_neg hc, hl],
          by rw [strip, if_neg Bool.false_ne_true, if_neg hc, hs]⟩

/-- A comment goes on to the end of the line. -/
theorem strip_comment (cs : List Char) :
    strip true cs = strip false (cs.dropWhile (!endsLine ·)) := by
  induction cs with
  | nil => rfl
  | cons c cs ih =>
    rw [strip, if_pos rfl, List.dropWhile_cons]
    cases hc : endsLine c with
    | false => exact ih
    | true =>
      have hb := isBlank_of_endsLine hc
      rw [Bool.not_true, if_neg Bool.false_ne_true,
        strip, if_neg Bool.false_ne_true,
        not_inner_of_blank hb, if_neg Bool.false_ne_true, beq_hash_of_blank hb]

theorem lead_comment (cs : List Char) :
    lead true cs = cs.takeWhile (!endsLine ·) ++
      lead false (cs.dropWhile (!endsLine ·)) := by
  have h := lead_append_strip true cs
  have h' := lead_append_strip false (cs.dropWhile (!endsLine ·))
  rw [strip_comment] at h
  refine List.append_cancel_right (h.trans ?_)
  rw [List.append_assoc, h', List.takeWhile_append_dropWhile]

-- ====================================================== without blanks

/-- A text without any of its blanks and comments; `inside` says whether a
comment has begun already. -/
def unspaced : Bool → List Char → List Char
  | _, [] => []
  | inside, c :: cs =>
    if inside then unspaced (!endsLine c) cs
    else if isInner c then c :: unspaced false cs else unspaced (c == '#') cs

theorem unspaced_of_inner (h : isInner c = true) :
    unspaced false (c :: cs) = c :: unspaced false cs := by
  rw [unspaced, if_neg Bool.false_ne_true, if_pos h]

theorem unspaced_of_blank (h : isBlank c = true) :
    unspaced false (c :: cs) = unspaced false cs := by
  rw [unspaced, if_neg Bool.false_ne_true, not_inner_of_blank h,
    if_neg Bool.false_ne_true, beq_hash_of_blank h]

theorem unspaced_hash : unspaced false ('#' :: cs) = unspaced true cs := by
  rw [unspaced, if_neg Bool.false_ne_true, if_neg (by decide), beq_self_eq_true]

theorem unspaced_comment (cs : List Char) :
    unspaced true cs = unspaced false (cs.dropWhile (!endsLine ·)) := by
  induction cs with
  | nil => rfl
  | cons c cs ih =>
    rw [unspaced, if_pos rfl, List.dropWhile_cons]
    cases hc : endsLine c with
    | false => exact ih
    | true =>
      rw [Bool.not_true, if_neg Bool.false_ne_true,
        unspaced_of_blank (isBlank_of_endsLine hc)]

theorem unspaced_append {xs ys : List Char} (h : ∀ x ∈ xs, isInner x = true) :
    unspaced false (xs ++ ys) = xs ++ unspaced false ys := by
  induction xs with
  | nil => rfl
  | cons x xs ih =>
    obtain ⟨hx, hxs⟩ := List.forall_mem_cons.mp h
    rw [List.cons_append, unspaced_of_inner hx, ih hxs, List.cons_append]

-- ========================================================== tidy texts

/-- Blanks and comments are always tidy. -/
theorem tidy_strip (inside : Bool) (cs : List Char) :
    tidy .gap (strip inside cs) =
      tidy (if inside then .comment else .gap) cs := by
  induction cs generalizing inside with
  | nil => cases inside <;> rfl
  | cons c cs ih =>
    cases inside with
    | true =>
      rw [strip, if_pos rfl, if_pos rfl, ih, tidy, Phase.next]
      cases endsLine c <;> rfl
    | false =>
      rw [strip, if_neg Bool.false_ne_true, if_neg Bool.false_ne_true]
      split
      · rfl
      · next hc =>
        rw [ih, tidy, Phase.next]
        simp only [isInner, Bool.and_eq_true, Bool.not_eq_true', bne_iff_ne,
          ne_eq, not_and, Decidable.not_not] at hc
        by_cases hb : isBlank c = true
        · rw [if_pos hb, beq_hash_of_blank hb]
          rfl
        · have hsign : c = '#' := hc (by simpa using hb)
          subst hsign
          rfl

/-- A word that has ended leaves a gap. -/
theorem tidy_gap_of_bounded (h : tidy .word cs = true)
    (hb : bounded cs = true) : tidy .gap cs = true := by
  cases cs with
  | nil => rfl
  | cons c cs =>
    rw [bounded] at hb
    rw [tidy, Phase.next, if_pos hb, Bool.and_eq_true] at h
    rw [tidy, Phase.next, if_pos hb]
    exact h.2

/-- Directly behind a word a tidy text has no comment. -/
theorem bounded_or_inner (h : tidy .word (c :: cs) = true) :
    bounded (c :: cs) = true ∨ isInner c = true := by
  rw [tidy, Bool.and_eq_true] at h
  cases hb : isBlank c with
  | true => exact .inl hb
  | false =>
    right
    rw [isInner, hb]
    simpa using h.1

/-- Induction along a tidy text, from one word to the next. -/
theorem tidy_induct {P : Phase → List Char → Prop}
    (nothing : P .gap [])
    (fresh : ∀ c cs, isInner c = true → c ≠ '"' → P .word cs → P .gap (c :: cs))
    (quote : ∀ cs, P .quoted cs → P .gap ('"' :: cs))
    (inside : ∀ c cs, isInner c = true → P .word cs → P .word (c :: cs))
    (pause : ∀ cs, bounded cs = true → P .gap (strip false cs) → P .word cs)
    (unclosed : P .quoted [])
    (plain : ∀ c cs, c ≠ '"' → c ≠ '\\' → P .quoted cs → P .quoted (c :: cs))
    (closing : ∀ cs, P .word cs → P .quoted ('"' :: cs))
    (backslash : ∀ cs, P .escape cs → P .quoted ('\\' :: cs))
    (broken : P .escape [])
    (escaped : ∀ c cs, P .quoted cs → P .escape (c :: cs))
    (φ : Phase) (cs : List Char) (h : tidy φ cs = true) (hφ : φ ≠ .comment)
    (hgap : φ = .gap → strip false cs = cs) : P φ cs := by
  induction hn : cs.length using Nat.strongRecOn generalizing φ cs with
  | ind n ih =>
    subst hn
    cases cs with
    | nil =>
      cases φ with
      | gap => exact nothing
      | comment => exact absurd rfl hφ
      | word => exact pause [] rfl nothing
      | quoted => exact unclosed
      | escape => exact broken
    | cons c cs =>
      have hlt : cs.length < (c :: cs).length := Nat.lt_succ_self _
      have hnext : tidy (φ.next c) cs = true := by
        rw [tidy, Bool.and_eq_true] at h
        exact h.2
      cases φ with
      | gap =>
        have hc := isInner_of_strip (hgap rfl)
        by_cases hq : c = '"'
        · subst hq
          exact quote cs (ih _ hlt .quoted cs hnext nofun nofun rfl)
        · have hw : Phase.next .gap c = .word := by
            rw [isInner, Bool.and_eq_true, Bool.not_eq_true', bne_iff_ne] at hc
            rw [Phase.next, if_neg (by simp [hc.1]), if_neg hc.2, if_neg hq]
          rw [hw] at hnext
          exact fresh c cs hc hq (ih _ hlt .word cs hnext nofun nofun rfl)
      | comment => exact absurd rfl hφ
      | word =>
        rcases bounded_or_inner h with hb | hc
        · refine pause (c :: cs) hb ?_
          have hs : (strip false (c :: cs)).length < (c :: cs).length := by
            rw [strip, if_neg Bool.false_ne_true, not_inner_of_blank hb,
              if_neg Bool.false_ne_true]
            exact Nat.lt_succ_of_le (length_strip_le _ _)
          have ht : tidy .gap (strip false (c :: cs)) = true :=
            (tidy_strip false _).trans (tidy_gap_of_bounded h hb)
          exact ih _ hs .gap _ ht nofun (fun _ => strip_strip _) rfl
        · have hw : Phase.next .word c = .word := by
            have hb : bounded (c :: cs) = false := not_bounded_of_inner hc
            rw [Phase.next, if_neg (by rw [bounded] at hb; simp [hb])]
          rw [hw] at hnext
          exact inside c cs hc (ih _ hlt .word cs hnext nofun nofun rfl)
      | quoted =>
        by_cases hq : c = '"'
        · subst hq
          exact closing cs (ih _ hlt .word cs hnext nofun nofun rfl)
        · by_cases hb : c = '\\'
          · subst hb
            exact backslash cs (ih _ hlt .escape cs hnext nofun nofun rfl)
          · rw [Phase.next, if_neg hq, if_neg hb] at hnext
            exact plain c cs hq hb (ih _ hlt .quoted cs hnext nofun nofun rfl)
      | escape => exact escaped c cs (ih _ hlt .quoted cs hnext nofun nofun rfl)

end Jam
