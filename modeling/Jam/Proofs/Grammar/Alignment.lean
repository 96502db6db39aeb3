/-
Texts that consist of the same words.

The words of two texts are the same while the blanks and comments between
them may differ: then the texts are `Aligned`, at each place in one of them
with the place in the other that is as far into the same word. What is
compared, and how much the texts may differ, is told by a `Comparison`.

- The points of the two texts are related by two functions, which have to
  agree along words and across the gaps that may stand for one another.
- A comparison may be `cut`: at a stop mark (a semicolon or a brace) the
  alignment ends, and the texts behind it may be any. A comparison that is
  not cut at all is `whole`.

The rest of this file is about tokens: what makes up a word matches the
same characters in aligned texts. A token never looks further than to the
end of its word, and sees there whether the word ends, not how.
-/
import Jam.Proofs.Peg.Lockstep
import Jam.Proofs.Peg.Spells
import Jam.Proofs.Text.Layout
import Jam.Grammar.Productions

namespace Jam

open Nonterminal

-- ======================================================= aligned texts

/-- The marks that end a statement and enclose statements. -/
def isStop (c : Char) : Bool := c == ';' || c == '\x7b' || c == '\x7d'

/-- In which way two texts are compared. -/
structure Comparison where
  /-- What counts of a point of the one text. -/
  left : Point → Point
  /-- What counts of a point of the other. -/
  right : Point → Point
  after {p p' : Point} (c : Char) : left p = right p' →
    left (p.after c) = right (p'.after c)
  /-- The gaps that may stand for one another. -/
  gaps : List Char → List Char → Prop
  afterAll {p p' : Point} {u w : List Char} : gaps u w → left p = right p' →
    left (p.afterAll u) = right (p'.afterAll w)
  /-- The texts are compared to their ends. -/
  whole : Prop
  /-- The texts are compared to this mark only, behind which they go on like
  this. -/
  cut : Char → List Char → List Char → Prop
  cut_stop {c : Char} {xs ys : List Char} : cut c xs ys →
    ¬ whole ∧ isStop c = true ∧ bounded xs = true ∧ bounded ys = true

/-- A whole comparison is cut nowhere. -/
theorem Comparison.uncut {c : Char} {xs ys : List Char} (h : False) :
    ¬ True ∧ isStop c = true ∧ bounded xs = true ∧ bounded ys = true :=
  h.elim

/-- The texts go on with the same words. The phase tells where in a word they
are. -/
inductive Aligned (v : Comparison) : Phase → List Char → List Char → Prop
  | nothing : Aligned v .gap [] []
  /-- A word begins. If it is a stop mark, then the comparison is whole. -/
  | fresh {c xs ys} : isInner c = true → c ≠ '"' →
      (isStop c = true → bounded xs = true → v.whole) → Aligned v .word xs ys →
      Aligned v .gap (c :: xs) (c :: ys)
  /-- The comparison ends. -/
  | stop {c xs ys} : v.cut c xs ys → Aligned v .gap (c :: xs) (c :: ys)
  | quote {xs ys} :
      Aligned v .quoted xs ys → Aligned v .gap ('"' :: xs) ('"' :: ys)
  | inside {c xs ys} : isInner c = true → Aligned v .word xs ys →
      Aligned v .word (c :: xs) (c :: ys)
  /-- A word ends. -/
  | pause {xs ys} :
      bounded xs = true → bounded ys = true →
      v.gaps (lead false xs) (lead false ys) →
      Aligned v .gap (strip false xs) (strip false ys) → Aligned v .word xs ys
  /-- A string in quotes is not closed. -/
  | unclosed : Aligned v .quoted [] []
  | plain {c xs ys} : c ≠ '"' → c ≠ '\\' → Aligned v .quoted xs ys →
      Aligned v .quoted (c :: xs) (c :: ys)
  | closing {xs ys} :
      Aligned v .word xs ys → Aligned v .quoted ('"' :: xs) ('"' :: ys)
  | backslash {xs ys} :
      Aligned v .escape xs ys → Aligned v .quoted ('\\' :: xs) ('\\' :: ys)
  | broken : Aligned v .escape [] []
  | escaped {c xs ys} :
      Aligned v .quoted xs ys → Aligned v .escape (c :: xs) (c :: ys)

/-- The nonterminals whose texts are read. -/
def isVerbatim : Nonterminal → Bool
  | .identifier | .number | .rangeDash | .fragment | .quoted | .unquoted
    | .compareOp | .assignOp => true
  | _ => false

namespace Comparison

variable (v : Comparison)

/-- What is compared of nodes. -/
def view : View Nonterminal := ⟨v.left, v.right, isVerbatim⟩

/-- The points of two places agree. -/
def Level (c c' : Cursor) : Prop := v.left c.point = v.right c'.point

/-- A word begins, or there is none. -/
def Gap : List Char → List Char → Prop := Aligned v .gap

/-- Inside a word or at its end. -/
def Word : List Char → List Char → Prop := Aligned v .word

def Quoted : List Char → List Char → Prop := Aligned v .quoted

/-- At the mark at which the comparison is cut. -/
def AtCut (xs ys : List Char) : Prop :=
  ∃ c us ws, xs = c :: us ∧ ys = c :: ws ∧ v.cut c us ws

/-- A word begins that is not the mark at which the comparison is cut. -/
def Fresh (xs ys : List Char) : Prop := v.Gap xs ys ∧ ¬ v.AtCut xs ys

/-- At the beginning of a word that is neither that mark nor in quotes, or where
there is none. -/
def Bare (xs ys : List Char) : Prop := v.Fresh xs ys ∧ (xs = [] ∨ ∃ c us ws,
  xs = c :: us ∧ ys = c :: ws ∧ v.Word us ws)

/-- At the beginning of a word or inside. -/
def Along (xs ys : List Char) : Prop := v.Gap xs ys ∨ v.Word xs ys

/-- At the beginning of a word that is not the last mark, or inside of a
word. -/
def Amid (xs ys : List Char) : Prop := v.Fresh xs ys ∨ v.Word xs ys

theorem steady : Steady v.view v.Level := ⟨id, v.after _⟩

end Comparison

variable {v : Comparison} {K : Cursor → Cursor → Prop} {n : Nat}
  {xs ys : List Char} {R S T : List Char → List Char → Prop}
  {accepts : Char → Bool}

/-- A word ends in both texts or in neither. -/
theorem Aligned.bounded_eq (h : Aligned v .word xs ys) :
    bounded xs = bounded ys := by
  cases h with
  | inside => rfl
  | pause hx hy => rw [hx, hy]

theorem Aligned.nil_iff (h : Aligned v .gap xs ys) : xs = [] ↔ ys = [] := by
  cases h <;> simp

-- ================================================== the next character

/-- The texts have the first character in common. -/
def Common (S : List Char → List Char → Prop) (xs ys : List Char) : Prop :=
  ∃ c us ws, xs = c :: us ∧ ys = c :: ws ∧ S us ws

/-- The characters that separate words, end the comparison or begin a string in
quotes. -/
def edges : List Char := [' ', '\t', '\r', '\n', ';', '\x7b', '\x7d', '"']

/-- The class has none of the characters that make a difference in layout. -/
def Narrow (accepts : Char → Bool) : Prop := ∀ c ∈ edges, accepts c = false

instance : Decidable (Narrow accepts) := List.decidableBAll _ edges

theorem mem_edges_of_blank {c : Char} (h : isBlank c = true) : c ∈ edges := by
  simp only [isBlank, Bool.or_eq_true, beq_iff_eq] at h
  rcases h with ((rfl | rfl) | rfl) | rfl <;> decide

theorem mem_edges_of_stop {c : Char} (h : isStop c = true) : c ∈ edges := by
  simp only [isStop, Bool.or_eq_true, beq_iff_eq] at h
  rcases h with (rfl | rfl) | rfl <;> decide

namespace Advances

theorem or (hR : Advances R T accepts) (hS : Advances S T accepts) :
    Advances (fun xs ys => R xs ys ∨ S xs ys) T accepts := by
  rintro xs ys (h | h)
  · exact hR xs ys h
  · exact hS xs ys h

theorem common : Advances (Common S) S accepts := by
  rintro _ _ ⟨c, us, ws, rfl, rfl, h⟩
  exact .inl ⟨c, us, ws, rfl, rfl, fun _ => h⟩

theorem word (h : ∀ c, isBlank c = true → accepts c = false) :
    Advances v.Word v.Word accepts := by
  intro xs ys hw
  cases hw with
  | inside _ hw => exact .inl ⟨_, _, _, rfl, rfl, fun _ => hw⟩
  | pause hx hy =>
    have refused : ∀ {zs : List Char}, bounded zs = true → ∀ z ∈ zs.head?,
        accepts z = false := by
      intro zs hz z hmem
      cases zs with
      | nil => cases hmem
      | cons z' zs =>
        cases hmem
        exact h z hz
    exact .inr ⟨refused hx, refused hy⟩

theorem fresh (h : accepts '"' = false) : Advances v.Fresh v.Word accepts := by
  rintro xs ys ⟨hg, hcut⟩
  cases hg with
  | nothing => exact .inr ⟨nofun, nofun⟩
  | fresh _ _ _ hw => exact .inl ⟨_, _, _, rfl, rfl, fun _ => hw⟩
  | stop hc => exact absurd ⟨_, _, _, rfl, rfl, hc⟩ hcut
  | quote =>
    exact .inl
      ⟨_, _, _, rfl, rfl, fun ha => absurd (h.symm.trans ha) Bool.false_ne_true⟩

theorem gap (h : Narrow accepts) : Advances v.Gap v.Word accepts := by
  intro xs ys hg
  by_cases hcut : v.AtCut xs ys
  · obtain ⟨c, us, ws, rfl, rfl, hc⟩ := hcut
    have hstop := h c (mem_edges_of_stop (v.cut_stop hc).2.1)
    exact .inl ⟨_, _, _, rfl, rfl, fun ha =>
      absurd (hstop.symm.trans ha) Bool.false_ne_true⟩
  · exact fresh (h _ (by decide)) xs ys ⟨hg, hcut⟩

theorem along (h : Narrow accepts) : Advances v.Along v.Word accepts :=
  or (gap h) (word fun c hc => h c (mem_edges_of_blank hc))

theorem amid (h : Narrow accepts) : Advances v.Amid v.Word accepts :=
  or (fresh (h _ (by decide))) (word fun c hc => h c (mem_edges_of_blank hc))

theorem quoted (h : accepts '"' = false) (h' : accepts '\\' = false) :
    Advances v.Quoted v.Quoted accepts := by
  intro xs ys hq
  have refused {c : Char} {P : Prop} (hc : accepts c = false)
      (ha : accepts c = true) : P :=
    absurd (hc.symm.trans ha) Bool.false_ne_true
  cases hq with
  | unclosed => exact .inr ⟨nofun, nofun⟩
  | plain _ _ hq => exact .inl ⟨_, _, _, rfl, rfl, fun _ => hq⟩
  | closing => exact .inl ⟨_, _, _, rfl, rfl, refused h⟩
  | backslash => exact .inl ⟨_, _, _, rfl, rfl, refused h'⟩

/-- Behind a quote that begins a word. -/
theorem opening : Advances v.Fresh v.Quoted (· == '"') := by
  rintro xs ys ⟨hg, hcut⟩
  cases hg with
  | nothing => exact .inr ⟨nofun, nofun⟩
  | fresh _ hne =>
    exact .inl ⟨_, _, _, rfl, rfl, fun ha => absurd (beq_iff_eq.mp ha) hne⟩
  | stop hc => exact absurd ⟨_, _, _, rfl, rfl, hc⟩ hcut
  | quote hq => exact .inl ⟨_, _, _, rfl, rfl, fun _ => hq⟩

theorem closing : Advances v.Quoted v.Word (· == '"') := by
  intro xs ys hq
  cases hq with
  | unclosed => exact .inr ⟨nofun, nofun⟩
  | plain hne =>
    exact .inl ⟨_, _, _, rfl, rfl, fun ha => absurd (beq_iff_eq.mp ha) hne⟩
  | closing hw => exact .inl ⟨_, _, _, rfl, rfl, fun _ => hw⟩
  | backslash =>
    exact .inl
      ⟨_, _, _, rfl, rfl, fun ha => absurd (beq_iff_eq.mp ha) (by decide)⟩

theorem backslash : Advances v.Quoted (Aligned v .escape) (· == '\\') := by
  intro xs ys hq
  cases hq with
  | unclosed => exact .inr ⟨nofun, nofun⟩
  | plain _ hne =>
    exact .inl ⟨_, _, _, rfl, rfl, fun ha => absurd (beq_iff_eq.mp ha) hne⟩
  | closing =>
    exact .inl
      ⟨_, _, _, rfl, rfl, fun ha => absurd (beq_iff_eq.mp ha) (by decide)⟩
  | backslash he => exact .inl ⟨_, _, _, rfl, rfl, fun _ => he⟩

theorem escaped : Advances (Aligned v .escape) v.Quoted accepts := by
  intro xs ys he
  cases he with
  | broken => exact .inr ⟨nofun, nofun⟩
  | escaped hq => exact .inl ⟨_, _, _, rfl, rfl, fun _ => hq⟩

end Advances

-- ========================================================= fixed texts

namespace Lockstep

/-- Characters inside of a word. -/
theorem chars_word (hK : Steady v.view K) {cs : List Char}
    (h : cs.all (!isBlank ·) = true) :
    Lockstep grammar v.view K n v.Word v.Word (.chars cs) := by
  induction cs with
  | nil => exact .chars_nil fun _ _ => id
  | cons c cs ih =>
    rw [List.all_cons, Bool.and_eq_true, Bool.not_eq_true'] at h
    refine .chars_cons hK (.word fun d hd => ?_) (ih h.2)
    rw [beq_eq_false_iff_ne]
    rintro rfl
    rw [h.1] at hd
    cases hd

/-- A text that is a part of a word, if its first character is one. -/
theorem lit_of_advances (hK : Steady v.view K) {text : String} {c : Char}
    {cs : List Char} (ht : text.toList = c :: cs)
    (h : Advances R v.Word (· == c)) (hcs : cs.all (!isBlank ·) = true) :
    Lockstep grammar v.view K n R v.Word (Peg.lit text) := by
  rw [Peg.lit, ht]
  exact .chars_cons hK h (chars_word hK hcs)

/-- A mark at the beginning of a word or inside. -/
theorem lit (hK : Steady v.view K) {text : String} {c : Char} {cs : List Char}
    (ht : text.toList = c :: cs) (hc : c ∉ edges)
    (hcs : cs.all (!isBlank ·) = true) :
    Lockstep grammar v.view K n v.Along v.Word (Peg.lit text) := by
  refine lit_of_advances hK ht (.along fun d hd => ?_) hcs
  rw [beq_eq_false_iff_ne]
  rintro rfl
  exact hc hd

/-- A text of one character. -/
theorem sign (hK : Steady v.view K) {text : String} {c : Char}
    (ht : text.toList = [c]) (h : Advances R S (· == c)) :
    Lockstep grammar v.view K n R S (Peg.lit text) := by
  rw [Peg.lit, ht]
  exact .chars_cons hK h (.chars_nil fun _ _ => id)

end Lockstep

-- ================================================= excluded characters

/-- Nothing follows, or a character that the expression matches in any case. -/
def Refuses (e : Peg Nonterminal) (xs : List Char) : Prop :=
  ∀ c ∈ xs.head?, ∀ m, Meets grammar m e c

theorem found_anyBut {m : Mode} {e : Peg Nonterminal} {c : Char}
    {cs : List Char} {p : Point} :
    grammar.found m (anyBut e) ⟨c :: cs, p⟩ =
      if (grammar.found m.notAhead e ⟨c :: cs, p⟩).isSome then none
      else some ⟨⟨cs, p.after c⟩, []⟩ := by
  change grammar.found m (.seq (.notAhead e) (.one fun _ => true)) _ = _
  rw [Grammar.found_seq, Grammar.found_notAhead]
  split
  · rfl
  · rw [Option.bind_some, Grammar.found_one_cons]
    rfl

theorem found_anyBut_of_refuses {m : Mode} {e : Peg Nonterminal} {c : Cursor}
    (h : Refuses e c.rest) : grammar.found m (anyBut e) c = none := by
  obtain ⟨cs, p⟩ := c
  cases cs with
  | nil => exact found_end rfl rfl
  | cons c cs => rw [found_anyBut, if_pos (h c rfl m.notAhead cs p)]

/-- A character is excluded in both texts or in neither. -/
theorem Lockstep.anyBut (hK : Steady v.view K)
    (S' : List Char → List Char → Prop) {e : Peg Nonterminal}
    (he : ∀ n, Lockstep grammar v.view K n (Common S) S' e)
    (h : ∀ xs ys, R xs ys → Common S xs ys ∨ Refuses e xs ∧ Refuses e ys) :
    Lockstep grammar v.view K n R S (anyBut e) := by
  intro m c c' _ hk hr
  rcases h _ _ hr with hc | ⟨hx, hy⟩
  · have heq := (he _ m.notAhead c c' (Nat.lt_succ_self _) hk hc).isSome_eq
    obtain ⟨xs, p⟩ := c
    obtain ⟨ys, p'⟩ := c'
    obtain ⟨x, us, ws, rfl, rfl, hs⟩ := hc
    rw [found_anyBut, found_anyBut, heq]
    split
    · exact .none
    · exact .some ⟨hK.step hk, hs, .nil⟩
  · rw [found_anyBut_of_refuses hx, found_anyBut_of_refuses hy]
    exact .none

theorem meets_blank {m : Mode} {c : Char} (h : isBlank c = true) :
    Meets grammar m (nt .blank) c := by
  have hm : Meets grammar m (body .blank) c := by
    simp only [isBlank, Bool.or_eq_true, beq_iff_eq] at h
    rcases h with ((rfl | rfl) | rfl) | rfl
    · exact .left .lit
    · exact .right (.left .lit)
    · exact .right (.right (.left .lit))
    · exact .right (.right (.right .lit))
  intro xs p
  rw [nt, Grammar.found_silent _ _ _ rfl]
  exact hm xs p

/-- Where a word ends there is nothing, or a blank. -/
theorem refuses_of_bounded {e : Peg Nonterminal} (h : bounded xs = true) :
    Refuses (nt .blank <|> e) xs := by
  intro c hc m
  cases xs with
  | nil => cases hc
  | cons x xs =>
    cases hc
    exact .left (meets_blank h)

/-- Inside of a word there is a common character, or the word ends. -/
theorem common_or_refuses {e : Peg Nonterminal} (h : v.Word xs ys) :
    Common v.Word xs ys ∨ Refuses (nt .blank <|> e) xs ∧
      Refuses (nt .blank <|> e) ys := by
  cases h with
  | inside _ hw => exact .inl ⟨_, _, _, rfl, rfl, hw⟩
  | pause hx hy => exact .inr ⟨refuses_of_bounded hx, refuses_of_bounded hy⟩

-- ============================================================== tokens

namespace Lockstep

variable (hK : Steady v.view K)
include hK

theorem identifier :
    Lockstep grammar v.view K n v.Along v.Word (nt .identifier) :=
  .spell hK fun o o' =>
    .plus rfl (.one (hK.same o o') (.along (by decide))) fun _ _ => .inr

theorem number : Lockstep grammar v.view K n v.Along v.Word (nt .number) :=
  .spell hK fun o o' =>
    .plus rfl (.one (hK.same o o') (.along (by decide))) fun _ _ => .inr

theorem rangeDash :
    Lockstep grammar v.view K n v.Along v.Word (nt .rangeDash) :=
  .spell hK fun o o' => .lit (hK.same o o') rfl (by decide) rfl

theorem compareOp :
    Lockstep grammar v.view K n v.Along v.Word (nt .compareOp) :=
  .spell hK fun o o' =>
    have hK := hK.same o o'
    .alt (.lit hK rfl (by decide) rfl) <| .alt (.lit hK rfl (by decide) rfl) <|
    .alt (.lit hK rfl (by decide) rfl) <| .alt (.lit hK rfl (by decide) rfl) <|
    .alt (.lit hK rfl (by decide) rfl) (.lit hK rfl (by decide) rfl)

theorem assignOp : Lockstep grammar v.view K n v.Along v.Word (nt .assignOp) :=
  .spell hK fun o o' =>
    have hK := hK.same o o'
    .alt (.lit hK rfl (by decide) rfl) <| .alt (.lit hK rfl (by decide) rfl)
      (.lit hK rfl (by decide) rfl)

/-- An escape sequence, where a backslash leads from `R` to `S` and a character
from there to `T`. -/
theorem escape_of (hR : Advances R S (· == '\\'))
    (hS : ∀ accepts : Char → Bool, Narrow accepts ∨ accepts = (· == '"') →
      Advances S T accepts)
    (hT : ∀ accepts : Char → Bool, Narrow accepts → accepts '\\' = false →
      Advances T T accepts) : Lockstep grammar v.view K n R T (nt .escape) := by
  have step {text : String} {c : Char}
      (ht : text.toList = [c]) (hc : c ∉ edges ∨ c = '"') :
      Lockstep grammar v.view K n S T (Peg.lit text) := by
    refine .sign hK ht (hS _ ?_)
    rcases hc with hc | rfl
    · exact .inl fun d hd => beq_eq_false_iff_ne.mpr fun he => hc (he ▸ hd)
    · exact .inr rfl
  have digit : Lockstep grammar v.view K n T T (.opt (.one isOctalDigit)) :=
    .opt (.one hK (hT _ (by decide) (by decide))) fun _ _ => id
  refine .call hK rfl (.seq (.sign hK rfl hR) ?_)
  refine .alt ?_ (.alt ?_ ?_)
  · exact .seq
      (.seq (step rfl (by decide)) (.one hK (hT _ (by decide) (by decide))))
      (.one hK (hT _ (by decide) (by decide)))
  · exact .seq (.seq (.one hK (hS _ (.inl (by decide)))) digit) digit
  · exact .alt (step rfl (by decide)) <| .alt (step rfl (by decide)) <|
      .alt (step rfl (by decide)) <| .alt (step rfl (by decide)) <|
      .alt (step rfl (by decide)) <| .alt (step rfl (by decide)) <|
      .alt (step rfl (by decide)) <| .alt (step rfl (by decide)) <|
      .alt (step rfl (by decide)) (step rfl (by decide))

/-- An escape sequence in a word. -/
theorem escape_word (hR : Advances R v.Word (· == '\\')) :
    Lockstep grammar v.view K n R v.Word (nt .escape) := by
  refine escape_of hK hR (fun accepts ha => .word fun c hc => ?_)
    fun accepts ha _ => .word fun c hc => ha c (mem_edges_of_blank hc)
  rcases ha with ha | rfl
  · exact ha c (mem_edges_of_blank hc)
  · rw [beq_eq_false_iff_ne]
    rintro rfl
    cases hc

/-- The inside of a string in quotes. -/
theorem quoted :
    Lockstep grammar v.view K n v.Quoted v.Quoted (nt .quoted) := by
  refine .spell hK fun o o' => ?_
  have hK := hK.same o o'
  refine .many rfl (.alt (escape_of hK .backslash (fun _ _ => .escaped) ?_) ?_)
  · exact fun accepts ha hb => .quoted (ha _ (by decide)) hb
  · refine .anyBut hK v.Quoted
      (fun n => .alt (.sign hK rfl .common) (.sign hK rfl .common)) ?_
    intro xs ys hq
    have meets {c : Char} {us : List Char} (hc : c = '"' ∨ c = '\\') :
        Refuses (Peg.lit "\"" <|> Peg.lit "\\") (c :: us) := by
      intro d hd m
      cases hd
      rcases hc with rfl | rfl
      · exact .left .lit
      · exact .right .lit
    cases hq with
    | unclosed => exact .inr ⟨nofun, nofun⟩
    | plain _ _ hq => exact .inl ⟨_, _, _, rfl, rfl, hq⟩
    | closing => exact .inr ⟨meets (.inl rfl), meets (.inl rfl)⟩
    | backslash => exact .inr ⟨meets (.inr rfl), meets (.inr rfl)⟩

/-- A blank at a character that the texts have in common. -/
theorem blank_common : Lockstep grammar v.view K n (Common S) S (nt .blank) :=
  .call hK rfl <| .alt (.sign hK rfl .common) <| .alt (.sign hK rfl .common) <|
    .alt (.sign hK rfl .common) (.sign hK rfl .common)

/-- The beginning of a variable at a character that the texts have in common. -/
theorem dollar_common :
    Lockstep grammar v.view K n (Common v.Word) v.Word (Peg.lit "$(") :=
  .lit_of_advances hK rfl .common rfl

/-- Other characters of a word with variables in it. -/
theorem fragment :
    Lockstep grammar v.view K n v.Amid v.Word (nt .fragment) := by
  refine .spell hK fun o o' => ?_
  have hK := hK.same o o'
  refine .plus rfl (.alt (escape_word hK (.amid (by decide))) ?_)
    fun _ _ => .inr
  refine .anyBut hK v.Word (fun n => ?_) ?_
  · exact .alt (blank_common hK) <| .alt (.sign hK rfl .common) <|
      .alt (.sign hK rfl .common) <|
      .alt (dollar_common hK) <| .alt (.one hK .common) (.one hK .common)
  · rintro xs ys (⟨hg, hcut⟩ | hw)
    · cases hg with
      | nothing => exact .inr ⟨nofun, nofun⟩
      | fresh _ _ _ hw => exact .inl ⟨_, _, _, rfl, rfl, hw⟩
      | stop hc => exact absurd ⟨_, _, _, rfl, rfl, hc⟩ hcut
      | quote =>
        have meets {us : List Char} :
            Refuses (nt .blank <|> Peg.lit "\\" <|> Peg.lit "\"" <|>
              Peg.lit "$(" <|> Peg.one isAlnum <|> Peg.one isControl)
            ('"' :: us) := by
          intro d hd m
          cases hd
          exact .right (.right (.left .lit))
        exact .inr ⟨meets, meets⟩
    · exact common_or_refuses hw

/-- A string without quotes. -/
theorem unquoted :
    Lockstep grammar v.view K n v.Fresh v.Word (nt .unquoted) := by
  refine .spell hK fun o o' => ?_
  have hK := hK.same o o'
  refine .seq (S := fun xs ys => v.Bare xs ys ∨ v.Word xs ys)
    (.notAhead fun m c c' hk hr => ?_) ?_
  · have h :=
      Lockstep.sign (n := grammar.work (Peg.lit "\"") c.rest.length + 1) hK rfl
      .opening m c c' (Nat.lt_succ_self _) hk hr
    refine ⟨h.isSome_eq, fun hnone => .inl ⟨hr, ?_⟩⟩
    obtain ⟨xs, p⟩ := c
    obtain ⟨ys, p'⟩ := c'
    obtain ⟨hg, hcut⟩ := hr
    dsimp only at hg hcut ⊢
    cases hg with
    | nothing => exact .inl rfl
    | fresh _ _ _ hw => exact .inr ⟨_, _, _, rfl, rfl, hw⟩
    | stop hc => exact absurd ⟨_, _, _, rfl, rfl, hc⟩ hcut
    | quote =>
      rw [Peg.lit, Grammar.found_chars] at hnone
      cases hnone
  · refine .plus rfl (.alt (escape_word hK ?_) ?_) fun _ _ => .inr
    · rintro xs ys (⟨hf, -⟩ | hw)
      · exact Advances.fresh (by decide) xs ys hf
      · exact Advances.amid (by decide) xs ys (.inr hw)
    · refine .anyBut hK v.Word (fun n => ?_) ?_
      · exact .alt (blank_common hK) <| .alt (.sign hK rfl .common) <|
          .alt (dollar_common hK) (.one hK .common)
      · rintro xs ys (⟨hf, hx | hc⟩ | hw)
        · have hy := (Aligned.nil_iff hf.1).mp hx
          subst hx hy
          exact .inr ⟨nofun, nofun⟩
        · exact .inl hc
        · exact common_or_refuses hw

theorem string : Lockstep grammar v.view K n v.Fresh v.Word (nt .string) :=
  .call hK rfl <| .alt
    (.seq (.seq (.sign hK rfl .opening) (quoted hK)) (.sign hK rfl .closing))
    (unquoted hK)

end Lockstep

end Jam
