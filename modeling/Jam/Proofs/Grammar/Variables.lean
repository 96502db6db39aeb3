/-
The language of variables.

Names and indices consist of letters and digits and of variables, and
variables consist of names and indices. This is a context-free language:

    V ::= '$(' W? N S? W? ')'      N ::= (alnum+ | V)+
    S ::= '[' I ('-' I?)? ']'      I ::= (digit+ | V)+

where `W` is blanks and comments. `Produces` are these rules, and `Skips`
is `W?`. They relate the text in front of a phrase to the text behind it.
So nothing but a comment sees what follows, as it goes to the end of the
line; in particular there is no order among alternatives, and a repetition
may stop anywhere.

What a derivation has made of a text is told by `Item`s: one for each run
of characters and for each variable, in the order of the text. As the
rules may divide letters into runs in many ways, one text has many items.

The matcher chooses in order and repeats for as long as it can. Here it is
shown that it stays within the rules (`produces_of_derives`).
-/
import Jam.Proofs.Grammar.Sequences
import Jam.Proofs.Grammar.Tokens

namespace Jam

open Nonterminal

-- =========================================================== the rules

/-- What stands between the variables of a name or of an index. -/
inductive Alphabet
  | name
  | index
deriving DecidableEq

namespace Alphabet

/-- Letters and digits, or digits only. -/
def accepts : Alphabet → Char → Bool
  | name => isAlnum
  | index => isDigit

/-- The token that a run of such characters is. -/
def token : Alphabet → Nonterminal
  | name => .identifier
  | index => .number

end Alphabet

/-- What names and indices are put together from. -/
inductive Item
  | run (text : List Char)
  /-- A variable, with the items of its name and of its subscript. Without a
  subscript there are none of these. -/
  | reference (name subscript : List Item)

/-- The nonterminals of the rules. -/
inductive Form
  /-- `(alnum+ | V)*` or `(digit+ | V)*`. -/
  | items (a : Alphabet)
  /-- `S?` -/
  | subscript
  /-- `V` -/
  | variable

/-- `W?`: any number of blanks and comments. A comment goes to the end of the
line, or of the text. -/
inductive Skips : List Char → List Char → Prop
  | nothing {s} : Skips s s
  | blank {c s t} : isBlank c = true → Skips s t → Skips (c :: s) t
  | comment {s t} : Skips (s.dropWhile (!endsLine ·)) t → Skips ('#' :: s) t

/-- From one text, a phrase of this form leads to another, and these are its
items. -/
inductive Produces : Form → List Char → List Char → List Item → Prop
  | nothing {a s} : Produces (.items a) s s []
  | run {a cs s r items} :
      cs ≠ [] → (∀ c ∈ cs, a.accepts c = true) → Produces (.items a) s r items →
      Produces (.items a) (cs ++ s) r (.run cs :: items)
  | variable {a s t r vs items} :
      Produces .variable s t vs → Produces (.items a) t r items →
      Produces (.items a) s r (vs ++ items)
  | absent {s} : Produces .subscript s s []
  | index {s r items} :
      Produces (.items .index) s (']' :: r) items → items ≠ [] →
      Produces .subscript ('[' :: s) r items
  | range {s t r first last} :
      Produces (.items .index) s ('-' :: t) first → first ≠ [] →
      Produces (.items .index) t (']' :: r) last →
      Produces .subscript ('[' :: s) r (first ++ .run ['-'] :: last)
  | reference {s t u v r name subscript} :
      Skips s t → Produces (.items .name) t u name →
      name ≠ [] → Produces .subscript u v subscript → Skips v (')' :: r) →
      Produces .variable ('$' :: '(' :: s) r [.reference name subscript]

-- ================================================= blanks and comments

section Skips

variable {s t : List Char}

/-- All the blanks and comments that there are may be skipped. -/
theorem skips_strip (s : List Char) : Skips s (strip false s) := by
  induction hn : s.length using Nat.strongRecOn generalizing s with
  | ind n ih =>
    subst hn
    cases s with
    | nil => exact .nothing
    | cons c s =>
      rw [strip, if_neg Bool.false_ne_true]
      split
      · exact .nothing
      · next hin =>
        by_cases hc : c = '#'
        · subst hc
          rw [beq_self_eq_true, strip_comment]
          have hle := (List.dropWhile_sublist (!endsLine ·) (l := s)).length_le
          exact .comment (ih _ (Nat.lt_succ_of_le hle) _ rfl)
        · rw [beq_eq_false_iff_ne.mpr hc]
          refine .blank ?_ (ih _ (Nat.lt_succ_self _) _ rfl)
          simpa [isInner, hc] using hin

/-- What is skipped up to a word is all that there is before it. -/
theorem Skips.strip_eq (h : Skips s t) (ht : strip false t = t) :
    strip false s = t := by
  induction h with
  | nothing => exact ht
  | @blank c s t hc _ ih =>
    rw [strip, if_neg Bool.false_ne_true, not_inner_of_blank hc,
      if_neg Bool.false_ne_true, beq_hash_of_blank hc]
    exact ih ht
  | comment _ ih =>
    rw [strip, if_neg Bool.false_ne_true, if_neg (by decide)]
    exact (strip_comment _).trans (ih ht)

/-- What is skipped begins with a blank or a comment, unless there is
nothing. -/
theorem Skips.head (h : Skips s t) :
    s = t ∨ ∃ c u, s = c :: u ∧ isInner c = false := by
  cases h with
  | nothing => exact .inl rfl
  | blank hc => exact .inr ⟨_, _, rfl, not_inner_of_blank hc⟩
  | comment => exact .inr ⟨'#', _, rfl, rfl⟩

end Skips

-- ============================================================== tokens

section Tokens

variable {a : Alphabet} {m : Mode} {c d : Cursor} {cs r : List Char} {p : Point}
  {ts : List Node}

theorem body_token (a : Alphabet) :
    body a.token = Peg.plus (Peg.one a.accepts) := by
  cases a <;> rfl

theorem retained_token (a : Alphabet) :
    grammar.retention a.token ≠ .silent := by
  cases a <;> decide

theorem Alphabet.isAlnum_of_accepts {x : Char} (h : a.accepts x = true) :
    isAlnum x = true := by
  cases a with
  | name => exact h
  | index =>
    have h : isDigit x = true := h
    rw [isAlnum, h, Bool.or_true]

/-- Letters and digits are no blanks, and begin no comment. -/
theorem isInner_of_isAlnum {x : Char} (h : isAlnum x = true) :
    isInner x = true := by
  have hne : x ∉ [' ', '\t', '\r', '\n', '#'] := by
    intro hx
    simp only [List.mem_cons, List.not_mem_nil, or_false] at hx
    rcases hx with rfl | rfl | rfl | rfl | rfl <;> cases h
  simp_all [isInner, isBlank]

/-- Characters of a class are taken for as long as there are any. -/
theorem derives_run {accepts : Char → Bool} (hcs : ∀ c ∈ cs, accepts c = true)
    (hr : ∀ c ∈ r.head?, accepts c = false) :
    Derives grammar m (.many (.one accepts)) ⟨cs ++ r, p⟩ ⟨r, p.afterAll cs⟩
      [] := by
  induction cs generalizing p with
  | nil =>
    refine .stop ?_
    cases r with
    | nil => exact Grammar.found_one_nil ..
    | cons x r =>
      change grammar.found m (.one accepts) ⟨x :: r, p⟩ = none
      rw [Grammar.found_one_cons, hr x rfl]
      rfl
  | cons x cs ih =>
    obtain ⟨hx, hcs⟩ := List.forall_mem_cons.mp hcs
    have hone : Derives grammar m (.one accepts) ⟨x :: (cs ++ r), p⟩
        ⟨cs ++ r, p.after x⟩ [] :=
      .one hx
    exact .more hone (offset_behind hone.found rfl) (ih hcs)

/-- A token takes the whole run that it begins with. -/
theorem derives_token (hne : cs ≠ []) (hcs : ∀ c ∈ cs, a.accepts c = true)
    (hr : ∀ c ∈ r.head?, a.accepts c = false) :
    Derives grammar .plain (nt a.token) ⟨cs ++ r, p⟩ ⟨r, p.afterAll cs⟩
      [.node a.token ⟨cs ++ r, p⟩ ⟨r, p.afterAll cs⟩ []] := by
  refine .node (retained_token a) (by rw [Grammar.ownMode_plain]; rfl) ?_
  rw [show grammar.body a.token = _ from body_token a]
  cases cs with
  | nil => exact absurd rfl hne
  | cons x cs =>
    obtain ⟨hx, hcs⟩ := List.forall_mem_cons.mp hcs
    exact .seq (.one hx) (derives_run hcs hr)

/-- A token is a run. -/
theorem run_of_derives (h : Derives grammar .plain (nt a.token) c d ts) :
    ∃ cs, cs ≠ [] ∧ (∀ x ∈ cs, a.accepts x = true) ∧ c.rest = cs ++ d.rest := by
  have hs := retained_token a
  obtain ⟨xs, rfl, -⟩ := h.retained hs
  obtain ⟨t, ht, heq⟩ := (leaves_nt hs).mp h.leaves
  cases heq
  obtain ⟨taken, htakes⟩ := h.takes
  have htext : (Tree.node a.token c d xs).text = taken := htakes.upTo_eq
  obtain ⟨hne, hall⟩ := text_of_plus ht (body_token a)
  rw [htext] at hne hall
  exact ⟨taken, hne, hall, htakes.rest⟩

end Tokens

-- =============================================== where repetitions end

section EndsItems

variable {a : Alphabet} {r : List Char} {p : Point}

/-- Neither a character of the class nor a variable comes next. -/
def EndsItems (a : Alphabet) (r : List Char) : Prop :=
  ∀ x ∈ r.head?, a.accepts x = false ∧ x ≠ '$'

instance : Decidable (EndsItems a r) :=
  inferInstanceAs (Decidable (∀ x ∈ r.head?, a.accepts x = false ∧ x ≠ '$'))

theorem endsItems_nil : EndsItems a [] := by
  rintro x ⟨⟩

theorem endsItems_cons {x : Char} (h : a.accepts x = false ∧ x ≠ '$') :
    EndsItems a (x :: r) := by
  intro y hy
  cases hy
  exact h

/-- No token of the class begins here. -/
theorem found_token_none {m : Mode} (h : ∀ x ∈ r.head?, a.accepts x = false) :
    grammar.found m (nt a.token) ⟨r, p⟩ = none := by
  refine found_none_of_body fun m => found_none_of_leftmost ?_
  rw [body_token]
  change grammar.found _ (.one a.accepts) ⟨r, p⟩ = none
  cases r with
  | nil => exact Grammar.found_one_nil ..
  | cons x r =>
    rw [Grammar.found_one_cons, h x rfl]
    rfl

/-- No variable begins here. -/
theorem found_variable_none {m : Mode} (h : ∀ x ∈ r.head?, x ≠ '$') :
    grammar.found m (nt .variable) ⟨r, p⟩ = none := by
  cases r with
  | nil => exact found_end rfl rfl
  | cons x r => exact found_none_of_keyword rfl (h x rfl)

theorem EndsItems.found_none {m : Mode} (h : EndsItems a r) :
    grammar.found m (nt a.token <|> nt .variable) ⟨r, p⟩ = none := by
  change grammar.found m (.alt _ _) _ = none
  rw [Grammar.found_alt, found_token_none fun x hx => (h x hx).1,
    found_variable_none fun x hx => (h x hx).2]
  rfl

theorem EndsItems.found_name_none {m : Mode} (h : EndsItems .name r) :
    grammar.found m (nt .name) ⟨r, p⟩ = none := by
  cases r with
  | nil => exact found_end rfl rfl
  | cons x r => exact Jam.found_name_none (h x rfl)

theorem mayBeEmpty_item (a : Alphabet) :
    grammar.mayBeEmpty (nt a.token <|> nt .variable) = false := by
  cases a <;> rfl

end EndsItems

-- ========================================= what is matched is produced

section Sound

variable {a : Alphabet} {c d : Cursor} {ts : List Node} {n : Nat}

/-- Derivations of variables that begin closer to the end of the text than
`n`. -/
def ProducesVariables (n : Nat) : Prop :=
  ∀ ⦃c d : Cursor⦄ ⦃ts : List Node⦄, c.rest.length < n →
    Derives grammar .plain (nt .variable) c d ts → ∃ item,
      Produces .variable c.rest d.rest [item]

/-- A run, or a variable, in front of further items. -/
theorem produces_of_item (hv : ProducesVariables n) (hn : c.rest.length < n)
    (h : Derives grammar .plain (nt a.token <|> nt .variable) c d ts) :
    ∃ item, ∀ r items, Produces (.items a) d.rest r items →
      Produces (.items a) c.rest r (item :: items) := by
  cases h with
  | left h =>
    obtain ⟨cs, hne, hall, hc⟩ := run_of_derives h
    rw [hc]
    exact ⟨.run cs, fun r items => .run hne hall⟩
  | right _ h =>
    obtain ⟨item, hitem⟩ := hv hn h
    exact ⟨item, fun r items => .variable hitem⟩

/-- Any number of runs and variables. -/
theorem produces_of_many (hv : ProducesVariables n) (hn : c.rest.length < n)
    (h : Derives grammar .plain (.many (nt a.token <|> nt .variable)) c d ts) :
    ∃ items, Produces (.items a) c.rest d.rest items := by
  generalize he : Peg.many (nt a.token <|> nt .variable) = e at h
  generalize hm : Mode.plain = m at h
  have hne := mayBeEmpty_item a
  induction h with
  | stop => exact ⟨[], .nothing⟩
  | last hx heq =>
    cases he
    exact absurd heq (offset_behind hx.found hne)
  | more hx _ _ _ ih =>
    cases he
    subst hm
    obtain ⟨item, hitem⟩ := produces_of_item hv hn hx
    obtain ⟨items, hitems⟩ :=
      ih (Nat.lt_trans (length_behind hx.found hne) hn) rfl rfl
    exact ⟨item :: items, hitem _ _ hitems⟩
  | _ => cases he

/-- At least one of them. -/
theorem produces_of_plus (hv : ProducesVariables n) (hn : c.rest.length < n)
    (h : Derives grammar .plain
      (Peg.plus (nt a.token <|> nt .variable)) c d ts) :
    ∃ items, Produces (.items a) c.rest d.rest items ∧ items ≠ [] := by
  cases h with
  | seq hx hm =>
    have hne := mayBeEmpty_item a
    obtain ⟨item, hitem⟩ := produces_of_item hv hn hx
    obtain ⟨items, hitems⟩ :=
      produces_of_many hv (Nat.lt_trans (length_behind hx.found hne) hn) hm
    exact ⟨item :: items, hitem _ _ hitems, List.cons_ne_nil _ _⟩

theorem produces_of_name (hv : ProducesVariables n) (hn : c.rest.length < n)
    (h : Derives grammar .plain (nt .name) c d ts) :
    ∃ items, Produces (.items .name) c.rest d.rest items ∧ items ≠ [] := by
  obtain ⟨_, -, hb⟩ := h.retained (by decide)
  exact produces_of_plus (a := .name) hv hn hb

theorem produces_of_index (hv : ProducesVariables n) (hn : c.rest.length < n)
    (h : Derives grammar .plain (nt .index) c d ts) :
    ∃ items, Produces (.items .index) c.rest d.rest items ∧ items ≠ [] := by
  cases h with
  | silent _ hb => exact produces_of_plus (a := .index) hv hn hb
  | node hs | bare hs => exact absurd rfl hs

/-- What is left behind a match is no longer than what was there. -/
theorem Derives.length_le {N : Type} {g : Grammar N} {m : Mode} {e : Peg N}
    {c d : Cursor} {ts : List (Tree N)} (h : Derives g m e c d ts) :
    d.rest.length ≤ c.rest.length := by
  obtain ⟨taken, ht⟩ := h.takes
  rw [ht.rest, List.length_append]
  exact Nat.le_add_left _ _

/-- Behind the first index the subscript ends, or a dash follows and perhaps a
further index. -/
theorem produces_of_range {s r : List Char} {first : List Item}
    (hv : ProducesVariables n) (hn : c.rest.length ≤ n)
    (hfirst : Produces (.items .index) s c.rest first) (hne : first ≠ [])
    (h : Derives grammar .plain
      (.opt (nt .rangeDash ++ .opt (nt .index))) c d ts)
    (hd : d.rest = ']' :: r) :
    ∃ items, Produces .subscript ('[' :: s) r items := by
  cases h with
  | without =>
    rw [hd] at hfirst
    exact ⟨first, .index hfirst hne⟩
  | «with» h =>
    cases h with
    | seq hdash hlast =>
      obtain ⟨_, -, hmark⟩ := hdash.retained (by decide)
      obtain ⟨hc, -⟩ := takes_of_sign (x := '-') rfl hmark
      rw [hc] at hfirst hn
      cases hlast with
      | without =>
        rw [hd] at hfirst
        exact ⟨_, .range hfirst hne .nothing⟩
      | «with» hlast =>
        obtain ⟨last, hlast, -⟩ := produces_of_index hv hn hlast
        rw [hd] at hlast
        exact ⟨_, .range hfirst hne hlast⟩

theorem produces_of_subscript (hv : ProducesVariables n)
    (hn : c.rest.length ≤ n)
    (h : Derives grammar .plain (.opt (nt .subscript)) c d ts) :
    ∃ items, Produces .subscript c.rest d.rest items := by
  cases h with
  | without => exact ⟨[], .absent⟩
  | «with» h =>
    obtain ⟨_, -, hb⟩ := h.retained (by decide)
    cases hb with
    | seq hb hclose =>
      cases hb with
      | seq hopen htext =>
        obtain ⟨_, -, hb⟩ := htext.retained (by decide)
        obtain ⟨hc, -⟩ := takes_of_sign (x := '[') rfl hopen
        obtain ⟨hd, -⟩ := takes_of_sign (x := ']') rfl hclose
        rw [hc] at hn ⊢
        cases hb with
        | seq hindex hrange =>
          obtain ⟨first, hfirst, hne⟩ := produces_of_index hv hn hindex
          have hle := hindex.length_le
          exact produces_of_range hv
            (Nat.le_trans hle (Nat.le_of_lt hn)) hfirst hne hrange hd

theorem skips_of_opt {m : Mode}
    (h : Derives grammar m (.opt (nt .blanks)) c d ts) :
    Skips c.rest d.rest := by
  cases h.found.symm.trans found_opt_blanks
  exact skips_strip c.rest

/-- What is matched as a variable is produced as one. -/
theorem produces_of_variable (n : Nat) : ProducesVariables n := by
  -- By the length of the text: everything inside of a variable begins behind
  -- its two signs.
  induction n with
  | zero => exact fun _ _ _ hn => absurd hn (Nat.not_lt_zero _)
  | succ n ih =>
    intro c d ts hn h
    obtain ⟨_, -, hb⟩ := h.retained (by decide)
    cases hb with
    | seq hb hclose =>
      cases hb with
      | seq hb hafter =>
        cases hb with
        | seq hb hsubscript =>
          cases hb with
          | seq hb hname =>
            cases hb with
            | seq hopen hbefore =>
              have hc := (takes_of_lit hopen).1.rest
              obtain ⟨hd, -⟩ := takes_of_sign (x := ')') rfl hclose
              have hlt : c.rest.length = _ := congrArg List.length hc
              rw [List.length_append] at hlt
              have hbegin := hbefore.length_le
              have hmiddle := hname.length_le
              have htwo : "$(".toList.length = 2 := rfl
              obtain ⟨name, hname, hne⟩ := produces_of_name ih (by omega) hname
              obtain ⟨subscript, hsubscript⟩ :=
                produces_of_subscript ih (by omega) hsubscript
              have hskip := skips_of_opt hafter
              rw [hd] at hskip
              rw [hc]
              exact ⟨_,
                .reference (skips_of_opt hbefore) hname hne hsubscript hskip⟩

/-- What is matched in the place of a variable or a name is what the rules
produce. -/
theorem produces_of_derives (h : Derives grammar .plain (nt .variable) c d ts) :
    ∃ item, Produces .variable c.rest d.rest [item] :=
  produces_of_variable _ (Nat.lt_succ_self _) h

theorem items_of_derives (h : Derives grammar .plain (nt .name) c d ts) :
    ∃ items, Produces (.items .name) c.rest d.rest items ∧ items ≠ [] :=
  produces_of_name (produces_of_variable _) (Nat.lt_succ_self _) h

end Sound

end Jam
