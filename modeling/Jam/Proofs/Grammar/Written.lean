/-
Texts that are one word, whatever follows.

A word is tried as a mark, as a variable, as a name, as a word with
variables in it and last as a string. Three forms of texts are told apart
here, each of them followed by a blank or by nothing: letters and digits
are a name (`derives_alnum`); other plain texts are a string
(`derives_plain`); and so is any text in quotes, with a backslash before
each of its quotes and backslashes (`derives_enquoted`).

That an earlier form does not match is seen from what it would take. No
blank is in that, so it ends inside of the word or with it
(`within_word`), and there the word has something that the form has not.
-/
import Jam.Proofs.Grammar.Escapes
import Jam.Proofs.Grammar.Variables
import Mathlib.Data.List.Infix

namespace Jam

open Nonterminal

variable {m : Mode} {c d : Cursor} {x : Char} {w r u cs : List Char} {p : Point}
  {ts : List Node}

-- ========================================================= plain words

/-- None of these characters is a blank. -/
def Unblank (xs : List Char) : Prop := ∀ x ∈ xs, isBlank x = false

instance (xs : List Char) : Decidable (Unblank xs) :=
  decidable_of_iff (xs.all (!isBlank ·) = true) (by simp [Unblank])

theorem Unblank.append {xs ys : List Char} (hx : Unblank xs) (hy : Unblank ys) :
    Unblank (xs ++ ys) := List.forall_mem_append.mpr ⟨hx, hy⟩

/-- The words that are marks of the language. -/
def markTexts : List String :=
  [";", ":", "\x7b", "\x7d", "+=", "?=", "!=", "<=", ">=", "&&", "||", "=", "<",
    ">", "!", "(", ")"]

/-- A text that can be written as it is. -/
structure IsBare (w : List Char) : Prop where
  ne_nil : w ≠ []
  /-- Line breaks and tabs are control characters. -/
  inside : ∀ c ∈ w, c ≠ ' ' ∧ c ≠ '\\' ∧ isControl c = false
  noVariable : ¬ ['$', '('] <:+: w
  begins : ∀ c ∈ w.head?, c ≠ '"' ∧ c ≠ '#'
  noMark : String.ofList w ∉ markTexts

instance (w : List Char) : Decidable (IsBare w) :=
  decidable_of_iff
    (w ≠ [] ∧ w.all (fun c => c != ' ' && c != '\\' && !isControl c) = true ∧
      ¬ ['$', '('] <:+: w ∧ w.head?.all (fun c => c != '"' && c != '#') = true ∧
      String.ofList w ∉ markTexts) <| by
    simp only [List.all_eq_true, Option.all_eq_true, Bool.and_eq_true,
      bne_iff_ne, Bool.not_eq_true', and_assoc]
    exact ⟨fun h => ⟨h.1, h.2.1, h.2.2.1, h.2.2.2.1, h.2.2.2.2⟩,
      fun h => ⟨h.ne_nil, h.inside, h.noVariable, h.begins, h.noMark⟩⟩

/-- Blanks are the space, and control characters. -/
theorem isBlank_eq_false (hs : x ≠ ' ') (hc : isControl x = false) :
    isBlank x = false := by
  have hne : x ∉ ['\t', '\r', '\n'] := by
    intro hx
    simp only [List.mem_cons, List.not_mem_nil, or_false] at hx
    rcases hx with rfl | rfl | rfl <;> cases hc
  simp_all [isBlank]

theorem IsBare.unblank (h : IsBare w) : Unblank w := fun c hc =>
  isBlank_eq_false (h.inside c hc).1 (h.inside c hc).2.2

-- ========================================== what ends inside of a word

/-- What takes no blank ends inside of the word, or with it. -/
theorem within_word (hr : bounded r = true) (hcs : Unblank cs)
    (h : w ++ r = cs ++ u) : ∃ v, w = cs ++ v ∧ u = v ++ r := by
  rcases List.append_eq_append_iff.mp h with ⟨v, rfl, rfl⟩ | ⟨v, rfl, rfl⟩
  · cases v with
    | nil => exact ⟨[], by simp, rfl⟩
    | cons y v =>
      have hy := hcs y (by simp)
      rw [List.cons_append, bounded, hy] at hr
      cases hr
  · exact ⟨v, rfl, rfl⟩

/-- If a blank follows, then it is the whole word. -/
theorem whole_word (hw : Unblank w) (hr : bounded r = true)
    (hcs : Unblank cs) (hu : bounded u = true) (h : w ++ r = cs ++ u) :
    w = cs := by
  obtain ⟨v, rfl, rfl⟩ := within_word hr hcs h
  cases v with
  | nil => exact List.append_nil cs
  | cons y v =>
    rw [List.cons_append, bounded, hw y (by simp)] at hu
    cases hu

/-- What follows a word does not make the beginning of a variable of it. -/
theorem noVariable_append (hr : bounded r = true) (h : ¬ ['$', '('] <+: w) :
    ¬ ['$', '('] <+: w ++ r := by
  rintro ⟨v, hv⟩
  have hunblank : Unblank ['$', '('] := by decide
  obtain ⟨u, hu, -⟩ := within_word hr hunblank hv.symm
  exact h ⟨u, hu.symm⟩

/-- No variable begins inside of a plain word. -/
theorem IsBare.noVariable_within (h : IsBare w) (hr : bounded r = true)
    (hcs : Unblank cs) {v : List Char} : w ++ r ≠ cs ++ '$' :: '(' :: v := by
  intro heq
  obtain ⟨u, rfl, hu⟩ := within_word hr hcs heq
  refine noVariable_append hr (fun hp => h.noVariable ?_) ⟨v, hu⟩
  exact hp.isInfix.trans (List.suffix_append cs u).isInfix

-- ============================================= forms that do not match

theorem found_lit_none {text : String} (h : ¬ text.toList <+: c.rest) :
    grammar.found m (Peg.lit text) c = none := by
  cases hf : grammar.found m (Peg.lit text) c with
  | none => rfl
  | some f =>
    exact absurd ⟨_, (takes_of_lit (derives_of_found hf)).1.rest.symm⟩ h

/-- A variable begins with its two signs. -/
theorem found_reference_none (h : ¬ ['$', '('] <+: c.rest) :
    grammar.found m (nt .variable) c = none :=
  found_none_of_body fun _ => found_none_of_leftmost (found_lit_none h)

theorem found_escape_none (h : x ≠ '\\') :
    grammar.found m (nt .escape) ⟨x :: r, p⟩ = none :=
  found_none_of_keyword rfl h

theorem spells_marks :
    Spells grammar m marks fun xs => String.ofList xs ∈ markTexts := by
  have mark {text : String} (h : text ∈ markTexts) :
      Spells grammar m (Peg.lit text) fun xs => String.ofList xs ∈ markTexts :=
    .lit (by rwa [String.ofList_toList])
  exact .alt (mark (by decide)) <| .alt (mark (by decide)) <|
    .alt (mark (by decide)) <| .alt (mark (by decide)) <|
    .alt (mark (by decide)) <| .alt (mark (by decide)) <|
    .alt (mark (by decide)) <| .alt (mark (by decide)) <|
    .alt (mark (by decide)) <| .alt (mark (by decide)) <|
    .alt (mark (by decide)) <| .alt (mark (by decide)) <|
    .alt (mark (by decide)) <| .alt (mark (by decide)) <|
    .alt (mark (by decide)) <| .alt (mark (by decide)) <| mark (by decide)

/-- A match of a boundary. -/
theorem bounded_of_boundary (h : Derives grammar m (nt .boundary) c d ts) :
    d = c ∧ bounded c.rest = true := by
  have hf := h.found
  rw [found_boundary] at hf
  split at hf
  · next hb =>
    cases hf
    exact ⟨rfl, hb⟩
  · cases hf

/-- No mark stands here, alone. -/
theorem found_operator_none_of
    (h : ∀ taken v, String.ofList taken ∈ markTexts → c.rest = taken ++ v →
      bounded v = false) : grammar.found m (nt .operator) c = none := by
  rcases hf : grammar.found m (nt .operator) c with _ | ⟨d, ts⟩
  · rfl
  · have hd : Derives grammar m (nt .operator) c d ts := derives_of_found hf
    cases hd with
    | silent _ hb =>
      cases hb with
      | seq hmark hboundary =>
        obtain ⟨taken, ht, hm⟩ := spells_marks _ _ _ hmark
        obtain ⟨-, hb⟩ := bounded_of_boundary hboundary
        rw [h taken _ hm ht.rest] at hb
        cases hb
    | node hs | bare hs => exact absurd rfl hs

-- =============================================================== names

/-- Without a variable, items are characters of their class. -/
theorem Produces.characters {a : Alphabet} {s t : List Char} {items : List Item}
    (h : Produces (.items a) s t items) : ∃ cs, (∀ c ∈ cs, a.accepts c = true) ∧
      (s = cs ++ t ∨ ∃ v, s = cs ++ '$' :: '(' :: v) := by
  generalize hf : Form.items a = form at h
  induction h with
  | nothing => exact ⟨[], by simp, .inl rfl⟩
  | @run b cs s t items _ hcs _ ih =>
    cases hf
    obtain ⟨ds, hds, h⟩ := ih rfl
    refine ⟨cs ++ ds, List.forall_mem_append.mpr ⟨hcs, hds⟩, ?_⟩
    rcases h with rfl | ⟨v, rfl⟩
    · exact .inl (List.append_assoc ..).symm
    · exact .inr ⟨v, (List.append_assoc ..).symm⟩
  | «variable» hv =>
    cases hf
    cases hv with
    | reference => exact ⟨[], by simp, .inr ⟨_, rfl⟩⟩
  | absent | index | range | reference => cases hf

theorem isBlank_of_isAlnum (h : isAlnum x = true) : isBlank x = false := by
  have hi := isInner_of_isAlnum h
  rw [isInner, Bool.and_eq_true, Bool.not_eq_true'] at hi
  exact hi.1

/-- A plain word that is a name consists of letters and digits. -/
theorem found_name_none_of_plain (hw : IsBare w) (hr : bounded r = true)
    (halnum : ¬ ∀ c ∈ w, isAlnum c = true) :
    grammar.found .plain (nt .name ++ nt .boundary) ⟨w ++ r, p⟩ = none := by
  rcases hf : grammar.found .plain (nt .name ++ nt .boundary)
      ⟨w ++ r, p⟩ with _ | ⟨d, ts⟩
  · rfl
  · have hd :
        Derives grammar .plain (nt .name ++ nt .boundary) ⟨w ++ r, p⟩ d ts :=
      derives_of_found hf
    cases hd with
    | seq hname hboundary =>
      obtain ⟨items, hitems, -⟩ := items_of_derives hname
      obtain ⟨cs, hcs, h⟩ := hitems.characters
      have hunblank : Unblank cs := fun c hc => isBlank_of_isAlnum (hcs c hc)
      rcases h with h | ⟨v, h⟩
      · obtain rfl :=
          whole_word hw.unblank hr hunblank (bounded_of_boundary hboundary).2 h
        exact absurd hcs halnum
      · exact absurd h (hw.noVariable_within hr hunblank)

-- ======================================== words with variables in them

/-- There are no blanks in an escape sequence. -/
theorem spells_escape_unblank : Spells grammar m (nt .escape) Unblank := by
  have append : ∀ xs ys, Unblank xs → Unblank ys → Unblank (xs ++ ys) :=
    fun _ _ => .append
  have digit {m : Mode} {accepts : Char → Bool}
      (h : [' ', '\t', '\r', '\n'].any accepts = false) :
      Spells grammar m (.one accepts) Unblank := by
    refine .one fun x hx =>
      List.forall_mem_singleton.mpr (Bool.eq_false_iff.mpr fun hb => ?_)
    exact List.any_eq_false.mp h x (by simpa [isBlank, or_assoc] using hb) hx
  have sign {m : Mode} {text : String}
      (h : text.toList.all (!isBlank ·) = true) :
      Spells grammar m (Peg.lit text) Unblank :=
    .lit fun x hx => by simpa using List.all_eq_true.mp h x hx
  have hsigns {m : Mode} : Spells grammar m escapedSigns Unblank :=
    .alt (sign rfl) <| .alt (sign rfl) <| .alt (sign rfl) <| .alt (sign rfl) <|
      .alt (sign rfl) <|
    .alt (sign rfl) <| .alt (sign rfl) <| .alt (sign rfl) <| .alt (sign rfl) <|
      sign rfl
  have hoctal {m : Mode} : Spells grammar m (.one isOctalDigit) Unblank :=
    digit rfl
  have hhex {m : Mode} : Spells grammar m (.one isHexDigit) Unblank := digit rfl
  have hnil : Unblank [] := List.forall_mem_nil _
  exact .call fun m =>
    .seq (sign rfl) (.alt (.seq (.seq (sign rfl) hhex append) hhex append)
      (.alt (.seq (.seq hoctal (.opt hoctal hnil) append)
        (.opt hoctal hnil) append) hsigns)) append

/-- There are no blanks in front of the first variable of a word. -/
theorem spells_front :
    Spells grammar m (.many (nt .identifier <|> nt .fragment)) Unblank := by
  have append : ∀ xs ys, Unblank xs → Unblank ys → Unblank (xs ++ ys) :=
    fun _ _ => .append
  have hnil : Unblank [] := List.forall_mem_nil _
  have hidentifier : Spells grammar m (nt .identifier) Unblank := .call fun m =>
    .plus (.one fun x hx =>
      List.forall_mem_singleton.mpr (isBlank_of_isAlnum hx)) hnil append
  have hfragment : Spells grammar m (nt .fragment) Unblank := .call fun m =>
    .plus (.alt spells_escape_unblank <| .excluding fun x hx =>
      List.forall_mem_singleton.mpr <|
      Bool.eq_false_iff.mpr fun hb => hx (.left (meets_blank hb))) hnil append
  exact .many (.alt hidentifier hfragment) hnil append

/-- Where a word that has a variable in it begins, the variable comes before the
next blank. -/
theorem found_joined_none
    (h : ∀ cs v, Unblank cs → c.rest ≠ cs ++ '$' :: '(' :: v) :
    grammar.found m (nt .joined) c = none := by
  refine found_none_of_body fun m => ?_
  rcases hf : grammar.found m (body .joined) c with _ | ⟨d, ts⟩
  · rfl
  · have hd : Derives grammar m (body .joined) c d ts := derives_of_found hf
    cases hd with
    | seq hd _ =>
      cases hd with
      | @seq _ _ _ _ e _ _ _ hfront hvariable =>
        obtain ⟨cs, ht, hcs⟩ := spells_front _ _ _ hfront
        by_cases hp : ['$', '('] <+: e.rest
        · obtain ⟨v, hv⟩ := hp
          refine absurd ?_ (h cs v hcs)
          rw [ht.rest, ← hv]
          rfl
        · have hnone := found_reference_none (m := m) hp
          rw [hvariable.found] at hnone
          cases hnone

-- ============================================== strings without quotes

/-- What a string without quotes may hold besides escape sequences. -/
def unquotedSign : Peg Nonterminal :=
  anyBut (nt .blank <|> Peg.lit "\\" <|> Peg.lit "$(" <|> Peg.one isControl)

/-- One character of a plain word. -/
theorem found_unquotedSign (hx : x ≠ ' ' ∧ x ≠ '\\' ∧ isControl x = false)
    (h : ¬ ['$', '('] <+: x :: u) :
    grammar.found m unquotedSign ⟨x :: u, p⟩ = some ⟨⟨u, p.after x⟩, []⟩ := by
  have hnone {m : Mode} : grammar.found m (nt .blank <|> Peg.lit "\\" <|>
      Peg.lit "$(" <|> Peg.one isControl) ⟨x :: u, p⟩ = none := by
    have hlit : grammar.found m (Peg.lit "$(") ⟨x :: u, p⟩ = none :=
      found_lit_none h
    change grammar.found m (.alt (nt .blank)
      (.alt (.chars ['\\']) (.alt (Peg.lit "$(") (.one isControl)))) _ = _
    rw [Grammar.found_alt, Grammar.found_alt, Grammar.found_alt, found_blank,
      found_sign, hlit, Grammar.found_one_cons, isBlank_eq_false hx.1 hx.2.2,
      if_neg hx.2.1, hx.2.2]
    rfl
  rw [unquotedSign, found_anyBut, hnone]
  rfl

/-- Where a word ends there is no further character. -/
theorem found_unquoted_none (hr : bounded r = true) :
    grammar.found m (nt .escape <|> unquotedSign) ⟨r, p⟩ = none := by
  cases r with
  | nil => exact found_end rfl rfl
  | cons x r =>
    have hx : isBlank x = true := hr
    change grammar.found m (.alt _ _) _ = none
    rw [Grammar.found_alt, found_escape_none, unquotedSign, found_anyBut,
      (Meets.left (meets_blank hx)) r p]
    · rfl
    · rintro rfl
      cases hx

/-- The next character of a plain word. -/
theorem derives_unquotedSign (hr : bounded r = true)
    (hx : x ≠ ' ' ∧ x ≠ '\\' ∧ isControl x = false)
    (hv : ¬ ['$', '('] <:+: x :: w) :
    Derives grammar m (nt .escape <|> unquotedSign) ⟨x :: w ++ r, p⟩
      ⟨w ++ r, p.after x⟩ [] :=
  .right (found_escape_none hx.2.1) <| derives_iff.mpr <|
    found_unquotedSign hx (noVariable_append hr fun hp => hv hp.isInfix)

/-- All of a plain word is taken. -/
theorem derives_unquoted_run (hr : bounded r = true)
    (hw : ∀ c ∈ w, c ≠ ' ' ∧ c ≠ '\\' ∧ isControl c = false)
    (hv : ¬ ['$', '('] <:+: w) :
    Derives grammar m (.many (nt .escape <|> unquotedSign)) ⟨w ++ r, p⟩
      ⟨r, p.afterAll w⟩ [] := by
  induction w generalizing p with
  | nil => exact .stop (found_unquoted_none hr)
  | cons x w ih =>
    obtain ⟨hx, hw⟩ := List.forall_mem_cons.mp hw
    have hsign :
        Derives grammar m (nt .escape <|> unquotedSign) ⟨x :: w ++ r, p⟩ _ [] :=
      derives_unquotedSign hr hx hv
    exact .more hsign (offset_behind hsign.found rfl)
      (ih hw fun hi => hv (hi.trans (List.suffix_cons x w).isInfix))

/-- A plain word is a string without quotes. -/
theorem derives_unquoted (hw : IsBare w) (hr : bounded r = true) :
    Derives grammar .plain (nt .unquoted) ⟨w ++ r, p⟩ ⟨r, p.afterAll w⟩
      [.node .unquoted ⟨w ++ r, p⟩ ⟨r, p.afterAll w⟩ []] := by
  rcases w with _ | ⟨x, w⟩
  · exact absurd rfl hw.ne_nil
  · obtain ⟨hx, hin⟩ := List.forall_mem_cons.mp hw.inside
    have hquote : ∀ m, grammar.found m (Peg.lit "\"") ⟨x :: w ++ r, p⟩ = none :=
      fun m => found_sign.trans (if_neg (hw.begins x rfl).1)
    have hno : Derives grammar (grammar.bodyMode .unquoted .plain)
        (.notAhead (Peg.lit "\"")) ⟨x :: w ++ r, p⟩ ⟨x :: w ++ r, p⟩ [] :=
      .notAhead (hquote _)
    have hsign : Derives grammar (grammar.bodyMode .unquoted .plain)
        (nt .escape <|> unquotedSign) ⟨x :: w ++ r, p⟩ ⟨w ++ r, p.after x⟩ [] :=
      derives_unquotedSign hr hx hw.noVariable
    exact .node (by decide) rfl (.seq hno (.seq hsign (derives_unquoted_run hr
      hin fun hi => hw.noVariable (hi.trans (List.suffix_cons x w).isInfix))))

-- ================================================ words without quotes

section Words

/-- A word of one of its forms. -/
theorem derives_word {t : Node}
    (hmark : ∀ m, grammar.found m (nt .operator) c = none)
    (h : Derives grammar .plain (nt .variable ++ nt .boundary <|> nt .name ++
      nt .boundary <|> nt .joined ++ nt .boundary <|> nt .string) c d [t]) :
    Derives grammar .plain (nt .word) c d [t] :=
  .silent rfl (.seq (.notAhead (hmark _)) h)

/-- A word is a string if it is none of the other forms. -/
theorem derives_string_word {t : Node}
    (hmark : ∀ m, grammar.found m (nt .operator) c = none)
    (hvariable : grammar.found .plain (nt .variable) c = none)
    (hname : grammar.found .plain (nt .name ++ nt .boundary) c = none)
    (hjoined : grammar.found .plain (nt .joined) c = none)
    (h : Derives grammar .plain (nt .string) c d [t]) :
    Derives grammar .plain (nt .word) c d [t] :=
  derives_word hmark <| .right (found_none_of_leftmost hvariable) <|
    .right hname <| .right (found_none_of_leftmost hjoined) h

/-- No mark begins with this character. -/
theorem found_operator_none_of_head
    (h : ∀ text ∈ markTexts, text.toList.head? ≠ some x) :
    grammar.found m (nt .operator) ⟨x :: r, p⟩ = none := by
  refine found_operator_none_of fun taken v htaken heq => ?_
  have hhead := h _ htaken
  rw [String.toList_ofList] at hhead
  cases taken with
  | nil => exact absurd htaken (by decide)
  | cons y taken =>
    cases heq
    exact absurd rfl hhead

theorem derives_boundary (hr : bounded r = true) :
    Derives grammar m (nt .boundary) ⟨r, p⟩ ⟨r, p⟩ [] := by
  rw [derives_iff, found_boundary, if_pos hr]

/-- Letters and digits are a name. -/
theorem derives_alnum (hne : w ≠ []) (hw : ∀ c ∈ w, isAlnum c = true)
    (hr : bounded r = true) :
    Derives grammar .plain (nt .word) ⟨w ++ r, p⟩ ⟨r, p.afterAll w⟩
      [.node .name ⟨w ++ r, p⟩ ⟨r, p.afterAll w⟩
        [.node .identifier ⟨w ++ r, p⟩ ⟨r, p.afterAll w⟩ []]] := by
  have hends : EndsItems .name r := by
    cases r with
    | nil => exact endsItems_nil
    | cons y r =>
      have hy : isBlank y = true := hr
      refine endsItems_cons ⟨Bool.eq_false_iff.mpr fun ha => ?_, ?_⟩
      · rw [isBlank_of_isAlnum ha] at hy
        cases hy
      · rintro rfl
        cases hy
  have htoken : Derives grammar .plain (nt .identifier <|> nt .variable)
      ⟨w ++ r, p⟩ _ _ :=
    .left (derives_token (a := .name) hne hw fun y hy => (hends y hy).1)
  have hname :
      Derives grammar .plain (nt .name) ⟨w ++ r, p⟩ ⟨r, p.afterAll w⟩ _ :=
    .node (by decide) rfl (.seq htoken (.stop hends.found_none))
  obtain ⟨x, w, rfl⟩ := List.exists_cons_of_ne_nil hne
  have hx : isAlnum x = true := hw x List.mem_cons_self
  have hmark : ∀ text ∈ markTexts, text.toList.head?.any isAlnum = false := by
    decide
  refine derives_word
    (fun m => found_operator_none_of_head fun text ht heq => ?_) ?_
  · have hnone := hmark text ht
    rw [heq, Option.any_some, hx] at hnone
    cases hnone
  · refine .right (found_none_of_leftmost (found_variable_none ?_)) (.left ?_)
    · rintro _ ⟨⟩ rfl
      cases hx
    · exact .seq hname (derives_boundary hr)

/-- Another plain word is a string. -/
theorem derives_plain (hw : IsBare w) (halnum : ¬ ∀ c ∈ w, isAlnum c = true)
    (hr : bounded r = true) :
    Derives grammar .plain (nt .word) ⟨w ++ r, p⟩ ⟨r, p.afterAll w⟩
      [.node .string ⟨w ++ r, p⟩ ⟨r, p.afterAll w⟩
        [.node .unquoted ⟨w ++ r, p⟩ ⟨r, p.afterAll w⟩ []]] := by
  have hmark : ∀ text ∈ markTexts, Unblank text.toList := by decide
  refine derives_string_word
    (fun m => found_operator_none_of fun taken v htaken heq => ?_)
    (found_reference_none
      (noVariable_append hr fun hp => hw.noVariable hp.isInfix))
    (found_name_none_of_plain hw hr halnum)
    (found_joined_none fun cs v hcs => hw.noVariable_within hr hcs) ?_
  · by_contra hb
    have htaken' := hmark _ htaken
    rw [String.toList_ofList] at htaken'
    obtain rfl := whole_word hw.unblank hr htaken' (by simpa using hb) heq
    exact hw.noMark htaken
  · have hquote : grammar.found .plain (Peg.lit "\"") ⟨w ++ r, p⟩ = none := by
      refine found_lit_none ?_
      rintro ⟨v, hv⟩
      rcases w with _ | ⟨x, w⟩
      · exact hw.ne_nil rfl
      · cases hv
        exact (hw.begins '"' rfl).1 rfl
    exact .node (by decide) rfl
      (.right (found_none_of_leftmost hquote) (derives_unquoted hw hr))

end Words

-- ===================================================== words in quotes

/-- A backslash goes before a quote and before a backslash. -/
def guarded (c : Char) : List Char :=
  if c = '"' ∨ c = '\\' then ['\\', c] else [c]

/-- A text in quotes. -/
def enquoted (w : List Char) : List Char := '"' :: (w.flatMap guarded ++ ['"'])

theorem guarded_of_sign (h : x = '"' ∨ x = '\\') : guarded x = ['\\', x] :=
  if_pos h

theorem guarded_of_ne (h : ¬ (x = '"' ∨ x = '\\')) : guarded x = [x] := if_neg h

/-- A backslash and a quote, or a second backslash, are an escape sequence. -/
theorem derives_escape (hx : x = '"' ∨ x = '\\')
    (hm : (grammar.ownMode .escape m).keepsNodes = false) :
    Derives grammar m (nt .escape) ⟨'\\' :: x :: r, p⟩
      ⟨r, (p.after '\\').after x⟩ [] := by
  have hsign : (x, x) ∈ signs := by
    rcases hx with rfl | rfl <;> decide
  exact .bare (by decide) hm
    (.seq (derives_sign rfl rfl) (derives_signed hsign))

/-- What a string in quotes may hold. -/
def quotedSign : Peg Nonterminal :=
  nt .escape <|> anyBut (Peg.lit "\"" <|> Peg.lit "\\")

theorem found_quotedSign_none :
    grammar.found m quotedSign ⟨'"' :: r, p⟩ = none := by
  have hquote : Meets grammar m.notAhead (Peg.lit "\"" <|> Peg.lit "\\") '"' :=
    .left .lit
  change grammar.found m (.alt _ (anyBut (Peg.lit "\"" <|> Peg.lit "\\"))) _ =
    none
  rw [Grammar.found_alt, found_escape_none (by decide), found_anyBut,
    hquote r p]
  rfl

theorem derives_quotedSign (hx : ¬ (x = '"' ∨ x = '\\')) :
    Derives grammar m quotedSign ⟨x :: r, p⟩ ⟨r, p.after x⟩ [] := by
  obtain ⟨hquote, hslash⟩ := not_or.mp hx
  refine .right (found_escape_none hslash) (derives_iff.mpr ?_)
  have hnone {m : Mode} :
      grammar.found m (Peg.lit "\"" <|> Peg.lit "\\") ⟨x :: r, p⟩ = none := by
    change grammar.found m (.alt (.chars ['"']) (.chars ['\\'])) _ = none
    rw [Grammar.found_alt, found_sign, found_sign, if_neg hquote, if_neg hslash]
    rfl
  rw [found_anyBut, hnone]
  rfl

/-- Inside of quotes all is taken up to the quote that has no backslash before
it. -/
theorem derives_guarded_run
    (hm : (grammar.ownMode .escape m).keepsNodes = false) :
    Derives grammar m (.many quotedSign) ⟨w.flatMap guarded ++ '"' :: r, p⟩
      ⟨'"' :: r, p.afterAll (w.flatMap guarded)⟩ [] := by
  induction w generalizing p with
  | nil => exact .stop found_quotedSign_none
  | cons x w ih =>
    rw [List.flatMap_cons, List.append_assoc, Point.afterAll_append]
    by_cases hx : x = '"' ∨ x = '\\'
    · rw [guarded_of_sign hx]
      have hone : Derives grammar m quotedSign
          ⟨'\\' :: x :: (w.flatMap guarded ++ '"' :: r), p⟩ _ [] :=
        .left (derives_escape hx hm)
      exact .more hone (offset_behind hone.found rfl) ih
    · rw [guarded_of_ne hx]
      have hone : Derives grammar m quotedSign
          ⟨x :: (w.flatMap guarded ++ '"' :: r), p⟩ _ [] :=
        derives_quotedSign hx
      exact .more hone (offset_behind hone.found rfl) ih

/-- No word that has a variable in it begins with a quote. -/
theorem found_joined_none_of_quote :
    grammar.found m (nt .joined) ⟨'"' :: r, p⟩ = none := by
  have hidentifier {m : Mode} : grammar.found m (nt .identifier) ⟨'"' :: r, p⟩ =
      none :=
    found_token_none (a := .name) (by rintro _ ⟨⟩; rfl)
  have hfragment {m : Mode} : grammar.found m (nt .fragment) ⟨'"' :: r, p⟩ =
      none := by
    have hquote {m : Mode} :
        Meets grammar m (nt .blank <|> Peg.lit "\\" <|> Peg.lit "\"" <|>
          Peg.lit "$(" <|> Peg.one isAlnum <|> Peg.one isControl) '"' :=
      .right (.right (.left .lit))
    refine found_none_of_body fun m => found_none_of_leftmost ?_
    change grammar.found _ (.alt (nt .escape) (anyBut _)) _ = none
    rw [Grammar.found_alt, found_escape_none (by decide), found_anyBut,
      hquote r p]
    rfl
  have hfront {m : Mode} :
      grammar.found m (nt .identifier <|> nt .fragment) ⟨'"' :: r, p⟩ =
      none := by
    change grammar.found m (.alt _ _) _ = none
    rw [Grammar.found_alt, hidentifier, hfragment]
    rfl
  refine found_none_of_body fun m => ?_
  change grammar.found _ (.seq (.seq (.many _) (nt .variable)) _) _ = none
  rw [Grammar.found_seq, Grammar.found_seq, found_many_none hfront,
    Option.bind_some, found_variable_none (by rintro _ ⟨⟩; decide)]
  rfl

/-- A text in quotes is a string. -/
theorem derives_enquoted :
    ∃ q, Derives grammar .plain (nt .word) ⟨enquoted w ++ r, p⟩ ⟨r, q⟩
      [.node .string ⟨enquoted w ++ r, p⟩ ⟨r, q⟩
        [.node .quoted ⟨w.flatMap guarded ++ '"' :: r, p.after '"'⟩
          ⟨'"' :: r, (p.after '"').afterAll (w.flatMap guarded)⟩ []]] := by
  have htext : enquoted w ++ r = '"' :: (w.flatMap guarded ++ '"' :: r) := by
    rw [enquoted, List.cons_append, List.append_assoc]
    rfl
  rw [htext]
  have hmark : ∀ text ∈ markTexts, text.toList.head? ≠ some '"' := by decide
  have hends : EndsItems .name ('"' :: (w.flatMap guarded ++ '"' :: r)) :=
    endsItems_cons (by decide)
  have hquoted : Derives grammar .plain (nt .quoted)
      ⟨w.flatMap guarded ++ '"' :: r, p.after '"'⟩
      ⟨'"' :: r, (p.after '"').afterAll (w.flatMap guarded)⟩ _ :=
    .node (by decide) rfl (derives_guarded_run rfl)
  have hstring : Derives grammar .plain (nt .string)
      ⟨'"' :: (w.flatMap guarded ++ '"' :: r), p⟩ _ _ :=
    .node (by decide) rfl <|
      .left (.seq (.seq (derives_sign rfl rfl) hquoted) (derives_sign rfl rfl))
  exact ⟨_, derives_string_word (fun m => found_operator_none_of_head hmark)
    (found_variable_none fun x hx => (hends x hx).2) (found_none_of_leftmost
      hends.found_name_none) found_joined_none_of_quote hstring⟩

-- ======================================================= between words

/-- A blank leads to the next word. -/
theorem derives_blank (hx : isInner x = true) (p : Point) :
    ∃ q, Derives grammar m (nt .blanks) ⟨' ' :: x :: u, p⟩ ⟨x :: u, q⟩ [] := by
  have hstrip : strip false (' ' :: x :: u) = x :: u := strip_of_inner hx
  have hd : Derives grammar m (nt .blanks) ⟨' ' :: x :: u, p⟩
      (Cursor.next ⟨' ' :: x :: u, p⟩) [] :=
    derives_blanks.mpr ⟨List.cons_ne_nil _ _, rfl, rfl⟩
  rw [Cursor.next, hstrip] at hd
  exact ⟨_, hd⟩

theorem derives_blank_before (hw : ∃ x v, w = x :: v ∧ isInner x = true)
    (p : Point) :
    ∃ q, Derives grammar m (nt .blanks) ⟨' ' :: (w ++ u), p⟩ ⟨w ++ u, q⟩
      [] := by
  obtain ⟨x, v, rfl, hx⟩ := hw
  exact derives_blank hx p

end Jam
