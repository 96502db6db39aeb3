/-
The names in what was read from a text.

An identifier is a list of parts, and most lists of parts are no
identifier. Those that are read from a parse tree are `Proper`: there is
a part, no text is empty and no two of them stand side by side, and the
characters of the texts are those that the place of the identifier allows.
The same holds of the names and subscripts of the variables inside, and of
the variables inside of these.

# What is proved

- `Identifier.proper`, `Variable.proper`: what is read from a node of the
  grammar is proper.
- `Identifier.ofTree_lone`: an identifier that is but a variable is read
  from a node with nothing but a variable below it.

Texts that stand side by side are joined while parts are read
(`Part.glue`). All that has to be known of it is that it keeps parts
separate (`Separate.glue`) and that it neither adds nor loses characters
(`literalOf_glue`). So the characters of an identifier are those of its
tokens, of which the dash is one, and the grammar has at most one dash.
-/
import Mathlib.Data.List.Chain
import Jam.Proofs.Syntax.Readings
import Jam.Syntax.References

namespace Jam

open Except (Yields)

-- =============================================================== parts

/-- The characters of a part, none if it is a variable. -/
def Part.literal : Part → List Char
  | .text s => s.toList
  | .variable _ => []

/-- The texts of parts, one behind the other. -/
def literalOf (parts : List Part) : List Char := parts.flatMap Part.literal

/-- No text is empty, and no two texts stand side by side. -/
structure Separate (parts : List Part) : Prop where
  filled : Part.text "" ∉ parts
  apart : parts.IsChain fun p q => p.isText = false ∨ q.isText = false

-- ======================================================== proper names

/-- What an identifier is there for. -/
inductive Role
  /-- It names a variable, a parameter or a rule. -/
  | name
  /-- It selects elements of a variable. -/
  | subscript
  /-- It is a word of a list. -/
  | word
deriving DecidableEq

/-- The texts that an identifier may consist of, apart from variables. -/
def Role.Allows : Role → List Char → Prop
  | .name, text => ∀ c ∈ text, isAlnum c = true
  | .subscript, text =>
    (∀ c ∈ text, isDigit c = true ∨ c = '-') ∧ text.count '-' ≤ 1
  | .word, _ => True

mutual

/-- The identifier is as one that was read, and so are the variables in it. -/
inductive Identifier.Proper : Role → Identifier → Prop
  | intro {role : Role} {parts : List Part} {span : Span} :
      parts ≠ [] → Separate parts → role.Allows (literalOf parts) →
      (∀ v, Part.variable v ∈ parts → Variable.Proper v) →
      Identifier.Proper role ⟨parts, span⟩

/-- The variable has a name, and perhaps a subscript. -/
inductive Variable.Proper : Variable → Prop
  | whole {name : Identifier} {span : Span} : Identifier.Proper .name name →
      Variable.Proper ⟨name, none, span⟩
  | selected {name subscript : Identifier} {span : Span} :
      Identifier.Proper .name name → Identifier.Proper .subscript subscript →
      Variable.Proper ⟨name, some subscript, span⟩

end

/-- As a word, an identifier may have any text. -/
theorem Identifier.Proper.word {role : Role} {i : Identifier}
    (h : i.Proper role) : i.Proper .word := by
  cases h with
  | intro hne hsep _ hv => exact .intro hne hsep trivial hv

variable {source context : String} {t : Node} {ts : List Node} {part : Part}
  {parts : List Part} {v : Variable}

-- ============================================================== gluing

/-- Gluing neither adds nor loses characters. -/
theorem literalOf_glue (part : Part) (parts : List Part) :
    literalOf (part.glue parts) = part.literal ++ literalOf parts := by
  unfold Part.glue
  split
  · simp [literalOf, Part.literal]
  · rfl

/-- Gluing joins texts that would stand side by side. -/
theorem Separate.glue (h : Separate parts) (hp : part ≠ .text "") :
    Separate (part.glue parts) := by
  unfold Part.glue
  split
  · next a b parts =>
    have hab : a ++ b ≠ "" :=
      fun hab => hp (congrArg Part.text (String.append_eq_empty_iff.mp hab).1)
    refine ⟨fun hm => ?_, ?_⟩
    · rcases List.mem_cons.mp hm with hm | hm
      · exact hab (Part.text.inj hm).symm
      · exact h.filled (List.mem_cons_of_mem _ hm)
    · have hap := h.apart
      rw [List.isChain_cons] at hap ⊢
      exact hap
  · next hglue =>
    refine ⟨fun hm => ?_, ?_⟩
    · rcases List.mem_cons.mp hm with hm | hm
      · exact hp hm.symm
      · exact h.filled hm
    · refine List.isChain_cons.mpr ⟨fun q hq => ?_, h.apart⟩
      cases part with
      | «variable» => exact .inl rfl
      | text a =>
        cases q with
        | «variable» => exact .inr rfl
        | text b =>
          obtain ⟨rest, rfl⟩ := List.head?_eq_some_iff.mp hq
          exact absurd rfl (hglue a b rest rfl)

/-- The variables stay the same. -/
theorem variable_mem_glue (h : Part.variable v ∈ part.glue parts) :
    part = .variable v ∨ .variable v ∈ parts := by
  unfold Part.glue at h
  split at h
  · rcases List.mem_cons.mp h with h | h
    · cases h
    · exact .inr (List.mem_cons_of_mem _ h)
  · rcases List.mem_cons.mp h with rfl | h
    · exact .inl rfl
    · exact .inr h

/-- What is but a variable was glued to nothing. -/
theorem eq_of_glue_eq (h : part.glue parts = [.variable v]) :
    part = .variable v ∧ parts = [] := by
  unfold Part.glue at h
  split at h
  · cases h
  · cases h
    exact ⟨rfl, rfl⟩

-- ================================================= parts that are read

/-- What a node is read as that is a part of a name. -/
inductive PartOf (source : String) (t : Node) : Part → Prop
  | token : t.kind ∈ [.identifier, .number, .rangeDash] →
      PartOf source t (.text (String.ofList t.text))
  | fragment {text : List Char} :
      t.kind = .fragment → unescape t.text = some text →
      PartOf source t (.text (String.ofList text))
  | variable {v : Variable} :
      t.kind = .variable → Variable.ofTree source t = .ok v →
      PartOf source t (.variable v)

/-- Each node is read as a part, which is glued to those of the nodes behind
it. -/
theorem partsOfTrees_cons :
    Yields (fun parts => ∃ part rest, PartOf source t part ∧
      partsOfTrees source context ts = .ok rest ∧ parts = part.glue rest)
      (partsOfTrees source context (t :: ts)) := by
  have glued {x : Except Error Part} (h : Yields (PartOf source t) x) :
      Yields (fun parts => ∃ part rest, PartOf source t part ∧
        partsOfTrees source context ts = .ok rest ∧ parts = part.glue rest)
        (do return (← x).glue (← partsOfTrees source context ts)) :=
    .bind fun part hp => .bind fun rest hr =>
      .pure ⟨part, rest, h part hp, hr, rfl⟩
  rw [partsOfTrees]
  split
  · next hk => exact glued (.pure (.token (by simp [hk])))
  · next hk => exact glued (.pure (.token (by simp [hk])))
  · next hk => exact glued (.pure (.token (by simp [hk])))
  · next hk =>
    split
    · next text ht => exact glued (.pure (.fragment hk ht))
    · exact glued (.throw _)
  · next hk => exact glued (.map fun v hv => .variable hk hv)
  · exact glued (.throw _)

/-- Tokens and fragments have a text. -/
theorem PartOf.ne_empty (h : PartOf source t part) (ht : Is partKinds t) :
    part ≠ .text "" := by
  have nonempty {text : List Char} (hne : text ≠ []) :
      Part.text (String.ofList text) ≠ .text "" :=
    fun heq => hne (String.ofList_inj.mp (Part.text.inj heq))
  cases h with
  | token hk =>
    simp only [List.mem_cons, List.not_mem_nil, or_false] at hk
    rcases hk with hk | hk | hk
    · exact nonempty (text_identifier (ht.of_kind hk)).1
    · exact nonempty (text_number (ht.of_kind hk)).1
    · refine nonempty ?_
      rw [text_rangeDash (ht.of_kind hk)]
      exact List.cons_ne_nil _ _
  | fragment hk hu =>
    exact nonempty (resolved_fragment_ne_nil (ht.of_kind hk) hu)
  | «variable» => exact fun heq => nomatch heq

/-- The parts that are read are separate. -/
theorem partsOfTrees_separate (h : ∀ t ∈ ts, Is partKinds t) :
    Yields Separate (partsOfTrees source context ts) := by
  induction ts with
  | nil => exact .pure ⟨List.not_mem_nil, .nil⟩
  | cons t ts ih =>
    obtain ⟨ht, hts⟩ := List.forall_mem_cons.mp h
    intro parts hparts
    obtain ⟨part, rest, hpart, hrest, rfl⟩ := partsOfTrees_cons parts hparts
    exact (ih hts rest hrest).glue (hpart.ne_empty ht)

/-- The variables among them were read from variables. -/
theorem partsOfTrees_variables {P : Variable → Prop}
    (h : ∀ t ∈ ts, t.kind = .variable → Yields P (Variable.ofTree source t)) :
    Yields (fun parts => ∀ v, Part.variable v ∈ parts → P v)
      (partsOfTrees source context ts) := by
  induction ts with
  | nil => exact .pure fun _ hv => nomatch hv
  | cons t ts ih =>
    obtain ⟨ht, hts⟩ := List.forall_mem_cons.mp h
    intro parts hparts v hv
    obtain ⟨part, rest, hpart, hrest, rfl⟩ := partsOfTrees_cons parts hparts
    rcases variable_mem_glue hv with rfl | hv
    · cases hpart with
      | «variable» hk hread => exact ht hk v hread
    · exact ih hts rest hrest v hv

/-- The text that a token has in a name. -/
def tokenText (t : Node) : List Char :=
  if t.kind = .variable then [] else t.text

/-- Without escape sequences, their texts are those of the tokens. -/
theorem partsOfTrees_literal (h : ∀ t ∈ ts, t.kind ≠ .fragment) :
    Yields (fun parts => literalOf parts = ts.flatMap tokenText)
      (partsOfTrees source context ts) := by
  induction ts with
  | nil => exact .pure rfl
  | cons t ts ih =>
    obtain ⟨ht, hts⟩ := List.forall_mem_cons.mp h
    intro parts hparts
    obtain ⟨part, rest, hpart, hrest, rfl⟩ := partsOfTrees_cons parts hparts
    have hliteral : part.literal = tokenText t := by
      unfold tokenText
      cases hpart with
      | token hk =>
        rw [if_neg fun hv => by simp [hv] at hk]
        exact String.toList_ofList
      | fragment hk => exact absurd hk ht
      | «variable» hk =>
        rw [if_pos hk]
        rfl
    rw [literalOf_glue, hliteral, ih hts rest hrest, List.flatMap_cons]

-- ======================================================= allowed texts

/-- The kind of nodes that identifiers of a role are read from. -/
def Role.kind : Role → Nonterminal
  | .name => .name
  | .subscript => .subscriptText
  | .word => .joined

theorem tokenText_variable (h : t.kind = .variable) : tokenText t = [] :=
  if_pos h

theorem tokenText_of_ne (h : t.kind ≠ .variable) : tokenText t = t.text :=
  if_neg h

/-- Tokens of one kind, with variables among them, have the characters of that
kind. -/
theorem forall_mem_tokenTexts {kind : Nonterminal} {P : Char → Prop}
    (hkind : kind ≠ .variable)
    (htext : ∀ t : Node, Is [kind] t → ∀ c ∈ t.text, P c)
    (h : ∀ t ∈ ts, Is [kind, .variable] t) :
    ∀ c ∈ ts.flatMap tokenText, P c := by
  intro c hc
  obtain ⟨t, ht, hc⟩ := List.mem_flatMap.mp hc
  have hk : t.kind = kind ∨ t.kind = .variable := by simpa using (h t ht).kind
  rcases hk with hk | hk
  · rw [tokenText_of_ne (hk ▸ hkind)] at hc
    exact htext t ((h t ht).of_kind hk) c hc
  · rw [tokenText_variable hk] at hc
    cases hc

/-- Names consist of letters and digits. -/
theorem allows_name (h : ∀ t ∈ ts, Is [.identifier, .variable] t) :
    Role.name.Allows (ts.flatMap tokenText) :=
  forall_mem_tokenTexts (by decide) (fun _ ht => (text_identifier ht).2) h

/-- An index consists of digits. -/
theorem digits_index (h : ∀ t ∈ ts, Is [.number, .variable] t) :
    ∀ c ∈ ts.flatMap tokenText, isDigit c = true :=
  forall_mem_tokenTexts (by decide) (fun _ ht => (text_number ht).2) h

theorem count_dash_of_digits {text : List Char}
    (h : ∀ c ∈ text, isDigit c = true) : text.count '-' = 0 :=
  List.count_eq_zero.mpr fun hm => absurd (h _ hm) (by decide)

/-- A subscript consists of digits, and perhaps one dash. -/
theorem allows_subscript
    (h : Leaves grammar (Nonterminal.body .subscriptText) ts) :
    Role.subscript.Allows (ts.flatMap tokenText) := by
  obtain ⟨first, hf, rfl | ⟨dash, hd, last, hl, rfl⟩⟩ := below_subscriptText h
  · have hdigits := digits_index hf.all
    exact ⟨fun c hc => .inl (hdigits c hc),
      (count_dash_of_digits hdigits).trans_le (by decide)⟩
  · have hfirst := digits_index hf.all
    have hlast := digits_index hl
    have htext : (first ++ dash :: last).flatMap tokenText =
        first.flatMap tokenText ++ '-' :: last.flatMap tokenText := by
      rw [List.flatMap_append, List.flatMap_cons,
        tokenText_of_ne (by rw [hd.kind_eq]; decide), text_rangeDash hd]
      rfl
    rw [htext]
    refine ⟨fun c hc => ?_, ?_⟩
    · rcases List.mem_append.mp hc with hc | hc
      · exact .inl (hfirst c hc)
      · rcases List.mem_cons.mp hc with rfl | hc
        · exact .inr rfl
        · exact .inl (hlast c hc)
    · rw [List.count_append, List.count_cons_self, count_dash_of_digits hfirst,
        count_dash_of_digits hlast]

/-- What is allowed to the tokens is allowed to the parts that are read. -/
theorem partsOfTrees_allows {role : Role} {kinds : List Nonterminal}
    (h : ∀ t ∈ ts, Is kinds t) (hk : .fragment ∉ kinds)
    (ha : role.Allows (ts.flatMap tokenText)) :
    Yields (fun parts => role.Allows (literalOf parts))
      (partsOfTrees source context ts) := by
  intro parts hparts
  have hliteral : literalOf parts = ts.flatMap tokenText :=
    partsOfTrees_literal (fun t ht hf => hk (hf ▸ (h t ht).kind)) parts hparts
  exact hliteral ▸ ha

section Roles

variable {role : Role} (h : Leaves grammar (Nonterminal.body role.kind) ts)
include h

theorem someAre_below_role : SomeAre partKinds ts := by
  cases role with
  | name => exact (below_name h).mono (by decide)
  | subscript => exact (someAre_below_subscriptText h).mono (by decide)
  | word => exact below_joined h

/-- The parts below a node of a role have the texts that the role allows. -/
theorem below_role_allows :
    Yields (fun parts => role.Allows (literalOf parts))
      (partsOfTrees source context ts) := by
  cases role with
  | name =>
    have hs := below_name h
    exact partsOfTrees_allows hs.all (by decide) (allows_name hs.all)
  | subscript =>
    have hs := someAre_below_subscriptText h
    exact partsOfTrees_allows hs.all (by decide) (allows_subscript h)
  | word => exact fun _ _ => trivial

end Roles

-- ================================================= names that are read

/-- Names, subscripts and variables that are read are proper, at any depth of
variables inside each other. -/
theorem names_proper (t : Node) :
    (∀ role : Role, Is [role.kind] t →
      Yields (·.Proper role) (Identifier.ofTree source t)) ∧
    (Is [.variable] t → Yields Variable.Proper (Variable.ofTree source t)) ∧
    (Is [.subscript] t → ∀ text ∈ t.children,
      Yields (·.Proper .subscript) (Identifier.ofTree source text)) := by
  induction t using Tree.induct with
  | step kind first last children ih =>
    refine ⟨fun role h => ?_, fun h => ?_, fun h text ht => ?_⟩
    · obtain rfl : kind = role.kind := h.kind_eq
      have hr : Nonterminal.retention role.kind ≠ .leaf := by
        cases role <;> decide
      unfold Identifier.ofTree
      split
      · exact .throw _
      · next context _ =>
        have hs := someAre_below_role (h.below hr)
        have hvariables : ∀ t ∈ children, t.kind = .variable →
            Yields Variable.Proper (Variable.ofTree source t) :=
          fun t ht hk => (ih t ht).2.1 ((hs.all t ht).of_kind hk)
        refine .bind fun parts hparts => ?_
        split
        · exact .throw _
        · next hne =>
          exact .pure (.intro hne (partsOfTrees_separate hs.all parts hparts)
            (below_role_allows (h.below hr) parts hparts)
            (partsOfTrees_variables hvariables parts hparts))
    · obtain rfl : kind = .variable := h.kind_eq
      unfold Variable.ofTree
      refine .bind fun _ _ => ?_
      obtain ⟨name, hn, rfl | ⟨s, hs, rfl⟩⟩ :=
        below_variable (h.below (by decide))
      · have hname := (ih name (by simp)).1 .name hn
        exact .bind fun _ _ => .bind fun i hi => .pure (.whole (hname i hi))
      · have hname := (ih name (by simp)).1 .name hn
        have htext := (ih s (by simp)).2.2 hs
        cases s with
        | node kind' first' last' children' =>
          refine .bind fun _ _ => .bind fun i hi => .bind fun _ _ => ?_
          split
          · refine .bind fun _ _ => .bind fun j hj => .pure ?_
            exact .selected (hname i hi) (htext _ List.mem_cons_self j hj)
          · exact .throw _
    · obtain rfl : kind = .subscript := h.kind_eq
      obtain ⟨text', ht', rfl⟩ := below_subscript (h.below (by decide))
      obtain rfl := List.mem_singleton.mp ht
      exact (ih text (by simp)).1 .subscript ht'

theorem Identifier.proper (role : Role) (h : Is [role.kind] t) :
    Yields (·.Proper role) (Identifier.ofTree source t) :=
  (names_proper t).1 role h

theorem Variable.proper (h : Is [.variable] t) :
    Yields Variable.Proper (Variable.ofTree source t) := (names_proper t).2.1 h

/-- An identifier that is but a variable was read from a variable and nothing
else. -/
theorem Identifier.ofTree_lone :
    Yields (fun i => ∀ v, i.parts = [.variable v] → ∃ u : Node,
      u.kind = .variable ∧ t.children = [u]) (Identifier.ofTree source t) := by
  cases t with
  | node kind first last children =>
    unfold Identifier.ofTree
    split
    · exact .throw _
    · refine .bind fun parts hparts => ?_
      split
      · exact .throw _
      · refine .pure fun v hv => ?_
        obtain rfl : parts = [.variable v] := hv
        cases children with
        | nil => cases hparts
        | cons u us =>
          obtain ⟨part, rest, hpart, hrest, hglue⟩ := partsOfTrees_cons _ hparts
          obtain ⟨rfl, rfl⟩ := eq_of_glue_eq hglue.symm
          have hus : us = [] := by
            refine Decidable.byContradiction fun hne => ?_
            exact partsOfTrees_ne_nil hne [] hrest rfl
          cases hpart with
          | «variable» hk => exact ⟨u, hk, hus ▸ rfl⟩

end Jam
