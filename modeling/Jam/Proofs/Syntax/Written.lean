/-
Lists that are written word by word.

A text is read as a word with some property if it is so whatever follows,
as long as this is a blank or nothing (`ReadsWord`). Names, other plain
texts and texts in quotes are words that stand for themselves
(`IsBare.readsWord`, `readsWord_enquoted`): quoting undoes what resolving
escape sequences does.

Texts that are read as words, with single blanks between them, are read as
the list of these words (`readsList`).
-/
import Jam.Proofs.Grammar.Written
import Jam.Proofs.Syntax.Variables

namespace Jam

open Nonterminal (nt)

variable {source : String} {w r : List Char} {x : Char} {p : Point} {β : Type}

-- ==================================================== escape sequences

theorem unescape_cons {cs : List Char} (h : x ≠ '\\') :
    unescape (x :: cs) = (unescape cs).map (x :: ·) := by
  rw [unescape]
  exact h

theorem unescape_backslash {cs rest : List Char}
    (h : escape? cs = some (x, rest)) :
    unescape ('\\' :: cs) = (unescape rest).map (x :: ·) := by
  rw [unescape]
  split
  · next heq =>
    cases h.symm.trans heq
    rfl
  · next heq => cases h.symm.trans heq

/-- A text without backslashes is kept. -/
theorem unescape_of_plain (h : ∀ c ∈ w, c ≠ '\\') : unescape w = some w := by
  induction w with
  | nil => rw [unescape]
  | cons x w ih =>
    obtain ⟨hx, hw⟩ := List.forall_mem_cons.mp h
    rw [unescape_cons hx, ih hw]
    rfl

/-- Backslashes that were put before quotes and backslashes go away again. -/
theorem unescape_guarded (w : List Char) :
    unescape (w.flatMap guarded) = some w := by
  induction w with
  | nil => rw [List.flatMap_nil, unescape]
  | cons x w ih =>
    rw [List.flatMap_cons]
    by_cases hx : x = '"' ∨ x = '\\'
    · have hescape : escape? (x :: w.flatMap guarded) =
          some (x, w.flatMap guarded) := by
        rcases hx with rfl | rfl <;> rfl
      rw [guarded_of_sign hx]
      exact (unescape_backslash hescape).trans (by rw [ih]; rfl)
    · rw [guarded_of_ne hx, List.singleton_append,
        unescape_cons (not_or.mp hx).2, ih]
      rfl

-- =============================================================== words

/-- The text is read as a word with this property, wherever a blank or nothing
follows. -/
structure ReadsWord (source : String) (w : List Char) (P : Word → Prop) :
    Prop where
  begins : ∃ x v, w = x :: v ∧ isInner x = true
  reads : ∀ r p, bounded r = true → ∃ q t word,
    Derives grammar .plain (nt .word) ⟨w ++ r, p⟩ ⟨r, q⟩ [t] ∧
      Word.ofTree source t = .ok word ∧ P word

theorem ReadsWord.mono {P Q : Word → Prop} (h : ReadsWord source w P)
    (hPQ : ∀ word, P word → Q word) : ReadsWord source w Q := by
  refine ⟨h.begins, fun r p hr => ?_⟩
  obtain ⟨q, t, word, hd, hread, hword⟩ := h.reads r p hr
  exact ⟨q, t, word, hd, hread, hPQ word hword⟩

/-- A word that stands for its text. -/
inductive Word.Means (text : String) : Word → Prop
  | literal {span} : Means text (.literal ⟨text, span⟩)
  | name {span} : Means text (.identifier ⟨[.text text], span⟩)

/-- Letters and digits are a name. -/
theorem readsWord_alnum (hne : w ≠ []) (hw : ∀ c ∈ w, isAlnum c = true) :
    ReadsWord source w fun word =>
      ∃ span, word = .identifier ⟨[.text (String.ofList w)], span⟩ := by
  constructor
  · obtain ⟨x, v, rfl⟩ := List.exists_cons_of_ne_nil hne
    exact ⟨x, v, rfl, isInner_of_isAlnum (hw x List.mem_cons_self)⟩
  · intro r p hr
    have htakes : Cursor.Takes ⟨w ++ r, p⟩ w ⟨r, p.afterAll w⟩ := ⟨rfl, rfl⟩
    have hread :
        Identifier.ofTree source (.node .name ⟨w ++ r, p⟩ ⟨r, p.afterAll w⟩
          [.node .identifier ⟨w ++ r, p⟩ ⟨r, p.afterAll w⟩ []]) =
        .ok ⟨[.text (String.ofList w)], ⟨source, p, p.afterAll w⟩⟩ :=
      Identifier.ofTree_eq rfl (.cons (partOf_token (a := .name) htakes) .nil)
        (List.cons_ne_nil _ _)
    exact ⟨_, _,
      .identifier ⟨[.text (String.ofList w)], ⟨source, p, p.afterAll w⟩⟩,
      derives_alnum hne hw hr, congrArg (Word.identifier <$> ·) hread, _, rfl⟩

/-- A string is read as its text, whose escape sequences are resolved. -/
theorem Word.ofTree_string {raw : Node} {c d : Cursor} {text : List Char}
    (hk : raw.kind = .quoted ∨ raw.kind = .unquoted)
    (ht : unescape raw.text = some text) :
    Word.ofTree source (.node .string c d [raw]) =
      .ok (.literal ⟨String.ofList text, ⟨source, c.point, d.point⟩⟩) := by
  have hread : Literal.ofTree source (.node .string c d [raw]) =
      .ok ⟨String.ofList text, ⟨source, c.point, d.point⟩⟩ := by
    unfold Literal.ofTree
    rw [require_node]
    dsimp only [Tree.children, bind, Except.bind]
    rw [if_pos hk, ht]
    rfl
  exact congrArg (Word.literal <$> ·) hread

/-- A plain text is read as itself. -/
theorem IsBare.readsWord (h : IsBare w) :
    ReadsWord source w (Word.Means (String.ofList w)) := by
  by_cases halnum : ∀ c ∈ w, isAlnum c = true
  · refine (readsWord_alnum h.ne_nil halnum).mono ?_
    rintro _ ⟨span, rfl⟩
    exact .name
  · constructor
    · obtain ⟨x, v, rfl⟩ := List.exists_cons_of_ne_nil h.ne_nil
      have hblank := h.unblank x List.mem_cons_self
      exact ⟨x, v, rfl, by simp [isInner, hblank, (h.begins x rfl).2]⟩
    · intro r p hr
      have htext : (Tree.node Nonterminal.unquoted ⟨w ++ r, p⟩ ⟨r, p.afterAll w⟩
          ([] : List Node)).text = w := Cursor.Takes.upTo_eq ⟨rfl, rfl⟩
      refine ⟨_, _, _, derives_plain h halnum hr,
        Word.ofTree_string (.inr rfl) ?_, .literal⟩
      rw [htext]
      exact unescape_of_plain fun c hc => (h.inside c hc).2.1

/-- A text in quotes is read as the text. -/
theorem readsWord_enquoted (w : List Char) :
    ReadsWord source (enquoted w) (Word.Means (String.ofList w)) := by
  refine ⟨⟨'"', _, rfl, rfl⟩, fun r p _ => ?_⟩
  obtain ⟨q, hd⟩ := derives_enquoted (w := w) (r := r) (p := p)
  refine ⟨q, _, _, hd, Word.ofTree_string (.inl rfl) ?_, .literal⟩
  have htext :
      (Tree.node Nonterminal.quoted ⟨w.flatMap guarded ++ '"' :: r, p.after '"'⟩
        ⟨'"' :: r, (p.after '"').afterAll (w.flatMap guarded)⟩
        ([] : List Node)).text = w.flatMap guarded :=
    Cursor.Takes.upTo_eq ⟨rfl, rfl⟩
  rw [htext]
  exact unescape_guarded w

-- =============================================================== lists

section Lists

variable {R : Word → β → Prop} {b : β} {bs : List β} {ws : List (List Char)}
  {ts : List Node}

/-- The nodes of words are read as the words. -/
theorem mapM_words
    (h : List.Forall₂
      (fun t b => ∃ word, Word.ofTree source t = .ok word ∧ R word b) ts bs) :
    ∃ words, ts.mapM (Word.ofTree source) = .ok words ∧
      List.Forall₂ R words bs := by
  induction h with
  | nil => exact ⟨[], rfl, .nil⟩
  | cons ht _ ih =>
    obtain ⟨word, hread, hword⟩ := ht
    obtain ⟨words, hreads, hwords⟩ := ih
    refine ⟨word :: words, ?_, .cons hword hwords⟩
    rw [List.mapM_cons, hread, hreads]
    rfl

theorem bounded_words (hr : bounded r = true) :
    bounded (ws.flatMap (' ' :: ·) ++ r) = true := by
  cases ws with
  | nil => exact hr
  | cons => rfl

theorem WordList.ofTree_eq {c d : Cursor} {words : List Word}
    (h : ts.mapM (Word.ofTree source) = .ok words) :
    WordList.ofTree source (.node .list c d ts) =
      .ok ⟨words, ⟨source, c.point, d.point⟩⟩ := by
  unfold WordList.ofTree
  rw [require_node]
  dsimp only [Tree.children, bind, Except.bind]
  rw [h]
  rfl

/-- Each further word has a blank before it. What follows the last one must not
be a word. -/
theorem readsWords
    (h : List.Forall₂ (fun w b => ReadsWord source w (R · b)) ws bs)
    (hr : bounded r = true)
    (hend : ∀ p, grammar.found .plain (nt .blanks ++ nt .word) ⟨r, p⟩ = none)
    (p : Point) :
    ∃ q ts, Derives grammar .plain (.many (nt .blanks ++ nt .word))
        ⟨ws.flatMap (' ' :: ·) ++ r, p⟩ ⟨r, q⟩ ts ∧
      List.Forall₂
        (fun t b => ∃ word, Word.ofTree source t = .ok word ∧ R word b)
        ts bs := by
  induction h generalizing p with
  | nil => exact ⟨p, [], .stop (hend p), .nil⟩
  | @cons w b ws bs hw hws ih =>
    obtain ⟨q₁, hblank⟩ :=
      derives_blank_before (m := .plain) (u := ws.flatMap (' ' :: ·) ++ r)
      hw.begins p
    obtain ⟨q₂, t, word, hd, hread, hword⟩ := hw.reads _ q₁ (bounded_words hr)
    obtain ⟨q₃, ts, hmany, hreads⟩ := ih q₂
    have hone : Derives grammar .plain (nt .blanks ++ nt .word)
        ⟨' ' :: (w ++ (ws.flatMap (' ' :: ·) ++ r)), p⟩ _ _ := .seq hblank hd
    rw [List.flatMap_cons, List.append_assoc]
    exact ⟨q₃, _, .more hone (offset_behind hone.found rfl) hmany,
      .cons ⟨word, hread, hword⟩ hreads⟩

/-- The first of some lists, and the separator before each further one. -/
theorem intercalate_cons {α : Type} (x : α) (l : List α) (ls : List (List α)) :
    [x].intercalate (l :: ls) = l ++ ls.flatMap (x :: ·) := by
  induction ls generalizing l with
  | nil => rw [List.intercalate_singleton, List.flatMap_nil, List.append_nil]
  | cons l' ls ih =>
    rw [List.intercalate_cons_cons, ih, List.flatMap_cons, List.append_assoc]
    rfl

/-- Words with single blanks between them are a list. -/
theorem readsList {w : List Char} (hw : ReadsWord source w (R · b))
    (hws : List.Forall₂ (fun w b => ReadsWord source w (R · b)) ws bs)
    (hr : bounded r = true)
    (hend : ∀ p, grammar.found .plain (nt .blanks ++ nt .word) ⟨r, p⟩ = none)
    (p : Point) :
    ∃ q t l, Derives grammar .plain (nt .list)
        ⟨w ++ (ws.flatMap (' ' :: ·) ++ r), p⟩ ⟨r, q⟩ [t] ∧
      t.kind = .list ∧ WordList.ofTree source t = .ok l ∧
      List.Forall₂ R l.items (b :: bs) := by
  obtain ⟨q₁, t, word, hd, hread, hword⟩ := hw.reads _ p (bounded_words hr)
  obtain ⟨q₂, ts, hmany, hreads⟩ := readsWords hws hr hend q₁
  obtain ⟨words, hmap, hwords⟩ := mapM_words (.cons ⟨word, hread, hword⟩ hreads)
  have hlist : Derives grammar .plain (nt .list)
      ⟨w ++ (ws.flatMap (' ' :: ·) ++ r), p⟩ ⟨r, q₂⟩ _ :=
    .node (by decide) rfl (.seq hd hmany)
  exact ⟨q₂, _, _, hlist, rfl, WordList.ofTree_eq hmap, hwords⟩

end Lists

end Jam
