/-
Escape sequences are resolved as the grammar matches them.

The grammar and `unescape` both go through the text of a word, each with a
scanner of its own. `Resolves` is the grammar's way: a step is one
character that is no backslash, or what `escape` matches here, as much of
it as there is, and a sequence gives the character that it stands for.
`unescape` takes the same steps to the same end, and it has no answer where
there is none (`unescape_iff`).

Whether there is an answer can be seen without going along the text: it is
so if the text can be put together at all out of such characters and
sequences, also if sequences are cut short by that. The texts of the nodes
of a parse tree that hold sequences are put together so.
-/
import Jam.Proofs.Grammar.Escapes
import Jam.Proofs.Grammar.Placement
import Jam.Proofs.Syntax.Agreement

namespace Jam

open Nonterminal
open Except (Succeeds)

-- ========================================================= definitions

/-- The text behind a cursor is resolved to another one, in steps from left to
right: of a character that is no backslash, and of what the grammar matches as
an escape sequence. -/
inductive Resolves : Cursor → List Char → Prop
  | done {p} : Resolves ⟨[], p⟩ []
  | plain {x xs p text} : x ≠ '\\' → Resolves ⟨xs, p.after x⟩ text →
      Resolves ⟨x :: xs, p⟩ (x :: text)
  | sequence {c d xs e text} :
      stopOf? .escape c = some d → c.Takes xs d → Stands xs e →
      Resolves d text → Resolves c (e :: text)

/-- A character that is no backslash, or a text that the grammar matches as an
escape sequence. -/
def IsToken (source : String) (xs : List Char) : Prop :=
  (∃ x, x ≠ '\\' ∧ xs = [x]) ∨ (parseTree source .escape xs).Succeeds

variable {source : String} {c : Cursor} {e : Char}
  {cs rest xs raw text : List Char}

-- ======================================================== step by step

theorem takes_of_stopOf? {r : Nonterminal} {d : Cursor}
    (h : stopOf? r c = some d) : ∃ taken, c.Takes taken d := by
  obtain ⟨f, hf, rfl⟩ := Option.map_eq_some_iff.mp h
  exact (derives_of_found (hf : grammar.found .plain (nt r) c = some f)).takes

/-- What is taken off a text is what the grammar matches there. -/
theorem sequence_of_escape? (h : escape? cs = some (e, rest)) (p : Point) :
    ∃ xs q, stopOf? .escape ⟨'\\' :: cs, p⟩ = some ⟨rest, q⟩ ∧
      (⟨'\\' :: cs, p⟩ : Cursor).Takes xs ⟨rest, q⟩ ∧ Stands xs e := by
  obtain ⟨body, rfl, hstands⟩ := stands_of_escape? h
  have hstop := stopOf?_escape (body ++ rest) p
  rw [h] at hstop
  obtain ⟨⟨_, q⟩, hd, rfl⟩ := Option.map_eq_some_iff.mp hstop
  obtain ⟨taken, ht⟩ := takes_of_stopOf? hd
  have htaken : '\\' :: body = taken := List.append_cancel_right ht.rest
  exact ⟨taken, q, hd, ht, htaken ▸ hstands⟩

/-- What the grammar matches is what is taken off a text. -/
theorem escape?_of_stopOf? {d : Cursor} (h : stopOf? .escape c = some d)
    (ht : c.Takes xs d) (hs : Stands xs e) :
    ∃ cs, c.rest = '\\' :: cs ∧ escape? cs = some (e, d.rest) := by
  obtain ⟨body, rfl⟩ := hs.begins
  obtain ⟨_, p⟩ := c
  obtain rfl := ht.rest
  refine ⟨body ++ d.rest, rfl, ?_⟩
  have hstop := stopOf?_escape (body ++ d.rest) p
  rw [List.cons_append] at h
  rw [h] at hstop
  obtain ⟨⟨e', _⟩, he, rfl⟩ := Option.map_eq_some_iff.mp hstop.symm
  obtain ⟨body', hbody, hs'⟩ := stands_of_escape? he
  obtain rfl := List.append_cancel_right hbody
  rw [hs.unique hs', he]

/-- `unescape` goes the grammar's way. -/
theorem resolves_of_unescape (h : unescape raw = some text) (p : Point) :
    Resolves ⟨raw, p⟩ text := by
  fun_induction unescape raw generalizing text p with
  | case1 =>
    cases h
    exact .done
  | case2 cs e rest he _ ih =>
    obtain ⟨text, htext, rfl⟩ := Option.map_eq_some_iff.mp h
    obtain ⟨xs, q, hstop, ht, hstands⟩ := sequence_of_escape? he p
    exact .sequence hstop ht hstands (ih htext q)
  | case3 => cases h
  | case4 x cs hx ih =>
    obtain ⟨text, htext, rfl⟩ := Option.map_eq_some_iff.mp h
    exact .plain (fun heq => hx heq) (ih htext _)

theorem unescape_of_resolves (h : Resolves c text) :
    unescape c.rest = some text := by
  induction h with
  | done => exact unescape.eq_1
  | plain hx _ ih => rw [unescape_plain hx, ih, Option.map_some]
  | sequence hstop ht hstands _ ih =>
    obtain ⟨cs, hrest, he⟩ := escape?_of_stopOf? hstop ht hstands
    rw [hrest, unescape_sequence he, ih, Option.map_some]

theorem unescape_iff (raw text : List Char) (p : Point) :
    unescape raw = some text ↔ Resolves ⟨raw, p⟩ text :=
  ⟨fun h => resolves_of_unescape h p, unescape_of_resolves⟩

-- ======================================================== put together

/-- An escape sequence is matched as one. -/
theorem Stands.parses (h : Stands xs e) (source : String) :
    (parseTree source .escape xs).Succeeds := by
  obtain ⟨body, rfl⟩ := h.begins
  obtain ⟨q, hq⟩ := derives_of_escape? (m := grammar.bodyMode .escape .plain)
    (p := .origin) h.escape?_eq
  exact ⟨_,
    (parseTree_iff (by decide)).mpr ⟨⟨[], q⟩, .node (by decide) rfl hq, rfl⟩⟩

theorem Stands.isToken (h : Stands xs e) (source : String) :
    IsToken source xs :=
  .inr (h.parses source)

/-- What the grammar matches as an escape sequence stands for a character. -/
theorem stands_of_parseTree (h : (parseTree source .escape xs).Succeeds) :
    ∃ e, Stands xs e := by
  obtain ⟨t, ht⟩ := h
  obtain ⟨d, hd, hrest⟩ := (parseTree_iff (by decide)).mp ht
  obtain ⟨taken, htaken, e, hstands⟩ := spells_stands _ _ _ hd
  have hall : xs = taken := by
    have heq := htaken.rest
    rwa [hrest, List.append_nil] at heq
  exact ⟨e, hall ▸ hstands⟩

theorem IsToken.escaped (h : IsToken source xs) : Escaped xs := by
  rcases h with ⟨x, hx, rfl⟩ | h
  · exact .plain hx .nil
  · obtain ⟨e, hstands⟩ := stands_of_parseTree h
    exact hstands.escaped

theorem tokens_of_resolves (source : String) (h : Resolves c text) :
    ∃ pieces : List (List Char), c.rest = pieces.flatten ∧ ∀ xs ∈ pieces,
      IsToken source xs := by
  induction h with
  | done => exact ⟨[], rfl, List.forall_mem_nil _⟩
  | @plain x _ _ _ hx _ ih =>
    obtain ⟨pieces, hrest, hall⟩ := ih
    exact ⟨[x] :: pieces, congrArg (x :: ·) hrest,
      List.forall_mem_cons.mpr ⟨.inl ⟨x, hx, rfl⟩, hall⟩⟩
  | @sequence _ _ xs _ _ _ ht hstands _ ih =>
    obtain ⟨pieces, hrest, hall⟩ := ih
    refine ⟨xs :: pieces, ?_,
      List.forall_mem_cons.mpr ⟨hstands.isToken source, hall⟩⟩
    rw [ht.rest, hrest, List.flatten_cons]

theorem escaped_flatten {pieces : List (List Char)}
    (h : ∀ xs ∈ pieces, IsToken source xs) : Escaped pieces.flatten := by
  induction pieces with
  | nil => exact .nil
  | cons xs pieces ih =>
    obtain ⟨hxs, hall⟩ := List.forall_mem_cons.mp h
    exact hxs.escaped.append (ih hall)

-- ========================================================== the result

/-- `unescape` has an answer for just the texts that characters and escape
sequences make up, and this answer is what the grammar's way through the text
comes to. So it has one for every node of a parse tree that holds escape
sequences. -/
theorem unescape_tokenises (source : String) :
    (∀ raw, ((∃ text, unescape raw = some text) ↔
        ∃ pieces : List (List Char), raw = pieces.flatten ∧
          ∀ xs ∈ pieces, IsToken source xs) ∧
      ∀ text p, unescape raw = some text ↔ Resolves ⟨raw, p⟩ text) ∧
    ∀ r input t, parseTree source r input = .ok t →
      ∀ u ∈ t.nodes, u.kind ∈ [quoted, unquoted, fragment] →
        ∃ text, unescape u.text = some text := by
  refine ⟨fun raw => ⟨⟨?_, ?_⟩, fun text p => unescape_iff raw text p⟩, ?_⟩
  · rintro ⟨text, h⟩
    exact tokens_of_resolves source (resolves_of_unescape h .origin)
  · rintro ⟨pieces, rfl, hall⟩
    exact (escaped_flatten hall).resolves
  · intro r input t ht u hu hk
    obtain ⟨d, hstrung⟩ := parseTree_strung source r input t ht
    have hgrown : Grown grammar u :=
      (hstrung.bounds u (by rwa [forestNodes, forestNodes, List.append_nil])).1
    have his : Is [u.kind] u := ⟨List.mem_singleton_self _, hgrown⟩
    rcases List.mem_cons.mp hk with hk | hk
    · exact (escaped_quoted (hk ▸ his)).resolves
    · rcases List.mem_cons.mp hk with hk | hk
      · exact (escaped_unquoted (hk ▸ his)).resolves
      · exact (escaped_fragment (List.mem_singleton.mp hk ▸ his)).resolves

theorem unescape_tokenises_list :
    ∃ t, parseTree "jam" .list "\"\\x41\\1012\" \\7$(x)\\n \\t".toList = .ok t ∧
      (t.nodes.map Tree.kind).filter (· ∈ [quoted, unquoted, fragment]) =
        [quoted, fragment, fragment, unquoted] ∧
      ∀ u ∈ t.nodes, u.kind ∈ [quoted, unquoted, fragment] →
        ∃ text, unescape u.text = some text := by
  have hparse : (parseTree "jam" .list
      "\"\\x41\\1012\" \\7$(x)\\n \\t".toList).toOption.elim false (fun t =>
        (t.nodes.map Tree.kind).filter (· ∈ [quoted, unquoted, fragment]) =
          [quoted, fragment, fragment, unquoted]) = true := by decide +kernel
  obtain ⟨t, ht, hkinds⟩ := Except.exists_ok_of_elim hparse
  exact ⟨t, ht, of_decide_eq_true hkinds, (unescape_tokenises "jam").2 _ _ t ht⟩

end Jam
