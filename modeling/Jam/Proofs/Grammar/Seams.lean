/-
Where the grammar begins and ends things.

A carriage return and a line feed that end a line are never taken apart.
Of the expressions of the grammar only a blank, a comment and a single
character can end between the two; all others end at a seam
(`Derives.seamTo`). Most of them end with a sign that is no carriage
return, and so do they in turn that end with one of those. Three kinds do
not: blanks are taken as long as there are any, and a line feed would be
one more; a quoted text goes on over a line feed; and in a word without
quotes there are no blanks.

So the nonterminals that a run comes to are entered at seams as well
(`Enters.seamTo`), apart from those inside of blanks and tokens, where
nothing is retained. Nodes, and the places where a match can break off,
are therefore between seams.
-/
import Jam.Proofs.Peg.Entries
import Jam.Proofs.Grammar.Written
import Jam.Proofs.Text.Lines

namespace Jam

open Nonterminal

-- =================================================== from seam to seam

/-- The text from the one place to the other has its line breaks whole, as far
as they begin in it. -/
def Cursor.SeamTo (c d : Cursor) : Prop :=
  ∃ taken, c.Takes taken d ∧ Seam taken d.rest

namespace Cursor.SeamTo

variable {c d e : Cursor}

theorem refl (c : Cursor) : c.SeamTo c := ⟨[], .nil c, .nil _⟩

theorem trans (h : c.SeamTo d) (h' : d.SeamTo e) : c.SeamTo e := by
  obtain ⟨taken, ht, hs⟩ := h
  obtain ⟨more, ht', hs'⟩ := h'
  rw [ht'.rest] at hs
  exact ⟨taken ++ more, ht.append ht', hs.append hs'⟩

end Cursor.SeamTo

variable {m : Mode} {e : Peg Nonterminal} {c d : Cursor} {ts : List Node}
  {r : Nonterminal}

-- ====================================================== ends of tokens

/-- Behind a repetition there is no further match. -/
theorem Derives.found_none_of_many {N : Type} {g : Grammar N} {a : Peg N}
    {ts : List (Tree N)} (ha : g.mayBeEmpty a = false)
    (h : Derives g m (.many a) c d ts) : g.found m a d = none := by
  generalize he : Peg.many a = e at h
  induction h with
  | stop hnone =>
    cases he
    exact hnone
  | last hx heq =>
    cases he
    exact absurd heq (offset_behind hx.found ha)
  | more _ _ _ _ ih => exact ih he
  | _ => cases he

/-- All blanks are taken, and a line feed is one. -/
theorem seamTo_of_blanks (h : Derives grammar m (nt .blanks) c d ts) :
    c.SeamTo d := by
  obtain ⟨-, rfl, -⟩ := derives_blanks.mp h
  refine ⟨_, c.takes_next, .of_head fun hn => ?_⟩
  obtain ⟨rest, hrest⟩ := List.head?_eq_some_iff.mp hn
  exact absurd (isInner_of_strip hrest) (by decide)

/-- What is quoted goes on over a line feed. -/
theorem seamTo_of_quoted (h : Derives grammar m (body .quoted) c d ts) :
    c.SeamTo d := by
  obtain ⟨taken, ht⟩ := h.takes
  have hnone := h.found_none_of_many rfl
  refine ⟨taken, ht, .of_head fun hn => ?_⟩
  obtain ⟨rest, hrest⟩ := List.head?_eq_some_iff.mp hn
  obtain ⟨xs, p⟩ := d
  obtain rfl : xs = '\n' :: rest := hrest
  change grammar.found m
    (.alt (nt .escape) (anyBut (.alt (.chars ['"']) (.chars ['\\'])))) _ =
    none at hnone
  rw [Grammar.found_alt, Option.or_eq_none_iff, found_anyBut, Grammar.found_alt,
    found_sign, found_sign] at hnone
  cases hnone.2

/-- There are no blanks in a word without quotes. -/
theorem spells_unblank (hr : r ∈ [.unquoted, .fragment]) :
    Spells grammar m (body r) Unblank := by
  have append : ∀ xs ys, Unblank xs → Unblank ys → Unblank (xs ++ ys) :=
    fun _ _ => .append
  have hnil : Unblank [] := List.forall_mem_nil _
  have single {m : Mode} {e : Peg Nonterminal} (x : Char)
      (hx : ¬ Meets grammar m (nt .blank <|> e) x) : Unblank [x] :=
    List.forall_mem_singleton.mpr
      (Bool.eq_false_iff.mpr fun hb => hx (.left (meets_blank hb)))
  simp only [List.mem_cons, List.not_mem_nil, or_false] at hr
  rcases hr with rfl | rfl
  · exact .seq (.notAhead hnil)
      (.plus (.alt spells_escape_unblank (.excluding single)) hnil append)
      append
  · exact .plus (.alt spells_escape_unblank (.excluding single)) hnil append

/-- A carriage return is a blank. -/
theorem seamTo_of_spells (hs : Spells grammar m e Unblank)
    (h : Derives grammar m e c d ts) : c.SeamTo d := by
  obtain ⟨taken, ht, hunblank⟩ := hs c d ts h
  refine ⟨taken, ht, .of_last fun hr => ?_⟩
  exact absurd (hunblank _ (List.mem_of_getLast? hr)) (by decide)

-- ===================================================== ends of matches

/-- The nonterminals whose matches end at seams, by what follows them. -/
def Nonterminal.endsWhole (r : Nonterminal) : Bool := r ≠ .blank && r ≠ .comment

/-- Every match of the expression ends at a seam, by the character that it ends
with, or by the nonterminal. -/
def Peg.seals {N : Type} (whole : N → Bool) : Peg N → Bool
  | one accepts => !accepts '\r'
  | chars text => text.getLast? ≠ some '\r'
  | seq a b | alt a b => a.seals whole && b.seals whole
  | many a | opt a => a.seals whole
  | start | finish | ahead _ | notAhead _ => true
  | call r => whole r

/-- The productions whose matches do not end so by their form. -/
def raggedKinds : List Nonterminal :=
  [.blank, .comment, .blanks, .quoted, .unquoted, .fragment]

theorem seals_body :
    ∀ r, r ∈ raggedKinds ∨ (body r).seals endsWhole = true := by
  intro r
  cases r <;> decide

/-- A production ends at a seam if its nonterminal does. -/
theorem seamTo_of_body (hr : r.endsWhole = true)
    (h : Derives grammar m (body r) c d ts)
    (hseals : (body r).seals endsWhole = true → c.SeamTo d) : c.SeamTo d := by
  rcases seals_body r with hragged | hbody
  · simp only [raggedKinds, List.mem_cons, List.not_mem_nil, or_false]
      at hragged
    rcases hragged with rfl | rfl | rfl | rfl | rfl | rfl
    · cases hr
    · cases hr
    · exact seamTo_of_blanks (.silent rfl h)
    · exact seamTo_of_quoted h
    · exact seamTo_of_spells (spells_unblank (by decide)) h
    · exact seamTo_of_spells (spells_unblank (by decide)) h
  · exact hseals hbody

/-- A match ends at a seam. -/
theorem Derives.seamTo (h : Derives grammar m e c d ts)
    (he : e.seals endsWhole = true) : c.SeamTo d := by
  induction h with
  | @one m accepts x xs p hx =>
    refine ⟨[x], .cons x xs p, .of_last fun hr => ?_⟩
    obtain rfl : x = '\r' := Option.some.inj hr
    rw [Peg.seals, hx] at he
    cases he
  | chars hd => exact ⟨_, .of_skip? hd, .of_last (of_decide_eq_true he)⟩
  | start | finish | stop | without | ahead | notAhead => exact .refl _
  | seq _ _ ih ih' =>
    rw [Peg.seals, Bool.and_eq_true] at he
    exact (ih he.1).trans (ih' he.2)
  | left _ ih =>
    rw [Peg.seals, Bool.and_eq_true] at he
    exact ih he.1
  | right _ _ ih =>
    rw [Peg.seals, Bool.and_eq_true] at he
    exact ih he.2
  | last _ _ ih | «with» _ ih => exact ih he
  | more _ _ _ ih ih' => exact (ih he).trans (ih' he)
  | silent _ hb ih | node _ _ hb ih | bare _ _ hb ih =>
    exact seamTo_of_body he hb ih

-- ============================================= places that are entered

/-- Wherever the expression calls something, it has come to a seam. -/
def Peg.callsAtSeams {N : Type} (whole : N → Bool) : Peg N → Bool
  | one _ | chars _ | start | finish | call _ => true
  | seq a b =>
    a.callsAtSeams whole && b.callsAtSeams whole &&
      (a.seals whole || b.mentions.isEmpty)
  | alt a b => a.callsAtSeams whole && b.callsAtSeams whole
  | many a => a.callsAtSeams whole && (a.seals whole || a.mentions.isEmpty)
  | opt a | ahead a | notAhead a => a.callsAtSeams whole

/-- The productions that enter nothing, though they call something. -/
def closedTokens : List Nonterminal := [.blanks, .quoted, .unquoted, .fragment]

theorem callsAtSeams_body :
    ∀ r, r ∈ closedTokens ∨ (body r).callsAtSeams endsWhole = true := by
  intro r
  cases r <;> decide

theorem not_enters_body (hr : r ∈ closedTokens)
    (hm : grammar.retention r = .leaf → m.atomic = true) :
    ¬ Enters grammar m (body r) c d := by
  have hcalls : ∀ r ∈ closedTokens, ∀ q ∈ (body r).mentions,
      (grammar.body q).mentions = [] ∧ (grammar.retention q = .silent ∨
        grammar.retention q = .leaf ∧ grammar.retention r = .leaf) := by
    decide
  exact not_enters fun q hq =>
    ⟨(hcalls r hr q hq).1, (hcalls r hr q hq).2.imp_right fun h =>
    ⟨h.1, hm h.2⟩⟩

/-- What is entered is entered at a seam. -/
theorem Enters.seamTo (h : Enters grammar m e c d)
    (he : e.callsAtSeams endsWhole = true) : c.SeamTo d := by
  induction h with
  | here => exact .refl _
  | @silent m r c d hs hb ih =>
    rcases callsAtSeams_body r with hclosed | hbody
    · refine absurd hb (not_enters_body hclosed fun hleaf => ?_)
      rw [hs] at hleaf
      cases hleaf
    · exact ih hbody
  | @inside m r c d hs hb ih =>
    rcases callsAtSeams_body r with hclosed | hbody
    · refine absurd hb (not_enters_body hclosed fun hleaf => ?_)
      rw [Grammar.bodyMode, hleaf]
    · exact ih hbody
  | first _ ih =>
    rw [Peg.callsAtSeams, Bool.and_eq_true, Bool.and_eq_true] at he
    exact ih he.1.1
  | second ha hb ih =>
    rw [Peg.callsAtSeams, Bool.and_eq_true, Bool.and_eq_true, Bool.or_eq_true]
      at he
    rcases he.2 with hseals | hnone
    · exact (ha.seamTo hseals).trans (ih he.1.2)
    · exact absurd hb (not_enters_of_nil (List.isEmpty_iff.mp hnone))
  | left _ ih =>
    rw [Peg.callsAtSeams, Bool.and_eq_true] at he
    exact ih he.1
  | right _ ih =>
    rw [Peg.callsAtSeams, Bool.and_eq_true] at he
    exact ih he.2
  | once _ ih =>
    rw [Peg.callsAtSeams, Bool.and_eq_true] at he
    exact ih he.1
  | again ha hb ih =>
    have hmany := he
    rw [Peg.callsAtSeams, Bool.and_eq_true, Bool.or_eq_true] at he
    rcases he.2 with hseals | hnone
    · exact (ha.seamTo hseals).trans (ih hmany)
    · exact absurd hb (not_enters_of_nil (List.isEmpty_iff.mp hnone))
  | opt _ ih | ahead _ ih | notAhead _ ih => exact ih he

/-- Nodes begin and end at seams. -/
theorem Derives.nodes_seamTo (h : Derives grammar m e c d ts)
    (he : e.callsAtSeams endsWhole = true) :
    ∀ t ∈ forestNodes ts, c.SeamTo t.first ∧ c.SeamTo t.last := by
  intro t ht
  have hwhole : ∀ r, grammar.retention r ≠ .silent → r.endsWhole = true := by
    intro r hr
    cases r with
    | blank | comment => exact absurd rfl hr
    | _ => rfl
  obtain ⟨hkind, hentered⟩ := h.enters t ht
  have hfirst := hentered.seamTo he
  have hgrown : Derives grammar (grammar.bodyMode t.kind .plain)
      (body t.kind) t.first t.last t.children := (h.strung.bounds t ht).1
  exact ⟨hfirst,
    hfirst.trans (seamTo_of_body (hwhole _ hkind) hgrown fun hseals =>
    hgrown.seamTo hseals)⟩

end Jam
