/-
What errors and pieces stand for in the text.

The places that a program and its errors speak of are between seams of the
text that was read (`Span.Sealed`). A piece covers a node, or is a list
that was left out behind one, and nodes begin and end at seams
(`program_sealed`). The error of a text that does not follow the grammar
stands where a nonterminal was entered, or at the beginning of the text,
or behind a node (`Program.parse_error_sealed`).
-/
import Jam.Proofs.Grammar.Seams
import Jam.Proofs.Syntax.Origins
import Jam.Proofs.Text.Offsets
import Jam.Proofs.Text.Underline

namespace Jam

variable {source : String} {text : List Char} {c d : Cursor} {ts : List Node}
  {xs : List Piece} {x y : Piece} {P : Span → Prop} {e : Error} {s : Span}

-- ========================================================= definitions

/-- The span of a stretch of the text named `source`, with no line break that is
cut in two at its ends. -/
def Span.Sealed (source : String) (text : List Char) (s : Span) : Prop :=
  ∃ before inside behind, text = before ++ (inside ++ behind) ∧
    s.Covers source before inside behind

/-- The property holds of the places of all pieces in this one. -/
def Piece.Everywhere (P : Span → Prop) (x : Piece) : Prop :=
  ∀ y, x.Contains y → P y.span

/-- The error has a place of its own, and the property holds of it. -/
def Error.At (P : Span → Prop) (e : Error) : Prop :=
  ∃ s around, e.spans = s :: around ∧ P s

theorem Piece.Everywhere.self (h : x.Everywhere P) : P x.span := h x .self

theorem Piece.Everywhere.child (h : x.Everywhere P) (hy : y ∈ x.children) :
    y.Everywhere P :=
  fun z hz => h z (.inside hy hz)

theorem Piece.Everywhere.intro (h : P x.span)
    (hc : ∀ y ∈ x.children, y.Everywhere P) : x.Everywhere P := by
  intro z hz
  cases hz with
  | self => exact h
  | inside hy hz => exact hc _ hy z hz

theorem Error.At.found {cause : Cause} (h : P s) : (Error.found cause s).At P :=
  ⟨s, [], rfl, h⟩

/-- The place of its own stays, whatever the error lies within. -/
theorem Error.At.within (h : e.At P) (around : Span) :
    (e.within around).At P := by
  obtain ⟨s, places, hs, hP⟩ := h
  exact ⟨s, places ++ [around], by rw [Error.within, hs]; rfl, hP⟩

-- ==================================================== places in a text

/-- Two seams of a text, the one not before the other, are the ends of a
span. -/
theorem sealed_of_seams {taken : List Char} (hc : (Cursor.ofText text).SeamTo c)
    (ht : c.Takes taken d) (hd : (Cursor.ofText text).SeamTo d) :
    Span.Sealed source text ⟨source, c.point, d.point⟩ := by
  obtain ⟨before, hbefore, hseam⟩ := hc
  obtain ⟨before', hbefore', hseam'⟩ := hd
  have hboth := hbefore.append ht
  obtain rfl : before' = before ++ taken :=
    List.append_cancel_right (hbefore'.rest.symm.trans hboth.rest)
  have htext : text = before ++ c.rest := hbefore.rest
  rw [ht.rest] at hseam htext
  exact ⟨before, taken, d.rest, htext, rfl, hbefore.point, hbefore'.point,
    hseam, hseam'⟩

/-- A seam of a text is a span that is empty. -/
theorem sealed_ofPoint (hc : (Cursor.ofText text).SeamTo c) :
    Span.Sealed source text (.ofPoint source c.point) :=
  sealed_of_seams hc (.nil c) hc

theorem ofOffset_of_takes {taken : List Char}
    (h : (Cursor.ofText text).Takes taken c) :
    Point.ofOffset text c.offset = c.point := by
  have htext : text = taken ++ c.rest := h.rest
  have hpoint : c.point = Point.origin.afterAll taken := h.point
  rw [Cursor.offset, hpoint, htext]
  exact Point.ofOffset_afterAll taken c.rest

-- ============================================================== pieces

/-- Pieces that come from nodes between seams are between seams. -/
theorem sealed_of_traces (h : Traces source d ts xs)
    (hs : Strung grammar c ts d)
    (hts : ∀ t ∈ forestNodes ts,
      (Cursor.ofText text).SeamTo t.first ∧ (Cursor.ofText text).SeamTo t.last)
    (hd : (Cursor.ofText text).SeamTo d) :
    ∀ x ∈ xs, x.Everywhere (Span.Sealed source text) := by
  -- By the way that the pieces come from nodes, as for where they are spread.
  induction h generalizing c with
  | nil => exact List.forall_mem_nil _
  | absent =>
    exact List.forall_mem_singleton.mpr
      (.intro (sealed_ofPoint hd) (List.forall_mem_nil _))
  | @keep d t ts x xs hspan hown hbelow hrest ihbelow ihrest =>
    obtain ⟨-, -, hstrung, hbehind⟩ := hs.uncons
    rw [forestNodes, Tree.nodes_eq] at hts
    obtain ⟨ht, hts⟩ := List.forall_mem_append.mp hts
    obtain ⟨hends, hchildren⟩ := List.forall_mem_cons.mp ht
    obtain ⟨taken, htaken⟩ := hstrung.takes
    refine List.forall_mem_cons.mpr ⟨.intro ?_ ?_, ihrest hbehind hts hd⟩
    · rw [hspan]
      exact sealed_of_seams hends.1 htaken hends.2
    · exact ihbelow hstrung hchildren hends.2
  | @drop d t ts xs ys hk hbelow hrest ihbelow ihrest =>
    obtain ⟨-, -, hstrung, hbehind⟩ := hs.uncons
    rw [forestNodes, Tree.nodes_eq] at hts
    obtain ⟨ht, hts⟩ := List.forall_mem_append.mp hts
    obtain ⟨hends, hchildren⟩ := List.forall_mem_cons.mp ht
    exact List.forall_mem_append.mpr
      ⟨ihbelow hstrung hchildren hends.2, ihrest hbehind hts hd⟩

/-- All pieces of a program that was read from a text are between seams of
it. -/
theorem program_sealed {text : String} {p : Program}
    (h : Program.parse source text = .ok p) :
    (Piece.program p).Everywhere (Span.Sealed source text.toList) := by
  obtain ⟨tree, -, hparse, -, hkeeps⟩ := Program.parse_traced h
  obtain ⟨d, hd, -⟩ := (parseTree_iff (by decide)).mp hparse
  have htraces : Traces source d [tree] [.program p] := hkeeps.cons .nil
  exact sealed_of_traces htraces hd.strung (hd.nodes_seamTo rfl)
    (hd.seamTo rfl) _ List.mem_cons_self

-- ================================ texts that do not follow the grammar

/-- The furthest place of the attempts at a text is one of its seams. -/
theorem furthest_seamTo (r : Nonterminal) (text : List Char) :
    ∃ c, (Cursor.ofText text).SeamTo c ∧
      (matchAt r (.ofText text)).2.furthest = c.offset := by
  rcases grammar.furthest_run .plain (.call r)
      (.ofText text) .none with hsame | ⟨d, hd, heq⟩
  · exact ⟨_, .refl _, hsame⟩
  · exact ⟨d, hd.seamTo rfl, heq⟩

theorem mismatch_sealed {r : Nonterminal} {attempts : Attempts Nonterminal}
    (hc : (Cursor.ofText text).SeamTo c) (h : attempts.furthest = c.offset) :
    (mismatch source r text attempts).At (Span.Sealed source text) := by
  have hpoint : Point.ofOffset text attempts.furthest = c.point := by
    obtain ⟨taken, ht, -⟩ := hc
    rw [h, ofOffset_of_takes ht]
  have hfound {cause : Cause} : (Error.found cause
      (.ofPoint source (Point.ofOffset text attempts.furthest))).At
      (Span.Sealed source text) :=
    .found (hpoint ▸ sealed_ofPoint hc)
  unfold mismatch
  dsimp only
  split
  · split
    · exact hfound.within _
    · exact hfound
  · exact hfound

/-- The error of a text that has no parse tree is between seams of the text. -/
theorem parseTree_error_sealed {r : Nonterminal}
    (h : parseTree source r text = .error e) :
    e.At (Span.Sealed source text) := by
  have hf := grammar.fst_run_eq_found .plain (.ofText text) .none (.call r)
  have hfurthest := furthest_seamTo r text
  unfold parseTree matchAt at *
  rcases hrun :
      grammar.run .plain (.call r) (.ofText text) .none with ⟨_ | f, attempts⟩
  · rw [hrun] at h hfurthest
    obtain ⟨c, hc, heq⟩ := hfurthest
    cases h
    exact mismatch_sealed hc heq
  · rw [hrun] at h hf
    have hnodes := (derives_of_found hf.symm).nodes_seamTo rfl
    dsimp only at h
    split at h
    · cases h
      exact .found (sealed_ofPoint (.refl _))
    · next tree ts heq =>
      rw [heq, forestNodes, Tree.nodes_eq] at hnodes
      split at h
      · cases h
      · cases h
        exact .found (sealed_ofPoint (hnodes tree List.mem_cons_self).2)

/-- The error of a text that is no program is between seams of the text. -/
theorem Program.parse_error_sealed {text : String}
    (h : Program.parse source text = .error e) :
    e.At (Span.Sealed source text.toList) := by
  unfold Program.parse at h
  cases htree : parseTree source .program text.toList with
  | error e' =>
    rw [htree] at h
    cases h
    exact parseTree_error_sealed htree
  | ok tree =>
    -- Reading the tree does not fail.
    have hroot :=
      (parseTree_cases source (r := .program) (by decide) text.toList).2
      tree htree
    have hread : (Program.ofTree source tree).Succeeds := Program.succeeds hroot
    obtain ⟨p, hp⟩ := hread
    rw [htree] at h
    cases hp.symm.trans h

end Jam
