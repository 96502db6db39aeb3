/-
Where the pieces of a program are.

A piece of a program that was read from a text covers a stretch of this
text, from one character to another, and its two points are those of their
offsets (`Span.Exact`). What is in a piece lies inside of it, in the order
in which it is written and without overlapping (`Piece.Laid`).

Nodes of a parse tree lie so because they are strung along the text. The
readings keep their stretches and their order, and if one drops a node
then what is below it lies in its stretch still (`spread_of_traces`). A
list that was left out is an empty stretch at the end of what it belongs
to, so it is behind everything else there.
-/
import Jam.Proofs.Syntax.Traces
import Jam.Proofs.Text.Offsets

namespace Jam

-- ==================================================== places of pieces

/-- The point is the one of its offset, between two characters of the text or at
an end of it. -/
structure Point.In (text : String) (p : Point) : Prop where
  valid : (⟨p.offset⟩ : String.Pos.Raw).IsValid text
  eq_ofOffset : p = .ofOffset text.toList p.offset

/-- The stretch is one of the text named `source`. -/
structure Span.Exact (source text : String) (s : Span) : Prop where
  source_eq : s.source = source
  ordered : s.first.offset ≤ s.last.offset
  inside : s.last.offset ≤ text.utf8ByteSize
  first : s.first.In text
  last : s.last.In text

/-- The one stretch lies in the other. -/
def Span.Within (s t : Span) : Prop :=
  t.first.offset ≤ s.first.offset ∧ s.last.offset ≤ t.last.offset

/-- The one stretch ends before the other begins, or where it does. -/
def Span.Before (s t : Span) : Prop := s.last.offset ≤ t.first.offset

/-- The piece and everything in it, at any depth, lie in the text as they
should: what is directly in a piece lies inside of it, one behind the other. -/
inductive Piece.Laid (source text : String) : Piece → Prop
  | intro {x : Piece} :
      x.span.Exact source text → (∀ y ∈ x.children, y.span.Within x.span) →
      x.children.Pairwise (fun y z => y.span.Before z.span) →
      (∀ y ∈ x.children, y.Laid source text) → x.Laid source text

variable {source text : String} {c d : Cursor} {ts : List Node} {x : Piece}
  {xs ys : List Piece}

-- ==================================================== places in a text

theorem Cursor.Takes.point_in {pre : List Char}
    (h : (Cursor.ofText text.toList).Takes pre c) : c.point.In text := by
  have htext : text.toList = pre ++ c.rest := h.rest
  have hpoint : c.point = Point.origin.afterAll pre := h.point
  rw [hpoint]
  refine ⟨Point.isValid_afterAll htext, ?_⟩
  rw [htext]
  exact (Point.ofOffset_afterAll pre c.rest).symm

/-- A place is not behind the end of the text. -/
theorem Point.In.offset_le {p : Point} (h : p.In text) :
    p.offset ≤ text.utf8ByteSize :=
  h.valid.le_rawEndPos

/-- Two places of a text that one comes to one after the other are a stretch of
it. -/
theorem exact_of_takes {pre taken : List Char}
    (h : (Cursor.ofText text.toList).Takes pre c) (ht : c.Takes taken d) :
    Span.Exact source text ⟨source, c.point, d.point⟩ where
  source_eq := rfl
  ordered := ht.offset_le
  inside := (h.append ht).point_in.offset_le
  first := h.point_in
  last := (h.append ht).point_in

-- =========================================== pieces between two places

/-- The pieces lie one behind the other between two places, as they should. -/
structure Spread (source text : String) (low high : Nat) (xs : List Piece) :
    Prop where
  laid : ∀ x ∈ xs, x.Laid source text
  between : ∀ x ∈ xs, low ≤ x.span.first.offset ∧ x.span.last.offset ≤ high
  apart : xs.Pairwise fun x y => x.span.Before y.span

theorem Spread.nil {low high : Nat} : Spread source text low high [] :=
  ⟨List.forall_mem_nil _, List.forall_mem_nil _, .nil⟩

theorem Spread.single {low high : Nat} (hx : x.Laid source text)
    (h : low ≤ x.span.first.offset) (h' : x.span.last.offset ≤ high) :
    Spread source text low high [x] :=
  ⟨List.forall_mem_singleton.mpr hx, List.forall_mem_singleton.mpr ⟨h, h'⟩,
    List.pairwise_singleton _ _⟩

/-- What is spread up to a place, and what is spread behind it. -/
theorem Spread.append {low mid high : Nat} (h : Spread source text low mid xs)
    (h' : Spread source text mid high ys) (hlow : low ≤ mid)
    (hhigh : mid ≤ high) : Spread source text low high (xs ++ ys) where
  laid := List.forall_mem_append.mpr ⟨h.laid, h'.laid⟩
  between := by
    refine List.forall_mem_append.mpr ⟨fun x hx => ?_, fun y hy => ?_⟩
    · have hx := h.between x hx
      omega
    · have hy := h'.between y hy
      omega
  apart := List.pairwise_append.mpr ⟨h.apart, h'.apart, fun x hx y hy =>
    Nat.le_trans (h.between x hx).2 (h'.between y hy).1⟩

/-- A piece is laid if what is in it is spread over it. -/
theorem Spread.laid_of_children (hx : x.span.Exact source text)
    (h : Spread source text x.span.first.offset x.span.last.offset x.children) :
    x.Laid source text := .intro hx h.between h.apart h.laid

/-- Pieces that come from nodes are spread where the nodes are. -/
theorem spread_of_traces (h : Traces source d ts xs)
    (hs : Strung grammar c ts d) {pre : List Char}
    (hpre : (Cursor.ofText text.toList).Takes pre c) :
    Spread source text c.offset d.offset xs := by
  -- By the way that the pieces come from nodes; on this way the text before
  -- grows.
  induction h generalizing c pre with
  | nil => exact .nil
  | @absent d =>
    obtain ⟨taken, ht⟩ := hs.takes
    have hexact : Span.Exact source text ⟨source, d.point, d.point⟩ :=
      exact_of_takes (hpre.append ht) (.nil d)
    exact .single (Spread.nil.laid_of_children hexact) ht.offset_le
      (Nat.le_refl _)
  | @keep d t ts x xs hspan hown hbelow hrest ihbelow ihrest =>
    obtain ⟨⟨taken, ht⟩, -, hbelow, hbehind⟩ := hs.uncons
    obtain ⟨taken', ht'⟩ := hbelow.takes
    have hfirst := hpre.append ht
    have hexact : x.span.Exact source text := hspan ▸ exact_of_takes hfirst ht'
    have hlaid : x.Laid source text := by
      refine Spread.laid_of_children hexact ?_
      rw [hspan]
      exact ihbelow hbelow hfirst
    have hone : Spread source text c.offset t.last.offset [x] :=
      .single hlaid (hspan ▸ ht.offset_le) (hspan ▸ Nat.le_refl _)
    exact hone.append (ihrest hbehind (hfirst.append ht'))
      (ht.append ht').offset_le hbehind.offset_le
  | @drop d t ts xs ys hk hbelow hrest ihbelow ihrest =>
    obtain ⟨⟨taken, ht⟩, -, hbelow, hbehind⟩ := hs.uncons
    obtain ⟨taken', ht'⟩ := hbelow.takes
    have hbelow := hbelow.behind ht
    have hlast := (hpre.append ht).append ht'
    exact (ihbelow hbelow hpre).append
      (ihrest hbehind hlast) hbelow.offset_le hbehind.offset_le

-- ========================================================= whole texts

/-- All pieces of a program that was read from a text lie in the text as they
should: each is an exact stretch of the text named `source`, what is in it lies
inside of it, and one behind the other in the order in which it is written. -/
theorem program_laid (source text : String) (p : Program)
    (h : Program.parse source text = .ok p) :
    (Piece.program p).Laid source text := by
  obtain ⟨tree, d, -, hstrung, hkeeps⟩ := Program.parse_traced h
  have hspread :=
    spread_of_traces (hkeeps.cons .nil) hstrung (Cursor.Takes.nil _)
  exact hspread.laid _ List.mem_cons_self

/-- A text whose assignment and whose second group of arguments have no list,
with a variable in the name of another one, and two bytes for one of its
characters. -/
def sparseText : String := "if ! a { $(x$(y))z = ; }\nelse { e : : é ; }"

theorem sparseText_laid :
    ∃ p, Program.parse "t" sparseText = .ok p ∧ p.span.last = ⟨44, 2, 19⟩ ∧
      (Piece.program p).Laid "t" sparseText := by
  have hparse : ((Program.parse "t" sparseText).toOption.elim false fun p =>
      decide (p.span.last = ⟨44, 2, 19⟩)) = true := by decide +kernel
  obtain ⟨p, hp, hlast⟩ := Except.exists_ok_of_elim hparse
  exact ⟨p, hp, of_decide_eq_true hlast, program_laid "t" sparseText p hp⟩

end Jam
