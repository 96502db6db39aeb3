/-
Parse trees.

While a text is matched, a `Cursor` holds what is left of it together
with the point that has been reached. A `Tree` records which nonterminal
matched between two cursors, and the nodes below it. Since a cursor holds
the text from its point on, a node can give the text it covers
(`Tree.text`) without being told the source again.
-/
import Jam.Text.Point

namespace Jam

-- ============================================================= cursors

/-- A place in a text together with the text behind it. -/
structure Cursor where
  rest : List Char
  point : Point
deriving DecidableEq, Repr, Inhabited

namespace Cursor

/-- At the beginning of `text`. -/
def ofText (text : List Char) : Cursor := ⟨text, Point.origin⟩

/-- Bytes before the cursor. -/
def offset (c : Cursor) : Nat := c.point.offset

/-- Past `text`, if that is what comes next. -/
def skip? : List Char → Cursor → Option Cursor
  | [], c => some c
  | x :: xs, ⟨y :: ys, p⟩ => if x = y then skip? xs ⟨ys, p.after y⟩ else none
  | _ :: _, ⟨[], _⟩ => none

/-- The first characters of a text, `bytes` bytes of UTF-8 in all. -/
def takeBytes (bytes : Nat) : List Char → List Char
  | [] => []
  | c :: cs =>
    if c.utf8Size ≤ bytes then c :: takeBytes (bytes - c.utf8Size) cs else []

/-- The text between two cursors of one input. -/
def upTo (c d : Cursor) : List Char := takeBytes (d.offset - c.offset) c.rest

theorem length_skip? {text : List Char} {c d : Cursor}
    (h : skip? text c = some d) :
    d.rest.length + text.length = c.rest.length := by
  fun_induction skip? text c with
  | case1 c => simp_all
  | case2 xs y ys p ih =>
    have := ih h
    simp only [List.length_cons] at this ⊢
    omega
  | case3 => simp at h
  | case4 => simp at h

end Cursor

-- =============================================================== nodes

/-- A nonterminal that matched from `first` to `last`. -/
inductive Tree (N : Type)
  | node (kind : N) (first last : Cursor) (children : List (Tree N))

namespace Tree

variable {N : Type}

/-- The nonterminal that matched. -/
def kind : Tree N → N
  | node kind _ _ _ => kind

/-- Where the match begins. -/
def first : Tree N → Cursor
  | node _ first _ _ => first

/-- Where the match ends. -/
def last : Tree N → Cursor
  | node _ _ last _ => last

/-- The nodes directly below. -/
def children : Tree N → List (Tree N)
  | node _ _ _ children => children

/-- The text the node covers. -/
def text (t : Tree N) : List Char := t.first.upTo t.last

/-- The stretch of the text named `source` that the node covers. -/
def span (source : String) (t : Tree N) : Span :=
  ⟨source, t.first.point, t.last.point⟩

/-- What holds of a node if it holds of the nodes below it holds of all. -/
theorem induct {motive : Tree N → Prop}
    (step : ∀ kind first last children, (∀ t ∈ children, motive t) →
      motive (.node kind first last children)) (t : Tree N) : motive t :=
  match t with
  | .node kind first last children =>
    step kind first last children fun t _ => induct step t
termination_by sizeOf t
decreasing_by
  have := List.sizeOf_lt_of_mem ‹t ∈ children›
  simp only [node.sizeOf_spec]
  omega

end Tree

end Jam
