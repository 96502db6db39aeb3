/-
Where things are in a source text.

A `Point` is a place between two characters, told three ways at once:
how many bytes of UTF-8 lie before it, which line it is on and which
column of that line. Lines and columns count from one, a column is one
character whatever its width, and only a line feed ends a line.

Points are never computed by searching: they are carried along while the
text is read, one `Point.after` per character (`Point.afterAll`). The
point of a byte offset (`Point.ofOffset`) is the same walk, stopped at
the last character that fits; an offset inside a character keeps its
number but stands in the column where that character begins.

A `Span` is a stretch of one named text, first point included and last
point excluded.
-/
namespace Jam

-- ============================================================== points

/-- A place in a text, counted in bytes and as line and column. -/
structure Point where
  offset : Nat
  line : Nat
  column : Nat
deriving DecidableEq, Repr, Inhabited

namespace Point

/-- Before the first character. -/
def origin : Point := ⟨0, 1, 1⟩

/-- The point one character further on. -/
def after (p : Point) (c : Char) : Point :=
  if c = '\n' then ⟨p.offset + c.utf8Size, p.line + 1, 1⟩
  else ⟨p.offset + c.utf8Size, p.line, p.column + 1⟩

/-- The point behind a run of characters. -/
def afterAll (p : Point) (cs : List Char) : Point :=
  cs.foldl after p

/-- How the walk of `ofOffset` goes on from `p`: over every character that
ends at or before `offset`. -/
def advanceTo (offset : Nat) (p : Point) : List Char → Point
  | [] => p
  | c :: cs =>
    if p.offset + c.utf8Size ≤ offset then
      advanceTo offset (p.after c) cs else p

/-- The point of a byte offset. An offset behind the text is the text's
end; one inside a character has the line and column of that character. -/
def ofOffset (text : List Char) (offset : Nat) : Point :=
  let p := origin.advanceTo offset text
  let size := (origin.afterAll text).offset
  { p with offset := min offset size }

/-- A point of a named text, as diagnostics print it. -/
def display (source : String) (p : Point) : String :=
  s!"{source}:{p.line}:{p.column}"

@[simp] theorem afterAll_nil (p : Point) : p.afterAll [] = p := rfl

@[simp] theorem afterAll_cons (p : Point) (c : Char) (cs : List Char) :
    p.afterAll (c :: cs) = (p.after c).afterAll cs := rfl

@[simp] theorem afterAll_append (p : Point) (cs ds : List Char) :
    p.afterAll (cs ++ ds) = (p.afterAll cs).afterAll ds :=
  List.foldl_append

@[simp] theorem offset_after (p : Point) (c : Char) :
    (p.after c).offset = p.offset + c.utf8Size := by
  unfold after; split <;> rfl

theorem offset_le_afterAll (p : Point) (cs : List Char) :
    p.offset ≤ (p.afterAll cs).offset := by
  induction cs generalizing p with
  | nil => exact Nat.le_refl _
  | cons c cs ih =>
    have h := ih (p.after c)
    rw [offset_after] at h
    exact Nat.le_of_add_right_le h

end Point

-- =============================================================== spans

/-- A stretch of the text named `source`. -/
structure Span where
  source : String
  first : Point
  last : Point
deriving DecidableEq, Repr, Inhabited

namespace Span

/-- The empty stretch at one point. -/
def ofPoint (source : String) (p : Point) : Span := ⟨source, p, p⟩

/-- Whether the stretch covers no byte. -/
def isPoint (s : Span) : Bool := s.first.offset == s.last.offset

/-- A span as diagnostics print it: an empty one as its point. -/
def display (s : Span) : String :=
  if s.isPoint then s.first.display s.source
  else s!"{s.first.display s.source}-{s.last.line}:{s.last.column}"

end Span

end Jam
