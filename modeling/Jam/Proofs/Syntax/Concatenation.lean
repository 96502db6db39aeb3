/-
Programs one after the other.

If two tidy texts are programs, then so are both together, with a line feed
between them: the statements are those of the one and then those of the
other, and the latter have moved by the bytes and lines of the former
(`parse_append`).

A statement of the first text does not depend on what follows it
(`Sequence.elsewhere`), as long as this does not begin with another branch
of a choice. That the second text does not is where it has to be tidy: it
is a program by itself, so that a name that it begins with has its
semicolon before any brace. Otherwise a hash sign in a word may hide that
semicolon, and the two texts are no program (`append_ungrammatical`). And
in a text that is not tidy one may be in a comment in one reading and in a
string in quotes in another, until the second text decides.
-/
import Jam.Proofs.Grammar.Replay
import Jam.Proofs.Syntax.Division
import Jam.Proofs.Text.Shift

/-- Several values are given if those of both parts are. -/
theorem Except.ok_of_mapM_append {ε α β : Type} {f : α → Except ε β}
    {as bs : List α} {xs : List β} (h : (as ++ bs).mapM f = .ok xs) :
    ∃ ys zs, as.mapM f = .ok ys ∧ bs.mapM f = .ok zs ∧ xs = ys ++ zs := by
  rw [List.mapM_append] at h
  cases ha : as.mapM f with
  | error e =>
    rw [ha] at h
    cases h
  | ok ys =>
    cases hb : bs.mapM f with
    | error e =>
      rw [ha, hb] at h
      cases h
    | ok zs =>
      rw [ha, hb] at h
      exact ⟨ys, zs, rfl, rfl, (Except.ok.inj h).symm⟩

namespace Jam

open Nonterminal
open Comparison (alone)

variable {c d e f : Cursor} {ts us : List Node} {xs ys : List Char}
  {inside : Bool}

-- ================================================= lines behind blanks

/-- Blanks at the end of a text go on behind a line feed. -/
theorem lead_lineFeed (h : strip inside xs = []) (ys : List Char) :
    lead inside (xs ++ '\n' :: ys) = xs ++ '\n' :: lead false ys ∧
      strip inside (xs ++ '\n' :: ys) = strip false ys := by
  induction xs generalizing inside with
  | nil => cases inside <;> exact ⟨rfl, rfl⟩
  | cons x xs ih =>
    rw [strip] at h
    rw [List.cons_append, lead, strip]
    split at h
    · next hin =>
      obtain ⟨hl, hs⟩ := ih h
      rw [if_pos hin, if_pos hin, hl, hs]
      exact ⟨rfl, rfl⟩
    · next hin =>
      rw [if_neg hin, if_neg hin]
      split at h
      · cases h
      · next hx =>
        obtain ⟨hl, hs⟩ := ih h
        rw [if_neg hx, if_neg hx, hl, hs]
        exact ⟨rfl, rfl⟩

/-- Where blanks lead to the end of a text, they lead into the next line. -/
theorem redirects_line (he : e.rest = []) (ys : List Char) :
    Redirects e ('\n' :: ys) (Cursor.next ⟨ys, e.point.after '\n'⟩) := by
  rintro d L rfl hL
  obtain ⟨cs, p⟩ := d
  rw [he, List.append_nil] at hL
  dsimp only at hL
  subst hL
  obtain ⟨hlead, hstrip⟩ := lead_lineFeed he ys
  refine ⟨fun hb => ?_, ?_⟩
  · cases cs with
    | nil => rfl
    | cons => exact hb
  · have hall : lead false cs = cs := by
      have h := lead_append_strip false cs
      rwa [show strip false cs = [] from he, List.append_nil] at h
    rw [Cursor.next, Cursor.next, Cursor.next, hlead, hstrip, hall,
      Point.afterAll_append]
    rfl

-- ========================================== sequences behind sequences

/-- A program does not begin with another branch of a choice. -/
theorem Sequence.elseless (h : Sequence c ts e) (he : e.rest = [])
    (hc : alone.Gap c.rest c.rest) : Elseless c.rest := by
  cases h with
  | done =>
    rw [he]
    exact elseless_of_head nofun
  | more hs hb =>
    obtain ⟨X, hX⟩ := hs.takes
    rw [hX.rest]
    exact elseless_of_statement hs hc hX.rest hb hb

/-- The sequence of one text and then the sequence of another, which has
moved. -/
theorem Sequence.join (hx : tidy .gap xs = true) (hy : tidy .gap ys = true)
    (h : Sequence (Cursor.ofText xs).next ts e) (he : e.rest = [])
    (h' : Sequence (Cursor.ofText ys).next us f) (hf : f.rest = [])
    {g : Point → Point} (hg : ∀ p c, g (Point.after p c) = (g p).after c)
    (hstart : g .origin = Point.origin.afterAll (xs ++ ['\n'])) :
    ∃ ts' us' f',
      Sequence (Cursor.ofText (xs ++ '\n' :: ys)).next (ts' ++ us') f' ∧
      f'.rest = [] ∧ List.Forall₂ (Alike alone.view) ts ts' ∧
      List.Forall₂ (Alike (Comparison.moved g hg).view) us us' := by
  obtain ⟨X, hX⟩ := h.takes
  have hall : (Cursor.ofText xs).Takes (lead false xs ++ X) e :=
    (Cursor.takes_next _).append hX
  have hxs : xs = lead false xs ++ X := by
    have hrest := hall.rest
    rwa [he, List.append_nil] at hrest
  -- The second text has moved to the next line.
  have hlevel : (Comparison.moved g hg).Level (Cursor.ofText ys).next
      (Cursor.next ⟨ys, e.point.after '\n'⟩) := by
    refine (Comparison.moved g hg).afterAll rfl (hstart.trans ?_)
    rw [hall.point, ← hxs, Point.afterAll_append]
    rfl
  obtain ⟨us', f', hseq', hus, -, hgap⟩ :=
    h'.follow trivial hlevel (moved_of_tidy hy)
  -- The first one stays as it is.
  obtain ⟨c', ts', hseq, hts, hreach, -⟩ :=
    h.elsewhere hX (alone_of_tidy hx) (redirects_line he ys)
    (h'.elseless hf (alone_of_tidy hy))
  obtain ⟨-, rfl⟩ :=
    hreach (.ofText xs) _ rfl (Cursor.takes_next (.ofText xs)).rest
  have htext : lead false xs ++ (X ++ '\n' :: ys) = xs ++ '\n' :: ys := by
    rw [← List.append_assoc, ← hxs]
  rw [show lead false (Cursor.ofText xs).rest = lead false xs from rfl, htext]
    at hseq
  exact ⟨ts', us', f', hseq.append hseq', hgap.nil_iff.mp hf, hts, hus⟩

-- ============================================ programs behind programs

variable {source x y : String} {p q : Program}

theorem Concur.eq_of_mapM {v : Comparison} {ts ts' : List Node}
    {ss ss' : List Statement} (hv : v.right = id)
    (h : List.Forall₂ (Alike v.view) ts ts')
    (hs : ts.mapM (Statement.ofTree source) = .ok ss)
    (hs' : ts'.mapM (Statement.ofTree source) = .ok ss') :
    ss.map (Statement.mapPoints v.left) = ss' := by
  have hall : Concur v (fun f => List.map (Statement.mapSpans f))
      (ts.mapM (Statement.ofTree source))
      (ts'.mapM (Statement.ofTree source)) :=
    .mapM (h.imp fun _ _ h => (statements_agree _ _ h).1)
  have hmap : ss.map (Statement.mapPoints v.left) =
      ss'.map (Statement.mapPoints v.right) :=
    hall ss ss' hs hs'
  rw [hmap, hv, List.map_id'' Statement.mapPoints_id]

/-- Two programs with a line feed between them are a program. Its statements are
those of the first and those of the second, moved by the bytes and lines of the
first. -/
theorem parse_append (hx : tidy .gap x.toList = true)
    (hy : tidy .gap y.toList = true) (hp : Program.parse source x = .ok p)
    (hq : Program.parse source y = .ok q) :
    ∃ r, Program.parse source (x ++ "\n" ++ y) = .ok r ∧ r.statements =
      p.statements ++ q.statements.map (Statement.mapPoints (Point.shift
        (x ++ "\n").utf8ByteSize ((x ++ "\n").toList.count '\n'))) := by
  obtain ⟨ts, e, hs, he, hread⟩ := (parse_iff_sequence hx).mp hp
  obtain ⟨us, f, hs', hf, hread'⟩ := (parse_iff_sequence hy).mp hq
  have hstart : Point.shift (x ++ "\n").utf8ByteSize
      ((x ++ "\n").toList.count '\n') .origin =
      Point.origin.afterAll (x.toList ++ ['\n']) := by
    have hofList : String.ofList (x.toList ++ ['\n']) = x ++ "\n" := by simp
    rw [Point.afterAll_lineFeed, hofList, String.toList_append]
    rfl
  obtain ⟨ts', us', f', hjoin, hf', hts, hus⟩ :=
    hs.join hx hy he hs' hf (Point.shift_after _ _) hstart
  have htext : (x ++ "\n" ++ y).toList = x.toList ++ '\n' :: y.toList := by simp
  rw [← htext] at hjoin
  obtain ⟨r, hr, hread''⟩ := parse_of_sequence source hjoin hf'
  refine ⟨r, hr, ?_⟩
  obtain ⟨as, bs, has, hbs, hr⟩ :=
    Except.ok_of_mapM_append (mapM_of_program hjoin hread'')
  have hfirst := Concur.eq_of_mapM rfl hts (mapM_of_program hs hread) has
  have hsecond := Concur.eq_of_mapM rfl hus (mapM_of_program hs' hread') hbs
  rw [hr, ← hfirst, ← hsecond]
  congr 1
  exact List.map_id'' Statement.mapPoints_id p.statements

/-- The rule `else` is invoked behind a choice. -/
theorem invocation_behind_choice :
    ∃ p q, Program.parse "t" "if a \x7b \x7d" = .ok p ∧
      Program.parse "t" "else b ;" = .ok q ∧
      ∃ r, Program.parse "t" ("if a \x7b \x7d" ++ "\n" ++ "else b ;") = .ok r ∧
        r.statements = p.statements ++ q.statements.map (Statement.mapPoints
          (Point.shift ("if a \x7b \x7d" ++ "\n").utf8ByteSize
            (("if a \x7b \x7d" ++ "\n").toList.count '\n'))) := by
  obtain ⟨p, hp⟩ : (Program.parse "t" "if a \x7b \x7d").Succeeds := by
    decide +kernel
  obtain ⟨q, hq⟩ : (Program.parse "t" "else b ;").Succeeds := by decide +kernel
  exact ⟨p, q, hp, hq,
    parse_append (by decide +kernel) (by decide +kernel) hp hq⟩

/-- This does not hold of all texts: hash signs in words may hide marks in
either text, or in the first one quotes. -/
theorem append_ungrammatical :
    ((Program.parse "t" "if a \x7b \x7d").Succeeds ∧
      (Program.parse "t" "else \x7b#c ; k\n \x7dz ;").Succeeds ∧
      ¬ (Program.parse "t"
        ("if a \x7b \x7d" ++ "\n" ++ "else \x7b#c ; k\n \x7dz ;")).Succeeds) ∧
    (Program.parse "t" "if x \x7b#y \"\n k \" ;").Succeeds ∧
    (Program.parse "t" "a \" ; \x7d else \x7b \" ;").Succeeds ∧
    ¬ (Program.parse "t" ("if x \x7b#y \"\n k \" ;" ++ "\n" ++
        "a \" ; \x7d else \x7b \" ;")).Succeeds := by
  decide +kernel

end Jam
