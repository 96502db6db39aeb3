/-
Matches as derivations.

`Derives g m e c d nodes` says that the expression `e` matches from the
cursor `c` to `d` and leaves `nodes`. It is built by rules, one or two for
each form of expression, and holds of exactly what a run finds
(`derives_iff`). The rules with a premise about something that is not
found are those that make choice ordered and repetition greedy.

The use of derivations is induction: what the matcher does is a loop over
an expression, a text and a mode at once, and a derivation is the trace of
that loop. The first thing that is proved so is that a match is a stretch
of the text (`Derives.takes`): the cursor behind it has what is left of
the text, and a point that was carried over what was taken.
-/
import Jam.Proofs.Peg.Found

namespace Jam

-- =========================================================== stretches

namespace Cursor

/-- From `c`, the text `taken` leads to `d`. -/
structure Takes (c : Cursor) (taken : List Char) (d : Cursor) : Prop where
  rest : c.rest = taken ++ d.rest
  point : d.point = c.point.afterAll taken

variable {c d e : Cursor} {taken more : List Char}

theorem Takes.nil (c : Cursor) : c.Takes [] c := ⟨rfl, rfl⟩

theorem Takes.append (h : c.Takes taken d) (h' : d.Takes more e) :
    c.Takes (taken ++ more) e where
  rest := by rw [h.rest, h'.rest, List.append_assoc]
  point := by rw [h'.point, h.point, Point.afterAll_append]

theorem Takes.cons (x : Char) (xs : List Char) (p : Point) :
    (⟨x :: xs, p⟩ : Cursor).Takes [x] ⟨xs, p.after x⟩ := ⟨rfl, rfl⟩

/-- What is skipped is taken. -/
theorem Takes.of_skip? (h : skip? taken c = some d) : c.Takes taken d := by
  fun_induction skip? taken c with
  | case1 c =>
    cases h
    exact .nil _
  | case2 xs y ys p ih => exact (Takes.cons y ys p).append (ih h)
  | case3 => cases h
  | case4 => cases h

theorem Takes.offset_le (h : c.Takes taken d) : c.offset ≤ d.offset := by
  rw [offset, offset, h.point]
  exact Point.offset_le_afterAll _ _

/-- Characters have bytes. -/
theorem Takes.offset_lt (h : c.Takes taken d) (hne : taken ≠ []) :
    c.offset < d.offset := by
  obtain ⟨x, xs, rfl⟩ := List.exists_cons_of_ne_nil hne
  have hle := Point.offset_le_afterAll (c.point.after x) xs
  have hx := x.utf8Size_pos
  rw [Point.offset_after] at hle
  rw [offset, offset, h.point, Point.afterAll_cons]
  omega

/-- As many bytes as a text has are that text. -/
theorem takeBytes_append (taken rest : List Char) (p : Point) :
    takeBytes ((p.afterAll taken).offset - p.offset) (taken ++ rest) =
      taken := by
  induction taken generalizing p with
  | nil =>
    cases rest with
    | nil => rfl
    | cons x xs =>
      have hx := x.utf8Size_pos
      rw [Point.afterAll_nil, Nat.sub_self, List.nil_append, takeBytes,
        if_neg (by omega)]
  | cons x xs ih =>
    have hle := Point.offset_le_afterAll (p.after x) xs
    rw [Point.offset_after] at hle
    rw [Point.afterAll_cons, List.cons_append, takeBytes, if_pos (by omega)]
    rw [show ((p.after x).afterAll xs).offset - p.offset - x.utf8Size
        = ((p.after x).afterAll xs).offset - (p.after x).offset by
      rw [Point.offset_after]
      omega]
    rw [ih]

/-- The text between two cursors is what leads from the one to the other. -/
theorem Takes.upTo_eq (h : c.Takes taken d) : c.upTo d = taken := by
  rw [upTo, offset, offset, h.rest, h.point]
  exact takeBytes_append taken d.rest c.point

end Cursor

-- ========================================================= derivations

/-- The expression `e`, read in the mode `m`, matches from one cursor to
another and leaves these nodes. -/
inductive Derives {N : Type} (g : Grammar N) :
    Mode → Peg N → Cursor → Cursor → List (Tree N) → Prop
  | one {m accepts x xs p} : accepts x = true →
      Derives g m (.one accepts) ⟨x :: xs, p⟩ ⟨xs, p.after x⟩ []
  | chars {m text c d} :
      Cursor.skip? text c = some d → Derives g m (.chars text) c d []
  | start {m c} : c.offset = 0 → Derives g m .start c c []
  | finish {m c} : c.rest = [] → Derives g m .finish c c []
  | seq {m a b c d e xs ys} : Derives g m a c d xs → Derives g m b d e ys →
      Derives g m (.seq a b) c e (xs ++ ys)
  | left {m a b c d xs} : Derives g m a c d xs → Derives g m (.alt a b) c d xs
  | right {m a b c d xs} : g.found m a c = none → Derives g m b c d xs →
      Derives g m (.alt a b) c d xs
  /-- Repetition ends where there is no further match. -/
  | stop {m a c} : g.found m a c = none → Derives g m (.many a) c c []
  /-- A match that takes nothing is the last. -/
  | last {m a c d xs} : Derives g m a c d xs → d.offset = c.offset →
      Derives g m (.many a) c d xs
  | more {m a c d e xs ys} : Derives g m a c d xs → d.offset ≠ c.offset →
      Derives g m (.many a) d e ys → Derives g m (.many a) c e (xs ++ ys)
  | without {m a c} : g.found m a c = none → Derives g m (.opt a) c c []
  | with {m a c d xs} : Derives g m a c d xs → Derives g m (.opt a) c d xs
  | ahead {m a c d xs} :
      Derives g m.ahead a c d xs → Derives g m (.ahead a) c c []
  | notAhead {m a c} :
      g.found m.notAhead a c = none → Derives g m (.notAhead a) c c []
  | silent {m r c d xs} :
      g.retention r = .silent → Derives g m (g.body r) c d xs →
      Derives g m (.call r) c d xs
  /-- A node is left, over the nodes of the body. -/
  | node {m r c d xs} :
      g.retention r ≠ .silent → (g.ownMode r m).keepsNodes = true →
      Derives g (g.bodyMode r m) (g.body r) c d xs →
      Derives g m (.call r) c d [.node r c d xs]
  /-- Where no nodes are kept, none is left. -/
  | bare {m r c d xs} :
      g.retention r ≠ .silent → (g.ownMode r m).keepsNodes = false →
      Derives g (g.bodyMode r m) (g.body r) c d xs →
      Derives g m (.call r) c d xs

variable {N : Type} {g : Grammar N} {m : Mode} {e a b : Peg N} {c d : Cursor}
  {nodes : List (Tree N)}

-- ========================================= from matches to derivations

section Found

variable {f : Match N}

theorem derives_one {accepts : Char → Bool}
    (h : g.found m (.one accepts) c = some f) :
    Derives g m (.one accepts) c f.stop f.nodes := by
  obtain ⟨rest, p⟩ := c
  cases rest with
  | nil =>
    rw [Grammar.found_one_nil] at h
    cases h
  | cons x xs =>
    rw [Grammar.found_one_cons] at h
    split at h
    · next hx =>
      cases h
      exact .one hx
    · cases h

theorem derives_start (h : g.found m .start c = some f) :
    Derives g m .start c f.stop f.nodes := by
  rw [Grammar.found_start] at h
  split at h
  · next hc =>
    cases h
    exact .start hc
  · cases h

theorem derives_finish (h : g.found m .finish c = some f) :
    Derives g m .finish c f.stop f.nodes := by
  rw [Grammar.found_finish] at h
  split at h
  · next hc =>
    cases h
    exact .finish (List.isEmpty_iff.mp hc)
  · cases h

theorem derives_notAhead (h : g.found m (.notAhead a) c = some f) :
    Derives g m (.notAhead a) c f.stop f.nodes := by
  rw [Grammar.found_notAhead] at h
  split at h
  · cases h
  · next hs =>
    cases h
    exact .notAhead (by simpa using hs)

theorem derives_alt
    (ha : ∀ {x}, g.found m a c = some x → Derives g m a c x.stop x.nodes)
    (hb : ∀ {y}, g.found m b c = some y → Derives g m b c y.stop y.nodes)
    (h : g.found m (.alt a b) c = some f) :
    Derives g m (.alt a b) c f.stop f.nodes := by
  rw [Grammar.found_alt] at h
  cases hx : g.found m a c with
  | some x =>
    rw [hx] at h
    cases h
    exact .left (ha hx)
  | none =>
    rw [hx] at h
    exact .right hx (hb h)

theorem derives_opt
    (ha : ∀ {x}, g.found m a c = some x → Derives g m a c x.stop x.nodes)
    (h : g.found m (.opt a) c = some f) :
    Derives g m (.opt a) c f.stop f.nodes := by
  rw [Grammar.found_opt] at h
  cases hx : g.found m a c with
  | none =>
    rw [hx] at h
    cases h
    exact .without hx
  | some x =>
    rw [hx] at h
    cases h
    exact .with (ha hx)

/-- A repetition matches once and then goes on from another place. -/
theorem derives_many
    (ha : ∀ {x}, g.found m a c = some x → Derives g m a c x.stop x.nodes)
    (hm : ∀ {x y}, g.found m a c = some x → x.stop.offset ≠ c.offset → g.found m
      (.many a) x.stop = some y → Derives g m (.many a) x.stop y.stop y.nodes)
    (h : g.found m (.many a) c = some f) :
    Derives g m (.many a) c f.stop f.nodes := by
  rw [Grammar.found_many] at h
  cases hx : g.found m a c with
  | none =>
    rw [hx] at h
    cases h
    exact .stop hx
  | some x =>
    rw [hx] at h
    dsimp only at h
    split at h
    · next heq =>
      cases h
      exact .last (ha hx) heq
    · next hne =>
      obtain ⟨y, hy, rfl⟩ := Option.map_eq_some_iff.mp h
      exact .more (ha hx) hne (hm hx hne hy)

theorem derives_call {r : N}
    (hb : ∀ {m x}, g.found m (g.body r) c = some x →
      Derives g m (g.body r) c x.stop x.nodes)
    (h : g.found m (.call r) c = some f) :
    Derives g m (.call r) c f.stop f.nodes := by
  by_cases hs : g.retention r = .silent
  · rw [Grammar.found_silent _ _ _ hs] at h
    exact .silent hs (hb h)
  · rw [Grammar.found_call _ _ _ hs] at h
    obtain ⟨x, hx, rfl⟩ := Option.map_eq_some_iff.mp h
    unfold Grammar.enclose
    split
    · next hk => exact .node hs hk (hb hx)
    · next hk => exact .bare hs (by simpa using hk) (hb hx)

/-- What is found is derived. -/
theorem derives_of_found (h : g.found m e c = some f) :
    Derives g m e c f.stop f.nodes := by
  -- By the work that is left: neither the expression nor the text alone
  -- gets smaller, as a call goes on with a body that may be larger.
  induction hn : g.work e c.rest.length
    using Nat.strongRecOn generalizing m e c f with
  | ind n ih =>
    subst hn
    have reaches : ∀ {a x}, g.found m a c = some x → g.Reaches a c (some x) :=
      fun {a} _ hx => hx ▸ g.reaches_run m c .none a
    cases e with
    | one accepts => exact derives_one h
    | chars text =>
      rw [Grammar.found_chars] at h
      obtain ⟨d, hd, rfl⟩ := Option.map_eq_some_iff.mp h
      exact .chars hd
    | start => exact derives_start h
    | finish => exact derives_finish h
    | seq a b =>
      rw [Grammar.found_seq] at h
      obtain ⟨x, hx, h⟩ := Option.bind_eq_some_iff.mp h
      obtain ⟨y, hy, rfl⟩ := Option.map_eq_some_iff.mp h
      have hr := reaches hx
      have hb := ih _ (Grammar.work_seq_right hr.le (hr x rfl).2) hy rfl
      exact .seq (ih _ Grammar.work_seq_left hx rfl) hb
    | alt a b =>
      exact derives_alt (fun hx => ih _ Grammar.work_alt_left hx rfl)
        (fun hy => ih _ Grammar.work_alt_right hy rfl) h
    | many a =>
      refine derives_many (fun hx => ih _ Grammar.work_many hx rfl)
        (fun hx hne hy => ?_) h
      have hlt := (reaches hx).lt_of_offset_ne hne
      exact ih _
        (g.work_lt (Nat.le_refl (g.maxCost (.many a))) (.inl hlt)) hy rfl
    | opt a => exact derives_opt (fun hx => ih _ Grammar.work_opt hx rfl) h
    | ahead a =>
      rw [Grammar.found_ahead] at h
      obtain ⟨x, hx, rfl⟩ := Option.map_eq_some_iff.mp h
      exact .ahead (ih _ Grammar.work_ahead hx rfl)
    | notAhead a => exact derives_notAhead h
    | call r => exact derives_call (fun hx => ih _ Grammar.work_body hx rfl) h

end Found

-- ========================================= from derivations to matches

/-- What is derived is found. -/
theorem Derives.found (h : Derives g m e c d nodes) :
    g.found m e c = some ⟨d, nodes⟩ := by
  induction h with
  | one hx => rw [Grammar.found_one_cons, if_pos hx]
  | chars hd => rw [Grammar.found_chars, hd, Option.map_some]
  | start hc => rw [Grammar.found_start, if_pos hc]
  | finish hc => rw [Grammar.found_finish, hc, List.isEmpty_nil, if_pos rfl]
  | seq _ _ ih ih' =>
    rw [Grammar.found_seq, ih, Option.bind_some, ih']
    rfl
  | left _ ih => rw [Grammar.found_alt, ih, Option.some_or]
  | right ha _ ih => rw [Grammar.found_alt, ha, Option.none_or, ih]
  | stop ha => rw [Grammar.found_many, ha]
  | last _ heq ih =>
    rw [Grammar.found_many, ih]
    exact if_pos heq
  | more _ hne _ ih ih' =>
    rw [Grammar.found_many, ih]
    dsimp only
    rw [if_neg hne, ih']
    rfl
  | without ha => rw [Grammar.found_opt, ha, Option.getD_none]
  | «with» _ ih => rw [Grammar.found_opt, ih, Option.getD_some]
  | ahead _ ih => rw [Grammar.found_ahead, ih, Option.map_some]
  | notAhead ha =>
    rw [Grammar.found_notAhead, ha]
    rfl
  | silent hs _ ih => rw [Grammar.found_silent _ _ _ hs, ih]
  | node hs hk _ ih =>
    rw [Grammar.found_call _ _ _ hs, ih, Option.map_some, Grammar.enclose,
      if_pos hk]
  | bare hs hk _ ih =>
    rw [Grammar.found_call _ _ _ hs, ih, Option.map_some, Grammar.enclose, hk]
    rfl

/-- Derivations and matches are the same. -/
theorem derives_iff :
    Derives g m e c d nodes ↔ g.found m e c = some ⟨d, nodes⟩ :=
  ⟨Derives.found, derives_of_found⟩

-- ================================================= the text of a match

/-- A match is a stretch of the text. -/
theorem Derives.takes (h : Derives g m e c d nodes) :
    ∃ taken, c.Takes taken d := by
  induction h with
  | one => exact ⟨_, .cons ..⟩
  | chars hd => exact ⟨_, .of_skip? hd⟩
  | start | finish | stop | without | ahead | notAhead => exact ⟨[], .nil _⟩
  | seq _ _ ih ih' | more _ _ _ ih ih' =>
    obtain ⟨_, h⟩ := ih
    obtain ⟨_, h'⟩ := ih'
    exact ⟨_, h.append h'⟩
  | left _ ih | right _ _ ih | last _ _ ih | «with» _ ih | silent _ _ ih
    | node _ _ _ ih | bare _ _ _ ih => exact ih

end Jam
