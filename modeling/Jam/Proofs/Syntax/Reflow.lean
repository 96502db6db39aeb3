/-
Blanks may be laid out in any way.

In a text without quotes and hash signs there are no strings in quotes and
no comments, so all that there is besides blanks are words: the maximal
runs of other characters (`runs`). Two such texts that have the same runs
are either both programs, and the same program up to places, or neither is
(`parse_reflowed`).

Nothing but the runs has to be compared. Two texts with the same runs are
aligned (`aligned_of_runs`) for the comparison that lets any gap stand for
any other; and along aligned texts the statements are the same.
-/
import Jam.Proofs.Syntax.Division

namespace Jam

-- ================================================================ runs

/-- The maximal runs of characters that are not blank. -/
def runs (cs : List Char) : List (List Char) :=
  (cs.splitOnP isBlank).filter (· ≠ [])

/-- There are neither quotes nor comments. -/
def isPlain (cs : List Char) : Prop := ∀ c ∈ cs, c ≠ '"' ∧ c ≠ '#'

instance (cs : List Char) : Decidable (isPlain cs) := List.decidableBAll _ cs

variable {c : Char} {cs ds w xs ys : List Char}

theorem runs_nil : runs [] = [] := by
  rw [runs, List.splitOnP_nil]
  rfl

theorem runs_cons_of_blank (h : isBlank c = true) :
    runs (c :: cs) = runs cs := by
  rw [runs, List.splitOnP_cons_eq_if_modifyHead, if_pos h]
  rfl

/-- A word that is followed by a blank, or by nothing, is a run. -/
theorem runs_append (hw : ∀ c ∈ w, isBlank c = false) (hne : w ≠ [])
    (hb : bounded cs = true) : runs (w ++ cs) = w :: runs cs := by
  have keep {ws : List (List Char)} :
      (w :: ws).filter (· ≠ []) = w :: ws.filter (· ≠ []) := by
    rw [List.filter_cons_of_pos (by simpa using hne)]
  cases cs with
  | nil =>
    rw [List.append_nil, runs, List.splitOnP_eq_singleton hw, keep, runs_nil,
      List.filter_nil]
  | cons c cs =>
    rw [runs_cons_of_blank hb, runs,
      List.splitOnP_append_cons_of_forall_mem hw c hb, keep, runs]

theorem bounded_dropWhile (cs : List Char) :
    bounded (cs.dropWhile (!isBlank ·)) = true := by
  induction cs with
  | nil => rfl
  | cons c cs ih =>
    rw [List.dropWhile_cons]
    cases hc : isBlank c with
    | true => exact hc
    | false => exact ih

/-- Behind blanks there is a word, unless there is nothing. -/
theorem strip_cases (h : isPlain cs) :
    strip false cs = [] ∧ runs cs = [] ∨
      ∃ w ds, strip false cs = w ++ ds ∧ runs cs = w :: runs ds ∧ w ≠ [] ∧
      bounded ds = true ∧ (∀ d ∈ w, isInner d = true ∧ d ≠ '"') ∧ isPlain ds ∧
      ds.length < cs.length := by
  induction cs with
  | nil => exact .inl ⟨rfl, runs_nil⟩
  | cons c cs ih =>
    obtain ⟨hc, hcs⟩ := List.forall_mem_cons.mp h
    have hinner : isInner c = !isBlank c := by simp [isInner, hc.2]
    rw [strip, if_neg Bool.false_ne_true, hinner, beq_eq_false_iff_ne.mpr hc.2]
    cases hb : isBlank c with
    | true =>
      rw [runs_cons_of_blank hb]
      rcases ih hcs with hnil | ⟨w, ds, hs, hr, hne, hbd, hw, hds, hlt⟩
      · exact .inl hnil
      · exact .inr ⟨w, ds, hs, hr, hne, hbd, hw, hds, Nat.lt_succ_of_lt hlt⟩
    | false =>
      have hsplit : c :: cs =
          c :: cs.takeWhile (!isBlank ·) ++ cs.dropWhile (!isBlank ·) := by
        rw [List.cons_append, List.takeWhile_append_dropWhile]
      have hblank : ∀ d ∈ c :: cs.takeWhile (!isBlank ·),
          isBlank d = false := by
        refine List.forall_mem_cons.mpr ⟨hb, fun d hd => ?_⟩
        simpa using List.all_eq_true.mp List.all_takeWhile d hd
      refine .inr ⟨_, _, hsplit, ?_, List.cons_ne_nil _ _, bounded_dropWhile cs,
        fun d hd => ?_, ?_, ?_⟩
      · rw [hsplit,
          runs_append hblank (List.cons_ne_nil _ _) (bounded_dropWhile cs)]
      · have hplain := h d (hsplit ▸ List.mem_append_left _ hd)
        exact ⟨by simp [isInner, hblank d hd, hplain.2], hplain.1⟩
      · exact fun d hd => hcs d ((List.dropWhile_sublist _).mem hd)
      · exact Nat.lt_succ_of_le (List.dropWhile_sublist _).length_le

-- ============================================ texts with the same runs

variable {v : Comparison}

/-- The same word is followed by blanks in both texts. -/
theorem aligned_word (hw : ∀ c ∈ w, isInner c = true) (hx : bounded xs = true)
    (hy : bounded ys = true) (hgap : v.gaps (lead false xs) (lead false ys))
    (h : v.Gap (strip false xs) (strip false ys)) :
    v.Word (w ++ xs) (w ++ ys) := by
  induction w with
  | nil => exact .pause hx hy hgap h
  | cons c w ih =>
    obtain ⟨hc, hcs⟩ := List.forall_mem_cons.mp hw
    exact .inside hc (ih hcs)

/-- Texts with the same runs are aligned if nothing is asked of the gaps. -/
theorem aligned_of_runs (hwhole : v.whole) (hgaps : ∀ us ws, v.gaps us ws)
    (hx : isPlain xs) (hy : isPlain ys) (h : runs xs = runs ys) :
    v.Gap (strip false xs) (strip false ys) := by
  induction hn : xs.length using Nat.strongRecOn generalizing xs ys with
  | ind n ih =>
    subst hn
    rcases strip_cases hx with ⟨hs, hr⟩ | ⟨w, us, hs, hr, hne, hb, hw, hus, hlt⟩
    · rcases strip_cases hy with ⟨hs', -⟩ | ⟨w, us, -, hr', -⟩
      · rw [hs, hs']
        exact .nothing
      · rw [hr, hr'] at h
        cases h
    · rcases strip_cases
          hy with ⟨-, hr'⟩ | ⟨w', us', hs', hr', -, hb', -, hus', -⟩
      · rw [hr, hr'] at h
        cases h
      · rw [hr, hr'] at h
        obtain ⟨rfl, hruns⟩ := List.cons.inj h
        have hrest := ih _ hlt hus hus' hruns rfl
        rw [hs, hs']
        cases w with
        | nil => exact absurd rfl hne
        | cons c w =>
          obtain ⟨hc, hcs⟩ := List.forall_mem_cons.mp hw
          exact .fresh hc.1 hc.2 (fun _ _ => hwhole)
            (aligned_word (fun d hd => (hcs d hd).1) hb hb' (hgaps _ _) hrest)

/-- Texts without quotes and hash signs are tidy. -/
theorem tidy_of_plain (h : isPlain cs) (φ : Phase) : tidy φ cs = true := by
  induction cs generalizing φ with
  | nil => rfl
  | cons c cs ih =>
    obtain ⟨hc, hcs⟩ := List.forall_mem_cons.mp h
    rw [tidy, beq_eq_false_iff_ne.mpr hc.2, Bool.and_false, ih hcs]
    rfl

/-- Nothing is compared but words. -/
def Comparison.words : Comparison where
  left _ := .origin
  right _ := .origin
  after _ _ := rfl
  gaps _ _ := True
  afterAll _ _ := rfl
  whole := True
  cut _ _ _ := False
  cut_stop := Comparison.uncut

-- ============================================================ programs

variable {source x y : String} {p q : Program}

/-- If the one text is a program, then the other is the same up to places. -/
theorem parse_of_runs (hx : isPlain x.toList) (hy : isPlain y.toList)
    (h : runs x.toList = runs y.toList) (hp : Program.parse source x = .ok p) :
    ∃ q, Program.parse source y = .ok q ∧ p.unplaced = q.unplaced := by
  obtain ⟨ts, e, hs, he, hread⟩ :=
    (parse_iff_sequence (tidy_of_plain hx _)).mp hp
  have hgap : Comparison.words.Gap _ _ :=
    aligned_of_runs trivial (fun _ _ => trivial) hx hy h
  have hlevel : Comparison.words.Level (Cursor.ofText x.toList).next
      (Cursor.ofText y.toList).next := rfl
  obtain ⟨ts', e', hs', hts, -, hge⟩ := hs.follow trivial hlevel hgap
  obtain ⟨q, hq, hread'⟩ := parse_of_sequence source hs' (hge.nil_iff.mp he)
  exact ⟨q, hq, Program.agree (v := .words)
    (alike_programNode rfl rfl hts) p q hread hread'⟩

/-- Programs are the same, up to places, in any layout. -/
theorem parse_reflowed (hx : isPlain x.toList) (hy : isPlain y.toList)
    (h : runs x.toList = runs y.toList) :
    ((Program.parse source x).Succeeds ↔ (Program.parse source y).Succeeds) ∧
    ∀ p q, Program.parse source x = .ok p → Program.parse source y = .ok q →
      p.unplaced = q.unplaced := by
  refine ⟨⟨fun ⟨p, hp⟩ => ?_, fun ⟨q, hq⟩ => ?_⟩, fun p q hp hq => ?_⟩
  · obtain ⟨q, hq, -⟩ := parse_of_runs hx hy h hp
    exact ⟨q, hq⟩
  · obtain ⟨p, hp, -⟩ := parse_of_runs hy hx h.symm hq
    exact ⟨p, hp⟩
  · obtain ⟨q', hq', heq⟩ := parse_of_runs hx hy h hp
    cases hq.symm.trans hq'
    exact heq

/-- An invocation, in one line and in several. -/
theorem invocation_reflowed :
    runs "f a ;".toList = runs "\n f\t\ta\r\n;".toList ∧
      ((Program.parse "t" "f a ;").Succeeds ↔
        (Program.parse "t" "\n f\t\ta\r\n;").Succeeds) ∧
      ∀ p q, Program.parse "t" "f a ;" = .ok p →
        Program.parse "t" "\n f\t\ta\r\n;" = .ok q → p.unplaced = q.unplaced :=
  ⟨by decide +kernel,
    parse_reflowed (by decide +kernel) (by decide +kernel) (by decide +kernel)⟩

end Jam
