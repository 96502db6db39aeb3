/-
A variable on its own is no name.

Nothing but a variable is a name too, as far as the productions go, and a
word with variables in it may begin and end with one and the same variable.
It is the order of choice that decides: where a word is looked for, a
variable at whose end the word ends is tried first. So a word that is a
name or a joined one has something else in it (`IsWord.children_ne`).

This depends on places, unlike all else that is said of the nodes of a
parse tree: the variable in question begins where the word does and ends
where it does. `IsWord` therefore keeps the match that left a node, and
the words of lists and conditions are traced back to such a match by the
nonterminals that can leave them (`Derives.exists_call`).
-/
import Jam.Proofs.Grammar.Children

namespace Jam

open Nonterminal

variable {r : Nonterminal} {ks : List Nonterminal} {ns : List Node} {t v : Node}
  {c d : Cursor}

/-- The node was left where a word was looked for. -/
def IsWord (t : Node) : Prop := ∃ c d, Derives grammar .plain (nt .word) c d [t]

theorem IsWord.is (h : IsWord t) : Is wordKinds t := by
  obtain ⟨c, d, h⟩ := h
  obtain ⟨t', ht', hn⟩ := leaves_word.mp h.leaves
  exact (List.cons.inj hn).1 ▸ ht'

/-- Below nodes with words in them, what can be a word was looked for as one. -/
theorem isWord_of_below {first last : Cursor}
    (hu : Is ks (.node r first last ns))
    (hr : r ∈ [.list, .truth, .comparison, .membership]) (ht : t ∈ ns)
    (hk : t.kind ∈ wordKinds) : IsWord t := by
  have hcalls : ∀ r ∈ [Nonterminal.list, .truth, .comparison, .membership],
      retention r ≠ .leaf ∧ ∀ k ∈ (body r).calls,
      k ∈ [.word, .blanks, .compareOp, .list] := by
    decide
  obtain ⟨hleaf, hcalls⟩ := hcalls r hr
  have hd : Derives grammar (grammar.bodyMode r .plain)
      (body r) first last ns := hu.grown
  rw [Grammar.bodyMode_plain hleaf] at hd
  obtain ⟨k, hcalled, c, d, ns, h, ht⟩ := hd.exists_call ht
  have other {k : Nonterminal} (h : Derives grammar .plain (.call k) c d ns)
      (hs : grammar.retention k ≠ .silent) (hw : k ∉ wordKinds) : IsWord t := by
    obtain ⟨xs, rfl, -⟩ := h.retained hs
    cases List.mem_singleton.mp ht
    exact absurd hk hw
  have hk' := hcalls k hcalled
  simp only [List.mem_cons, List.not_mem_nil, or_false] at hk'
  rcases hk' with rfl | rfl | rfl | rfl
  · obtain ⟨t', -, rfl⟩ := leaves_word.mp h.leaves
    exact ⟨c, d, List.mem_singleton.mp ht ▸ h⟩
  · cases leaves_blanks.mp h.leaves
    cases ht
  · exact other h (by decide) (by decide)
  · exact other h (by decide) (by decide)

-- ====================================================== lone variables

/-- Matches that leave nodes are but one, if they leave one node. -/
theorem derives_of_plus {a : Peg Nonterminal}
    (ha : ∀ {c d}, ¬ Derives grammar .plain a c d [])
    (h : Derives grammar .plain (Peg.plus a) c d [v]) :
    Derives grammar .plain a c d [v] := by
  generalize hn : [v] = nodes at h
  cases h with
  | @seq _ _ _ _ _ _ xs ys hx hy =>
    cases xs with
    | nil => exact absurd hx ha
    | cons x xs =>
      obtain ⟨rfl, hnil⟩ := List.cons.inj hn
      obtain ⟨rfl, rfl⟩ := List.append_eq_nil_iff.mp hnil.symm
      cases hy.eq_of_many_nil ha
      exact hx

/-- A name that is but a variable is where the variable is. -/
theorem derives_of_lone_name (h : Derives grammar .plain (nt .name) c d [t])
    (ht : t.children = [v]) (hv : v.kind = .variable) :
    Derives grammar .plain (nt .variable) c d [v] := by
  obtain ⟨xs, hnode, hb⟩ := h.retained (by decide)
  cases hnode
  cases ht
  have hpart :
      Derives grammar .plain (nt .identifier <|> nt .variable) c d [v] := by
    refine derives_of_plus (fun h => ?_) hb
    have hl := h.leaves
    simp (disch := decide) [leaves_nt] at hl
  cases hpart with
  | left hi =>
    obtain ⟨_, hnode, -⟩ := hi.retained (by decide)
    cases hnode
    cases hv
  | right _ hv => exact hv

/-- So is a joined word. -/
theorem derives_of_lone_joined (h : Derives grammar .plain (nt .joined) c d [t])
    (ht : t.children = [v]) (hv : v.kind = .variable) :
    Derives grammar .plain (nt .variable) c d [v] := by
  obtain ⟨xs, hnode, hb⟩ := h.retained (by decide)
  cases hnode
  cases ht
  have hbefore {c d} :
      ¬ Derives grammar .plain (nt .identifier <|> nt .fragment) c d [] := by
    intro h
    have hl := h.leaves
    simp (disch := decide) [leaves_nt] at hl
  have hafter {c d} : ¬ Derives grammar .plain
      (nt .variable <|> nt .identifier <|> nt .fragment) c d [] := by
    intro h
    have hl := h.leaves
    simp (disch := decide) [leaves_nt] at hl
  generalize hn : [v] = nodes at hb
  cases hb with
  | @seq _ _ _ _ _ _ _ after hfront hback =>
    cases hfront with
    | @seq _ _ _ _ _ _ before _ hfront hx =>
      obtain ⟨xs, rfl, -⟩ := hx.retained (by decide)
      -- What stands before the variable and behind it leaves nothing, so it is
      -- nothing.
      cases before with
      | cons => simp at hn
      | nil =>
        obtain ⟨rfl, rfl⟩ := List.cons.inj hn
        cases hfront.eq_of_many_nil hbefore
        cases hback.eq_of_many_nil hafter
        exact hx

/-- A word ends where a boundary is, and the boundary takes nothing. -/
theorem derives_to_boundary
    (h : Derives grammar .plain (nt r ++ nt .boundary) c d ns) :
    Derives grammar .plain (nt r) c d ns ∧
      Derives grammar .plain (nt .boundary) d d [] := by
  cases h with
  | seq hx hb =>
    cases hb with
    | node hs | bare hs => exact absurd rfl hs
    | silent hs hb =>
      cases hb with
      | ahead ha =>
        rw [List.append_nil]
        exact ⟨hx, .silent hs (.ahead ha)⟩

/-- A word that is a name or joined is not a variable alone: the variable would
have been found before. -/
theorem IsWord.children_ne (h : IsWord t)
    (hk : t.kind = .name ∨ t.kind = .joined) (hv : v.kind = .variable) :
    t.children ≠ [v] := by
  intro hc
  obtain ⟨c, d, h⟩ := h
  have other {k : Nonterminal} (h : Derives grammar .plain (.call k) c d [t])
      (hs : grammar.retention k ≠ .silent) : t.kind = k := by
    obtain ⟨_, hnode, -⟩ := h.retained hs
    cases hnode
    rfl
  have found (h : Derives grammar .plain (nt .variable) c d [v])
      (hb : Derives grammar .plain (nt .boundary) d d []) :
      grammar.found .plain (nt .variable ++ nt .boundary) c ≠ none :=
    fun hnone => nomatch (Derives.seq h hb).found.symm.trans hnone
  generalize hn : [t] = nodes at h
  cases h with
  | node hs | bare hs => exact absurd rfl hs
  | silent _ hb =>
    cases hb with
    | seq hmark hchoice =>
      cases hmark
      cases hn
      cases hchoice with
      | left h =>
        rw [other (derives_to_boundary h).1 (by decide)] at hk
        exact absurd hk (by decide)
      | right hnone h =>
        cases h with
        | left h =>
          obtain ⟨h, hb⟩ := derives_to_boundary h
          exact found (derives_of_lone_name h hc hv) hb hnone
        | right _ h =>
          cases h with
          | left h =>
            obtain ⟨h, hb⟩ := derives_to_boundary h
            exact found (derives_of_lone_joined h hc hv) hb hnone
          | right _ h =>
            rw [other h (by decide)] at hk
            exact absurd hk (by decide)

end Jam
