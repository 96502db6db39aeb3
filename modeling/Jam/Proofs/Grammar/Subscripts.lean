/-
Subscripts without variables, in the grammar.

The grammar and `Subscript.parse` both know what a subscript looks like.
For the grammar there may be variables in one; without them it comes to
the same. A node of a subscript has the texts of what is below it
(`text_subscriptText`), so if these are tokens they are the runs of digits
that a subscript denotes by (`denotes_of_node`). And the text of a
subscript is matched as one (`derives_subscriptText`): each run of digits
is a token, as the grammar takes digits for as long as there are any.
-/
import Jam.Proofs.Eval.Selection
import Jam.Proofs.Grammar.Placement
import Jam.Proofs.Grammar.Variables

namespace Jam

open Nonterminal
open Subscript (Denotes)

variable {c d : Cursor} {t : Node} {ts : List Node} {ds xs r : List Char}
  {a : Nat} {stop : SubscriptEnd} {p : Point}

-- ============================================== from nodes to numerals

theorem takes_texts_index (h : Derives grammar .plain (nt .index) c d ts) :
    c.Takes (ts.flatMap Tree.text) d := by
  cases h with
  | silent _ hb =>
    have hcovers : grammar.Covers (body .index) := by
      refine ⟨⟨?_, ?_⟩, ?_, ?_⟩ <;>
        · intro hs
          cases hs
    exact hb.takes_texts hcovers
  | node hs | bare hs => exact absurd rfl hs

theorem takes_texts_subscriptText
    (h : Derives grammar .plain (body .subscriptText) c d ts) :
    c.Takes (ts.flatMap Tree.text) d := by
  have hdash {c d : Cursor} {ts : List Node}
      (h : Derives grammar .plain (nt .rangeDash) c d ts) :
      c.Takes (ts.flatMap Tree.text) d := h.takes_texts (by rintro ⟨⟩)
  cases h with
  | seq hindex hrange =>
    have hfirst := takes_texts_index hindex
    rw [List.flatMap_append]
    cases hrange with
    | without => exact hfirst.append (.nil _)
    | «with» hrange =>
      cases hrange with
      | seq hmark hlast =>
        rw [List.flatMap_append]
        cases hlast with
        | without => exact hfirst.append ((hdash hmark).append (.nil _))
        | «with» hlast =>
          exact hfirst.append ((hdash hmark).append (takes_texts_index hlast))

/-- A subscript has the texts of what is below it. -/
theorem text_subscriptText (h : Is [.subscriptText] t) :
    t.text = t.children.flatMap Tree.text := by
  have hbody : Derives grammar (grammar.bodyMode t.kind .plain)
      (grammar.body t.kind) t.first t.last t.children := h.grown
  rw [h.kind_eq, Grammar.bodyMode_plain (by decide)] at hbody
  exact (takes_texts_subscriptText hbody).upTo_eq

/-- Numbers side by side are a run of digits. -/
theorem digits_of_numbers (h : ∀ t ∈ ts, Is [.number, .variable] t)
    (hv : ∀ t ∈ ts, t.kind ≠ .variable) :
    ∀ c ∈ ts.flatMap Tree.text, isDigit c = true := by
  intro c hc
  obtain ⟨t, ht, hc⟩ := List.mem_flatMap.mp hc
  have hk : t.kind = .number := by simpa [hv t ht] using (h t ht).kind
  exact (text_number ((h t ht).of_kind hk)).2 c hc

theorem numeral_of_numbers (h : SomeAre [.number, .variable] ts)
    (hv : ∀ t ∈ ts, t.kind ≠ .variable) :
    ∃ a, Numeral (ts.flatMap Tree.text) a := by
  refine ⟨_,
    Subscript.numeral_number (fun hnil => ?_) (digits_of_numbers h.all hv)⟩
  obtain ⟨t, ht⟩ := List.exists_mem_of_ne_nil ts h.nonempty
  have hk : t.kind = .number := by simpa [hv t ht] using (h.all t ht).kind
  exact (text_number ((h.all t ht).of_kind hk)).1
    (List.flatMap_eq_nil_iff.mp hnil t ht)

/-- A subscript without variables has the form of one. -/
theorem denotes_of_node (h : Is [.subscriptText] t)
    (hv : ∀ u ∈ t.children, u.kind ≠ .variable) :
    ∃ a stop, Denotes (t.children.flatMap Tree.text) a stop := by
  cases t with
  | node kind start finish children =>
    obtain rfl : kind = .subscriptText := h.kind_eq
    dsimp only [Tree.children] at hv ⊢
    obtain ⟨first, hf, rfl | ⟨dash, hd, last, hl, rfl⟩⟩ :=
      below_subscriptText (h.below (by decide))
    · obtain ⟨a, ha⟩ := numeral_of_numbers hf hv
      exact ⟨a, _, .single ha⟩
    · obtain ⟨hfirst, hrest⟩ := List.forall_mem_append.mp hv
      obtain ⟨-, hlast⟩ := List.forall_mem_cons.mp hrest
      obtain ⟨a, ha⟩ := numeral_of_numbers hf hfirst
      rw [List.flatMap_append, List.flatMap_cons, text_rangeDash hd]
      by_cases hnil : last.flatMap Tree.text = []
      · rw [hnil]
        exact ⟨a, _, .unbounded ha⟩
      · exact ⟨a, _, .closed ha
          (Subscript.numeral_number hnil (digits_of_numbers hl hlast))⟩

-- ============================================== from numerals to nodes

/-- A run of digits is an index, a single token. -/
theorem derives_index (h : Numeral ds a) (hr : EndsItems .index r) (p : Point) :
    ∃ t, t.kind = .number ∧ t.children = [] ∧ Derives grammar .plain (nt .index)
      ⟨ds ++ r, p⟩ ⟨r, p.afterAll ds⟩ [t] := by
  have htoken :
      Derives grammar .plain (nt .number <|> nt .variable) ⟨ds ++ r, p⟩ _ _ :=
    .left (derives_token (a := .index) h.nonempty h.digits fun x hx =>
      (hr x hx).1)
  exact ⟨_, rfl, rfl, .silent rfl (.seq htoken (.stop hr.found_none))⟩

theorem derives_dash (r : List Char) (p : Point) :
    ∃ t, t.kind = .rangeDash ∧ t.children = [] ∧ Derives grammar .plain
      (nt .rangeDash) ⟨'-' :: r, p⟩ ⟨r, p.after '-'⟩ [t] :=
  ⟨_, rfl, rfl, .node (by decide) rfl (derives_sign rfl rfl)⟩

/-- The node has a text of its own, and nothing below it. -/
def IsDigitsOrDash (t : Node) : Prop :=
  t.kind ∈ [Nonterminal.number, .rangeDash] ∧ t.children = []

/-- Behind the first run of digits there is nothing, or a dash and perhaps a
second run. -/
theorem derives_range (h : Denotes xs a stop) (p : Point) :
    ∃ ds r q ts, xs = ds ++ r ∧ Numeral ds a ∧ EndsItems .index r ∧
      Derives grammar .plain (.opt (nt .rangeDash ++ .opt (nt .index)))
        ⟨r, p.afterAll ds⟩ ⟨[], q⟩ ts ∧
      ∀ t ∈ ts, IsDigitsOrDash t := by
  have hnone {e : Peg Nonterminal}
      (he : grammar.mayBeEmpty e = false) (q : Point) :
      Derives grammar .plain (.opt e) ⟨[], q⟩ ⟨[], q⟩ [] :=
    .without (found_end he rfl)
  have hmark (es : List Char) : EndsItems .index ('-' :: es) :=
    endsItems_cons (by decide)
  cases h with
  | single h =>
    exact ⟨_, [], _, _, (List.append_nil _).symm, h, endsItems_nil, hnone rfl _,
      List.forall_mem_nil _⟩
  | unbounded h =>
    obtain ⟨dash, hk, hc, hd⟩ := derives_dash [] (p.afterAll _)
    exact ⟨_, ['-'], _, _, rfl, h, hmark [], .with (.seq hd (hnone rfl _)),
      List.forall_mem_singleton.mpr ⟨by simp [hk], hc⟩⟩
  | @closed ds es a b h h' =>
    obtain ⟨dash, hk, hc, hd⟩ := derives_dash (es ++ []) (p.afterAll ds)
    obtain ⟨t, hk', hc', ht⟩ :=
      derives_index h' endsItems_nil ((p.afterAll ds).after '-')
    rw [List.append_nil] at hd ht
    exact ⟨ds, '-' :: es, _, _, rfl, h, hmark es, .with (.seq hd (.with ht)),
      List.forall_mem_cons.mpr ⟨⟨by simp [hk], hc⟩,
        List.forall_mem_singleton.mpr ⟨by simp [hk'], hc'⟩⟩⟩

/-- The text of a subscript is matched as one, with tokens below it. -/
theorem derives_subscriptText (h : Denotes xs a stop) (p : Point) :
    ∃ q ts, Derives grammar .plain (nt .subscriptText) ⟨xs, p⟩ ⟨[], q⟩
      [.node .subscriptText ⟨xs, p⟩ ⟨[], q⟩ ts] ∧
      ∀ t ∈ ts, IsDigitsOrDash t := by
  obtain ⟨ds, r, q, ts, rfl, hds, hr, hrange, hall⟩ := derives_range h p
  obtain ⟨t, hk, hc, hindex⟩ := derives_index hds hr p
  exact ⟨q, t :: ts, .node (by decide) rfl (.seq hindex hrange),
    List.forall_mem_cons.mpr ⟨⟨by simp [hk], hc⟩, hall⟩⟩

end Jam
