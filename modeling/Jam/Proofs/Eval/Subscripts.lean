/-
Subscripts that are no subscripts.

The form of a subscript is known to the grammar and to `Subscript.parse`,
and for texts they agree on it (`parseTree_subscriptText_iff`). So what is
read from a program has subscripts of the right form wherever there are no
variables in them (`Piece.Read.formed`), and a reading that is refused for
the form of a subscript has met one with a variable in it
(`Error.Blames`).

This one need not be the subscript of the variable that is read. A
variable is refused if its name is, and in the name there may be other
variables with subscripts of their own (`literal_subscript_refused`).
-/
import Jam.Proofs.Eval.Words
import Jam.Proofs.Grammar.Subscripts
import Jam.Proofs.Syntax.Origins

namespace Jam

open Except (Yields)
open Subscript (Denotes)

-- ========================================================= definitions

/-- The text of a subscript is none. -/
def Error.Malformed (e : Error) : Prop := e.code = "subscript-malformed"

/-- Every subscript in the piece that has no variable in it has the form of a
subscript. -/
def Piece.Formed (x : Piece) : Prop :=
  ∀ v sub, x.Contains (.variable v) → v.subscript = some sub →
    sub.isLiteral = true → ∃ a stop, Denotes (literalOf sub.parts) a stop

/-- The error is about a subscript in the piece that has a variable in it. -/
def Error.Blames (e : Error) (x : Piece) : Prop :=
  ∃ v sub text,
    x.Contains (.variable v) ∧ v.subscript = some sub ∧ sub.isLiteral = false ∧
    e = .found (.badSubscript (.malformed text)) sub.span

variable {source text : String} {t : Node} {v : Variable} {sub : Identifier}
  {parts : List Part} {x y : Piece} {e : Error}

-- ============================================ subscripts that are read

theorem kind_of_require {context : String} {r : Nonterminal} :
    Yields (fun _ => t.kind = r) (require source context r t) := by
  unfold require
  split
  · next h => exact .pure h
  · exact .throw _

/-- The subscript of a variable was read from a node of the text of a
subscript. -/
theorem Variable.subscript_read (h : Rooted t) :
    Yields (fun v => ∀ sub, v.subscript = some sub → ∃ u,
      Rooted u ∧ u.kind = .subscriptText ∧ Identifier.ofTree source u = .ok sub)
      (Variable.ofTree source t) := by
  cases t with
  | node kind first last children =>
    unfold Variable.ofTree
    refine .bind fun _ hkind => ?_
    split
    · exact .bind fun _ _ => .bind fun i hi => .pure (by rintro _ ⟨⟩)
    · next n kind' first' last' children' =>
      have hs : Rooted (.node kind' first' last' children') :=
        h.child (List.mem_cons_of_mem n List.mem_cons_self)
      refine .bind fun _ hkind => .bind fun i hi => .bind fun _ hkind' => ?_
      split
      · refine .bind fun _ htext => .bind fun j hj => .pure ?_
        rintro _ ⟨⟩
        exact ⟨_, hs.child List.mem_cons_self, kind_of_require _ htext, hj⟩
      · exact .throw _
    · split
      · exact .throw _
      · exact .throw _

/-- Without a variable, the text of such a node has the form of a subscript. -/
theorem denotes_of_subscriptText (h : Is [.subscriptText] t) :
    Yields (fun i => i.isLiteral = true → ∃ a stop,
      Denotes (literalOf i.parts) a stop) (Identifier.ofTree source t) := by
  cases t with
  | node kind first last children =>
    obtain rfl : kind = .subscriptText := h.kind_eq
    have hall := (someAre_below_subscriptText (h.below (by decide))).all
    unfold Identifier.ofTree
    refine .bind fun parts hp => ?_
    split
    · exact .throw _
    · refine .pure fun hliteral => ?_
      have hne : ∀ u ∈ children, u.kind ≠ .variable := by
        have hliteral : parts.all Part.isText = true := hliteral
        rw [partsOfTrees_isText parts hp] at hliteral
        simpa using hliteral
      have htokens : literalOf parts = children.flatMap tokenText :=
        partsOfTrees_literal
          (fun u hu hf => absurd (hall u hu).kind (by rw [hf]; decide)) parts hp
      have hsame : children.flatMap tokenText = children.flatMap Tree.text :=
        List.flatMap_congr fun u hu => tokenText_of_ne (hne u hu)
      dsimp only
      rw [htokens, hsame]
      exact denotes_of_node h hne

/-- All subscripts in what was read have the form of one, if there are no
variables in them. -/
theorem Piece.Read.formed (h : x.Read source) : x.Formed := by
  intro v sub hv hsub hliteral
  obtain ⟨t, ht, hread⟩ := h.contained hv
  obtain ⟨u, hu, hk, hsubread⟩ := Variable.subscript_read ht v hread sub hsub
  exact denotes_of_subscriptText (hk ▸ hu.is) sub hsubread hliteral

theorem Piece.Formed.child (h : x.Formed) (hy : y ∈ x.children) : y.Formed :=
  fun v sub hv => h v sub (.inside hy hv)

theorem Error.Blames.of_child (h : e.Blames y) (hy : y ∈ x.children) :
    e.Blames x := by
  obtain ⟨v, sub, text, hv, hrest⟩ := h
  exact ⟨v, sub, text, .inside hy hv, hrest⟩

-- =================================================== how readings fail

namespace Reading

variable {α β : Type} {Q : Error → Prop}

/-- Whatever the reading fails with satisfies `Q`. -/
def FailsWith (Q : Error → Prop) (r : Reading α) : Prop :=
  ∀ warnings e, (r.run.run warnings).1 = .error e → Q e

namespace FailsWith

theorem pure (a : α) : FailsWith Q (Pure.pure a : Reading α) := by
  rintro _ _ ⟨⟩

theorem warn (kind : WarningKind) (message : String) (span : Span) :
    FailsWith Q (Reading.warn kind message span) := by
  rintro _ _ ⟨⟩

theorem fail {cause : Cause} {span : Span} (h : Q (.found cause span)) :
    FailsWith Q (Reading.fail cause span : Reading α) := by
  rintro _ _ ⟨⟩
  exact h

theorem bind {x : Reading α} {f : α → Reading β} (hx : FailsWith Q x)
    (hf : ∀ a, FailsWith Q (f a)) : FailsWith Q (x >>= f) := by
  intro warnings e h
  rw [run_bind] at h
  split at h
  · next a warnings' _ => exact hf a warnings' e h
  · next e' warnings' hrun =>
    cases h
    exact hx warnings e (by rw [hrun])

theorem mono {P : Error → Prop} {r : Reading α} (h : FailsWith P r)
    (hPQ : ∀ e, P e → Q e) : FailsWith Q r :=
  fun warnings e he => hPQ e (h warnings e he)

end FailsWith

end Reading

open Reading (FailsWith)

theorem Error.Malformed.cause_eq {cause : Cause} {span : Span}
    (h : (Error.found cause span).Malformed) :
    ∃ text, cause = .badSubscript (.malformed text) := by
  have hcode : cause.code = "subscript-malformed" := h
  cases cause with
  | badSubscript cause =>
    cases cause with
    | malformed text => exact ⟨text, rfl⟩
    | zeroIndex | reversed => simp [Cause.code, SubscriptError.code] at hcode
  | ungrammatical | identifierArity | identifierCharacter | recursionLimit
  | internal =>
    simp [Cause.code] at hcode

/-- A value that does not fit into a name is no subscript. -/
theorem Variable.asPart_fails (v : Variable) (value : Value) :
    FailsWith (¬ ·.Malformed) (v.asPart value) := by
  unfold Variable.asPart
  split
  · split
    · exact .pure _
    · refine .fail fun h => ?_
      obtain ⟨_, ⟨⟩⟩ := h.cause_eq
  · refine .fail fun h => ?_
    obtain ⟨_, ⟨⟩⟩ := h.cause_eq

theorem valueOrUnset_fails (env : Environment) (name : String) (span : Span)
    {Q : Error → Prop} : FailsWith Q (valueOrUnset env name span) := by
  unfold valueOrUnset
  split
  · exact .pure _
  · exact .bind (.warn _ _ _) fun _ => .pure _

/-- A text is refused for its form only if it has not the form of a
subscript. -/
theorem selection_fails (value : Value) (text : String) (span : Span) :
    FailsWith (fun e => e.Malformed → (¬ ∃ a stop, Denotes text.toList a stop) ∧
      e = .found (.badSubscript (.malformed text)) span)
      (selection value text span) := by
  unfold selection
  split
  · next cause hparse =>
    refine .fail fun h => ?_
    obtain ⟨t, ht⟩ := h.cause_eq
    cases ht
    obtain ⟨rfl, hnot⟩ := Subscript.parse_eq_malformed.mp hparse
    exact ⟨hnot, rfl⟩
  · split
    · exact .pure _
    · exact .bind (.warn _ _ _) fun _ => .pure _

-- ================================================== literal subscripts

theorem literalParts?_of_isText (h : parts.all Part.isText = true) :
    literalParts? parts = some (String.ofList (literalOf parts)) := by
  induction parts with
  | nil => rfl
  | cons part parts ih =>
    rw [List.all_cons, Bool.and_eq_true] at h
    cases part with
    | text s =>
      rw [literalParts?, ih h.2]
      change some (s ++ _) = some (String.ofList (s.toList ++ literalOf parts))
      rw [String.ofList_append, String.ofList_toList]
    | «variable» v => exact absurd h.1 Bool.false_ne_true

/-- With a literal subscript, nothing behind the name is refused for its
form. -/
theorem selection_of_literal {a : Nat} {stop : SubscriptEnd} (env : Environment)
    (name : String) (span : Span) (hliteral : sub.isLiteral = true)
    (h : Denotes (literalOf sub.parts) a stop) :
    FailsWith (¬ ·.Malformed) (do
      let value ← valueOrUnset env name span
      selection value (← sub.resolve env) sub.span) := by
  rw [sub.resolve_of_literal env (literalParts?_of_isText hliteral)]
  refine .bind (valueOrUnset_fails env name span) fun value => ?_
  rw [pure_bind]
  refine (selection_fails value _ sub.span).mono fun e he hm =>
    (he hm).1 ⟨a, stop, ?_⟩
  rwa [String.toList_ofList]

-- ================================================== where the blame is

mutual

theorem Identifier.resolve_blames (env : Environment) :
    ∀ i : Identifier, (Piece.identifier i).Formed → FailsWith
      (fun e => e.Malformed → e.Blames (.identifier i)) (i.resolve env)
  | ⟨parts, span⟩, h => by
    rw [Identifier.resolve]
    refine (resolveParts_blames env parts fun v hv => ?_).mono fun e he hm => ?_
    · exact h.child (List.mem_map_of_mem hv)
    · obtain ⟨v, hv, hblames⟩ := he hm
      exact hblames.of_child (x := .identifier ⟨parts, span⟩)
        (List.mem_map_of_mem hv)
termination_by structural i => i

theorem resolveParts_blames (env : Environment) : ∀ parts : List Part,
    (∀ v ∈ variablesOf parts, (Piece.variable v).Formed) →
    FailsWith
      (fun e => e.Malformed → ∃ v ∈ variablesOf parts, e.Blames (.variable v))
      (resolveParts env parts)
  | [], _ => .pure ""
  | .text text :: parts, h => by
    rw [resolveParts]
    exact .bind (resolveParts_blames env parts h) fun _ => .pure _
  | .variable v :: parts, h => by
    have hv : variablesOf (.variable v :: parts) = v :: variablesOf parts := rfl
    rw [hv] at h ⊢
    obtain ⟨hfirst, hrest⟩ := List.forall_mem_cons.mp h
    rw [resolveParts]
    refine .bind ?_ fun value => .bind ?_ fun text => .bind ?_ fun _ => .pure _
    · exact (Variable.value_blames env v hfirst).mono fun e he hm =>
        ⟨v, List.mem_cons_self, he hm⟩
    · exact (v.asPart_fails value).mono fun e he hm => absurd hm he
    · refine (resolveParts_blames env parts hrest).mono fun e he hm => ?_
      obtain ⟨u, hu, hblames⟩ := he hm
      exact ⟨u, List.mem_cons_of_mem v hu, hblames⟩
termination_by structural parts => parts

theorem Variable.value_blames (env : Environment) : ∀ v : Variable,
    (Piece.variable v).Formed →
      FailsWith (fun e => e.Malformed → e.Blames (.variable v)) (v.value env)
  | ⟨name, none, span⟩, h => by
    rw [Variable.value]
    refine .bind ?_ fun _ => valueOrUnset_fails env _ span
    exact (Identifier.resolve_blames env name (h.child List.mem_cons_self)).mono
      fun e he hm => (he hm).of_child List.mem_cons_self
  | ⟨name, some sub, span⟩, h => by
    rw [Variable.value]
    have hmem : Piece.identifier sub ∈
        (Piece.variable ⟨name, some sub, span⟩).children :=
      List.mem_cons_of_mem _ List.mem_cons_self
    refine .bind ?_ fun n => ?_
    · exact (Identifier.resolve_blames env name
        (h.child List.mem_cons_self)).mono
        fun e he hm => (he hm).of_child List.mem_cons_self
    · by_cases hliteral : sub.isLiteral = true
      · obtain ⟨a, stop, hd⟩ := h _ sub .self rfl hliteral
        exact (selection_of_literal env n span hliteral hd).mono fun e he hm =>
          absurd hm he
      · refine .bind (valueOrUnset_fails env n span) fun value =>
          .bind ?_ fun text => ?_
        · exact (Identifier.resolve_blames env sub (h.child hmem)).mono
            fun e he hm => (he hm).of_child hmem
        · exact (selection_fails value text sub.span).mono fun e he hm =>
            ⟨_, sub, text, .self, rfl, by simpa using hliteral, (he hm).2⟩
termination_by structural v => v

end

-- ========================================================== the result

theorem forestNodes_of_childless {ts : List Node}
    (h : ∀ t ∈ ts, t.children = []) : forestNodes ts = ts := by
  induction ts with
  | nil => rfl
  | cons t ts ih =>
    obtain ⟨ht, hts⟩ := List.forall_mem_cons.mp h
    rw [forestNodes, ih hts, Tree.nodes_eq, ht]
    rfl

theorem parseTree_subscriptText_iff (source text : String) :
    (∃ tree, parseTree source .subscriptText text.toList = .ok tree ∧
      ∀ t ∈ tree.nodes, t.kind ≠ .variable) ↔
      ∃ a stop, Denotes text.toList a stop := by
  constructor
  · rintro ⟨tree, htree, hv⟩
    obtain ⟨d, hd, hrest⟩ := (parseTree_iff (by decide)).mp htree
    have his :=
      (parseTree_cases source (r := .subscriptText) (by decide) text.toList).2
      tree htree
    have htext : text.toList = tree.text := by
      have htakes := (hd.takes_texts (by rintro ⟨⟩)).rest
      rwa [hrest, List.append_nil, List.flatMap_singleton] at htakes
    rw [htext, text_subscriptText his]
    refine denotes_of_node his fun u hu => hv u ?_
    rw [Tree.nodes_eq]
    exact List.mem_cons_of_mem _ (mem_forestNodes hu u.mem_nodes)
  · rintro ⟨a, stop, h⟩
    obtain ⟨q, ts, hd, hts⟩ := derives_subscriptText h .origin
    refine ⟨_, (parseTree_iff (by decide)).mpr ⟨_, hd, rfl⟩, fun t ht => ?_⟩
    rw [Tree.nodes_eq, Tree.children,
      forestNodes_of_childless fun t ht => (hts t ht).2] at ht
    rcases List.mem_cons.mp ht with rfl | ht
    · exact (by decide : Nonterminal.subscriptText ≠ .variable)
    · have hne : ∀ r ∈ [Nonterminal.number, .rangeDash], r ≠ .variable := by
        decide
      exact hne _ (hts t ht).1

/-- The grammar and `Subscript.parse` agree on the texts of subscripts without
variables. So if the subscript of a variable in a program has no variable in it,
the variable is refused for the form of a subscript only if its name is; and
then another subscript is to blame, which stands in the name and has a variable
in it. -/
theorem subscripts_agree (source : String) :
    (∀ text : String,
      (∃ tree, parseTree source .subscriptText text.toList = .ok tree ∧
        ∀ t ∈ tree.nodes, t.kind ≠ .variable) ↔
      ¬ ∃ t, Subscript.parse text = .error (.malformed t)) ∧
    ∀ text p, Program.parse source text = .ok p →
      ∀ v sub, (Piece.program p).Contains (.variable v) →
        v.subscript = some sub → sub.isLiteral = true →
        ∀ env e, (v.value env).results.1 = .error e → e.Malformed →
          (v.name.resolve env).results.1 = .error e ∧
            e.Blames (.identifier v.name) := by
  constructor
  · intro text
    rw [parseTree_subscriptText_iff]
    constructor
    · rintro hd ⟨t, ht⟩
      exact (Subscript.parse_eq_malformed.mp ht).2 hd
    · intro h
      by_contra hd
      exact h ⟨text, Subscript.parse_of_not_denotes hd⟩
  · intro text p hp v sub hv hsub hliteral env e he hm
    have hformed := (Program.parse_read hp hv).formed
    obtain ⟨name, _, span⟩ := v
    obtain rfl : _ = some sub := hsub
    obtain ⟨a, stop, hd⟩ := hformed _ sub .self rfl hliteral
    have hname : (name.resolve env).results.1 = .error e := by
      rw [Variable.value, Reading.results, Reading.run_bind] at he
      split at he
      · exact absurd hm (selection_of_literal env _ span hliteral hd _ e he)
      · next hrun =>
        cases he
        rw [Reading.results, hrun]
    have hformed := hformed.child List.mem_cons_self
    exact ⟨hname, Identifier.resolve_blames env name hformed _ e hname hm⟩

/-- A variable with a literal subscript, and in its name one with a variable in
its subscript. -/
def nestedText : String := "$($(a[$(b)])[1]) ;"

/-- What makes the inner subscript malformed. -/
def nestedEnvironment : Environment :=
  fun name => if name = "b" then some ["x"] else none

/-- The variable that a piece is. -/
def Piece.variable? : Piece → Option Variable
  | .variable v => some v
  | .literal _ | .identifier _ | .list _ | .block _ | .statement _
    | .program _ =>
    none

theorem Piece.eq_of_variable? (h : x.variable? = some v) : x = .variable v := by
  cases x <;> cases h
  rfl

theorem nestedText_refused :
    ∃ p v sub e, Program.parse "t" nestedText = .ok p ∧
      (Piece.program p).Contains (.variable v) ∧
      v.subscript = some sub ∧ sub.isLiteral = true ∧
      (v.value nestedEnvironment).results.1 = .error e ∧ e.Malformed := by
  have hparse : (Program.parse "t" nestedText).toOption.elim false (fun p =>
      ((Piece.program p).children.flatMap fun s =>
        s.children.flatMap Piece.children).any fun x =>
        x.variable?.any fun v => v.subscript.any Identifier.isLiteral &&
          (v.value nestedEnvironment).results.1.error?.elim false
            fun e => decide (e.code = "subscript-malformed")) =
              true := by decide +kernel
  obtain ⟨p, hp, htest⟩ := Except.exists_ok_of_elim hparse
  obtain ⟨x, hx, htest⟩ := List.any_eq_true.mp htest
  obtain ⟨s, hs, hx⟩ := List.mem_flatMap.mp hx
  obtain ⟨y, hy, hx⟩ := List.mem_flatMap.mp hx
  obtain ⟨v, hv, htest⟩ := (Option.any_eq_true _ _).mp htest
  obtain rfl := Piece.eq_of_variable? hv
  obtain ⟨hliteral, htest⟩ := Bool.and_eq_true_iff.mp htest
  obtain ⟨sub, hsub, hliteral⟩ := (Option.any_eq_true _ _).mp hliteral
  obtain ⟨e, he, hcode⟩ := Except.exists_error_of_elim htest
  have hcode : e.code = "subscript-malformed" := of_decide_eq_true hcode
  exact ⟨p, v, sub, e, hp, .inside hs (.inside hy (.inside hx .self)), hsub,
    hliteral, he, hcode⟩

/-- So a variable can be refused for the form of a subscript although its own is
literal. -/
theorem literal_subscript_refused :
    ∃ p v sub env e, Program.parse "t" nestedText = .ok p ∧
      (Piece.program p).Contains (.variable v) ∧
      v.subscript = some sub ∧ sub.isLiteral = true ∧
      (v.value env).results.1 = .error e ∧ e.Malformed := by
  obtain ⟨p, v, sub, e, h⟩ := nestedText_refused
  exact ⟨p, v, sub, nestedEnvironment, e, h⟩

/-- The name is refused with the same error, and the subscript in it is to
blame. -/
theorem nestedText_blames : ∃ p v e, Program.parse "t" nestedText = .ok p ∧
    (Piece.program p).Contains (.variable v) ∧
      (v.value nestedEnvironment).results.1 = .error e ∧
      (v.name.resolve nestedEnvironment).results.1 = .error e ∧
        e.Blames (.identifier v.name) := by
  obtain ⟨p, v, sub, e, hp, hv, hsub, hliteral, he, hm⟩ := nestedText_refused
  exact ⟨p, v, e, hp, hv, he,
    (subscripts_agree "t").2 _ p hp v sub hv hsub hliteral _ e he hm⟩

end Jam
