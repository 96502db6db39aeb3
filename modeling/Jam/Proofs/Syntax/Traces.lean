/-
How the pieces of a program come from the nodes of its parse tree.

A reading goes along the nodes below a node and makes pieces of them
(`Traces`). It keeps a node as a piece that covers it, whose children come
from what is below the node; or it drops the node, and what is below it
takes its place. So it is with marks and tokens, of which nothing is left,
with the levels of conditions, and with the brackets of a subscript. Nodes
are never read out of order or twice, and a variable is never dropped. The
only piece that comes from no node is a list that was left out; it stands
where the node that it belongs to ends.

Each reading is shown to do so (`names_traced` to `program_traced`), along
the tree. What this means for the places of pieces, or for the variables
in them, is then an induction over `Traces`, in which no reading occurs.
-/
import Jam.Proofs.Grammar.Placement
import Jam.Proofs.Syntax.Agreement
import Jam.Proofs.Syntax.Names
import Jam.Proofs.Syntax.Pieces

namespace Jam

open Except (Yields)

-- ============================================ variables in parse trees

/-- A node of a variable whose name has no variable in it. -/
def isReference : Node → Bool
  | .node .variable _ _ (name :: _) => name.nodes.all (·.kind ≠ .variable)
  | _ => false

/-- The text of the name of a variable. -/
def referenceName : Node → String
  | .node _ _ _ (name :: _) => String.ofList name.text
  | _ => ""

/-- The variable that a node refers to itself. -/
def ownOf (t : Node) : List String :=
  if isReference t then [referenceName t] else []

theorem isReference_of_ne {t : Node} (h : t.kind ≠ .variable) :
    isReference t = false := by
  unfold isReference
  split
  · exact absurd rfl h
  · rfl

theorem ownOf_of_ne {t : Node} (h : t.kind ≠ .variable) : ownOf t = [] := by
  rw [ownOf, isReference_of_ne h]
  rfl

theorem ownOf_of_is {t : Node} {ks : List Nonterminal} (h : Is ks t)
    (hks : .variable ∉ ks) : [] = ownOf t := (ownOf_of_ne (h.kind_ne hks)).symm

-- ==================================================== nodes and pieces

/-- The pieces come from these nodes, the last of which stand before `d`. -/
inductive Traces (source : String) : Cursor → List Node → List Piece → Prop
  | nil {d : Cursor} : Traces source d [] []
  /-- A list that was left out. -/
  | absent {d : Cursor} :
      Traces source d [] [.list ⟨[], .ofPoint source d.point⟩]
  | keep {d : Cursor} {t : Node} {ts : List Node} {x : Piece}
      {xs : List Piece} :
      x.span = t.span source → x.own = ownOf t →
      Traces source t.last t.children x.children →
      Traces source d ts xs → Traces source d (t :: ts) (x :: xs)
  /-- What is below the node takes its place. -/
  | drop {d : Cursor} {t : Node} {ts : List Node} {xs ys : List Piece} :
      t.kind ≠ .variable → Traces source t.last t.children ys →
      Traces source d ts xs → Traces source d (t :: ts) (ys ++ xs)

/-- The piece stands for the node. -/
structure Keeps (source : String) (t : Node) (x : Piece) : Prop where
  span : x.span = t.span source
  own : x.own = ownOf t
  below : Traces source t.last t.children x.children

/-- The pieces stand for the node among others. -/
def Becomes (source : String) (t : Node) (ys : List Piece) : Prop :=
  ∀ {d : Cursor} {ts : List Node} {xs : List Piece}, Traces source d ts xs →
    Traces source d (t :: ts) (ys ++ xs)

variable {source context : String} {t : Node} {ts : List Node} {d : Cursor}
  {x : Piece} {xs ys : List Piece}

theorem Keeps.cons (h : Keeps source t x) (hs : Traces source d ts xs) :
    Traces source d (t :: ts) (x :: xs) := .keep h.span h.own h.below hs

theorem Keeps.becomes (h : Keeps source t x) : Becomes source t [x] := h.cons

/-- What is below a node of another kind takes its place. -/
theorem Becomes.drop {ks : List Nonterminal} (h : Is ks t)
    (hks : .variable ∉ ks) (hbelow : Traces source t.last t.children ys) :
    Becomes source t ys :=
  .drop (h.kind_ne hks) hbelow

/-- Of a token nothing is left. -/
theorem Traces.token (h : Is tokenKinds t) (hs : Traces source d ts xs) :
    Traces source d (t :: ts) xs := by
  have hnil : Traces source t.last t.children [] := by
    rw [children_of_token h]
    exact .nil
  exact Becomes.drop h (by decide) hnil hs

/-- What becomes of nodes one by one becomes of them side by side. -/
theorem traces_mapM {α : Type} {read : Node → Except Error α}
    {pieces : α → List Piece}
    (h : ∀ t ∈ ts, Yields (fun a => Becomes source t (pieces a)) (read t))
    {us : List Node} (hus : Traces source d us ys) :
    Yields (fun as => Traces source d (ts ++ us) (as.flatMap pieces ++ ys))
      (ts.mapM read) := by
  induction ts with
  | nil => exact .pure hus
  | cons t ts ih =>
    obtain ⟨ht, hts⟩ := List.forall_mem_cons.mp h
    rw [List.mapM_cons]
    refine .bind fun a ha => .bind fun as has => .pure ?_
    rw [List.flatMap_cons, List.append_assoc]
    exact ht a ha (ih hts as has)

/-- So it is with pieces that stand for one node each. -/
theorem keeps_mapM {α : Type} {read : Node → Except Error α} {piece : α → Piece}
    (h : ∀ t ∈ ts, Yields (fun a => Becomes source t [piece a]) (read t)) :
    Yields (fun as => Traces source d ts (as.map piece)) (ts.mapM read) := by
  intro as has
  have hall := traces_mapM (d := d) h .nil as has
  rwa [List.append_nil, List.append_nil, ← List.map_eq_flatMap] at hall

-- =============================================================== parts

theorem variablesOf_glue (part : Part) (parts : List Part) :
    variablesOf (part.glue parts) =
      part.variable?.toList ++ variablesOf parts := by
  unfold Part.glue
  split
  · rfl
  · cases part <;> rfl

theorem all_isText_glue (part : Part) (parts : List Part) :
    (part.glue parts).all Part.isText =
      (part.isText && parts.all Part.isText) := by
  unfold Part.glue
  split
  · rfl
  · rfl

/-- Of the tokens of a name nothing is left, and its variables stay. -/
theorem partsOfTrees_traced (h : ∀ t ∈ ts, Is partKinds t)
    (hv : ∀ t ∈ ts, t.kind = .variable → Yields
      (fun v => Keeps source t (.variable v)) (Variable.ofTree source t)) :
    Yields (fun parts => Traces source d ts ((variablesOf parts).map .variable))
      (partsOfTrees source context ts) := by
  induction ts with
  | nil => exact .pure .nil
  | cons t ts ih =>
    obtain ⟨ht, hts⟩ := List.forall_mem_cons.mp h
    obtain ⟨hvt, hvts⟩ := List.forall_mem_cons.mp hv
    intro parts hparts
    obtain ⟨part, rest, hpart, hrest, rfl⟩ := partsOfTrees_cons parts hparts
    have hrest := ih hts hvts rest hrest
    rw [variablesOf_glue]
    cases hpart with
    | token hk =>
      have hsub : ∀ r ∈ [Nonterminal.identifier, .number, .rangeDash],
          r ∈ tokenKinds := by
        decide
      exact hrest.token ⟨hsub _ hk, ht.grown⟩
    | fragment hk => exact hrest.token ⟨by rw [hk]; decide, ht.grown⟩
    | «variable» hk hread => exact (hvt hk _ hread).cons hrest

/-- They are all texts if there is no variable among the nodes. -/
theorem partsOfTrees_isText : Yields (fun parts => parts.all Part.isText =
    ts.all (·.kind ≠ .variable)) (partsOfTrees source context ts) := by
  induction ts with
  | nil => exact .pure rfl
  | cons t ts ih =>
    intro parts hparts
    obtain ⟨part, rest, hpart, hrest, rfl⟩ := partsOfTrees_cons parts hparts
    have hpart : part.isText = decide (t.kind ≠ .variable) := by
      cases hpart with
      | token hk =>
        have hne : ∀ r ∈ [Nonterminal.identifier, .number, .rangeDash],
            r ≠ .variable := by
          decide
        exact (decide_eq_true (hne _ hk)).symm
      | fragment hk =>
        rw [hk]
        rfl
      | «variable» hk =>
        rw [hk]
        rfl
    rw [all_isText_glue, hpart, ih rest hrest]
    rfl

/-- Texts are written out as they are. -/
theorem displayParts_of_isText {parts : List Part}
    (h : parts.all Part.isText = true) :
    displayParts parts = String.ofList (literalOf parts) := by
  induction parts with
  | nil => rfl
  | cons part parts ih =>
    rw [List.all_cons, Bool.and_eq_true] at h
    cases part with
    | text s =>
      show s ++ displayParts parts = String.ofList (s.toList ++ literalOf parts)
      rw [ih h.2, String.ofList_append, String.ofList_toList]
    | «variable» v => exact absurd h.1 Bool.false_ne_true

-- =============================================================== names

/-- Tokens and variables have a variable among their nodes if they are one. -/
theorem all_nodes (h : ∀ t ∈ ts, Is [.identifier, .variable] t) :
    (forestNodes ts).all (·.kind ≠ .variable) =
      ts.all (·.kind ≠ .variable) := by
  induction ts with
  | nil => rfl
  | cons t ts ih =>
    obtain ⟨ht, hts⟩ := List.forall_mem_cons.mp h
    rw [forestNodes, List.all_append, ih hts, List.all_cons, Tree.nodes_eq,
      List.all_cons]
    have hk : t.kind = .identifier ∨ t.kind = .variable := by
      simpa using ht.kind
    rcases hk with hk | hk
    · rw [children_of_token ((ht.of_kind hk).mono (by decide))]
      simp only [forestNodes, List.all_nil, Bool.and_true]
    · simp only [hk, ne_eq, not_true_eq_false, decide_false, Bool.false_and]

/-- A name is literal if its node has no variable below it, and then it is its
text. -/
theorem nameOf_node (h : Is [.name] t) :
    Yields (fun i => i.isLiteral = t.nodes.all (·.kind ≠ .variable) ∧
      (i.isLiteral = true → i.display = String.ofList t.text))
      (Identifier.ofTree source t) := by
  have htext := text_name h
  cases t with
  | node kind first last children =>
    obtain rfl : kind = .name := h.kind_eq
    have hs := below_name (h.below (by decide))
    have hliteral {parts : List Part}
        (hp : partsOfTrees source "an identifier" children = .ok parts) :
        parts.all Part.isText =
          (Tree.node Nonterminal.name first last children).nodes.all
            (·.kind ≠ .variable) := by
      rw [partsOfTrees_isText parts hp, Tree.nodes_eq, List.all_cons]
      exact (all_nodes hs.all).symm
    have hdisplay {parts : List Part}
        (hp : partsOfTrees source "an identifier" children = .ok parts)
        (hall : parts.all Part.isText = true) :
        displayParts parts = String.ofList
        (Tree.node Nonterminal.name first last children).text := by
      have hne : ∀ u ∈ children, u.kind ≠ .variable := by
        rw [partsOfTrees_isText parts hp] at hall
        simpa using hall
      have htokens : literalOf parts = children.flatMap tokenText :=
        partsOfTrees_literal (fun u hu hf =>
          absurd (hs.all u hu).kind (by rw [hf]; decide)) parts hp
      have hsame : children.flatMap tokenText = children.flatMap Tree.text :=
        List.flatMap_congr fun u hu => tokenText_of_ne (hne u hu)
      rw [displayParts_of_isText hall, htokens, hsame, htext]
      rfl
    unfold Identifier.ofTree
    refine .bind fun parts hp => ?_
    split
    · exact .throw _
    · exact .pure ⟨hliteral hp, hdisplay hp⟩

/-- What a variable refers to is what its node does. -/
theorem own_variable {name : Node} {rest : List Node} {i : Identifier}
    {subscript : Option Identifier} {span : Span} (hk : t.kind = .variable)
    (hc : t.children = name :: rest) (hn : Is [.name] name)
    (hi : Identifier.ofTree source name = .ok i) :
    (Piece.variable ⟨i, subscript, span⟩).own = ownOf t := by
  obtain ⟨hliteral, hdisplay⟩ := nameOf_node hn i hi
  cases t with
  | node kind first last children =>
    obtain rfl : kind = .variable := hk
    obtain rfl : children = name :: rest := hc
    show (if i.isLiteral then [i.display] else []) =
      if name.nodes.all (·.kind ≠ .variable) then
      [String.ofList name.text] else []
    rw [← hliteral]
    by_cases hl : i.isLiteral = true
    · rw [if_pos hl, if_pos hl, hdisplay hl]
    · rw [if_neg hl, if_neg hl]

/-- Names, subscripts and variables stand for their nodes, at any depth of
variables inside each other. -/
theorem names_traced (t : Node) :
    (∀ role : Role, Is [role.kind] t →
      Yields (fun i => Keeps source t (.identifier i))
        (Identifier.ofTree source t)) ∧
    (Is [.variable] t → Yields (fun v => Keeps source t (.variable v))
      (Variable.ofTree source t)) ∧
    (Is [.subscript] t → ∀ text ∈ t.children,
      Yields (fun i => Keeps source text (.identifier i))
        (Identifier.ofTree source text)) := by
  induction t using Tree.induct with
  | step kind first last children ih =>
    refine ⟨fun role h => ?_, fun h => ?_, fun h text ht => ?_⟩
    · obtain rfl : kind = role.kind := h.kind_eq
      have hr : Nonterminal.retention role.kind ≠ .leaf := by
        cases role <;> decide
      have hk : role.kind ≠ .variable := by cases role <;> decide
      have hown : ownOf (.node role.kind first last children) = [] :=
        ownOf_of_ne hk
      unfold Identifier.ofTree
      split
      · exact .throw _
      · have hs := someAre_below_role (h.below hr)
        have hvariables : ∀ t ∈ children, t.kind = .variable →
            Yields (fun v => Keeps source t (.variable v))
            (Variable.ofTree source t) :=
          fun t ht hk => (ih t ht).2.1 ((hs.all t ht).of_kind hk)
        refine .bind fun parts hparts => ?_
        split
        · exact .throw _
        · exact .pure
            ⟨rfl, hown.symm, partsOfTrees_traced hs.all hvariables parts hparts⟩
    · obtain rfl : kind = .variable := h.kind_eq
      unfold Variable.ofTree
      refine .bind fun _ _ => ?_
      obtain ⟨name, hn, rfl | ⟨s, hs, rfl⟩⟩ :=
        below_variable (h.below (by decide))
      · have hname := (ih name (by simp)).1 .name hn
        refine .bind fun _ _ => .bind fun i hi =>
          .pure ⟨rfl, own_variable rfl rfl hn hi, ?_⟩
        exact (hname i hi).cons .nil
      · have hname := (ih name (by simp)).1 .name hn
        have htext := (ih s (by simp)).2.2 hs
        cases s with
        | node kind' first' last' children' =>
          refine .bind fun _ _ => .bind fun i hi => .bind fun _ _ => ?_
          split
          · refine .bind fun _ _ => .bind fun j hj =>
              .pure ⟨rfl, own_variable rfl rfl hn hi, ?_⟩
            have hbelow : Traces source last' [_] [.identifier j] :=
              (htext _ List.mem_cons_self j hj).cons .nil
            exact (hname i hi).cons (Becomes.drop hs (by decide) hbelow .nil)
          · exact .throw _
    · obtain rfl : kind = .subscript := h.kind_eq
      obtain ⟨text', ht', rfl⟩ := below_subscript (h.below (by decide))
      obtain rfl := List.mem_singleton.mp ht
      exact (ih text (by simp)).1 .subscript ht'

theorem Identifier.traced (role : Role) (h : Is [role.kind] t) :
    Yields (fun i => Keeps source t (.identifier i))
      (Identifier.ofTree source t) :=
  (names_traced t).1 role h

theorem Variable.traced (h : Is [.variable] t) :
    Yields (fun v => Keeps source t (.variable v)) (Variable.ofTree source t) :=
  (names_traced t).2.1 h

-- ===================================================== words and lists

theorem Literal.traced (h : Is [.string] t) :
    Yields (fun l => Keeps source t (.literal l))
      (Literal.ofTree source t) := by
  cases t with
  | node kind first last children =>
    obtain rfl : kind = .string := h.kind_eq
    obtain ⟨raw, hr, rfl⟩ := below_string (h.below (by decide))
    have hbelow : Traces source last [raw] [] :=
      Traces.token (hr.mono (by decide)) .nil
    refine .bind fun _ _ => ?_
    dsimp only [Tree.children]
    split
    · split
      · exact .pure ⟨rfl, rfl, hbelow⟩
      · exact .throw _
    · exact .throw _

theorem Word.traced (h : Is wordKinds t) :
    Yields (fun w => Keeps source t w.piece) (Word.ofTree source t) := by
  unfold Word.ofTree
  split
  · next hk => exact .map (Variable.traced (h.of_kind hk))
  · next hk => exact .map (Identifier.traced .name (h.of_kind hk))
  · next hk => exact .map (Identifier.traced .word (h.of_kind hk))
  · next hk => exact .map (Literal.traced (h.of_kind hk))
  · exact .throw _

theorem WordList.traced (h : Is [.list] t) :
    Yields (fun l => Keeps source t (.list l)) (WordList.ofTree source t) := by
  refine .bind fun _ _ => .bind fun items hitems =>
    .pure ⟨rfl, ownOf_of_is h (by decide), ?_⟩
  cases t with
  | node kind first last children =>
    obtain rfl : kind = .list := h.kind_eq
    have hwords := (below_list (h.below (by decide))).all
    exact keeps_mapM (fun u hu w hw => (Word.traced (hwords u hu) w hw).becomes)
      items hitems

/-- A list that was left out stands where it would have ended. -/
theorem WordList.ofTrees_traced {span : Span}
    (h : ts = [] ∨ ∃ t, Is [.list] t ∧ ts = [t]) :
    Yields (fun l => Traces source d ts [.list l])
      (WordList.ofTrees source context (.ofPoint source d.point) span ts) := by
  rcases h with rfl | ⟨t, ht, rfl⟩
  · exact .pure .absent
  · exact .bind fun _ _ => fun l hl => (WordList.traced ht l hl).cons .nil

-- ========================================================== conditions

theorem conditionPieces_eq (cs : List Condition) :
    conditionPieces cs = cs.flatMap Condition.pieces := by
  induction cs with
  | nil => rfl
  | cons c cs ih => rw [conditionPieces, ih, List.flatMap_cons]

/-- A connective that is left out leaves its operand. -/
theorem pieces_joined {join : List Condition → Condition} (cs : List Condition)
    (h : (join cs).pieces = conditionPieces cs) :
    (Condition.joined join cs).pieces = cs.flatMap Condition.pieces := by
  unfold Condition.joined
  split
  · rw [List.flatMap_singleton]
  · rw [h, conditionPieces_eq]

/-- Of a condition its words and lists are left. -/
theorem Condition.traced (t : Node)
    (h : Is (.conjunction :: conditionKinds) t) :
    Yields (fun c => Becomes source t c.pieces)
      (Condition.ofTree source t) := by
  induction t using Tree.induct with
  | step kind first last children ih =>
    have dropped {ys : List Piece} (hb : Traces source last children ys) :
        Becomes source (.node kind first last children) ys :=
      Becomes.drop h (by decide) hb
    have hterms {ks : List Nonterminal} (hs : SomeAre ks children)
        (hsub : ∀ k ∈ ks, k ∈ .conjunction :: conditionKinds) :
        Yields (fun terms =>
          Traces source last children (terms.flatMap Condition.pieces))
        (conditionsOfTrees source children) := by
      rw [conditionsOfTrees_eq_mapM]
      intro terms hread
      have hall := traces_mapM (d := last)
        (fun u hu => ih u hu ((hs.all u hu).mono hsub)) .nil terms hread
      rwa [List.append_nil, List.append_nil] at hall
    unfold Condition.ofTree
    split
    · -- connectives
      refine .bind fun terms hread => .pure ?_
      rw [pieces_joined terms rfl]
      exact dropped (hterms (below_disjunction (h.below (by decide)))
        (by decide) terms hread)
    · refine .bind fun terms hread => .pure ?_
      rw [pieces_joined terms rfl]
      exact dropped (hterms (below_conjunction (h.below (by decide)))
        (by decide) terms hread)
    · -- a negation
      obtain ⟨inner, hi, rfl⟩ := below_negated (h.below (by decide))
      have hread := ih inner (by simp) (hi.mono fun _ => List.mem_cons_of_mem _)
      refine .bind fun c hc => .pure (dropped ?_)
      have hinner := hread c hc (Traces.nil (d := last))
      rwa [List.append_nil] at hinner
    · -- tests
      obtain ⟨word, hw, rfl⟩ := below_truth (h.below (by decide))
      exact .bind fun w hread =>
        .pure (dropped ((Word.traced hw w hread).cons .nil))
    · obtain ⟨left, hl, mark, hm, right, hr, rfl⟩ :=
        below_comparison (h.below (by decide))
      refine .bind fun l hleft => .bind fun _ _ => ?_
      split
      · refine .bind fun r hright => .pure (dropped ?_)
        have hlast : Traces source last [mark, right] [r.piece] :=
          Traces.token (hm.mono (by decide))
            ((Word.traced hr r hright).cons .nil)
        exact (Word.traced hl l hleft).cons hlast
      · exact .throw _
    · obtain ⟨element, he, list, hl, rfl⟩ :=
        below_membership (h.below (by decide))
      refine .bind fun w hw => .bind fun _ _ => .bind fun l hread =>
        .pure (dropped ?_)
      exact (Word.traced he w hw).cons ((WordList.traced hl l hread).cons .nil)
    · exact .throw _

-- ========================================================== statements

theorem nameOfTree_traced (h : Is [.name] t) :
    Yields (fun i => Keeps source t (.identifier i))
      (nameOfTree source context t) :=
  .bind fun _ _ => Identifier.traced .name h

/-- A group of arguments is its list, or stands where there is none. -/
theorem argumentOfTree_traced (h : Is [.argument] t) :
    Yields (fun l => Becomes source t [.list l]) (argumentOfTree source t) := by
  refine .bind fun _ _ => ?_
  rcases h.optional (by decide) with hc | ⟨list, hl, hc⟩
  · have hkeeps : Keeps source t (.list ⟨[], t.span source⟩) :=
      ⟨rfl, ownOf_of_is h (by decide), by rw [hc]; exact .nil⟩
    rw [hc]
    exact .pure hkeeps.becomes
  · rw [hc]
    refine .bind fun _ _ => fun l hread => Becomes.drop h (by decide) ?_
    rw [hc]
    exact (WordList.traced hl l hread).cons .nil

theorem parametersOfTree_traced (h : Is [.parameters] t) :
    Yields (fun is => Becomes source t (is.map .identifier))
      (parametersOfTree source t) := by
  refine .bind fun _ _ => fun is hread => Becomes.drop h (by decide) ?_
  cases t with
  | node kind first last children =>
    obtain rfl : kind = .parameters := h.kind_eq
    have hnames := (below_parameters (h.below (by decide))).all
    exact keeps_mapM
      (fun u hu i hi => (nameOfTree_traced (hnames u hu) i hi).becomes) is hread

theorem simpleOfTree_traced (h : Is simpleKinds t) :
    Yields (fun s => Keeps source t (.statement s))
      (simpleOfTree source t) := by
  have hown : [] = ownOf t := ownOf_of_is h (by decide)
  have hkeyword
      (hk : t.kind ∈ [Nonterminal.breakStatement, .continueStatement]) :
      Traces source t.last t.children [] := by
    rw [children_of_keyword ⟨hk, h.grown⟩]
    exact .nil
  unfold simpleOfTree
  dsimp only
  cases t with
  | node kind first last children =>
    split
    · next hk =>
      have ho := (h.of_kind hk).optional (by decide)
      exact .bind fun value hvalue =>
        .pure ⟨rfl, hown, WordList.ofTrees_traced ho value hvalue⟩
    · next hk => exact .pure ⟨rfl, hown, hkeyword (by rw [hk]; decide)⟩
    · next hk => exact .pure ⟨rfl, hown, hkeyword (by rw [hk]; decide)⟩
    · next hk =>
      obtain rfl : kind = .localStatement := hk
      obtain ⟨names, hn, rfl | ⟨value, hv, rfl⟩⟩ :=
        below_localStatement (h.below (by decide))
      · refine .bind fun _ _ => .bind fun ns hread => .pure ⟨rfl, hown, ?_⟩
        exact (WordList.traced hn ns hread).cons .nil
      · have ho := hv.optional (by decide)
        refine .bind fun _ _ => .bind fun ns hread => .bind fun _ _ =>
          .bind fun l hl =>
          .pure ⟨rfl, hown, ?_⟩
        have hvalue := WordList.ofTrees_traced ho l hl
        exact (WordList.traced hn ns hread).cons
          (Becomes.drop hv (by decide) hvalue .nil)
    · next hk =>
      obtain rfl : kind = .assignment := hk
      obtain ⟨name, hn, mark, hm, hc⟩ := below_assignment (h.below (by decide))
      obtain ⟨value, rfl, hv⟩ : ∃ value, children = name :: mark :: value ∧
          (value = [] ∨ ∃ t, Is [.list] t ∧ value = [t]) := by
        rcases hc with rfl | ⟨t, ht, rfl⟩
        · exact ⟨[], rfl, .inl rfl⟩
        · exact ⟨[t], rfl, .inr ⟨t, ht, rfl⟩⟩
      refine .bind fun i hi => .bind fun _ _ => ?_
      split
      · refine .bind fun l hl => .pure ⟨rfl, hown, ?_⟩
        have hvalue :=
          Traces.token (hm.mono (by decide)) (WordList.ofTrees_traced hv l hl)
        exact (nameOfTree_traced hn i hi).cons hvalue
      · exact .throw _
    · next hk =>
      obtain rfl : kind = .ruleInvocation := hk
      obtain ⟨name, hn, arguments, ha, rfl⟩ :=
        below_ruleInvocation (h.below (by decide))
      refine .bind fun i hi => .bind fun lists hread => .pure ⟨rfl, hown, ?_⟩
      have harguments := keeps_mapM (d := last)
        (fun u hu => argumentOfTree_traced (ha.all u hu)) lists hread
      exact (nameOfTree_traced hn i hi).cons harguments
    · exact .throw _

/-- Statements and blocks stand for their nodes, at any depth inside each
other. -/
theorem statements_traced (t : Node) :
    (Is statementKinds t →
      Yields (fun s => Keeps source t (.statement s))
        (Statement.ofTree source t)) ∧
    (Is [.block] t → ∀ context,
      Yields (fun b => Keeps source t (.block b))
        (Block.ofTree source context t)) := by
  induction t using Tree.induct with
  | step kind first last children ih =>
    have hstatements (hb : Leaves grammar (Nonterminal.body .block) children) :
        Yields (fun ss => Traces source last children (ss.map .statement))
          (statementsOfTrees source children) := by
      rw [statementsOfTrees_eq_mapM]
      exact keeps_mapM fun u hu s hs =>
        ((ih u hu).1 (below_block hb u hu) s hs).becomes
    constructor
    · intro h
      have hown : [] = ownOf (.node kind first last children) :=
        ownOf_of_is h (by decide)
      have hcondition {t : Node} (ht : Is [.disjunction] t) : Yields
          (fun c => Becomes source t c.pieces) (Condition.ofTree source t) :=
        Condition.traced t (ht.mono (by decide))
      unfold Statement.ofTree
      split
      · exact .bind fun ss hss =>
          .pure ⟨rfl, hown, hstatements (h.below (by decide)) ss hss⟩
      · -- a choice, without and with another branch
        obtain ⟨condition, hc, yes, hy, rfl | ⟨no, hn, rfl⟩⟩ :=
          below_ifStatement (h.below (by decide))
        · refine .bind fun c hread => .bind fun b hb => .pure ⟨rfl, hown, ?_⟩
          exact hcondition hc c hread
            (((ih yes (by simp)).2 hy _ b hb).cons .nil)
        · refine .bind fun c hread => .bind fun b hb => ?_
          split
          · refine .bind fun s hs => .pure ⟨rfl, hown, ?_⟩
            have hno : Traces source last [no] [.statement s] :=
              ((ih no (by simp)).1 (hn.mono (by decide)) s hs).cons .nil
            exact hcondition hc c hread
              (((ih yes (by simp)).2 hy _ b hb).cons hno)
          · exact .throw _
      · -- loops
        obtain ⟨name, hn, values, hv, body, hb, rfl⟩ :=
          below_forStatement (h.below (by decide))
        refine .bind fun i hi => .bind fun _ _ => .bind fun l hl =>
          .bind fun b hread =>
          .pure ⟨rfl, hown, ?_⟩
        have hbody : Traces source last [body] [.block b] :=
          ((ih body (by simp)).2 hb _ b hread).cons .nil
        exact (nameOfTree_traced hn i hi).cons
          ((WordList.traced hv l hl).cons hbody)
      · obtain ⟨condition, hc, body, hb, rfl⟩ :=
          below_whileStatement (h.below (by decide))
        refine .bind fun c hread => .bind fun b hbread => .pure ⟨rfl, hown, ?_⟩
        exact hcondition hc c hread
          (((ih body (by simp)).2 hb _ b hbread).cons .nil)
      · -- a definition, without and with parameters
        obtain ⟨name, hn, ⟨body, hb, rfl⟩ | ⟨parameters, hp, body, hb, rfl⟩⟩ :=
          below_ruleDefinition (h.below (by decide))
        · refine .bind fun i hi => .bind fun b hread => .pure ⟨rfl, hown, ?_⟩
          exact (nameOfTree_traced hn i hi).cons
            (((ih body (by simp)).2 hb _ b hread).cons .nil)
        · refine .bind fun i hi => .bind fun is his => .bind fun b hread =>
            .pure ⟨rfl, hown, ?_⟩
          have hbody : Traces source last [body] [.block b] :=
            ((ih body (by simp)).2 hb _ b hread).cons .nil
          exact (nameOfTree_traced hn i hi).cons
            (parametersOfTree_traced hp is his hbody)
      · refine simpleOfTree_traced ⟨?_, h.grown⟩
        have hk := h.kind
        simp_all [statementKinds, simpleKinds, Tree.kind]
    · intro h context
      obtain rfl : kind = .block := h.kind_eq
      unfold Block.ofTree
      refine .bind fun _ _ => .bind fun ss hss =>
        .pure ⟨rfl, ownOf_of_is h (by decide), ?_⟩
      exact hstatements (h.below (by decide)) ss hss

-- ========================================================= whole texts

/-- A program stands for its node. -/
theorem Program.traced (h : Is [.program] t) :
    Yields (fun p => Keeps source t (.program p))
      (Program.ofTree source t) := by
  refine .bind fun _ _ => .bind fun ss hss =>
    .pure ⟨rfl, ownOf_of_is h (by decide), ?_⟩
  cases t with
  | node kind first last children =>
    obtain rfl : kind = .program := h.kind_eq
    obtain ⟨statements, hs, eoi, he, rfl⟩ := below_program (h.below (by decide))
    have hkept : statements.filter (·.kind ≠ .endOfInput) = statements :=
      List.filter_eq_self.mpr fun u hu =>
        decide_eq_true ((hs u hu).kind_ne (by decide))
    have hfilter : (statements ++ [eoi]).filter (·.kind ≠ .endOfInput) =
        statements := by
      rw [List.filter_append, hkept, List.filter_cons_of_neg
        (by simp [he.kind_eq]), List.filter_nil, List.append_nil]
    have hss : statementsOfTrees source statements = .ok ss := hfilter ▸ hss
    rw [statementsOfTrees_eq_mapM] at hss
    have hall : Traces source last (statements ++ [eoi])
        (ss.flatMap (fun s => [Piece.statement s]) ++ []) :=
      traces_mapM (fun u hu s hread =>
        ((statements_traced u).1 (hs u hu) s hread).becomes)
        (Traces.token (he.mono (by decide)) .nil) ss hss
    rwa [List.append_nil, ← List.map_eq_flatMap] at hall

/-- A program that was read from a text stands for the parse tree of the
text. -/
theorem Program.parse_traced {text : String} {p : Program}
    (h : Program.parse source text = .ok p) :
    ∃ tree d, parseTree source .program text.toList = .ok tree ∧
      Strung grammar (.ofText text.toList) [tree] d ∧
      Keeps source tree (.program p) := by
  have hread : Yields
      (fun p => ∃ tree d, parseTree source .program text.toList = .ok tree ∧
        Strung grammar (.ofText text.toList) [tree] d ∧
        Keeps source tree (.program p)) (Program.parse source text) := by
    refine .bind fun tree htree => fun p hp => ?_
    have his :=
      (parseTree_cases source (r := .program) (by decide) text.toList).2
      tree htree
    obtain ⟨d, hd⟩ := parseTree_strung source .program text.toList tree htree
    exact ⟨tree, d, htree, hd, Program.traced his p hp⟩
  exact hread p h

end Jam
