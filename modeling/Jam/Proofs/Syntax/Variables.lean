/-
Variables are what the context-free rules say, and mean what they say.

A text is read as a variable if and only if the rules produce it, and then
the variable is the one of the derivation (`variable_parses_iff`): its name
and its subscript have the items of the derivation for parts, where texts
that stand side by side are one part (`Item.parts`). The same is shown of
names (`name_parses_iff`).

That what is matched is produced is known. The other direction is an
induction over the derivation. Ordered choice and greedy repetition do no
harm: behind a name and behind an index stands a character with which
neither a token nor a variable begins (`EndsItems`), so a repetition that takes
all there is stops where the derivation does. A token may take several runs
of a derivation at once; what counts is that, glued together, they are the
same text (`ReadsItems.cons`).
-/
import Jam.Proofs.Grammar.Variables
import Jam.Proofs.Syntax.Agreement
import Jam.Proofs.Syntax.Names
import Jam.Proofs.Syntax.Places

namespace Jam

open Nonterminal (nt)
open Except (Succeeds)

variable {source context : String} {a : Alphabet} {c d : Cursor}
  {r s : List Char} {p : Point} {ts : List Node} {qs : List Part}

-- ================================================ parts that are glued

/-- Texts side by side are one text. -/
theorem glue_text_glue (a b : String) (ps : List Part) :
    (Part.text a).glue ((Part.text b).glue ps) =
      (Part.text (a ++ b)).glue ps := by
  rcases ps with _ | ⟨_ | _, ps⟩
  · rfl
  · simp only [Part.glue, String.append_assoc]
  · rfl

/-- What is read of nodes are their parts, glued together. -/
theorem partsOfTrees_eq (h : List.Forall₂ (PartOf source) ts qs) :
    partsOfTrees source context ts = .ok (qs.foldr Part.glue []) := by
  induction h with
  | nil => rfl
  | @cons t part ts qs ht _ ih =>
    rw [partsOfTrees, ih]
    cases ht with
    | token hk =>
      simp only [List.mem_cons, List.not_mem_nil, or_false] at hk
      rcases hk with hk | hk | hk <;> rw [hk] <;> rfl
    | fragment hk hu =>
      rw [hk, hu]
      rfl
    | «variable» hk hv =>
      rw [hk, hv]
      rfl

/-- Gluing does not look at spans. -/
theorem mapAll_foldr_glue (f : Span → Span) (ps : List Part) :
    Part.mapAll f (ps.foldr Part.glue []) =
      (ps.map (Part.mapSpans f)).foldr Part.glue [] := by
  induction ps with
  | nil => rfl
  | cons part ps ih =>
    rw [List.foldr_cons, Part.mapAll_glue, ih, List.map_cons, List.foldr_cons]

-- ========================================= the meaning of a derivation

mutual

/-- What an item is as a part of a name, without its place. -/
def Item.part (source : String) : Item → Part
  | .run text => .text (String.ofList text)
  | .reference name [] =>
    let nowhere := Span.ofPoint source .origin
    .variable ⟨⟨Item.parts source name, nowhere⟩, none, nowhere⟩
  | .reference name (item :: items) =>
    let nowhere := Span.ofPoint source .origin
    .variable ⟨⟨Item.parts source name, nowhere⟩,
      some ⟨(item.part source).glue (Item.parts source items), nowhere⟩,
        nowhere⟩
termination_by structural item => item

/-- The parts of items; texts that stand side by side are one part. -/
def Item.parts (source : String) : List Item → List Part
  | [] => []
  | item :: items => (item.part source).glue (Item.parts source items)
termination_by structural items => items

end

/-- An identifier of these items, without its place. -/
def Item.identifier (source : String) (items : List Item) : Identifier :=
  ⟨Item.parts source items, .ofPoint source .origin⟩

/-- The subscript of these items: none, if there are none. -/
def Item.subscript? (source : String) : List Item → Option Identifier
  | [] => none
  | item :: items => some (Item.identifier source (item :: items))

theorem Item.part_reference (name subscript : List Item) :
    (Item.reference name subscript).part source =
      .variable ⟨Item.identifier source name,
        Item.subscript? source subscript, .ofPoint source .origin⟩ := by
  cases subscript <;> rfl

theorem Item.parts_eq (items : List Item) :
    Item.parts source items =
      (items.map (Item.part source)).foldr Part.glue [] := by
  induction items with
  | nil => rfl
  | cons item items ih => rw [Item.parts, ih, List.map_cons, List.foldr_cons]

-- ================================================= items that are read

/-- Where names and indices are repeated, the matcher goes on to `r`, and the
nodes that it leaves are parts that are these parts when they are glued. -/
def ReadsItems (source : String) (a : Alphabet) (c : Cursor) (r : List Char)
    (qs : List Part) : Prop :=
  ∃ q ts ps,
    Derives grammar .plain (.many (nt a.token <|> nt .variable)) c ⟨r, q⟩ ts ∧
    List.Forall₂ (PartOf source) ts ps ∧
    ∀ tail, (ps.map (Part.mapSpans (Span.mapPoints fun _ => .origin))).foldr
      Part.glue tail = qs.foldr Part.glue tail

/-- A token is the part of its text. -/
theorem partOf_token (h : c.Takes r d) :
    PartOf source (.node a.token c d []) (.text (String.ofList r)) := by
  have htext : (Tree.node a.token c d ([] : List Node)).text = r := h.upTo_eq
  rw [← htext]
  exact .token (by cases a <;> exact List.mem_of_elem_eq_true rfl)

theorem PartOf.eq_of_token {part : Part} {ns : List Node} (h : c.Takes r d)
    (hp : PartOf source (.node a.token c d ns) part) :
    part = .text (String.ofList r) := by
  have htext : (Tree.node a.token c d ns).text = r := h.upTo_eq
  cases hp with
  | token => rw [htext]
  | fragment hk => cases a <;> cases hk
  | «variable» hk => cases a <;> cases hk

/-- One character more in front of items. If they begin with a token, it becomes
longer. -/
theorem ReadsItems.cons {x : Char} (hx : a.accepts x = true)
    (h : ∀ p, ReadsItems source a ⟨s, p⟩ r qs) (p : Point) :
    ReadsItems source a ⟨x :: s, p⟩ r (.text (String.ofList [x]) :: qs) := by
  obtain ⟨q, ts, ps, hd, hread, hps⟩ := h (p.after x)
  obtain ⟨cs, u, rfl, hcs, hu⟩ : ∃ cs u, s = cs ++ u ∧
      (∀ y ∈ cs, a.accepts y = true) ∧ ∀ y ∈ u.head?, a.accepts y = false := by
    refine ⟨s.takeWhile a.accepts, s.dropWhile a.accepts,
      List.takeWhile_append_dropWhile.symm,
      List.all_eq_true.mp List.all_takeWhile, fun y hy => ?_⟩
    have hnot := List.head?_dropWhile_not a.accepts s
    rw [hy] at hnot
    simpa using hnot
  have htoken : Derives grammar .plain (nt a.token <|> nt .variable)
      ⟨x :: (cs ++ u), p⟩ ⟨u, p.afterAll (x :: cs)⟩ _ :=
    .left (derives_token (List.cons_ne_nil x cs)
      (List.forall_mem_cons.mpr ⟨hx, hcs⟩) hu)
  have hne := offset_behind htoken.found (mayBeEmpty_item a)
  have htakes :
      Cursor.Takes ⟨x :: (cs ++ u), p⟩ (x :: cs) ⟨u, p.afterAll (x :: cs)⟩ :=
    ⟨rfl, rfl⟩
  by_cases hnil : cs = []
  · subst hnil
    exact ⟨q, _, _, .more htoken hne hd, .cons (partOf_token htakes) hread,
      fun tail => congrArg (Part.glue _) (hps tail)⟩
  · -- The items begin with a token, which is found in both texts.
    have hshort : Derives grammar .plain (nt a.token <|> nt .variable)
        ⟨cs ++ u, p.after x⟩ ⟨u, (p.after x).afterAll cs⟩ _ :=
      .left (derives_token hnil hcs hu)
    have hmany := hd.found
    rw [found_many_some hshort.found (mayBeEmpty_item a)] at hmany
    obtain ⟨⟨stop, ns⟩, hf, hbehind⟩ := Option.map_eq_some_iff.mp hmany
    cases hbehind
    cases hread with
    | @cons _ part _ ps hpart hrest =>
      have htakes' :
          Cursor.Takes ⟨cs ++ u, p.after x⟩ cs ⟨u, (p.after x).afterAll cs⟩ :=
        ⟨rfl, rfl⟩
      cases hpart.eq_of_token htakes'
      refine ⟨q, _, _, .more htoken hne (derives_of_found hf),
        .cons (partOf_token htakes) hrest, fun tail => ?_⟩
      rw [List.foldr_cons, ← hps tail, List.map_cons, List.foldr_cons,
        List.map_cons, List.foldr_cons]
      exact ((glue_text_glue _ _ _).trans
        (by rw [← String.ofList_append]; rfl)).symm

/-- A run in front of items. -/
theorem ReadsItems.run {cs : List Char} (hne : cs ≠ [])
    (hcs : ∀ x ∈ cs, a.accepts x = true)
    (h : ∀ p, ReadsItems source a ⟨s, p⟩ r qs) (p : Point) :
    ReadsItems source a ⟨cs ++ s, p⟩ r (.text (String.ofList cs) :: qs) := by
  induction cs generalizing p with
  | nil => exact absurd rfl hne
  | cons x cs ih =>
    obtain ⟨hx, hcs⟩ := List.forall_mem_cons.mp hcs
    by_cases hnil : cs = []
    · subst hnil
      exact .cons hx h p
    · obtain ⟨q, ts, ps, hd, hread, hps⟩ := ReadsItems.cons hx (ih hnil hcs) p
      refine ⟨q, ts, ps, hd, hread, fun tail => (hps tail).trans ?_⟩
      exact (glue_text_glue _ _ _).trans (by rw [← String.ofList_append]; rfl)

-- =========================================== identifiers that are read

theorem Variable.unplaced_eq (v : Variable) :
    v.unplaced = ⟨v.name.unplaced, v.subscript.map Identifier.unplaced,
      .ofPoint v.span.source .origin⟩ := by
  rcases v with ⟨_, _ | _, _⟩ <;> rfl

/-- What counts of the parts of an identifier is what they are when they are
glued. -/
theorem unplaced_eq {ps : List Part} {items : List Item} {first last : Point}
    (h : ∀ tail,
      (ps.map (Part.mapSpans (Span.mapPoints fun _ => .origin))).foldr Part.glue
      tail = (items.map (Item.part source)).foldr Part.glue tail) :
    Identifier.unplaced ⟨ps.foldr Part.glue [], ⟨source, first, last⟩⟩ =
      Item.identifier source items := by
  rw [Item.identifier, Item.parts_eq, ← h [], ← mapAll_foldr_glue]
  rfl

/-- A node of parts, if there is one, is an identifier. -/
theorem Identifier.ofTree_eq {kind : Nonterminal}
    (hk : partsContext? kind = some context)
    (h : List.Forall₂ (PartOf source) ts qs) (hne : ts ≠ []) :
    Identifier.ofTree source (.node kind c d ts) =
      .ok ⟨qs.foldr Part.glue [], ⟨source, c.point, d.point⟩⟩ := by
  have hparts : qs.foldr Part.glue [] ≠ [] := by
    cases h with
    | nil => exact absurd rfl hne
    | cons => exact glue_ne_nil _ _
  unfold Identifier.ofTree
  rw [hk]
  dsimp only
  rw [partsOfTrees_eq h]
  cases hq : qs.foldr Part.glue [] with
  | nil => exact absurd hq hparts
  | cons => rfl

/-- What stands behind the name of a variable, and the subscript that it is. -/
inductive SubscriptOf (source : String) : List Node → Option Identifier → Prop
  | none : SubscriptOf source [] none
  | some {text : Node} {i : Identifier} {c d : Cursor} :
      text.kind = .subscriptText → Identifier.ofTree source text = .ok i →
      SubscriptOf source [.node .subscript c d [text]] i

theorem require_eq {kind : Nonterminal} {t : Node} (h : t.kind = kind) :
    require source context kind t = .ok () := if_pos h

theorem require_node {kind : Nonterminal} :
    require source context kind (.node kind c d ts) = .ok () := require_eq rfl

theorem Variable.ofTree_eq {name : Node} {i : Identifier}
    {subscript : Option Identifier} (hk : name.kind = .name)
    (hi : Identifier.ofTree source name = .ok i)
    (hs : SubscriptOf source ts subscript) :
    Variable.ofTree source (.node .variable c d (name :: ts)) =
      .ok ⟨i, subscript, ⟨source, c.point, d.point⟩⟩ := by
  unfold Variable.ofTree
  rw [require_node]
  cases hs with
  | none =>
    dsimp only
    rw [require_eq hk, hi]
    rfl
  | some hk' hi' =>
    dsimp only
    rw [require_eq hk, hi, require_node, require_eq hk', hi']
    rfl

-- ======================================== repetitions with a beginning

/-- A repetition that leaves something has a first match. -/
theorem Derives.plus_of_many {N : Type} {g : Grammar N} {m : Mode} {e : Peg N}
    {c d : Cursor} {ts : List (Tree N)} (he : g.mayBeEmpty e = false)
    (h : Derives g m (.many e) c d ts) (hne : ts ≠ []) :
    Derives g m (Peg.plus e) c d ts := by
  cases h with
  | stop => exact absurd rfl hne
  | last hx heq => exact absurd heq (offset_behind hx.found he)
  | more hx _ hm => exact .seq hx hm

/-- A repetition is nothing, or it has a first match. -/
theorem Derives.opt_of_many {N : Type} {g : Grammar N} {m : Mode} {e : Peg N}
    {c d : Cursor} {ts : List (Tree N)} (he : g.mayBeEmpty e = false)
    (h : Derives g m (.many e) c d ts) :
    Derives g m (.opt (Peg.plus e)) c d ts := by
  cases h with
  | stop hnone =>
    refine .without ?_
    change g.found m (.seq e (.many e)) _ = none
    rw [Grammar.found_seq, hnone]
    rfl
  | last hx heq => exact absurd heq (offset_behind hx.found he)
  | more hx _ hm => exact .with (.seq hx hm)

theorem derives_opt_index
    (h : Derives grammar .plain (.many (nt .number <|> nt .variable)) c d ts) :
    Derives grammar .plain (.opt (nt .index)) c d ts := by
  have hopt := h.opt_of_many (mayBeEmpty_item .index)
  cases hopt with
  | without hnone =>
    refine .without ?_
    rw [nt, Grammar.found_silent _ _ _ rfl]
    exact hnone
  | «with» h => exact .with (.silent rfl h)

/-- Items, if there are any, leave nodes. -/
theorem ReadsItems.plus (h : ReadsItems source a c r qs) (hne : qs ≠ []) :
    ∃ q ts ps, Derives grammar .plain (Peg.plus (nt a.token <|> nt .variable)) c
      ⟨r, q⟩ ts ∧ List.Forall₂ (PartOf source) ts ps ∧ ts ≠ [] ∧
      ∀ tail, (ps.map (Part.mapSpans (Span.mapPoints fun _ => .origin))).foldr
        Part.glue tail = qs.foldr Part.glue tail := by
  obtain ⟨q, ts, ps, hd, hread, hps⟩ := h
  have hts : ts ≠ [] := by
    rintro rfl
    cases hread
    obtain ⟨x, xs, rfl⟩ := List.exists_cons_of_ne_nil hne
    exact glue_ne_nil _ _ (hps []).symm
  exact ⟨q, ts, ps, hd.plus_of_many (mayBeEmpty_item a) hts, hread, hts, hps⟩

-- ============================================ what is produced is read

/-- What the matcher makes of a phrase that leads from the cursor to `r`. -/
def Form.Reads (source : String) : Form → Cursor → List Char → List Item → Prop
  | .items a, c, r, made =>
    EndsItems a r → ReadsItems source a c r (made.map (Item.part source))
  | .subscript, c, r, made => (∀ x ∈ r.head?, x ≠ '[') →
    ∃ q ts subscript,
      Derives grammar .plain (.opt (nt .subscript)) c ⟨r, q⟩ ts ∧
      SubscriptOf source ts subscript ∧
      subscript.map Identifier.unplaced = Item.subscript? source made
  | .variable, c, r, made =>
    ∃ q t v, Derives grammar .plain (nt .variable) c ⟨r, q⟩ [t] ∧
      PartOf source t (.variable v) ∧
        made.map (Item.part source) = [.variable v.unplaced]

theorem Produces.opens {items : List Item} (h : Produces .variable s r items) :
    ∃ u, s = '$' :: u := by
  cases h with
  | reference => exact ⟨_, rfl⟩

/-- Items begin with a letter, a digit or the sign of a variable. -/
theorem Produces.begins {items : List Item} (h : Produces (.items a) s r items)
    (hne : items ≠ []) : ∃ x u, s = x :: u ∧ isInner x = true := by
  cases h with
  | nothing => exact absurd rfl hne
  | @run _ cs _ _ _ hcs hall =>
    obtain ⟨x, xs, rfl⟩ := List.exists_cons_of_ne_nil hcs
    exact ⟨x, _, rfl,
      isInner_of_isAlnum (a.isAlnum_of_accepts (hall x List.mem_cons_self))⟩
  | «variable» hv =>
    obtain ⟨u, rfl⟩ := hv.opens
    exact ⟨'$', u, rfl, rfl⟩

/-- What may stand behind a name, or behind its subscript. -/
theorem Skips.ends {v : List Char} (h : Skips v (')' :: r)) :
    EndsItems .name v ∧ ∀ x ∈ v.head?, x ≠ '[' := by
  rcases h.head with rfl | ⟨c, u, rfl, hc⟩
  · exact ⟨endsItems_cons (by decide), by rintro _ ⟨⟩; decide⟩
  · have hne : ∀ x, isInner x = true → c ≠ x := by
      rintro x hx rfl
      rw [hx] at hc
      cases hc
    have halnum : isAlnum c = false :=
      Bool.eq_false_iff.mpr fun ha => hne c (isInner_of_isAlnum ha) rfl
    refine ⟨endsItems_cons ⟨halnum, hne '$' rfl⟩, ?_⟩
    rintro _ ⟨⟩
    exact hne '[' rfl

theorem Produces.ends {u v : List Char} {items : List Item}
    (h : Produces .subscript u v items) (hv : Skips v (')' :: r)) :
    EndsItems .name u := by
  cases h with
  | absent => exact hv.ends.1
  | index | range => exact endsItems_cons (by decide)

/-- Blanks and comments in front of something else. -/
theorem Skips.derives {m : Mode} {x : Char} {u : List Char}
    (h : Skips s (x :: u)) (hx : isInner x = true) (p : Point) :
    ∃ q, Derives grammar m (.opt (nt .blanks)) ⟨s, p⟩ ⟨x :: u, q⟩ [] := by
  have hd : Derives grammar m (.opt (nt .blanks)) ⟨s, p⟩
      (Cursor.next ⟨s, p⟩) [] :=
    derives_iff.mpr found_opt_blanks
  rw [Cursor.next, h.strip_eq (strip_of_inner hx)] at hd
  exact ⟨_, hd⟩

/-- A subscript that is there. -/
theorem reads_subscript {q : Point} {ps : List Part} {items : List Item}
    (h : Derives grammar .plain (Nonterminal.body .subscriptText)
      ⟨s, p.after '['⟩ ⟨']' :: r, q⟩ ts)
    (hread : List.Forall₂ (PartOf source) ts ps) (hne : ts ≠ [])
    (hitems : items ≠ [])
    (hps : ∀ tail,
      (ps.map (Part.mapSpans (Span.mapPoints fun _ => .origin))).foldr Part.glue
          tail =
        (items.map (Item.part source)).foldr Part.glue tail) :
    Form.Reads source .subscript ⟨'[' :: s, p⟩ r items := by
  dsimp only [Form.Reads]
  intro _
  have htext : Derives grammar .plain (nt .subscriptText) ⟨s, p.after '['⟩
      ⟨']' :: r, q⟩ _ :=
    .node (by decide) rfl h
  have hbody : Derives grammar .plain (Nonterminal.body .subscript)
      ⟨'[' :: s, p⟩ ⟨r, q.after ']'⟩ _ :=
    .seq (.seq (derives_sign rfl rfl) htext) (derives_sign rfl rfl)
  refine ⟨_, _, _, .with (.node (by decide) rfl hbody),
    .some rfl (Identifier.ofTree_eq rfl hread hne), ?_⟩
  obtain ⟨item, items, rfl⟩ := List.exists_cons_of_ne_nil hitems
  exact congrArg some (unplaced_eq hps)

/-- What is produced is what the matcher finds, and is read as what it means. -/
theorem Produces.reads {form : Form} {items : List Item}
    (h : Produces form s r items) (p : Point) :
    form.Reads source ⟨s, p⟩ r items := by
  induction h generalizing p with
  | nothing =>
    exact fun hends => ⟨p, [], [], .stop hends.found_none, .nil, fun _ => rfl⟩
  | run hne hall _ ih =>
    dsimp only [Form.Reads] at ih
    exact fun hends => .run hne hall (fun p => ih p hends) p
  | @«variable» a s t r vs items hv _ ihv ih =>
    dsimp only [Form.Reads] at ih ⊢
    intro hends
    obtain ⟨q, t, v, hd, hpart, hitem⟩ := ihv p
    obtain ⟨q', ts, ps, hd', hread, hps⟩ := ih q hends
    obtain ⟨u, rfl⟩ := hv.opens
    have hnone : ∀ x ∈ ('$' :: u).head?, a.accepts x = false := by
      rintro _ ⟨⟩
      cases a <;> rfl
    have hx : Derives grammar .plain (nt a.token <|> nt .variable) _ _ [t] :=
      .right (found_token_none hnone) hd
    refine ⟨q', _, _, .more hx (offset_behind hx.found (mayBeEmpty_item a)) hd',
      .cons hpart hread, fun tail => ?_⟩
    rw [List.map_append, hitem, List.singleton_append, List.foldr_cons, ← hps,
      List.map_cons, List.foldr_cons]
    rfl
  | @absent s =>
    dsimp only [Form.Reads]
    intro hs
    refine ⟨p, [], none, .without ?_, .none, rfl⟩
    cases s with
    | nil => exact found_end rfl rfl
    | cons x s => exact found_none_of_keyword rfl (hs x rfl)
  | @index s r items _ hne ih =>
    dsimp only [Form.Reads] at ih
    obtain ⟨q, ts, ps, hd, hread, hts, hps⟩ :=
      (ih (p.after '[') (endsItems_cons (by decide))).plus (by simpa using hne)
    have hnone : grammar.found .plain (nt .rangeDash ++ .opt (nt .index))
        ⟨']' :: r, q⟩ = none :=
      found_none_of_leftmost (found_none_of_keyword rfl (by decide))
    have hbody : Derives grammar .plain (Nonterminal.body .subscriptText)
        ⟨s, p.after '['⟩ ⟨']' :: r, q⟩ _ :=
      .seq (.silent rfl hd) (.without hnone)
    rw [List.append_nil] at hbody
    exact reads_subscript hbody hread hts hne hps
  | @range s t r first last _ hne _ ih ih' =>
    dsimp only [Form.Reads] at ih ih'
    obtain ⟨q, ts, ps, hd, hread, hts, hps⟩ :=
      (ih (p.after '[') (endsItems_cons (by decide))).plus (by simpa using hne)
    obtain ⟨q', ts', ps', hd', hread', hps'⟩ :=
      ih' (q.after '-') (endsItems_cons (by decide))
    have hdash : Derives grammar .plain (nt .rangeDash) ⟨'-' :: t, q⟩
        ⟨t, q.after '-'⟩ _ :=
      .node (by decide) rfl (derives_sign rfl rfl)
    have hbody : Derives grammar .plain (Nonterminal.body .subscriptText)
        ⟨s, p.after '['⟩ ⟨']' :: r, q'⟩ _ :=
      .seq (.silent rfl hd) (.with (.seq hdash (derives_opt_index hd')))
    have htext :
        PartOf source (.node .rangeDash ⟨'-' :: t, q⟩ ⟨t, q.after '-'⟩ [])
        (.text (String.ofList ['-'])) := by
      have htakes : Cursor.Takes ⟨'-' :: t, q⟩ ['-'] ⟨t, q.after '-'⟩ :=
        ⟨rfl, rfl⟩
      have hu : (Tree.node Nonterminal.rangeDash ⟨'-' :: t, q⟩ ⟨t, q.after '-'⟩
          ([] : List Node)).text = ['-'] := htakes.upTo_eq
      rw [← hu]
      exact .token (List.mem_of_elem_eq_true rfl)
    refine reads_subscript hbody (List.rel_append hread (.cons htext hread'))
      (by simp) (by simp) fun tail => ?_
    simp only [List.map_append, List.foldr_append, List.map_cons,
      List.foldr_cons, hps, hps']
    rfl
  | @reference s t u v r names subscript hbefore hname hne hsubscript hafter
    ihname ihsub =>
    dsimp only [Form.Reads] at ihname ihsub
    obtain ⟨x, t', rfl, hx⟩ := hname.begins hne
    obtain ⟨p₁, hd₁⟩ :=
      hbefore.derives (m := .plain) hx ((p.after '$').after '(')
    obtain ⟨p₂, ts, ps, hd₂, hread, hts, hps⟩ :=
      (ihname p₁ (hsubscript.ends hafter)).plus (by simpa using hne)
    obtain ⟨p₃, ts', sub, hd₃, hsub, heq⟩ := ihsub p₂ hafter.ends.2
    obtain ⟨p₄, hd₄⟩ := hafter.derives (m := .plain) rfl p₃
    have hopen : Derives grammar .plain (Peg.lit "$(") ⟨'$' :: '(' :: s, p⟩
        ⟨s, (p.after '$').after '('⟩ [] := derives_lit rfl
    have hnode : Derives grammar .plain (nt .name) ⟨x :: t', p₁⟩ ⟨u, p₂⟩ _ :=
      .node (by decide) rfl hd₂
    have hbody : Derives grammar .plain (Nonterminal.body .variable)
        ⟨'$' :: '(' :: s, p⟩ ⟨r, p₄.after ')'⟩ _ :=
      .seq (.seq (.seq (.seq (.seq hopen hd₁) hnode) hd₃) hd₄)
        (derives_sign rfl rfl)
    simp only [List.nil_append, List.append_nil, List.singleton_append] at hbody
    refine ⟨_, _, _, .node (by decide) rfl hbody, .variable rfl
      (Variable.ofTree_eq rfl (Identifier.ofTree_eq rfl hread hts) hsub), ?_⟩
    rw [List.map_singleton, Item.part_reference, ← heq, ← unplaced_eq hps]
    cases sub <;> rfl

-- ========================================================= whole texts

/-- What is produced of a variable is one item. -/
theorem Produces.item_eq {items : List Item}
    (h : Produces .variable s r items) :
    ∃ names subscript, items = [.reference names subscript] := by
  cases h with
  | reference => exact ⟨_, _, rfl⟩

/-- A parse goes on from a parse tree. -/
theorem Phrase.parse_of_derives {text : String} {k : Nonterminal} {t : Node}
    (hk : Nonterminal.retention k ≠ .silent)
    (h : Derives grammar .plain (nt k) (.ofText text.toList) d [t])
    (hd : d.rest = []) :
    Phrase.parse source k text = Phrase.ofTree source t := by
  unfold Phrase.parse
  rw [(parseTree_iff hk).mpr ⟨d, h, hd⟩]
  rfl

theorem Phrase.derives_of_parse {text : String} {k : Nonterminal}
    (hk : Nonterminal.retention k ≠ .silent)
    (h : (Phrase.parse source k text).Succeeds) :
    ∃ d ts, Derives grammar .plain (nt k) (.ofText text.toList) d ts ∧
      d.rest = [] := by
  obtain ⟨p, h⟩ := h
  unfold Phrase.parse at h
  cases ht : parseTree source k text.toList with
  | error e =>
    rw [ht] at h
    cases h
  | ok t =>
    obtain ⟨d, hd⟩ := (parseTree_iff hk).mp ht
    exact ⟨d, [t], hd⟩

/-- A text is a name if and only if the rules produce it, and then it is the
identifier of the derivation. -/
theorem name_parses_iff (source text : String) :
    ((Phrase.parse source .name text).Succeeds ↔
      ∃ items, items ≠ [] ∧ Produces (.items .name) text.toList [] items) ∧
    ∀ items, items ≠ [] → Produces (.items .name) text.toList [] items →
      ∃ i, Phrase.parse source .name text = .ok (.identifier i) ∧
        i.unplaced = Item.identifier source items := by
  have reads : ∀ items, items ≠ [] →
      Produces (.items .name) text.toList [] items →
      ∃ i, Phrase.parse source .name text = .ok (.identifier i) ∧
      i.unplaced = Item.identifier source items := by
    intro items hne h
    have hreads :
        Form.Reads source (.items .name) (.ofText text.toList) [] items :=
      h.reads _
    obtain ⟨q, ts, ps, hd, hread, hts, hps⟩ :=
      (hreads endsItems_nil).plus (by simpa using hne)
    have hnode :
        Derives grammar .plain (nt .name) (.ofText text.toList) ⟨[], q⟩ _ :=
      .node (by decide) rfl hd
    have hi : Identifier.ofTree source
        (.node .name (.ofText text.toList) ⟨[], q⟩ ts) = _ :=
      Identifier.ofTree_eq rfl hread hts
    exact ⟨_, (Phrase.parse_of_derives (by decide) hnode rfl).trans
      (congrArg (Phrase.identifier <$> ·) hi), unplaced_eq hps⟩
  refine ⟨⟨fun h => ?_, ?_⟩, reads⟩
  · obtain ⟨d, ts, hd, hend⟩ := Phrase.derives_of_parse (by decide) h
    obtain ⟨items, hitems, hne⟩ := items_of_derives hd
    rw [hend] at hitems
    exact ⟨items, hne, hitems⟩
  · rintro ⟨items, hne, h⟩
    obtain ⟨i, hi, -⟩ := reads items hne h
    exact ⟨_, hi⟩

/-- A text that the rules produce is read as the variable of the derivation. -/
theorem Produces.parses {text : String} {name subscript : List Item}
    (h : Produces .variable text.toList [] [.reference name subscript])
    (source : String) :
    ∃ v, Phrase.parse source .variable text = .ok (.variable v) ∧
      v.unplaced = ⟨Item.identifier source name,
        Item.subscript? source subscript, .ofPoint source .origin⟩ := by
  have hreads : Form.Reads source .variable (.ofText text.toList) [] _ :=
    h.reads _
  obtain ⟨q, t, v, hd, hpart, hitem⟩ := hreads
  rw [List.map_singleton, Item.part_reference] at hitem
  refine ⟨v, (Phrase.parse_of_derives (by decide) hd rfl).trans ?_,
    (Part.variable.inj (List.singleton_inj.mp hitem)).symm⟩
  cases hpart with
  | «variable» hk hv =>
    unfold Phrase.ofTree
    rw [hk]
    exact congrArg (Phrase.variable <$> ·) hv

/-- A text that is read as a variable is produced by the rules. -/
theorem produces_of_parse {text : String}
    (h : (Phrase.parse source .variable text).Succeeds) :
    ∃ name subscript,
      Produces .variable text.toList [] [.reference name subscript] := by
  obtain ⟨d, ts, hd, hend⟩ := Phrase.derives_of_parse (by decide) h
  obtain ⟨item, hitem⟩ := produces_of_derives hd
  rw [hend] at hitem
  obtain ⟨name, subscript, heq⟩ := hitem.item_eq
  exact ⟨name, subscript, heq ▸ hitem⟩

/-- A text is a variable if and only if the rules produce it, and then it is the
variable of the derivation: its name and its subscript are what was produced as
these. -/
theorem variable_parses_iff (source text : String) :
    ((Phrase.parse source .variable text).Succeeds ↔
      ∃ name subscript,
        Produces .variable text.toList [] [.reference name subscript]) ∧
    ∀ name subscript,
      Produces .variable text.toList [] [.reference name subscript] →
      ∃ v, Phrase.parse source .variable text = .ok (.variable v) ∧
        v.name.unplaced = Item.identifier source name ∧
        v.subscript.map Identifier.unplaced =
          Item.subscript? source subscript := by
  refine ⟨⟨produces_of_parse, ?_⟩, ?_⟩
  · rintro ⟨name, subscript, h⟩
    obtain ⟨v, hv, -⟩ := h.parses source
    exact ⟨_, hv⟩
  · intro name subscript h
    obtain ⟨v, hv, heq⟩ := h.parses source
    rw [Variable.unplaced_eq] at heq
    obtain ⟨hname, hsub, -⟩ := Variable.mk.inj heq
    exact ⟨v, hv, hname, hsub⟩

/-- A variable in the name of another one and one in its subscript, and a
comment that closes nothing. -/
theorem variable_parses_nested :
    let text := "$( a1$(b)[$(n)-] # )\n)"
    let reference (c : Char) (subscript : List Item) : Item :=
      .reference [.run [c]] subscript
    let name := [.run ['a', '1'], reference 'b' []]
    let subscript := [reference 'n' [], .run ['-']]
    Produces .variable text.toList [] [.reference name subscript] ∧
      ∃ v, Phrase.parse "t" .variable text = .ok (.variable v) ∧
        v.name.unplaced = Item.identifier "t" name ∧
        v.subscript.map Identifier.unplaced =
          Item.subscript? "t" subscript := by
  intro text reference name subscript
  have run (a : Alphabet) (c : Char) (h : a.accepts c = true) (r : List Char) :
      Produces (.items a) (c :: r) r [.run [c]] :=
    .run (List.cons_ne_nil c []) (by simpa using h) .nothing
  have simple (c : Char) (h : isAlnum c = true) (r : List Char) :
      Produces .variable ('$' :: '(' :: c :: ')' :: r) r [reference c []] :=
    .reference .nothing (run .name c h _)
      (List.cons_ne_nil _ _) .absent .nothing
  have hname : Produces (.items .name) "a1$(b)[$(n)-] # )\n)".toList
      "[$(n)-] # )\n)".toList name :=
    .run (List.cons_ne_nil 'a' ['1']) (List.all_eq_true.mp rfl)
      (.variable (simple 'b' rfl _) .nothing)
  have hsubscript :
      Produces .subscript "[$(n)-] # )\n)".toList " # )\n)".toList subscript :=
    .range (.variable (simple 'n' rfl _) .nothing)
      (List.cons_ne_nil _ _) .nothing
  have htext : text.toList =
      '$' :: '(' :: ' ' :: "a1$(b)[$(n)-] # )\n)".toList := by
    decide
  have h : Produces .variable text.toList [] [.reference name subscript] :=
    htext ▸ .reference (.blank rfl .nothing) hname (List.cons_ne_nil _ _)
    hsubscript (.blank rfl (.comment (.blank rfl .nothing)))
  exact ⟨h, (variable_parses_iff "t" text).2 name subscript h⟩

end Jam
