/-
What the pieces of a program were read from.

Each name and each variable in a program, at any depth, was read from a
node of the parse tree (`Program.parse_read`). Whatever is known of a
single reading, in particular what the grammar says about its node, is so
known of all pieces of a program of that kind.

Readings take a node apart and read what is below it, so what is directly
in a piece that was read was read itself (`Piece.Read.children`). This
needs neither the grammar nor an induction, apart from conditions, which
are no pieces. As a list that was left out is read from nothing, of lists
and of blocks it is only said that what is in them was read.
-/
import Jam.Proofs.Syntax.Traces

namespace Jam

open Except (Yields)

-- ========================================================= definitions

/-- The node and the nodes below it come from matches. -/
def Rooted (t : Node) : Prop := ∀ u ∈ t.nodes, Grown grammar u

/-- There is a node that this is read from. -/
def ReadFrom {α : Type} (read : Node → Except Error α) (a : α) : Prop :=
  ∃ t, Rooted t ∧ read t = .ok a

namespace Piece

/-- The piece was read from a node, or what is in it was. -/
def Read (source : String) : Piece → Prop
  | .literal _ => True
  | .identifier i => ReadFrom (Identifier.ofTree source) i
  | .variable v => ReadFrom (Variable.ofTree source) v
  | .list l => ∀ w ∈ l.items, ReadFrom (Word.ofTree source) w
  | .block b => ∀ s ∈ b.statements, ReadFrom (Statement.ofTree source) s
  | .statement s => ReadFrom (Statement.ofTree source) s
  | .program p => ∀ s ∈ p.statements, ReadFrom (Statement.ofTree source) s

/-- The one piece is the other, or is in it at any depth. -/
inductive Contains : Piece → Piece → Prop
  | self {x : Piece} : Contains x x
  | inside {x y z : Piece} : y ∈ x.children → Contains y z → Contains x z

end Piece

variable {source context : String} {t u : Node} {ts : List Node}

-- =============================================================== nodes

theorem Tree.mem_nodes (t : Node) : t ∈ t.nodes := by
  rw [Tree.nodes_eq]
  exact List.mem_cons_self

theorem mem_forestNodes (hu : u ∈ ts) {v : Node} (hv : v ∈ u.nodes) :
    v ∈ forestNodes ts := by
  induction ts with
  | nil => cases hu
  | cons t ts ih =>
    rw [forestNodes, List.mem_append]
    rcases List.mem_cons.mp hu with rfl | hu
    · exact .inl hv
    · exact .inr (ih hu)

theorem Rooted.child (h : Rooted t) (hu : u ∈ t.children) : Rooted u := by
  intro v hv
  refine h v ?_
  rw [Tree.nodes_eq]
  exact List.mem_cons_of_mem _ (mem_forestNodes hu hv)

theorem Rooted.is (h : Rooted t) : Is [t.kind] t :=
  ⟨List.mem_singleton_self _, h t t.mem_nodes⟩

/-- The nodes of a parse tree come from matches. -/
theorem parseTree_rooted {r : Nonterminal} {text : List Char}
    (h : parseTree source r text = .ok t) : Rooted t := by
  obtain ⟨d, hstrung⟩ := parseTree_strung source r text t h
  intro u hu
  exact (hstrung.bounds u
    (by rwa [forestNodes, forestNodes, List.append_nil])).1

theorem readFrom_mapM {α : Type} {read : Node → Except Error α}
    (h : ∀ t ∈ ts, Rooted t) :
    Yields (fun as => ∀ a ∈ as, ReadFrom read a) (ts.mapM read) := by
  intro as has a ha
  obtain ⟨t, ht, hread⟩ := Yields.of_mapM as has a ha
  exact ⟨t, h t ht, hread⟩

-- =============================================================== names

theorem Piece.read_part {parts : List Part} {v : Variable}
    (h : ∀ t ∈ ts, Rooted t)
    (hparts : partsOfTrees source context ts = .ok parts)
    (hv : .variable v ∈ parts) : (Piece.variable v).Read source :=
  partsOfTrees_variables (P := fun v => (Piece.variable v).Read source)
    (fun t ht _ _ hread => ⟨t, h t ht, hread⟩) parts hparts v hv

theorem Identifier.children_read (h : Rooted t) :
    Yields (fun i => ∀ x ∈ (Piece.identifier i).children, x.Read source)
      (Identifier.ofTree source t) := by
  cases t with
  | node kind first last children =>
    unfold Identifier.ofTree
    split
    · exact .throw _
    · refine .bind fun parts hparts => ?_
      split
      · exact .throw _
      · refine .pure fun x hx => ?_
        obtain ⟨v, hv, rfl⟩ := List.mem_map.mp hx
        obtain ⟨part, hpart, hsome⟩ := List.mem_filterMap.mp hv
        cases part with
        | text => cases hsome
        | «variable» =>
          cases hsome
          exact Piece.read_part (fun u hu => h.child hu) hparts hpart

theorem Variable.children_read (h : Rooted t) :
    Yields (fun v => ∀ x ∈ (Piece.variable v).children, x.Read source)
      (Variable.ofTree source t) := by
  cases t with
  | node kind first last children =>
    unfold Variable.ofTree
    refine .bind fun _ hkind => ?_
    split
    · refine .bind fun _ _ => .bind fun i hi =>
        .pure (List.forall_mem_singleton.mpr ?_)
      exact ⟨_, h.child List.mem_cons_self, hi⟩
    · next n kind' first' last' children' =>
      have hs : Rooted (.node kind' first' last' children') :=
        h.child (List.mem_cons_of_mem n List.mem_cons_self)
      refine .bind fun _ hkind => .bind fun i hi => .bind fun _ hkind' => ?_
      have hname : (Piece.identifier i).Read source :=
        ⟨_, h.child List.mem_cons_self, hi⟩
      split
      · refine .bind fun _ _ => .bind fun j hj => .pure ?_
        exact List.forall_mem_cons.mpr ⟨hname,
          List.forall_mem_singleton.mpr ⟨_, hs.child List.mem_cons_self, hj⟩⟩
      · exact .throw _
    · split
      · exact .throw _
      · exact .throw _

-- ===================================================== words and lists

theorem Word.piece_read (h : Rooted t) :
    Yields (fun w => w.piece.Read source) (Word.ofTree source t) := by
  unfold Word.ofTree
  split
  · exact .map fun v hv => ⟨t, h, hv⟩
  · exact .map fun i hi => ⟨t, h, hi⟩
  · exact .map fun i hi => ⟨t, h, hi⟩
  · exact .map fun _ _ => trivial
  · exact .throw _

theorem WordList.piece_read (h : Rooted t) :
    Yields (fun l => (Piece.list l).Read source) (WordList.ofTree source t) :=
  .bind fun _ _ => .bind fun items hitems =>
    .pure (readFrom_mapM (fun _ hu => h.child hu) items hitems)

theorem WordList.ofTrees_read {absent span : Span} (h : ∀ t ∈ ts, Rooted t) :
    Yields (fun l => (Piece.list l).Read source)
      (WordList.ofTrees source context absent span ts) := by
  unfold WordList.ofTrees
  split
  · exact .pure (List.forall_mem_nil _)
  · exact .bind fun _ _ => WordList.piece_read (h _ List.mem_cons_self)
  · exact .throw _

-- ========================================================== conditions

/-- What is in a condition, at any depth of conditions, was read. -/
theorem Condition.pieces_read (t : Node) (h : Rooted t) :
    Yields (fun c => ∀ x ∈ c.pieces, x.Read source)
      (Condition.ofTree source t) := by
  induction t using Tree.induct with
  | step kind first last children ih =>
    have hchild {u : Node} (hu : u ∈ children) : Rooted u := h.child hu
    have hterms {join : List Condition → Condition}
        (hjoin : ∀ cs, (join cs).pieces = conditionPieces cs) : Yields
        (fun terms => ∀ x ∈ (Condition.joined join terms).pieces, x.Read source)
        (conditionsOfTrees source children) := by
      rw [conditionsOfTrees_eq_mapM]
      intro terms hread x hx
      rw [pieces_joined terms (hjoin terms)] at hx
      obtain ⟨c, hc, hx⟩ := List.mem_flatMap.mp hx
      obtain ⟨u, hu, hcond⟩ := Yields.of_mapM terms hread c hc
      exact ih u hu (hchild hu) c hcond x hx
    unfold Condition.ofTree
    split
    · exact .bind fun terms hread => .pure (hterms (fun _ => rfl) terms hread)
    · exact .bind fun terms hread => .pure (hterms (fun _ => rfl) terms hread)
    · split
      · refine .bind fun c hc => .pure ?_
        exact ih _ List.mem_cons_self (hchild List.mem_cons_self) c hc
      · exact .throw _
    · split
      · refine .bind fun w hw => .pure (List.forall_mem_singleton.mpr ?_)
        exact Word.piece_read (hchild List.mem_cons_self) w hw
      · exact .throw _
    · split
      · refine .bind fun l hl => .bind fun _ _ => ?_
        split
        · refine .bind fun r hr =>
            .pure
              (List.forall_mem_cons.mpr ⟨?_, List.forall_mem_singleton.mpr ?_⟩)
          · exact Word.piece_read (hchild List.mem_cons_self) l hl
          · exact Word.piece_read (hchild (by simp)) r hr
        · exact .throw _
      · exact .throw _
    · split
      · refine .bind fun w hw => .bind fun _ _ => .bind fun l hl => .pure
          (List.forall_mem_cons.mpr ⟨?_, List.forall_mem_singleton.mpr ?_⟩)
        · exact Word.piece_read (hchild List.mem_cons_self) w hw
        · exact WordList.piece_read (hchild (by simp)) l hl
      · exact .throw _
    · exact .throw _

-- ========================================================== statements

theorem nameOfTree_read (h : Rooted t) :
    Yields (fun i => (Piece.identifier i).Read source)
      (nameOfTree source context t) :=
  .bind fun _ _ => fun _ hi => ⟨t, h, hi⟩

theorem argumentOfTree_read (h : Rooted t) :
    Yields (fun l => (Piece.list l).Read source) (argumentOfTree source t) :=
  .bind fun _ _ => WordList.ofTrees_read fun _ hu => h.child hu

theorem parametersOfTree_read (h : Rooted t) :
    Yields (fun is => ∀ i ∈ is, (Piece.identifier i).Read source)
      (parametersOfTree source t) := by
  refine .bind fun _ _ => fun is hread i hi => ?_
  obtain ⟨u, hu, hname⟩ := Yields.of_mapM is hread i hi
  exact nameOfTree_read (h.child hu) i hname

theorem Block.piece_read (h : Rooted t) :
    Yields (fun b => (Piece.block b).Read source)
      (Block.ofTree source context t) := by
  cases t with
  | node kind first last children =>
    unfold Block.ofTree
    rw [statementsOfTrees_eq_mapM]
    exact .bind fun _ _ => .bind fun ss hss =>
      .pure (readFrom_mapM (fun _ hu => h.child hu) ss hss)

theorem simpleOfTree_pieces (h : Rooted t) :
    Yields (fun s => ∀ x ∈ s.pieces, x.Read source)
      (simpleOfTree source t) := by
  have hchildren : ∀ u ∈ t.children, Rooted u := fun _ hu => h.child hu
  unfold simpleOfTree
  dsimp only
  split
  · refine .bind fun l hl => .pure (List.forall_mem_singleton.mpr ?_)
    exact WordList.ofTrees_read hchildren l hl
  · exact .pure (List.forall_mem_nil _)
  · exact .pure (List.forall_mem_nil _)
  · split
    · next heq =>
      rw [heq] at hchildren
      refine .bind fun _ _ => .bind fun l hl =>
        .pure (List.forall_mem_singleton.mpr ?_)
      exact WordList.piece_read (hchildren _ List.mem_cons_self) l hl
    · next heq =>
      rw [heq] at hchildren
      refine .bind fun _ _ => .bind fun l hl =>
        .bind fun _ _ => .bind fun l' hl' =>
        .pure (List.forall_mem_cons.mpr ⟨?_, List.forall_mem_singleton.mpr ?_⟩)
      · exact WordList.piece_read (hchildren _ List.mem_cons_self) l hl
      · have hvalue := hchildren _ (List.mem_cons_of_mem _ List.mem_cons_self)
        exact WordList.ofTrees_read (fun _ hu => hvalue.child hu) l' hl'
    · exact .throw _
    · exact .throw _
  · split
    · next heq =>
      rw [heq] at hchildren
      obtain ⟨hname, hrest⟩ := List.forall_mem_cons.mp hchildren
      refine .bind fun i hi => .bind fun _ _ => ?_
      split
      · refine .bind fun l hl => .pure
          (List.forall_mem_cons.mpr ⟨?_, List.forall_mem_singleton.mpr ?_⟩)
        · exact nameOfTree_read hname i hi
        · exact WordList.ofTrees_read (List.forall_mem_cons.mp hrest).2 l hl
      · exact .throw _
    · exact .throw _
  · split
    · next heq =>
      rw [heq] at hchildren
      obtain ⟨hname, hrest⟩ := List.forall_mem_cons.mp hchildren
      refine .bind fun i hi => .bind fun ls hls =>
        .pure (List.forall_mem_cons.mpr ⟨?_, ?_⟩)
      · exact nameOfTree_read hname i hi
      · intro x hx
        obtain ⟨l, hl, rfl⟩ := List.mem_map.mp hx
        obtain ⟨u, hu, hread⟩ := Yields.of_mapM ls hls l hl
        exact argumentOfTree_read (hrest u hu) l hread
    · exact .throw _
  · exact .throw _

/-- What is in a statement was read. -/
theorem Statement.pieces_read (h : Rooted t) :
    Yields (fun s => ∀ x ∈ s.pieces, x.Read source)
      (Statement.ofTree source t) := by
  cases t with
  | node kind first last children =>
    have hchildren : ∀ u ∈ children, Rooted u := fun _ hu => h.child hu
    unfold Statement.ofTree
    split
    · rw [statementsOfTrees_eq_mapM]
      refine .bind fun ss hss => .pure fun x hx => ?_
      obtain ⟨s, hs, rfl⟩ := List.mem_map.mp hx
      exact readFrom_mapM hchildren ss hss s hs
    · -- a choice, without and with another branch
      split
      · refine .bind fun c hc => .bind fun b hb => .pure
          (List.forall_mem_append.mpr ⟨?_, List.forall_mem_singleton.mpr ?_⟩)
        · exact Condition.pieces_read _ (hchildren _ List.mem_cons_self) c hc
        · exact Block.piece_read (hchildren _ (by simp)) b hb
      · refine .bind fun c hc => .bind fun b hb => ?_
        split
        · refine .bind fun s hs => .pure (List.forall_mem_append.mpr ⟨?_,
            List.forall_mem_cons.mpr ⟨?_, List.forall_mem_singleton.mpr ?_⟩⟩)
          · exact Condition.pieces_read _ (hchildren _ List.mem_cons_self) c hc
          · exact Block.piece_read (hchildren _ (by simp)) b hb
          · exact ⟨_, hchildren _ (by simp), hs⟩
        · exact .throw _
      · split
        · exact .throw _
        · exact .throw _
    · -- loops
      split
      · refine .bind fun i hi => .bind fun _ _ => .bind fun l hl =>
          .bind fun b hb => .pure (List.forall_mem_cons.mpr ⟨?_,
            List.forall_mem_cons.mpr ⟨?_, List.forall_mem_singleton.mpr ?_⟩⟩)
        · exact nameOfTree_read (hchildren _ List.mem_cons_self) i hi
        · exact WordList.piece_read (hchildren _ (by simp)) l hl
        · exact Block.piece_read (hchildren _ (by simp)) b hb
      · exact .throw _
    · split
      · refine .bind fun c hc => .bind fun b hb => .pure
          (List.forall_mem_append.mpr ⟨?_, List.forall_mem_singleton.mpr ?_⟩)
        · exact Condition.pieces_read _ (hchildren _ List.mem_cons_self) c hc
        · exact Block.piece_read (hchildren _ (by simp)) b hb
      · exact .throw _
    · -- a definition, without and with parameters
      split
      · refine .bind fun i hi => .bind fun b hb => .pure
          (List.forall_mem_cons.mpr ⟨?_, List.forall_mem_singleton.mpr ?_⟩)
        · exact nameOfTree_read (hchildren _ List.mem_cons_self) i hi
        · exact Block.piece_read (hchildren _ (by simp)) b hb
      · refine .bind fun i hi => .bind fun is his => .bind fun b hb => .pure
          (List.forall_mem_cons.mpr ⟨?_, List.forall_mem_append.mpr
            ⟨?_, List.forall_mem_singleton.mpr ?_⟩⟩)
        · exact nameOfTree_read (hchildren _ List.mem_cons_self) i hi
        · intro x hx
          obtain ⟨j, hj, rfl⟩ := List.mem_map.mp hx
          exact parametersOfTree_read (hchildren _ (by simp)) is his j hj
        · exact Block.piece_read (hchildren _ (by simp)) b hb
      · split
        · exact .throw _
        · exact .throw _
    · exact simpleOfTree_pieces h

-- ============================================================== pieces

/-- What is directly in a piece that was read was read. -/
theorem Piece.Read.children {x : Piece} (h : x.Read source) :
    ∀ y ∈ x.children, y.Read source := by
  cases x with
  | literal => exact List.forall_mem_nil _
  | identifier i =>
    obtain ⟨t, ht, hread⟩ := h
    exact Identifier.children_read ht i hread
  | «variable» v =>
    obtain ⟨t, ht, hread⟩ := h
    exact Variable.children_read ht v hread
  | list l =>
    intro y hy
    obtain ⟨w, hw, rfl⟩ := List.mem_map.mp hy
    obtain ⟨t, ht, hread⟩ := h w hw
    exact Word.piece_read ht w hread
  | block b =>
    intro y hy
    obtain ⟨s, hs, rfl⟩ := List.mem_map.mp hy
    exact h s hs
  | statement s =>
    obtain ⟨t, ht, hread⟩ := h
    exact Statement.pieces_read ht s hread
  | program p =>
    intro y hy
    obtain ⟨s, hs, rfl⟩ := List.mem_map.mp hy
    exact h s hs

theorem Piece.Read.contained {x y : Piece} (h : x.Read source)
    (hy : x.Contains y) : y.Read source := by
  induction hy with
  | self => exact h
  | inside hmem _ ih => exact ih (h.children _ hmem)

/-- All pieces of a program that was read from a text were read from its parse
tree. -/
theorem Program.parse_read {text : String} {p : Program}
    (h : Program.parse source text = .ok p) {x : Piece}
    (hx : (Piece.program p).Contains x) : x.Read source := by
  have hread : Yields (fun p => (Piece.program p).Read source)
      (Program.parse source text) := by
    refine .bind fun t ht => .bind fun _ _ => .bind fun ss hss => .pure ?_
    rw [statementsOfTrees_eq_mapM] at hss
    exact readFrom_mapM (fun u hu =>
      (parseTree_rooted ht).child (List.mem_of_mem_filter hu)) ss hss
  exact (hread p h).contained hx

end Jam
