/-
Syntax at other places.

Syntax remembers the points of the text that it was read from.
`Program.mapSpans f` is the same program with its points changed by `f`,
and `Program.unplaced` one without any: two programs are equal up to their
places if their unplaced forms are equal.

A reading of a parse tree only looks at kinds of nodes, at points and at
the texts of tokens. So nodes that are `Alike` are read as the same syntax
at other places, if both are read at all. This is proved for each reading
(`Identifier.agree` to `Program.agree`), along the tree. That both are read
is not said here: readings of parse trees never fail.
-/
import Jam.Proofs.Grammar.Alignment
import Jam.Proofs.Syntax.MapSpans
import Jam.Proofs.Syntax.Outcome

-- ======================================================== two readings

namespace Except

variable {ε α β γ δ : Type} {r : α → β → Prop} {s : γ → δ → Prop}

/-- If both succeed, then their values are related. -/
def Agree (r : α → β → Prop) (x : Except ε α) (y : Except ε β) : Prop :=
  ∀ a b, x = .ok a → y = .ok b → r a b

namespace Agree

theorem pure {a : α} {b : β} (h : r a b) :
    Agree r (Pure.pure a : Except ε α) (Pure.pure b : Except ε β) := by
  rintro _ _ ⟨⟩ ⟨⟩
  exact h

theorem throw {y : Except ε β} (e : ε) : Agree r (throw e : Except ε α) y := by
  rintro _ _ ⟨⟩

theorem bind {x : Except ε α} {y : Except ε β} {f : α → Except ε γ}
    {g : β → Except ε δ} (h : Agree r x y)
    (hf : ∀ a b, r a b → Agree s (f a) (g b)) :
    Agree s (x >>= f) (y >>= g) := by
  cases x with
  | error e => rintro _ _ ⟨⟩
  | ok a =>
    cases y with
    | error e => rintro _ _ - ⟨⟩
    | ok b => exact hf a b (h a b rfl rfl)

theorem map {x : Except ε α} {y : Except ε β} {f : α → γ} {g : β → δ}
    (h : Agree r x y) (hf : ∀ a b, r a b → s (f a) (g b)) :
    Agree s (f <$> x) (g <$> y) := by
  cases x with
  | error e => rintro _ _ ⟨⟩
  | ok a =>
    cases y with
    | error e => rintro _ _ - ⟨⟩
    | ok b => exact .pure (hf a b (h a b rfl rfl))

end Agree

end Except

namespace Jam

open Except (Agree)

-- ============================================= readings of alike nodes

section Readings

variable {v : Comparison} {source context : String} {t t' : Node}
  {ts ts' : List Node}

/-- Two readings that agree up to points, as far as the comparison tells these
apart. -/
def Concur (v : Comparison) {α : Type} (mapSpans : (Span → Span) → α → α)
    (x y : Except Error α) : Prop :=
  Agree (fun a b => mapSpans (Span.mapPoints v.left) a =
    mapSpans (Span.mapPoints v.right) b) x y

/-- The spans of alike nodes. -/
theorem span_agree (source : String) (h : Alike v.view t t') :
    (t.span source).mapPoints v.left = (t'.span source).mapPoints v.right := by
  cases h with
  | node hfirst hlast =>
    exact (congrArg₂ (Span.mk source) hfirst hlast :)

theorem require_agree {kind : Nonterminal} :
    Agree (fun _ _ => t.kind = kind) (require source context kind t)
      (require source context kind t') := by
  unfold require
  split
  · next hk => exact fun _ _ _ _ => hk
  · exact .throw _

/-- The parts of names agree if the variables do that are among them. -/
theorem parts_agree
    (h : List.Forall₂ (fun t t' => Alike v.view t t' ∧ Concur v
      Variable.mapSpans (Variable.ofTree source t) (Variable.ofTree source t'))
      ts ts') :
    Concur v Part.mapAll (partsOfTrees source context ts)
      (partsOfTrees source context ts') := by
  induction h with
  | nil => exact .pure rfl
  | @cons t t' ts ts' hd _ ih =>
    obtain ⟨ht, hvar⟩ := hd
    have tail {p q : Part} (hpq : p.mapSpans (Span.mapPoints v.left) =
          q.mapSpans (Span.mapPoints v.right)) :
        Concur v Part.mapAll (p.glue <$> partsOfTrees source context ts)
          (q.glue <$> partsOfTrees source context ts') :=
      .map ih fun ps qs hps => by
        rw [Part.mapAll_glue, Part.mapAll_glue, hpq, hps]
    cases ht with
    | @node kind first last first' last' us us' _ _ htext =>
    rw [partsOfTrees, partsOfTrees]
    dsimp only [Tree.kind, Tree.text, Tree.first, Tree.last]
    have literal {a b : List Char} (h : a = b) :
        (Part.text (String.ofList a)).mapSpans (Span.mapPoints v.left) =
          (Part.text (String.ofList b)).mapSpans (Span.mapPoints v.right) := by
      rw [h]
      rfl
    split
    · exact tail (literal (htext rfl))
    · exact tail (literal (htext rfl))
    · exact tail (literal (htext rfl))
    · rw [htext rfl]
      split
      · exact tail (literal rfl)
      · exact .throw _
    · exact .bind
        (.map hvar (s := fun p q => p.mapSpans (Span.mapPoints v.left) =
          q.mapSpans (Span.mapPoints v.right))
          fun _ _ h => congrArg Part.variable h) fun _ _ h => tail h
    · exact .throw _

/-- Names and variables agree, at any depth of variables inside each other. A
subscript is read along with its variable, which looks at the node below it. -/
theorem names_agree (t : Node) : ∀ t', Alike v.view t t' →
    Concur v Identifier.mapSpans (Identifier.ofTree source t)
      (Identifier.ofTree source t') ∧
    Concur v Variable.mapSpans (Variable.ofTree source t)
      (Variable.ofTree source t') ∧
    List.Forall₂
      (fun u u' => Concur v Identifier.mapSpans (Identifier.ofTree source u)
        (Identifier.ofTree source u')) t.children t'.children := by
  induction t using Tree.induct with
  | step kind first last children ih =>
    intro t' h
    have hspan := span_agree source h
    cases h with
    | @node _ _ _ first' last' _ children' _ _ _ hts =>
    have hchildren := (List.forall₂_and_left _ _).mpr ⟨ih, hts⟩
    refine ⟨?_, ?_, hchildren.imp fun _ _ h => (h.1 _ h.2).1⟩
    · rw [Identifier.ofTree, Identifier.ofTree]
      cases partsContext? kind with
      | none => exact .throw _
      | some context =>
        refine .bind (parts_agree (v := v)
          (hchildren.imp fun _ _ h => ⟨h.2, (h.1 _ h.2).2.1⟩))
          fun ps qs hps => ?_
        cases ps with
        | nil => exact .throw _
        | cons p ps =>
          cases qs with
          | nil => cases hps
          | cons q qs => exact .pure (congrArg₂ Identifier.mk hps hspan)
    · rw [Variable.ofTree, Variable.ofTree]
      refine .bind require_agree fun _ _ _ => ?_
      cases hchildren with
      | nil => exact .throw _
      | cons hn hmore =>
        have hname := (hn.1 _ hn.2).1
        cases hmore with
        | nil =>
          refine .bind require_agree fun _ _ _ => .bind hname fun i j hi =>
            .pure ?_
          exact congrArg₂ (Variable.mk · none ·) hi hspan
        | @cons s s' _ _ hs hmore =>
          have hsub := (hs.1 _ hs.2).2.2
          cases s with
          | node =>
          cases s' with
          | node =>
          cases hmore with
          | cons => exact .throw _
          | nil =>
            refine .bind require_agree fun _ _ _ => .bind hname fun i j hi => ?_
            refine .bind require_agree fun _ _ _ => ?_
            cases hsub with
            | nil => exact .throw _
            | cons htext hrest =>
              cases hrest with
              | cons => exact .throw _
              | nil =>
                refine .bind require_agree fun _ _ _ =>
                  .bind htext fun k l hk => .pure ?_
                rw [Variable.mapSpans, Variable.mapSpans, hi, hk]
                exact congrArg (Variable.mk _ _) hspan

theorem Identifier.agree (h : Alike v.view t t') :
    Concur v Identifier.mapSpans (Identifier.ofTree source t)
      (Identifier.ofTree source t') :=
  (names_agree t t' h).1

theorem Variable.agree (h : Alike v.view t t') :
    Concur v Variable.mapSpans (Variable.ofTree source t)
      (Variable.ofTree source t') :=
  (names_agree t t' h).2.1

theorem nameOfTree_agree (h : Alike v.view t t') :
    Concur v Identifier.mapSpans (nameOfTree source context t)
      (nameOfTree source context t') :=
  .bind require_agree fun _ _ _ => Identifier.agree h

-- ===================================================== words and lists

theorem text_eq (h : Alike v.view t t') (hk : isVerbatim t.kind = true) :
    t.text = t'.text := by
  cases h with
  | node _ _ htext => exact htext hk

theorem Literal.agree (h : Alike v.view t t') :
    Concur v Literal.mapSpans (Literal.ofTree source t)
      (Literal.ofTree source t') := by
  have hspan := span_agree source h
  refine .bind require_agree fun _ _ _ => ?_
  cases h with
  | node _ _ _ hts =>
  rcases hts with _ | @⟨raw, raw', _, _, hraw, _ | _⟩
  · exact .throw _
  · dsimp only [Tree.children]
    by_cases hk : raw.kind = .quoted ∨ raw.kind = .unquoted
    · have hverbatim : isVerbatim raw.kind = true := by
        rcases hk with hk | hk <;> rw [hk] <;> rfl
      rw [if_pos hk, if_pos (hraw.kind_eq ▸ hk), ← text_eq hraw hverbatim]
      split
      · exact .pure (congrArg (Literal.mk _) hspan)
      · exact .throw _
    · rw [if_neg hk]
      exact .throw _
  · exact .throw _

theorem Word.agree (h : Alike v.view t t') :
    Concur v Word.mapSpans (Word.ofTree source t) (Word.ofTree source t') := by
  unfold Word.ofTree
  rw [← h.kind_eq]
  split
  · exact .map (Variable.agree h) fun _ _ h => congrArg Word.variable h
  · exact .map (Identifier.agree h) fun _ _ h => congrArg Word.identifier h
  · exact .map (Identifier.agree h) fun _ _ h => congrArg Word.identifier h
  · exact .map (Literal.agree h) fun _ _ h => congrArg Word.literal h
  · exact .throw _

/-- Readings of several nodes, one by one. -/
theorem Concur.mapM {α : Type} {mapSpans : (Span → Span) → α → α}
    {read : Node → Except Error α}
    (h : List.Forall₂
      (fun t t' => Concur v mapSpans (read t) (read t')) ts ts') :
    Concur v (fun f => List.map (mapSpans f)) (ts.mapM read)
      (ts'.mapM read) := by
  induction h with
  | nil => exact .pure rfl
  | cons ht _ ih =>
    rw [List.mapM_cons, List.mapM_cons]
    exact .bind ht fun _ _ ha => .bind ih fun _ _ has =>
      .pure (congrArg₂ List.cons ha has)

theorem WordList.agree (h : Alike v.view t t') :
    Concur v WordList.mapSpans (WordList.ofTree source t)
      (WordList.ofTree source t') := by
  have hspan := span_agree source h
  refine .bind require_agree fun _ _ _ => ?_
  cases h with
  | node _ _ _ hts =>
  exact .bind (Concur.mapM (hts.imp fun _ _ => Word.agree)) fun _ _ hxs =>
    .pure (congrArg₂ WordList.mk hxs hspan)

/-- A list that may have been left out. -/
theorem WordList.ofTrees_agree {absent absent' span span' : Span}
    (h : absent.mapPoints v.left = absent'.mapPoints v.right)
    (hts : List.Forall₂ (Alike v.view) ts ts') :
    Concur v WordList.mapSpans (WordList.ofTrees source context absent span ts)
      (WordList.ofTrees source context absent' span' ts') := by
  rcases hts with _ | ⟨ht, _ | _⟩
  · exact .pure (congrArg (WordList.mk []) h)
  · exact .bind require_agree fun _ _ _ => WordList.agree ht
  · exact .throw _

-- ========================================================== conditions

theorem Condition.agree (t : Node) :
    ∀ t', Alike v.view t t' → Concur v Condition.mapSpans
      (Condition.ofTree source t) (Condition.ofTree source t') := by
  induction t using Tree.induct with
  | step kind first last children ih =>
    intro t' h
    cases h with
    | @node _ _ _ first' last' _ children' _ _ _ hts =>
    have connective {join : List Condition → Condition} (hjoin : ∀ f cs,
        (join cs).mapSpans f = join (cs.map (Condition.mapSpans f))) :
        Concur v Condition.mapSpans
        (Condition.joined join <$> conditionsOfTrees source children)
        (Condition.joined join <$> conditionsOfTrees source children') := by
      rw [conditionsOfTrees_eq_mapM, conditionsOfTrees_eq_mapM]
      have hall := (List.forall₂_and_left _ _).mpr ⟨ih, hts⟩
      refine .map (Concur.mapM (hall.imp fun _ _ h => h.1 _ h.2))
        fun cs ds h => ?_
      rw [mapSpans_joined _ (hjoin _), mapSpans_joined _ (hjoin _)]
      exact congrArg _ h
    unfold Condition.ofTree
    split
    · exact connective fun f cs => congrArg Condition.or (mapAll_eq f cs)
    · exact connective fun f cs => congrArg Condition.and (mapAll_eq f cs)
    · -- a negation
      rcases hts with _ | ⟨hinner, _ | _⟩
      · exact .throw _
      · exact .bind (ih _ (by simp) _ hinner) fun _ _ h =>
          .pure (congrArg Condition.not h)
      · exact .throw _
    · -- tests
      rcases hts with _ | ⟨hword, _ | _⟩
      · exact .throw _
      · exact .bind (Word.agree hword) fun _ _ h =>
          .pure (congrArg Condition.truth h)
      · exact .throw _
    · rcases hts with _ | ⟨hleft, _ | ⟨hmark, _ | ⟨hright, _ | _⟩⟩⟩
      · exact .throw _
      · exact .throw _
      · exact .throw _
      · refine .bind (Word.agree hleft) fun _ _ hl =>
          .bind require_agree fun _ _ hk => ?_
        rw [← text_eq hmark (hk ▸ rfl)]
        split
        · refine .bind (Word.agree hright) fun _ _ hr => .pure ?_
          rw [Condition.mapSpans, Condition.mapSpans, hl, hr]
        · exact .throw _
      · exact .throw _
    · rcases hts with _ | ⟨helement, _ | ⟨hlist, _ | _⟩⟩
      · exact .throw _
      · exact .throw _
      · refine .bind (Word.agree helement) fun _ _ he =>
          .bind require_agree fun _ _ _ => ?_
        exact .bind (WordList.agree hlist) fun _ _ h =>
          .pure (congrArg₂ Condition.member he h)
      · exact .throw _
    · exact .throw _

-- ========================================================== statements

theorem argumentOfTree_agree (h : Alike v.view t t') :
    Concur v WordList.mapSpans (argumentOfTree source t)
      (argumentOfTree source t') := by
  have hspan := span_agree source h
  cases h with
  | node _ _ _ hts =>
    exact .bind require_agree fun _ _ _ => WordList.ofTrees_agree hspan hts

theorem parametersOfTree_agree (h : Alike v.view t t') :
    Concur v (fun f => List.map (Identifier.mapSpans f))
      (parametersOfTree source t) (parametersOfTree source t') := by
  cases h with
  | node _ _ _ hts =>
  exact .bind require_agree fun _ _ _ =>
    Concur.mapM (hts.imp fun _ _ => nameOfTree_agree)

/-- A span at one point. -/
theorem ofPoint_agree (source : String) {p p' : Point}
    (h : v.left p = v.right p') :
    (Span.ofPoint source p).mapPoints v.left =
      (Span.ofPoint source p').mapPoints v.right :=
  congrArg₂ (Span.mk source) h h

theorem simpleOfTree_agree (source : String) (h : Alike v.view t t') :
    Concur v Statement.mapSpans (simpleOfTree source t)
      (simpleOfTree source t') := by
  have hspan := span_agree source h
  cases h with
  | @node kind first last first' last' children children' _ hlast _ hts =>
  have habsent := ofPoint_agree source hlast
  unfold simpleOfTree
  dsimp only [Tree.kind]
  split
  · exact .bind (WordList.ofTrees_agree habsent hts) fun _ _ h =>
      .pure (congrArg₂ Statement.returnWith h hspan)
  · exact .pure (congrArg Statement.breakLoop hspan)
  · exact .pure (congrArg Statement.continueLoop hspan)
  · rcases hts with _ | ⟨hnames, _ | ⟨hvalue, _ | _⟩⟩
    · exact .throw _
    · refine .bind require_agree fun _ _ _ =>
        .bind (WordList.agree hnames) fun _ _ h => .pure ?_
      exact congrArg₂ (Statement.localBinding · none ·) h hspan
    · refine .bind require_agree fun _ _ _ =>
        .bind (WordList.agree hnames) fun _ _ hn => ?_
      refine .bind require_agree fun _ _ _ => ?_
      cases hvalue with
      | node _ hlast _ hts =>
      refine .bind (WordList.ofTrees_agree (ofPoint_agree source hlast) hts)
        fun _ _ hv => .pure ?_
      rw [Statement.mapSpans, Statement.mapSpans, hn, Option.map_some,
        Option.map_some, hv]
      exact congrArg _ hspan
    · exact .throw _
  · rcases hts with _ | ⟨hname, _ | ⟨hmark, hvalue⟩⟩
    · exact .throw _
    · exact .throw _
    · refine .bind (nameOfTree_agree hname) fun _ _ hn =>
        .bind require_agree fun _ _ hk => ?_
      rw [← text_eq hmark (hk ▸ rfl)]
      split
      · refine .bind (WordList.ofTrees_agree habsent hvalue) fun _ _ hv =>
          .pure ?_
        rw [Statement.mapSpans, Statement.mapSpans, hn, hv]
        exact congrArg _ hspan
      · exact .throw _
  · rcases hts with _ | ⟨hname, hmore⟩
    · exact .throw _
    · refine .bind (nameOfTree_agree hname) fun _ _ hn => ?_
      refine .bind (Concur.mapM (hmore.imp fun _ _ => argumentOfTree_agree))
        fun _ _ ha => .pure ?_
      dsimp only at ha
      rw [Statement.mapSpans, Statement.mapSpans, hn, ha]
      exact congrArg _ hspan
  · exact .throw _

/-- Definitions are the same up to spans if their parts are. -/
theorem Statement.mapSpans_definition {f g : Span → Span}
    {name name' : Identifier} {parameters parameters' : List Identifier}
    {body body' : Block} {span span' : Span}
    (hname : name.mapSpans f = name'.mapSpans g)
    (hparameters : parameters.map (Identifier.mapSpans f) =
      parameters'.map (Identifier.mapSpans g))
    (hbody : body.mapSpans f = body'.mapSpans g) (hspan : f span = g span') :
    (Statement.definition ⟨name, parameters, body, span⟩).mapSpans f =
      (Statement.definition ⟨name', parameters', body', span'⟩).mapSpans g := by
  rw [Statement.mapSpans, Statement.mapSpans, RuleDefinition.mapSpans,
    RuleDefinition.mapSpans, hname, hparameters, hbody, hspan]

/-- Statements and blocks agree, at any depth of statements inside each
other. -/
theorem statements_agree (t : Node) : ∀ t', Alike v.view t t' →
    Concur v Statement.mapSpans (Statement.ofTree source t)
      (Statement.ofTree source t') ∧
      ∀ context, Concur v Block.mapSpans (Block.ofTree source context t)
        (Block.ofTree source context t') := by
  induction t using Tree.induct with
  | step kind first last children ih =>
    intro t' h
    have hspan := span_agree source h
    have hsimple := simpleOfTree_agree source h
    cases h with
    | @node _ _ _ first' last' _ children' _ _ _ hts =>
    have hall := (List.forall₂_and_left _ _).mpr ⟨ih, hts⟩
    have hinner : Concur v Statement.mapAll (statementsOfTrees source children)
        (statementsOfTrees source children') := by
      rw [statementsOfTrees_eq_mapM, statementsOfTrees_eq_mapM]
      intro ss ss' hs hs'
      rw [Statement.mapAll_eq, Statement.mapAll_eq]
      exact Concur.mapM (hall.imp fun _ _ h => (h.1 _ h.2).1) ss ss' hs hs'
    refine ⟨?_, fun context => ?_⟩
    · unfold Statement.ofTree
      split
      · exact .bind hinner fun _ _ h =>
          .pure (congrArg Statement.block (congrArg₂ Block.mk h hspan))
      · rcases hall with _ | ⟨hcondition, _ | ⟨hyes, _ | ⟨hno, _ | _⟩⟩⟩
        · exact .throw _
        · exact .throw _
        · refine .bind (Condition.agree _ _ hcondition.2) fun _ _ hc => ?_
          refine .bind ((hyes.1 _ hyes.2).2 _) fun _ _ hy => .pure ?_
          rw [Statement.mapSpans, Statement.mapSpans, hc, hy]
          exact congrArg _ hspan
        · refine .bind (Condition.agree _ _ hcondition.2) fun _ _ hc => ?_
          refine .bind ((hyes.1 _ hyes.2).2 _) fun _ _ hy => ?_
          rw [← hno.2.kind_eq]
          split
          · refine .bind (hno.1 _ hno.2).1 fun _ _ hn => .pure ?_
            rw [Statement.mapSpans, Statement.mapSpans, hc, hy, hn]
            exact congrArg _ hspan
          · exact .throw _
        · exact .throw _
      · rcases hall with _ | ⟨hname, _ | ⟨hvalues, _ | ⟨hbody, _ | _⟩⟩⟩
        · exact .throw _
        · exact .throw _
        · exact .throw _
        · refine .bind (nameOfTree_agree hname.2) fun _ _ hn =>
            .bind require_agree fun _ _ _ => ?_
          refine .bind (WordList.agree hvalues.2) fun _ _ hv => ?_
          refine .bind ((hbody.1 _ hbody.2).2 _) fun _ _ hb => .pure ?_
          rw [Statement.mapSpans, Statement.mapSpans, hn, hv, hb]
          exact congrArg _ hspan
        · exact .throw _
      · rcases hall with _ | ⟨hcondition, _ | ⟨hbody, _ | _⟩⟩
        · exact .throw _
        · exact .throw _
        · refine .bind (Condition.agree _ _ hcondition.2) fun _ _ hc => ?_
          refine .bind ((hbody.1 _ hbody.2).2 _) fun _ _ hb => .pure ?_
          rw [Statement.mapSpans, Statement.mapSpans, hc, hb]
          exact congrArg _ hspan
        · exact .throw _
      · rcases hall with _ | ⟨hname, _ | ⟨h₁, _ | ⟨h₂, _ | _⟩⟩⟩
        · exact .throw _
        · exact .throw _
        · refine .bind (nameOfTree_agree hname.2) fun _ _ hn => ?_
          exact .bind ((h₁.1 _ h₁.2).2 _) fun _ _ hb =>
            .pure (Statement.mapSpans_definition hn rfl hb hspan)
        · refine .bind (nameOfTree_agree hname.2) fun _ _ hn => ?_
          refine .bind (parametersOfTree_agree h₁.2) fun _ _ hp => ?_
          exact .bind ((h₂.1 _ h₂.2).2 _) fun _ _ hb =>
            .pure (Statement.mapSpans_definition hn hp hb hspan)
        · exact .throw _
      · exact hsimple
    · rw [Block.ofTree, Block.ofTree]
      exact .bind require_agree fun _ _ _ => .bind hinner fun _ _ h =>
        .pure (congrArg₂ Block.mk h hspan)

-- ========================================================= whole texts

theorem Program.agree (h : Alike v.view t t') :
    Concur v Program.mapSpans (Program.ofTree source t)
      (Program.ofTree source t') := by
  have hspan := span_agree source h
  cases h with
  | node _ _ _ hts =>
  refine .bind require_agree fun _ _ _ => ?_
  have hfilter := List.rel_filter (R := Alike v.view)
    (p := (·.kind ≠ .endOfInput)) (q := (·.kind ≠ .endOfInput))
    (fun _ _ h => by beta_reduce; rw [h.kind_eq]) hts
  rw [statementsOfTrees_eq_mapM, statementsOfTrees_eq_mapM]
  exact .bind
    (Concur.mapM (hfilter.imp fun _ _ h => (statements_agree _ _ h).1))
    fun _ _ hs => .pure (congrArg₂ Program.mk hs hspan)

end Readings
end Jam
