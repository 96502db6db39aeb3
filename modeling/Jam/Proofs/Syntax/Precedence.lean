/-
Conditions are read with the precedence they are written with.

A negation binds tighter than a conjunction, and a conjunction tighter
than a disjunction. So a condition is written with parentheses around the
operands of a negation and the terms of a conjunction that have terms
themselves, and around the disjunctions among the terms of a disjunction
(`Condition.tokens`). What is read from this, as the condition of a
choice, is the same condition (`choice_parses`): nothing is flattened, and
nothing is put in another order.

The grammar has a nonterminal for each of the three levels, and a
condition with enough parentheses is read on each of them (`Levels`). From
one level to the next a condition is a single term (`ReadsCondition.term`),
and from the lowest back to the highest it needs parentheses
(`ReadsCondition.enclosed`). Each level is read up to a mark that the
level does not take itself, so terms can be strung together
(`reads_terms`).
-/
import Jam.Proofs.Grammar.Following
import Jam.Proofs.Grammar.Shapes
import Jam.Proofs.Syntax.Division
import Jam.Proofs.Syntax.MapSpans
import Jam.Proofs.Syntax.Written

namespace Jam

open Nonterminal (nt)

-- =============================================== conditions over names

/-- A word of letters and digits. -/
inductive Word.IsAlnum : Word → Prop
  | name {text span} : text ≠ "" → (∀ c ∈ text.toList, isAlnum c = true) →
      IsAlnum (.identifier ⟨[.text text], span⟩)

/-- Conditions over words of letters and digits, with at least two terms to each
connective. A list has a word in it, as every list that can be written. -/
inductive Condition.IsAlnum : Condition → Prop
  | truth {word} : word.IsAlnum → IsAlnum (.truth word)
  | compare {left op right} :
      left.IsAlnum → right.IsAlnum → IsAlnum (.compare left op right)
  | member {element list} : element.IsAlnum → list.items ≠ [] →
      (∀ word ∈ list.items, word.IsAlnum) → IsAlnum (.member element list)
  | not {condition} : condition.IsAlnum → IsAlnum (.not condition)
  | and {terms} :
      2 ≤ terms.length → (∀ c ∈ terms, c.IsAlnum) → IsAlnum (.and terms)
  | or {terms} :
      2 ≤ terms.length → (∀ c ∈ terms, c.IsAlnum) → IsAlnum (.or terms)

-- ========================================== how conditions are written

/-- A word as it is written. -/
def Word.token : Word → String
  | .literal l => l.text
  | .identifier i => i.display
  | .variable v => v.display

namespace Condition

def isOr : Condition → Bool
  | .or _ => true
  | _ => false

/-- A conjunction or a disjunction. -/
def hasTerms : Condition → Bool
  | .and _ | .or _ => true
  | _ => false

/-- Tokens, in parentheses or not. -/
def parenthesized (inside : Bool) (tokens : List String) : List String :=
  if inside then "(" :: (tokens ++ [")"]) else tokens

mutual

/-- A condition as it is written, token by token. -/
def tokens : Condition → List String
  | .truth word => [word.token]
  | .compare left op right => [left.token, op.mark, right.token]
  | .member element list => element.token :: "in" :: list.items.map Word.token
  | .not condition => "!" :: parenthesized condition.hasTerms condition.tokens
  | .and terms => ["&&"].intercalate (termTokens hasTerms terms)
  | .or terms => ["||"].intercalate (termTokens isOr terms)
termination_by structural c => c

/-- The tokens of each term, with parentheses around some of the terms. -/
def termTokens (enclosed : Condition → Bool) :
    List Condition → List (List String)
  | [] => []
  | c :: cs => parenthesized (enclosed c) c.tokens :: termTokens enclosed cs
termination_by structural cs => cs

end

theorem termTokens_eq_map (enclosed : Condition → Bool) (cs : List Condition) :
    termTokens enclosed cs = cs.map fun c =>
      parenthesized (enclosed c) c.tokens := by
  induction cs with
  | nil => rfl
  | cons c cs ih => rw [termTokens, ih, List.map_cons]

end Condition

-- =============================================== phrases of conditions

section Readings

variable {source : String} {c d : Cursor} {t : Node} {ts : List Node} {w : Word}

theorem Condition.ofTree_truth (h : Word.ofTree source t = .ok w) :
    Condition.ofTree source (.node .truth c d [t]) = .ok (.truth w) := by
  unfold Condition.ofTree
  dsimp only
  rw [h]
  rfl

theorem Condition.ofTree_compare {t' : Node} {w' : Word} {op : CompareOp}
    {c' d' : Cursor} (h : Word.ofTree source t = .ok w)
    (hop : c'.Takes op.mark.toList d') (h' : Word.ofTree source t' = .ok w') :
    Condition.ofTree source
      (.node .comparison c d [t, .node .compareOp c' d' [], t']) =
      .ok (.compare w op w') := by
  have htext : (Tree.node Nonterminal.compareOp c' d' ([] : List Node)).text =
      op.mark.toList :=
    hop.upTo_eq
  have hmark : CompareOp.ofMark? (String.ofList op.mark.toList) = some op := by
    cases op <;> decide
  unfold Condition.ofTree
  dsimp only
  rw [h, require_node, htext, hmark, h']
  rfl

theorem Condition.ofTree_member {t' : Node} {l : WordList}
    (h : Word.ofTree source t = .ok w) (hk : t'.kind = .list)
    (h' : WordList.ofTree source t' = .ok l) :
    Condition.ofTree source (.node .membership c d [t, t']) =
      .ok (.member w l) := by
  unfold Condition.ofTree
  dsimp only
  rw [h, require_eq hk, h']
  rfl

theorem Condition.ofTree_not {a : Condition}
    (h : Condition.ofTree source t = .ok a) :
    Condition.ofTree source (.node .negated c d [t]) = .ok (.not a) := by
  unfold Condition.ofTree
  dsimp only
  rw [h]
  rfl

end Readings

-- ====================================================== tokens as text

/-- Tokens, each with a blank before it. -/
def spaced (tokens : List String) : List Char :=
  tokens.flatMap fun token => ' ' :: token.toList

theorem spaced_cons (token : String) (tokens : List String) (r : List Char) :
    spaced (token :: tokens) ++ r =
      ' ' :: (token.toList ++ (spaced tokens ++ r)) := by
  rw [spaced, List.flatMap_cons, List.append_assoc]
  rfl

theorem spaced_eq :
    spaced tokens = (tokens.map String.toList).flatMap (' ' :: ·) :=
  (List.flatMap_map ..).symm

/-- Tokens with single blanks between them. -/
theorem toList_intercalate (token : String) (tokens : List String) :
    (" ".intercalate (token :: tokens)).toList =
      token.toList ++ spaced tokens := by
  rw [String.toList_intercalate, List.map_cons, spaced_eq]
  exact intercalate_cons ..

theorem spaced_append (tokens tokens' : List String) (r : List Char) :
    spaced (tokens ++ tokens') ++ r =
      spaced tokens ++ (spaced tokens' ++ r) := by
  rw [spaced, List.flatMap_append, List.append_assoc]
  rfl

-- =============================================== phrases that are read

variable {source : String} {e : Peg Nonterminal} {ends ends' : List String}
  {tokens : List String} {a : Condition}

/-- Behind blanks these tokens are read as the condition, up to places, if one
of these marks follows. -/
def ReadsCondition (source : String) (e : Peg Nonterminal)
    (ends tokens : List String) (a : Condition) : Prop :=
  ∀ r p, MarkFollows ends r → ∃ q t b,
    Derives grammar .plain (nt .blanks ++ e)
      ⟨spaced tokens ++ r, p⟩ ⟨r, q⟩ [t] ∧
      Condition.ofTree source t = .ok b ∧ b.unspanned = a.unspanned

-- ======================================================== single tests

theorem Word.IsAlnum.readsWord {w : Word} (h : w.IsAlnum) :
    ReadsWord source w.token.toList fun word =>
      word.unspanned = w.unspanned := by
  cases h with
  | @name text span hne hall =>
    have htoken : Word.token (.identifier ⟨[.text text], span⟩) = text :=
      String.append_empty
    rw [htoken]
    refine (readsWord_alnum (mt String.toList_eq_nil_iff.mp hne) hall).mono ?_
    rintro _ ⟨span', rfl⟩
    rw [String.ofList_toList]
    rfl

/-- Words of letters and digits begin with neither of the marks that may begin a
condition. -/
theorem Word.IsAlnum.begins {w : Word} (h : w.IsAlnum) :
    ∃ x v, w.token.toList = x :: v ∧ isInner x = true ∧ x ≠ '!' ∧ x ≠ '(' := by
  cases h with
  | @name text span hne hall =>
    have htoken : Word.token (.identifier ⟨[.text text], span⟩) = text :=
      String.append_empty
    rw [htoken]
    obtain ⟨x, v, hx⟩ :=
      List.exists_cons_of_ne_nil (mt String.toList_eq_nil_iff.mp hne)
    have hxa := hall x (by rw [hx]; exact List.mem_cons_self)
    refine ⟨x, v, hx, isInner_of_isAlnum hxa, ?_, ?_⟩
    · rintro rfl
      cases hxa
    · rintro rfl
      cases hxa

/-- A test that begins with a word is a condition of the lowest level. -/
theorem derives_negation_of_test {x : Char} {u : List Char} {p : Point}
    {d : Cursor} {ts : List Node} (hx : x ≠ '!' ∧ x ≠ '(')
    (h : Derives grammar .plain
      (nt .membership <|> nt .comparison <|> nt .truth) ⟨x :: u, p⟩ d ts) :
    Derives grammar .plain (nt .negation) ⟨x :: u, p⟩ d ts := by
  have hnegated : grammar.found .plain (nt .negated) ⟨x :: u, p⟩ = none :=
    found_none_of_keyword rfl hx.1
  have hparen : grammar.found .plain (Peg.lit "(" ++ nt .blanks ++
      nt .disjunction ++ nt .blanks ++ Peg.lit ")") ⟨x :: u, p⟩ = none :=
    found_none_of_leftmost (found_sign.trans (if_neg hx.2))
  exact .silent rfl (.right hnegated (.silent rfl (.right hparen h)))

/-- A word is no membership and no comparison if what follows it is not the sign
of one. -/
theorem found_none_without_sign {test : Nonterminal}
    {sign operand : Peg Nonterminal} {c d : Cursor} {ts : List Node}
    (htest : Nonterminal.retention test = .branch)
    (hbody : Nonterminal.body test =
      nt .word ++ nt .blanks ++ sign ++ nt .blanks ++ operand)
    (hword : Derives grammar .plain (nt .word) c d ts)
    (h : grammar.found .plain (nt .blanks ++ sign) d = none) :
    grammar.found .plain (nt test) c = none := by
  have hkept : grammar.retention test ≠ .silent ∧
      grammar.retention test ≠ .leaf := by
    rw [show grammar.retention test = .branch from htest]
    decide
  rw [nt, Grammar.found_call grammar .plain _ hkept.1,
    Grammar.bodyMode_plain hkept.2,
    Option.map_eq_none_iff, show grammar.body test = _ from hbody]
  exact found_none_of_front (found_none_of_front (found_none_behind₂ hword h))

/-- What begins with a word is read as a condition of the lowest level if it is
read as a test. -/
theorem reads_test {w : Word} (hw : w.IsAlnum)
    (h : ∀ r p, MarkFollows testEnds r → ∃ q t b,
      Derives grammar .plain (nt .membership <|> nt .comparison <|> nt .truth)
        ⟨w.token.toList ++ (spaced tokens ++ r), p⟩ ⟨r, q⟩ [t] ∧
        Condition.ofTree source t = .ok b ∧ b.unspanned = a.unspanned) :
    ReadsCondition source (nt .negation) testEnds (w.token :: tokens) a := by
  intro r p hr
  rw [spaced_cons]
  obtain ⟨x, v, hx, hin, hne⟩ := hw.begins
  rw [hx] at h ⊢
  obtain ⟨q₁, hblank⟩ :=
    derives_blank (m := .plain) (u := v ++ (spaced tokens ++ r)) hin p
  obtain ⟨q₂, t, b, hd, hread, heq⟩ := h r q₁ hr
  exact ⟨q₂, t, b, .seq hblank (derives_negation_of_test hne hd), hread, heq⟩

theorem reads_truth {w : Word} (hw : w.IsAlnum) :
    ReadsCondition source (nt .negation) testEnds [w.token] (.truth w) := by
  refine reads_test hw fun r p hr => ?_
  obtain ⟨q, t, word, hword, hread, heq⟩ :=
    hw.readsWord.reads r p (bounded_of_markFollows hr)
  have hin : grammar.found .plain (nt .blanks ++ Peg.lit "in") ⟨r, q⟩ = none :=
    hr.found_lit_none (fun _ => id) (by decide) (by decide) q
  have hnode :
      Derives grammar .plain (nt .truth) ⟨w.token.toList ++ r, p⟩ ⟨r, q⟩ _ :=
    .node (by decide) rfl hword
  exact ⟨q, _, _, .right (found_none_without_sign rfl rfl hword hin) <| .right
    (found_none_without_sign rfl rfl hword (hr.found_compareOp_none q)) hnode,
    Condition.ofTree_truth hread, congrArg Condition.truth heq⟩

theorem CompareOp.mark_begins (op : CompareOp) :
    ∃ x v, op.mark.toList = x :: v ∧ isInner x = true ∧ x ≠ 'i' := by
  cases op <;> exact ⟨_, _, rfl, rfl, by decide⟩

/-- The mark of a comparison is read behind a blank. -/
theorem derives_compareOp (op : CompareOp) (u : List Char) (p : Point) :
    ∃ q, Derives grammar .plain (nt .blanks ++ nt .compareOp)
      ⟨' ' :: (op.mark.toList ++ ' ' :: u), p⟩
        ⟨' ' :: u, q.afterAll op.mark.toList⟩
      [.node .compareOp ⟨op.mark.toList ++ ' ' :: u, q⟩
        ⟨' ' :: u, q.afterAll op.mark.toList⟩ []] := by
  obtain ⟨x, v, hx, hin, -⟩ := op.mark_begins
  obtain ⟨q, hblank⟩ :=
    derives_blank_before (m := .plain) (u := ' ' :: u) ⟨x, v, hx, hin⟩ p
  have hmark {m : Mode} : grammar.found m (Nonterminal.body .compareOp)
      ⟨op.mark.toList ++ ' ' :: u, q⟩ =
      some ⟨⟨' ' :: u, q.afterAll op.mark.toList⟩, []⟩ := by
    change grammar.found m (.alt (.chars ['!', '='])
      (.alt (.chars ['<', '=']) (.alt (.chars ['>', '='])
        (.alt (.chars ['=']) (.alt (.chars ['<']) (.chars ['>'])))))) _ = _
    simp only [Grammar.found_alt, Grammar.found_chars]
    cases op <;> rfl
  exact ⟨q, .seq hblank (.node (by decide) rfl (derives_iff.mpr hmark))⟩

/-- The mark of a comparison is not the sign of a membership. -/
theorem found_in_none (op : CompareOp) (u : List Char) (p : Point) :
    grammar.found .plain (nt .blanks ++ Peg.lit "in")
      ⟨' ' :: (op.mark.toList ++ u), p⟩ = none := by
  obtain ⟨x, v, hx, hin, hne⟩ := op.mark_begins
  obtain ⟨q, hblank⟩ :=
    derives_blank_before (m := .plain) (u := u) ⟨x, v, hx, hin⟩ p
  refine found_none_behind hblank (found_lit_none ?_)
  rintro ⟨us, hus⟩
  rw [hx] at hus
  exact hne (List.cons.inj hus).1.symm

theorem reads_compare {w w' : Word} (op : CompareOp) (hw : w.IsAlnum)
    (hw' : w'.IsAlnum) :
    ReadsCondition source (nt .negation) testEnds [w.token, op.mark, w'.token]
      (.compare w op w') := by
  refine reads_test hw fun r p hr => ?_
  rw [spaced_cons, spaced_cons]
  change ∃ q t b, Derives grammar .plain _ ⟨w.token.toList ++
    ' ' :: (op.mark.toList ++ ' ' :: (w'.token.toList ++ r)), p⟩ _ _ ∧ _
  have hleft : ReadsWord source w.token.toList _ := hw.readsWord
  have hright : ReadsWord source w'.token.toList _ := hw'.readsWord
  obtain ⟨q₁, t, word, hword, hread, heq⟩ := hleft.reads
    (' ' :: (op.mark.toList ++ ' ' :: (w'.token.toList ++ r))) p rfl
  obtain ⟨q₂, hop⟩ := derives_compareOp op (w'.token.toList ++ r) q₁
  obtain ⟨q₃, hblank⟩ :=
    derives_blank_before (m := .plain) (u := r) hright.begins
    (q₂.afterAll op.mark.toList)
  obtain ⟨q₄, t', word', hword', hread', heq'⟩ :=
    hright.reads r q₃ (bounded_of_markFollows hr)
  have hnode : Derives grammar .plain (nt .comparison) _ ⟨r, q₄⟩ _ :=
    .node (by decide) rfl
      (.seq (.seq (derives_behind₂ hword hop) hblank) hword')
  exact ⟨q₄, _, _,
    .right (found_none_without_sign rfl rfl hword (found_in_none op _ q₁))
    (.left hnode), Condition.ofTree_compare hread ⟨rfl, rfl⟩ hread',
    congrArg₂ (Condition.compare · op ·) heq heq'⟩

theorem reads_member {w : Word} {l : WordList} (hw : w.IsAlnum)
    (hne : l.items ≠ []) (hl : ∀ word ∈ l.items, word.IsAlnum) :
    ReadsCondition source (nt .negation) testEnds
      (w.token :: "in" :: l.items.map Word.token) (.member w l) := by
  obtain ⟨first, more, hitems⟩ := List.exists_cons_of_ne_nil hne
  rw [hitems] at hl ⊢
  obtain ⟨hfirst, hmore⟩ := List.forall_mem_cons.mp hl
  refine reads_test hw fun r p hr => ?_
  rw [spaced_cons, List.map_cons, spaced_cons, spaced_eq, List.map_map]
  have hreads : List.Forall₂
      (fun v word => ReadsWord source v (·.unspanned = word.unspanned))
      (more.map (String.toList ∘ Word.token)) more := by
    rw [List.forall₂_map_left_iff, List.forall₂_same]
    exact fun word hword => (hmore word hword).readsWord
  generalize more.map (String.toList ∘ Word.token) = ws at hreads ⊢
  change ∃ q t b,
    Derives grammar .plain _ ⟨w.token.toList ++ ' ' :: ("in".toList ++ ' ' ::
      (first.token.toList ++ (ws.flatMap (' ' :: ·) ++ r))), p⟩ _ _ ∧ _
  have hleft : ReadsWord source w.token.toList _ := hw.readsWord
  have hfirst : ReadsWord source first.token.toList _ := hfirst.readsWord
  obtain ⟨q₁, t, word, hword, hread, heq⟩ := hleft.reads (' ' :: ("in".toList ++
    ' ' :: (first.token.toList ++ (ws.flatMap (' ' :: ·) ++ r)))) p rfl
  obtain ⟨q₂, hin⟩ := derives_mark "in" ⟨'i', ['n'], rfl, rfl⟩
    (' ' :: (first.token.toList ++ (ws.flatMap (' ' :: ·) ++ r))) q₁
  obtain ⟨q₃, hblank⟩ :=
    derives_blank_before (m := .plain) (u := ws.flatMap (' ' :: ·) ++ r)
    hfirst.begins q₂
  obtain ⟨q₄, t', l', hlist, hkind, hread', hwords⟩ := readsList
    (R := fun b word : Word => b.unspanned = word.unspanned) hfirst hreads
    (bounded_of_markFollows hr) hr.found_word_none q₃
  have hnode : Derives grammar .plain (nt .membership) _ ⟨r, q₄⟩ _ :=
    .node (by decide) rfl (.seq (.seq (derives_behind₂ hword hin) hblank) hlist)
  refine ⟨q₄, _, _, .left hnode, Condition.ofTree_member hread hkind hread', ?_⟩
  have hmap : l'.items.map Word.unspanned = l.items.map Word.unspanned := by
    rwa [← List.forall₂_map_right_iff, ← List.forall₂_map_left_iff,
      List.forall₂_eq_eq_eq, ← hitems] at hwords
  exact congrArg₂ Condition.member heq (congrArg (WordList.mk · .nowhere) hmap)

-- =========================================== negations and parentheses

theorem ReadsCondition.mono (h : ReadsCondition source e ends' tokens a)
    (hends : ∀ mark ∈ ends, mark ∈ ends') :
    ReadsCondition source e ends tokens a :=
  fun r p hr => h r p (hr.mono hends)

theorem reads_not (h : ReadsCondition source (nt .negation) testEnds tokens a) :
    ReadsCondition source (nt .negation) testEnds ("!" :: tokens) (.not a) := by
  intro r p hr
  rw [spaced_cons]
  obtain ⟨q₁, hblank⟩ := derives_blank (m := .plain) (u := spaced tokens ++ r)
    (by decide : isInner '!' = true) p
  obtain ⟨q₂, t, b, hd, hread, heq⟩ := h r (q₁.after '!') hr
  have hmark : Derives grammar .plain (Peg.lit "!")
      ⟨'!' :: (spaced tokens ++ r), q₁⟩ _ [] :=
    derives_sign rfl rfl
  have hnode : Derives grammar .plain (nt .negated) _ ⟨r, q₂⟩ _ :=
    .node (by decide) rfl (derives_behind₂ hmark hd)
  exact ⟨q₂, _, _, .seq hblank (.silent rfl (.left hnode)),
    Condition.ofTree_not hread, congrArg Condition.not heq⟩

/-- In parentheses a condition of the highest level is one of the lowest. -/
theorem ReadsCondition.enclosed
    (h : ReadsCondition source (nt .disjunction) [")"] tokens a) :
    ReadsCondition source (nt .negation) testEnds
      ("(" :: (tokens ++ [")"])) a := by
  intro r p hr
  rw [spaced_cons, spaced_append]
  have hclose : MarkFollows [")"] (' ' :: ')' :: r) :=
    ⟨")", List.mem_singleton_self _, r, rfl, bounded_of_markFollows hr⟩
  obtain ⟨q₁, hblank⟩ :=
    derives_blank (m := .plain) (u := spaced tokens ++ ' ' :: ')' :: r)
    (by decide : isInner '(' = true) p
  obtain ⟨q₂, t, b, hd, hread, heq⟩ := h _ (q₁.after '(') hclose
  obtain ⟨q₃, hend⟩ := derives_mark ")" ⟨')', [], rfl, rfl⟩ r q₂
  have hopen : Derives grammar .plain (Peg.lit "(")
      ⟨'(' :: (spaced tokens ++ ' ' :: ')' :: r), q₁⟩ _ [] :=
    derives_sign rfl rfl
  have hnegated : grammar.found .plain (nt .negated)
      ⟨'(' :: (spaced tokens ++ ' ' :: ')' :: r), q₁⟩ = none :=
    found_none_of_keyword rfl (by decide)
  have hprimary : Derives grammar .plain (nt .primary)
      ⟨'(' :: (spaced tokens ++ ' ' :: ')' :: r), q₁⟩ ⟨r, q₃⟩ _ :=
    .silent rfl (.left (derives_behind₂ (derives_behind₂ hopen hd) hend))
  exact ⟨q₃, t, b, .seq hblank (.silent rfl (.right hnegated hprimary)),
    hread, heq⟩

-- ========================================================= connectives

/-- Conditions of one level, joined to a condition of the next by a mark. -/
structure Connective where
  whole : Nonterminal
  term : Nonterminal
  mark : String
  /-- What a whole may be followed by. -/
  ends : List String
  join : List Condition → Condition
  body_eq : Nonterminal.body whole = nt term ++ Nonterminal.further mark term
  branch : Nonterminal.retention whole = .branch
  ofTree_eq : ∀ source c d ts, Condition.ofTree source (.node whole c d ts) =
    Condition.joined join <$> conditionsOfTrees source ts
  mark_mem : mark ∈ testEnds
  ends_subset : ∀ e ∈ ends, e ∈ testEnds
  stops : ∀ e ∈ ends, mark.toList.head? ≠ e.toList.head?
  join_mapSpans : ∀ f cs,
    (join cs).mapSpans f = join (cs.map (Condition.mapSpans f))

/-- Negations joined by `&&`. -/
def conjunctive : Connective where
  whole := .conjunction
  term := .negation
  mark := "&&"
  ends := [")", "\x7b", "||"]
  join := .and
  body_eq := rfl
  branch := rfl
  ofTree_eq source c d ts := by
    unfold Condition.ofTree
    cases conditionsOfTrees source ts <;> rfl
  mark_mem := by decide
  ends_subset := by decide
  stops := by decide
  join_mapSpans f cs := congrArg Condition.and (Condition.mapAll_eq f cs)

/-- Conjunctions joined by `||`. -/
def disjunctive : Connective where
  whole := .disjunction
  term := .conjunction
  mark := "||"
  ends := [")", "\x7b"]
  join := .or
  body_eq := rfl
  branch := rfl
  ofTree_eq source c d ts := by
    unfold Condition.ofTree
    cases conditionsOfTrees source ts <;> rfl
  mark_mem := by decide
  ends_subset := by decide
  stops := by decide
  join_mapSpans f cs := congrArg Condition.or (Condition.mapAll_eq f cs)

section Connectives

variable {k : Connective} {toks : Condition → List String} {cs : List Condition}
  {r : List Char}

theorem Connective.joined_unspanned (k : Connective) (cs : List Condition) :
    (Condition.joined k.join cs).unspanned =
      Condition.joined k.join (cs.map Condition.unspanned) :=
  Condition.mapSpans_joined _ (k.join_mapSpans _) cs

theorem bounded_spaced (hr : bounded r = true) :
    bounded (spaced tokens ++ r) = true := by
  cases tokens with
  | nil => exact hr
  | cons => rfl

/-- Behind a term there is the mark again, or the end. -/
theorem markFollows_further (hr : MarkFollows k.ends r) :
    MarkFollows (k.mark :: k.ends)
      (spaced (cs.flatMap fun c => k.mark :: toks c) ++ r) := by
  cases cs with
  | nil => exact hr.mono fun _ => List.mem_cons_of_mem _
  | cons c cs =>
    rw [List.flatMap_cons, List.cons_append, spaced_cons]
    exact ⟨k.mark, List.mem_cons_self, _, rfl,
      bounded_spaced (bounded_of_markFollows hr)⟩

/-- Each further term has the mark before it. -/
theorem reads_further
    (h : ∀ c ∈ cs,
      ReadsCondition source (nt k.term) (k.mark :: k.ends) (toks c) c)
    (hr : MarkFollows k.ends r) (p : Point) :
    ∃ q ts bs, Derives grammar .plain (Nonterminal.further k.mark k.term)
        ⟨spaced (cs.flatMap fun c => k.mark :: toks c) ++ r, p⟩ ⟨r, q⟩ ts ∧
      conditionsOfTrees source ts = .ok bs ∧
      bs.map Condition.unspanned = cs.map Condition.unspanned := by
  induction cs generalizing p with
  | nil =>
    have hnone : grammar.found .plain (nt .blanks ++ Peg.lit k.mark) ⟨r, p⟩ =
        none :=
      hr.found_lit_none k.ends_subset (ne_empty_of_mark k.mark_mem) k.stops p
    exact ⟨p, [], [], .stop (found_none_of_front (found_none_of_front hnone)),
      rfl, rfl⟩
  | cons c cs ih =>
    obtain ⟨hc, hcs⟩ := List.forall_mem_cons.mp h
    rw [List.flatMap_cons, List.cons_append, spaced_cons, spaced_append]
    obtain ⟨q₁, hmark⟩ := derives_mark k.mark (begins_of_mark k.mark_mem)
      (spaced (toks c) ++ (spaced (cs.flatMap fun c => k.mark :: toks c) ++ r))
      p
    obtain ⟨q₂, t, b, hd, hread, heq⟩ := hc _ q₁ (markFollows_further hr)
    obtain ⟨q₃, ts, bs, hmany, hreads, heqs⟩ := ih hcs q₂
    have hone : Derives grammar .plain
        (nt .blanks ++ Peg.lit k.mark ++ nt .blanks ++ nt k.term) _ _ [t] :=
      derives_behind₂ hmark hd
    refine ⟨q₃, t :: ts, b :: bs,
      .more hone (offset_behind hone.found rfl) hmany, ?_, ?_⟩
    · rw [conditionsOfTrees, hread, hreads]
      rfl
    · rw [List.map_cons, List.map_cons, heq, heqs]

variable (toks) in
/-- Terms with the mark between them are the condition that they are joined
to. -/
theorem reads_terms {first : Condition}
    (h : ∀ c ∈ first :: cs,
      ReadsCondition source (nt k.term) (k.mark :: k.ends) (toks c) c) :
    ReadsCondition source (nt k.whole) k.ends
      (toks first ++ cs.flatMap fun c => k.mark :: toks c)
      (.joined k.join (first :: cs)) := by
  intro r p hr
  obtain ⟨hc, hcs⟩ := List.forall_mem_cons.mp h
  rw [spaced_append]
  obtain ⟨q₁, t, b, hd, hread, heq⟩ := hc _ p (markFollows_further hr)
  obtain ⟨q₂, ts, bs, hmany, hreads, heqs⟩ := reads_further hcs hr q₁
  obtain ⟨d, hblanks, hterm⟩ := derives_behind_blanks hd
  have hmode : Nonterminal.retention k.whole ≠ .silent ∧
      Nonterminal.retention k.whole ≠ .leaf := by
    rw [k.branch]
    decide
  have hbody : Derives grammar .plain (Nonterminal.body k.whole) d ⟨r, q₂⟩
      ([t] ++ ts) := by
    rw [k.body_eq]
    exact .seq hterm hmany
  have hnode : Derives grammar .plain (nt k.whole) d ⟨r, q₂⟩ _ :=
    .node hmode.1 (by rw [Grammar.ownMode_plain]; rfl)
      (by rw [Grammar.bodyMode_plain hmode.2]; exact hbody)
  refine ⟨q₂, _, .joined k.join (b :: bs), .seq hblanks hnode, ?_, ?_⟩
  · rw [k.ofTree_eq]
    have hall : conditionsOfTrees source ([t] ++ ts) = .ok (b :: bs) := by
      rw [List.singleton_append, conditionsOfTrees, hread, hreads]
      rfl
    rw [hall]
    rfl
  · rw [k.joined_unspanned, k.joined_unspanned, List.map_cons, List.map_cons,
      heq, heqs]

/-- A single term is a condition of the next level as it is. -/
theorem ReadsCondition.term
    (h : ReadsCondition source (nt k.term) (k.mark :: k.ends) tokens a) :
    ReadsCondition source (nt k.whole) k.ends tokens a := by
  have hread : ReadsCondition source (nt k.whole) k.ends
      (tokens ++ [].flatMap fun _ => k.mark :: tokens) (.joined k.join [a]) :=
    reads_terms (fun _ => tokens) (List.forall_mem_singleton.mpr h)
  rwa [List.flatMap_nil, List.append_nil] at hread

/-- The tokens of a connective with at least two terms. -/
theorem reads_connective (k : Connective) {enclosed : Condition → Bool}
    (hlen : 2 ≤ cs.length)
    (h : ∀ c ∈ cs, ReadsCondition source (nt k.term) (k.mark :: k.ends)
      (Condition.parenthesized (enclosed c) c.tokens) c) :
    ReadsCondition source (nt k.whole) k.ends
      ([k.mark].intercalate (Condition.termTokens enclosed cs))
      (k.join cs) := by
  rcases cs with _ | ⟨c, _ | ⟨c', cs⟩⟩
  · cases hlen
  · exact absurd hlen (Nat.not_succ_le_self 1)
  · rw [Condition.termTokens_eq_map, List.map_cons, intercalate_cons,
      List.flatMap_map]
    exact reads_terms (fun c => Condition.parenthesized (enclosed c) c.tokens) h

end Connectives

-- ========================================================== all levels

/-- The condition is read on each level, with the parentheses that it needs
there. -/
structure Levels (source : String) (c : Condition) : Prop where
  negation : ReadsCondition source (nt .negation) testEnds
    (Condition.parenthesized c.hasTerms c.tokens) c
  conjunction : ReadsCondition source (nt .conjunction) conjunctive.ends
    (Condition.parenthesized c.isOr c.tokens) c
  disjunction :
    ReadsCondition source (nt .disjunction) disjunctive.ends c.tokens c

theorem conjunction_of_negation
    (h : ReadsCondition source (nt .negation) testEnds tokens a) :
    ReadsCondition source (nt .conjunction) conjunctive.ends tokens a :=
  .term (k := conjunctive) (h.mono (by decide))

theorem disjunction_of_conjunction
    (h : ReadsCondition source (nt .conjunction) conjunctive.ends tokens a) :
    ReadsCondition source (nt .disjunction) disjunctive.ends tokens a :=
  .term (k := disjunctive) (h.mono (by decide))

/-- A condition without terms of its own needs no parentheses. -/
theorem Levels.of_negation (ha : a.hasTerms = false)
    (h : ReadsCondition source (nt .negation) testEnds a.tokens a) :
    Levels source a := by
  have hor : a.isOr = false := by
    cases a with
    | or => cases ha
    | _ => rfl
  have hconjunction := conjunction_of_negation h
  refine ⟨?_, ?_, disjunction_of_conjunction hconjunction⟩
  · rwa [ha]
  · rwa [hor]

theorem ReadsCondition.negation_of_disjunction
    (h : ReadsCondition source (nt .disjunction) disjunctive.ends tokens a) :
    ReadsCondition source (nt .negation) testEnds
      (Condition.parenthesized true tokens) a :=
  (h.mono (by decide)).enclosed

/-- Every condition is read on each of the levels. -/
theorem Condition.IsAlnum.levels (h : a.IsAlnum) : Levels source a := by
  induction h with
  | truth hw => exact .of_negation rfl (reads_truth hw)
  | compare hw hw' => exact .of_negation rfl (reads_compare _ hw hw')
  | member hw hne hl => exact .of_negation rfl (reads_member hw hne hl)
  | not _ ih => exact .of_negation rfl (reads_not ih.negation)
  | and hlen _ ih =>
    have hconjunction := reads_connective conjunctive hlen fun c hc =>
      (ih c hc).negation.mono (by decide)
    have hdisjunction := disjunction_of_conjunction hconjunction
    exact ⟨hdisjunction.negation_of_disjunction, hconjunction, hdisjunction⟩
  | or hlen _ ih =>
    have hdisjunction := reads_connective disjunctive hlen fun c hc =>
      (ih c hc).conjunction.mono (by decide)
    have hnegation := hdisjunction.negation_of_disjunction
    exact ⟨hnegation, conjunction_of_negation hnegation, hdisjunction⟩

-- ============================================================= choices

theorem Statement.ofTree_emptyChoice {c d c' d' : Cursor} {t : Node}
    (h : Condition.ofTree source t = .ok a) :
    Statement.ofTree source
      (.node .ifStatement c d [t, .node .block c' d' []]) =
      .ok (.choice a ⟨[], ⟨source, c'.point, d'.point⟩⟩ none
        ⟨source, c.point, d.point⟩) := by
  unfold Statement.ofTree
  dsimp only
  rw [h, Block.ofTree, require_node, statementsOfTrees]
  rfl

/-- A condition behind its keyword and before an empty block is a choice. -/
theorem derives_choice {rest : List Char} {p q : Point} {t : Node}
    (h : Derives grammar .plain (nt .blanks ++ nt .disjunction)
      ⟨rest, p.afterAll "if".toList⟩ ⟨" \x7b \x7d".toList, q⟩ [t]) :
    ∃ d c' d',
      Derives grammar .plain (nt .statement) ⟨"if".toList ++ rest, p⟩ d
        [.node .ifStatement ⟨"if".toList ++ rest, p⟩ d
          [t, .node .block c' d' []]] ∧
      d.rest = [] := by
  obtain ⟨b, hblanks, hdisjunction⟩ := derives_behind_blanks h
  have hcondition : Derives grammar .plain (nt .condition) b _ [t] :=
    .silent rfl hdisjunction
  have hif :
      Derives grammar .plain (Peg.lit "if") ⟨"if".toList ++ rest, p⟩ _ [] :=
    derives_lit rfl
  have hhead : Derives grammar .plain (Nonterminal.head .ifStatement)
      ⟨"if".toList ++ rest, p⟩ _ [t] := .seq (.seq hif hblanks) hcondition
  have hblock := block_of_sequence (c := Cursor.next ⟨" \x7b \x7d".toList, q⟩)
    rfl rfl (.done _) rfl
  have hopening : Opening .ifStatement ⟨"if".toList ++ rest, p⟩ _ _ [t] _ :=
    ⟨by decide, hhead, List.cons_ne_nil _ _, hblock⟩
  have helse {f : Cursor} (hf : f.rest = []) :
      Derives grammar .plain (.opt Nonterminal.elseBranch) f f [] :=
    .without (found_end rfl hf)
  exact ⟨_, _, _, statement_of_compound (by decide)
    (opening_of_if.mpr ⟨_, _, _, _, _, hopening, helse rfl, rfl⟩), rfl⟩

/-- A condition that is written with the parentheses it needs is read as it is,
up to places. -/
theorem choice_parses (source : String) {c : Condition} (h : c.IsAlnum) :
    ∃ p condition yes span,
      Program.parse source
        (" ".intercalate ("if" :: (c.tokens ++ ["\x7b", "\x7d"]))) = .ok p ∧
      p.statements = [.choice condition yes none span] ∧ yes.statements = [] ∧
      condition.unspanned = c.unspanned := by
  have htext :
      (" ".intercalate ("if" :: (c.tokens ++ ["\x7b", "\x7d"]))).toList =
      "if".toList ++ (spaced c.tokens ++ " \x7b \x7d".toList) := by
    rw [toList_intercalate, spaced, List.flatMap_append]
    rfl
  have hbrace : MarkFollows disjunctive.ends " \x7b \x7d".toList :=
    ⟨"\x7b", by decide, " \x7d".toList, rfl, rfl⟩
  have hlevels : Levels source c := h.levels
  obtain ⟨q, t, condition, hd, hread, heq⟩ := hlevels.disjunction _
    (Point.origin.afterAll "if".toList) hbrace
  obtain ⟨d, c', d', hstatement, hrest⟩ := derives_choice hd
  generalize " ".intercalate ("if" :: (c.tokens ++ ["\x7b", "\x7d"])) =
      text at htext ⊢
  have hfirst : Cursor.next (.ofText text.toList) =
      ⟨"if".toList ++ (spaced c.tokens ++ " \x7b \x7d".toList), .origin⟩ := by
    rw [htext]
    exact next_of_lead_nil rfl
  have hsequence := Sequence.more hstatement (by rw [hrest]; rfl) (.done d.next)
  rw [next_of_lead_nil (by rw [hrest]; rfl), ← hfirst] at hsequence
  obtain ⟨p, hparse, hp⟩ := parse_of_sequence source hsequence hrest
  have hstatements := mapM_of_program hsequence hp
  rw [List.mapM_cons, Statement.ofTree_emptyChoice hread] at hstatements
  exact ⟨p, condition, ⟨[], ⟨source, c'.point, d'.point⟩⟩, ⟨source, _, d.point⟩,
    hparse, (Except.ok.inj hstatements).symm, rfl, heq⟩

/-- A disjunction in a conjunction in a negation, next to a conjunction and a
membership. -/
theorem choice_parses_nested :
    let word (text : String) : Word := .identifier ⟨[.text text], .nowhere⟩
    let c : Condition := .or [ .not (.and [.compare (word "a") .le (word "b"),
      .or [.truth (word "a"), .truth (word "b")]]),
      .and [.truth (word "b"), .not (.truth (word "a"))],
      .member (word "a") ⟨[word "b", word "in"], .nowhere⟩]
    c.IsAlnum ∧
      c.tokens = ["!", "(", "a", "<=", "b", "&&", "(", "a", "||", "b", ")", ")",
        "||", "b", "&&", "!", "a", "||", "a", "in", "b", "in"] ∧
      ∃ p condition yes span,
        Program.parse "t"
          (" ".intercalate ("if" :: (c.tokens ++ ["\x7b", "\x7d"]))) = .ok p ∧
        p.statements = [.choice condition yes none span] ∧ yes.statements = [] ∧
        condition.unspanned = c.unspanned := by
  intro word c
  have ha : (word "a").IsAlnum :=
    .name (by decide) (List.all_eq_true.mp (by decide))
  have hb : (word "b").IsAlnum :=
    .name (by decide) (List.all_eq_true.mp (by decide))
  have hin : (word "in").IsAlnum :=
    .name (by decide) (List.all_eq_true.mp (by decide))
  have two {α : Type} {P : α → Prop} {x y : α} (hx : P x) (hy : P y) :
      ∀ z ∈ [x, y], P z :=
    List.forall_mem_cons.mpr ⟨hx, List.forall_mem_singleton.mpr hy⟩
  have hc : c.IsAlnum := .or (by decide) <| List.forall_mem_cons.mpr ⟨
    .not <| .and (by decide) <|
      two (.compare ha hb) <| .or (by decide) <| two (.truth ha) (.truth hb),
    two (.and (by decide) <| two (.truth hb) (.not (.truth ha)))
      (.member ha (List.cons_ne_nil _ _) (two hb hin))⟩
  exact ⟨hc, by decide, choice_parses "t" hc⟩

end Jam
