/-
What stands in the dump of a program, line by line.

An entry of the dump is the program, a statement, a condition, a list or a
word, or the label of a branch or a body. Each entry has a header, and each
but the words has entries that belong to it (`Entry.below`), of which each
stands two blanks further in. The dump consists of the headers of all
entries, in order, each with a line feed behind it; and as long as no
header has a line feed in it, the entries can be told apart and put
together again (`dump_lists`).

Literals are quoted, and names consist of letters and digits. What is left
are the words that are put together of texts and variables: their texts
have their escape sequences resolved and stand as they are. So a line feed
in such a word is a line feed in the dump (`dump_broken`).
-/
import Jam.Proofs.Syntax.WellFormed
import Jam.Proofs.Text.Outline
import Jam.Proofs.Text.Quoted
import Jam.Syntax.Dump

namespace Jam

-- ============================================================= entries

/-- What statements inside a statement are there for. -/
inductive Label
  | yes
  | no
  | body

/-- What has a line in a dump. -/
inductive Entry
  | program (p : Program)
  | statement (s : Statement)
  | condition (c : Condition)
  | list (l : WordList)
  | word (w : Word)
  | label (label : Label) (statements : List Statement)

def Word.header : Word → String
  | .literal l => "Literal " ++ quoteString l.text
  | .identifier i => "Identifier " ++ i.display
  | .variable v => "Variable " ++ v.display

def Condition.header : Condition → String
  | .truth _ => "Truth"
  | .compare _ op _ => "Compare " ++ op.mark
  | .member _ _ => "In"
  | .not _ => "Not"
  | .and _ => "And"
  | .or _ => "Or"

def Statement.header : Statement → String
  | .invocation name _ _ => "Invocation " ++ name.display
  | .assignment name op _ _ => "Assignment " ++ name.display ++ " " ++ op.mark
  | .localBinding .. => "Local"
  | .returnWith .. => "Return"
  | .breakLoop _ => "Break"
  | .continueLoop _ => "Continue"
  | .block _ => "Block"
  | .choice .. => "If"
  | .forLoop name _ _ _ => "For " ++ name.display
  | .whileLoop .. => "While"
  | .definition rule => "Rule " ++ rule.name.display ++ " (" ++
    " : ".intercalate (rule.parameters.map Identifier.display) ++ ")"

def Label.header : Label → String
  | .yes => "Then"
  | .no => "Else"
  | .body => "Body"

def Condition.entries : Condition → List Entry
  | .truth word => [.word word]
  | .compare left _ right => [.word left, .word right]
  | .member element list => [.word element, .list list]
  | .not condition => [.condition condition]
  | .and terms | .or terms => terms.map .condition

def Statement.entries : Statement → List Entry
  | .invocation _ arguments _ => arguments.map .list
  | .assignment _ _ value _ => [.list value]
  | .localBinding names value _ => .list names :: value.toList.map .list
  | .returnWith value _ => [.list value]
  | .breakLoop _ | .continueLoop _ => []
  | .block b => b.statements.map .statement
  | .choice condition yes no _ =>
    .condition condition :: .label .yes yes.statements :: no.toList.map fun s =>
      .label .no [s]
  | .forLoop _ values body _ => [.list values, .label .body body.statements]
  | .whileLoop condition body _ =>
    [.condition condition, .label .body body.statements]
  | .definition rule => rule.body.statements.map .statement

namespace Entry

/-- What the line of an entry says. -/
def header : Entry → String
  | program _ => "Program"
  | statement s => s.header
  | condition c => c.header
  | list _ => "List"
  | word w => w.header
  | label l _ => l.header

/-- The entries that belong to an entry. -/
def below : Entry → List Entry
  | program p => p.statements.map statement
  | statement s => s.entries
  | condition c => c.entries
  | list l => l.items.map word
  | word _ => []
  | label _ ss => ss.map statement

/-- The text in a header that was written as it is: that of a word that is
neither a literal nor a variable. -/
def raw : Entry → List Char
  | word (.identifier i) => literalOf i.parts
  | program _ | statement _ | condition _ | list _ | word _ | label _ _ => []

end Entry

variable {e : Entry} {es : List Entry} {depth : Nat} {c : Char}
  {entries : List (Nat × Entry)}

/-- Some entries and all that belongs to them, in order, with their depths. -/
inductive Listed : Nat → List Entry → List (Nat × Entry) → Prop
  | nil {depth : Nat} : Listed depth [] []
  | cons {depth : Nat} {e : Entry} {es : List Entry}
      {inside behind : List (Nat × Entry)} :
      Listed (depth + 1) e.below inside → Listed depth es behind →
      Listed depth (e :: es) ((depth, e) :: inside ++ behind)

/-- The outlines have the headers of the entries, and below them the outlines of
what belongs to the entries. -/
inductive Shows : List Entry → List Outline → Prop
  | nil : Shows [] []
  | cons {e : Entry} {es : List Entry} {os os' : List Outline} :
    Shows e.below os → Shows es os' → Shows (e :: es) (.node e.header os :: os')

-- =============================================== entries of an outline

/-- The outline of an entry. -/
def Entry.outline : Entry → Outline
  | program p => p.outline
  | statement s => s.outline
  | condition c => c.outline
  | list l => l.outline
  | word w => w.outline
  | label l ss => .node l.header (statementOutlines ss)

theorem conditionOutlines_eq (cs : List Condition) :
    conditionOutlines cs = (cs.map Entry.condition).map Entry.outline := by
  induction cs with
  | nil => rfl
  | cons c cs ih => exact congrArg (c.outline :: ·) ih

theorem statementOutlines_eq (ss : List Statement) :
    statementOutlines ss = (ss.map Entry.statement).map Entry.outline := by
  induction ss with
  | nil => rfl
  | cons s ss ih => exact congrArg (s.outline :: ·) ih

theorem blockOutlines_eq (b : Block) :
    blockOutlines b = (b.statements.map Entry.statement).map Entry.outline := by
  cases b with
  | mk statements span => exact statementOutlines_eq statements

theorem listOutlines_eq (ls : List WordList) :
    ls.map WordList.outline = (ls.map Entry.list).map Entry.outline := by
  rw [List.map_map]
  rfl

theorem wordOutlines_eq (ws : List Word) :
    ws.map Word.outline = (ws.map Entry.word).map Entry.outline := by
  rw [List.map_map]
  rfl

theorem Statement.outline_eq (s : Statement) :
    s.outline = .node s.header (s.entries.map Entry.outline) := by
  cases s with
  | invocation name arguments =>
    exact congrArg (Outline.node _) (listOutlines_eq arguments)
  | assignment | returnWith | breakLoop | continueLoop => rfl
  | localBinding names value =>
    exact congrArg (fun os => Outline.node _ (names.outline :: os))
      (listOutlines_eq value.toList)
  | block b => exact congrArg (Outline.node _) (blockOutlines_eq b)
  | choice condition yes no =>
    obtain ⟨statements, span⟩ := yes
    cases no <;> rfl
  | forLoop name values body =>
    cases body
    rfl
  | whileLoop condition body =>
    cases body
    rfl
  | definition rule =>
    obtain ⟨name, parameters, body, span⟩ := rule
    exact congrArg (Outline.node _) (blockOutlines_eq body)

/-- The outline of an entry has its header, and below it the outlines of what
belongs to it. -/
theorem Entry.outline_eq (e : Entry) :
    e.outline = .node e.header (e.below.map Entry.outline) := by
  cases e with
  | program p =>
    exact congrArg (Outline.node _) (statementOutlines_eq p.statements)
  | statement s => exact s.outline_eq
  | condition c =>
    cases c with
    | truth | compare | member | not => rfl
    | and terms | or terms =>
      exact congrArg (Outline.node _) (conditionOutlines_eq terms)
  | list l => exact congrArg (Outline.node _) (wordOutlines_eq l.items)
  | word w => cases w <;> rfl
  | label l ss => exact congrArg (Outline.node _) (statementOutlines_eq ss)

/-- The lines of the outlines of entries are the headers of all that is
listed. -/
theorem Listed.lines (h : Listed depth es entries) :
    Outline.linesAll depth (es.map Entry.outline) =
      entries.map fun x => (x.1, x.2.header) := by
  induction h with
  | nil => rfl
  | @cons depth e es inside behind _ _ ihin ihbe =>
    rw [List.map_cons, e.outline_eq, Outline.linesAll, Outline.lines, ihin,
      ihbe, List.map_append, List.map_cons]

theorem Listed.lines_program {p : Program} (h : Listed 0 [.program p] entries) :
    p.outline.lines 0 = entries.map fun x => (x.1, x.2.header) := by
  have hlines : p.outline.lines 0 ++ [] = _ := h.lines
  rwa [List.append_nil] at hlines

/-- Entries have outlines, so there is an end to what belongs to them: they can
be listed, and the outlines show them. -/
theorem listed_outlines : ∀ (os : List Outline) (es : List Entry) (depth : Nat),
    es.map Entry.outline = os → Shows es os ∧ ∃ entries, Listed depth es entries
  | [], es, depth, h => by
    obtain rfl := List.map_eq_nil_iff.mp h
    exact ⟨.nil, [], .nil⟩
  | .node header below :: os, es, depth, h => by
    obtain ⟨e, es', rfl, he, hes⟩ := List.map_eq_cons_iff.mp h
    obtain ⟨rfl, hbelow⟩ :=
      Outline.node.inj ((Entry.outline_eq e).symm.trans he)
    obtain ⟨hinside, inside, hin⟩ :=
      listed_outlines below e.below (depth + 1) hbelow
    obtain ⟨hbehind, behind, hbe⟩ := listed_outlines os es' depth hes
    exact ⟨.cons hinside hbehind, _, .cons hin hbe⟩

-- ============================================================= headers

/-- Each header begins with the name of a kind. -/
theorem Entry.header_begins (e : Entry) : Begins e.header := by
  cases e with
  | program | list =>
    dsimp only [header]
    decide
  | statement s =>
    cases s with
    | invocation | forLoop => exact .append (by decide) _
    | assignment => exact ((Begins.append (by decide) _).append _).append _
    | definition =>
      exact (((Begins.append (by decide) _).append _).append _).append _
    | _ =>
      dsimp only [header, Statement.header]
      decide
  | condition c =>
    cases c with
    | compare => exact .append (by decide) _
    | _ =>
      dsimp only [header, Condition.header]
      decide
  | word w => cases w <;> exact .append (by decide) _
  | label l =>
    dsimp only [header]
    cases l <;> decide

theorem isControl_of_isAlnum (h : isAlnum c = true) : isControl c = false := by
  have hle (a b : Char) : a ≤ b ↔ a.toNat ≤ b.toNat := Iff.rfl
  simp only [isAlnum, isDigit, Bool.or_eq_true, Bool.and_eq_true,
    decide_eq_true_eq, hle, Char.reduceToNat] at h
  simp only [isControl, Bool.or_eq_false_iff, decide_eq_false_iff_not,
    beq_eq_false_iff_ne, hle, Char.reduceToNat, ne_eq, ← Char.toNat_inj]
  omega

/-- In names there are letters and digits, in subscripts digits and the dash. -/
theorem Role.Allows.clean {role : Role} {text : List Char}
    (h : role.Allows text) (hr : role ≠ .word) : Clean text := by
  cases role with
  | name => exact fun c hc => isControl_of_isAlnum (h c hc)
  | subscript =>
    intro c hc
    rcases h.1 c hc with hd | rfl
    · exact isControl_of_isAlnum (by simp [isAlnum, hd])
    · decide
  | word => exact absurd rfl hr

mutual

/-- What is displayed of a name or a subscript is clean. -/
theorem Identifier.display_clean {role : Role} (hr : role ≠ .word) :
    ∀ i : Identifier, i.Proper role → Clean i.display.toList
  | ⟨parts, _⟩, h => by
    cases h with
    | intro _ _ ha hv =>
      intro c hm
      refine Bool.eq_false_iff.mpr fun hc => ?_
      exact (ha.clean hr).not_mem hc ((mem_displayParts parts hv c hc).mp hm)
termination_by structural i => i

/-- The control characters in what parts display are those of the texts among
them. -/
theorem mem_displayParts :
    ∀ parts : List Part, (∀ v, Part.variable v ∈ parts → v.Proper) →
      ∀ c, isControl c = true →
      (c ∈ (displayParts parts).toList ↔ c ∈ literalOf parts)
  | [], _, c, _ => Iff.rfl
  | .text text :: parts, h, c, hc => by
    have hrest :=
      mem_displayParts parts (fun v hv => h v (List.mem_cons_of_mem _ hv)) c hc
    rw [displayParts, String.toList_append, List.mem_append, hrest]
    exact List.mem_append.symm
  | .variable v :: parts, h, c, hc => by
    have hrest :=
      mem_displayParts parts (fun v hv => h v (List.mem_cons_of_mem _ hv)) c hc
    have hv : c ∉ v.display.toList :=
      (v.display_clean (h v List.mem_cons_self)).not_mem hc
    rw [displayParts, String.toList_append, List.mem_append, hrest]
    exact or_iff_right hv
termination_by structural parts => parts

/-- What is displayed of a variable is clean. -/
theorem Variable.display_clean :
    ∀ v : Variable, v.Proper → Clean v.display.toList
  | ⟨name, none, _⟩, h => by
    cases h with
    | whole hn =>
      have hname := Identifier.display_clean (by decide) name hn
      rw [Variable.display, String.toList_append, String.toList_append]
      exact clean_append.mpr ⟨clean_append.mpr ⟨by decide, hname⟩, by decide⟩
  | ⟨name, some subscript, _⟩, h => by
    cases h with
    | selected hn hs =>
      have hname := Identifier.display_clean (by decide) name hn
      have hsubscript := Identifier.display_clean (by decide) subscript hs
      simp only [Variable.display, String.toList_append, clean_append]
      exact ⟨⟨⟨⟨by decide, hname⟩, by decide⟩, hsubscript⟩, by decide⟩
termination_by structural v => v

end

theorem Condition.header_clean (condition : Condition) :
    Clean condition.header.toList := by
  cases condition with
  | compare left op right =>
    dsimp only [header]
    cases op <;> decide
  | _ =>
    dsimp only [header]
    decide

/-- In statements there is nothing but names. -/
theorem Statement.header_clean {s : Statement} (h : s.WellFormed) :
    Clean s.header.toList := by
  have hname {i : Identifier} (hi : i.Proper .name) : Clean i.display.toList :=
    Identifier.display_clean (by decide) i hi
  cases s with
  | invocation | forLoop =>
    simp only [header, String.toList_append, clean_append]
    exact ⟨by decide, hname h.1⟩
  | assignment name op value =>
    have hop : Clean op.mark.toList := by cases op <;> decide
    simp only [header, String.toList_append, clean_append]
    exact ⟨⟨⟨by decide, hname h.1⟩, by decide⟩, hop⟩
  | definition rule =>
    have hparameters : ∀ text ∈ rule.parameters.map Identifier.display,
        Clean text.toList := by
      intro text ht
      obtain ⟨i, hi, rfl⟩ := List.mem_map.mp ht
      exact hname (h.2 i hi)
    simp only [header, String.toList_append, clean_append]
    exact ⟨⟨⟨⟨by decide, hname h.1⟩, by decide⟩,
      intercalate_clean (by decide) hparameters⟩, by decide⟩
  | _ =>
    dsimp only [header]
    decide

/-- What an entry has itself is well formed, and so are the statements
inside. -/
def Entry.WellFormed : Entry → Prop
  | program p => ∀ s ∈ p.nodes, s.WellFormed
  | statement s => ∀ s' ∈ s.nodes, s'.WellFormed
  | condition c => c.WellFormed
  | list l => l.WellFormed
  | word w => w.WellFormed
  | label _ ss => ∀ s ∈ nodesOf ss, s.WellFormed

/-- The control characters in a header are those of the text that is written as
it is. -/
theorem Entry.mem_header (h : e.WellFormed) (hc : isControl c = true) :
    c ∈ e.header.toList ↔ c ∈ e.raw := by
  have clean (hclean : Clean e.header.toList) (hraw : e.raw = []) :
      c ∈ e.header.toList ↔ c ∈ e.raw := by
    rw [hraw]
    exact iff_of_false (hclean.not_mem hc) List.not_mem_nil
  cases e with
  | program | list =>
    refine clean ?_ rfl
    dsimp only [header]
    decide
  | statement s => exact clean (Statement.header_clean (h s s.mem_nodes)) rfl
  | condition condition => exact clean condition.header_clean rfl
  | label l =>
    refine clean ?_ rfl
    dsimp only [header]
    cases l <;> decide
  | word w =>
    cases w with
    | literal l =>
      refine clean ?_ rfl
      simp only [header, Word.header, String.toList_append, clean_append]
      exact ⟨by decide, quoteString_clean l.text⟩
    | «variable» v =>
      refine clean ?_ rfl
      simp only [header, Word.header, String.toList_append, clean_append]
      exact ⟨by decide, v.display_clean h⟩
    | identifier i =>
      have hkind : c ∉ "Identifier ".toList := Clean.not_mem (by decide) hc
      obtain ⟨hproper, -⟩ := h
      cases hproper with
      | @intro _ parts span _ _ _ hv =>
        have hparts := mem_displayParts parts hv c hc
        simp only [header, Word.header, String.toList_append, List.mem_append]
        exact (or_iff_right hkind).trans hparts

theorem Condition.entries_wellFormed {condition : Condition}
    (h : condition.WellFormed) : ∀ e ∈ condition.entries, e.WellFormed := by
  cases h with
  | truth hw => exact List.forall_mem_singleton.mpr hw
  | compare hl hr =>
    exact List.forall_mem_cons.mpr ⟨hl, List.forall_mem_singleton.mpr hr⟩
  | member he hl =>
    exact List.forall_mem_cons.mpr ⟨he, List.forall_mem_singleton.mpr hl⟩
  | not hc => exact List.forall_mem_singleton.mpr hc
  | and _ hall | or _ hall => exact List.forall_mem_map.mpr hall

/-- Statements side by side. -/
theorem statements_wellFormed {ss : List Statement}
    (h : ∀ s ∈ nodesOf ss, s.WellFormed) :
    ∀ e ∈ ss.map Entry.statement, e.WellFormed := by
  induction ss with
  | nil => exact fun _ he => absurd he List.not_mem_nil
  | cons s ss ih =>
    rw [nodesOf_cons] at h
    obtain ⟨hs, hss⟩ := List.forall_mem_append.mp h
    exact List.forall_mem_cons.mpr ⟨hs, ih hss⟩

theorem Statement.entries_wellFormed {s : Statement}
    (h : ∀ s' ∈ s.nodes, s'.WellFormed) : ∀ e ∈ s.entries, e.WellFormed := by
  obtain ⟨hs, hinner⟩ := List.forall_mem_cons.mp h
  cases s with
  | invocation name arguments => exact List.forall_mem_map.mpr hs.2.2
  | assignment => exact List.forall_mem_singleton.mpr hs.2
  | localBinding names value =>
    refine List.forall_mem_cons.mpr
      ⟨hs.1, List.forall_mem_map.mpr fun l hl => ?_⟩
    exact hs.2 l (Option.mem_toList.mp hl)
  | returnWith => exact List.forall_mem_singleton.mpr hs
  | breakLoop | continueLoop => exact fun _ he => absurd he List.not_mem_nil
  | block b =>
    obtain ⟨statements, span⟩ := b
    exact statements_wellFormed hinner
  | choice condition yes no =>
    obtain ⟨statements, span⟩ := yes
    cases no with
    | none =>
      exact List.forall_mem_cons.mpr
        ⟨hs.1, List.forall_mem_singleton.mpr hinner⟩
    | some no =>
      obtain ⟨hyes, hno⟩ := List.forall_mem_append.mp hinner
      have hno : ∀ s ∈ nodesOf [no], s.WellFormed := by
        rwa [nodesOf_cons, nodesOf, List.append_nil]
      exact List.forall_mem_cons.mpr ⟨hs.1,
        List.forall_mem_cons.mpr ⟨hyes, List.forall_mem_singleton.mpr hno⟩⟩
  | forLoop name values body =>
    obtain ⟨statements, span⟩ := body
    exact List.forall_mem_cons.mpr ⟨hs.2, List.forall_mem_singleton.mpr hinner⟩
  | whileLoop condition body =>
    obtain ⟨statements, span⟩ := body
    exact List.forall_mem_cons.mpr ⟨hs, List.forall_mem_singleton.mpr hinner⟩
  | definition rule =>
    obtain ⟨name, parameters, ⟨statements, span⟩, span'⟩ := rule
    exact statements_wellFormed hinner

/-- What belongs to a well-formed entry is well formed. -/
theorem Entry.WellFormed.below (h : e.WellFormed) :
    ∀ e' ∈ e.below, e'.WellFormed := by
  cases e with
  | program | label => exact statements_wellFormed h
  | statement s => exact Statement.entries_wellFormed h
  | condition condition => exact Condition.entries_wellFormed h
  | list l => exact List.forall_mem_map.mpr h
  | word => exact fun _ he => absurd he List.not_mem_nil

theorem Listed.wellFormed (h : Listed depth es entries)
    (hes : ∀ e ∈ es, e.WellFormed) : ∀ x ∈ entries, x.2.WellFormed := by
  induction h with
  | nil => exact fun _ hx => absurd hx List.not_mem_nil
  | cons _ _ ihin ihbe =>
    obtain ⟨he, hes⟩ := List.forall_mem_cons.mp hes
    refine List.forall_mem_cons.mpr ⟨he, ?_⟩
    exact List.forall_mem_append.mpr ⟨ihin he.below, ihbe hes⟩

-- =============================================================== dumps

/-- The line of an entry, two blanks further in for each level. -/
def Entry.line (x : Nat × Entry) : List Char := indent x.1 ++ x.2.header.toList

/-- The dump of a program consists of the lines of its entries, and a control
character in a header is one in the text of a word that is put together of texts
and variables. There are no more lines than these if and only if no such text
has a line feed; and then the nesting of the entries is read back from how far
in they stand. -/
theorem dump_lists (source text : String) (p : Program)
    (h : Program.parse source text = .ok p) :
    ∃ entries, Listed 0 [.program p] entries ∧
      p.dump.toList = (entries.map Entry.line).flatMap (· ++ ['\n']) ∧
      (∀ x ∈ entries, ∀ c, isControl c = true →
        (c ∈ x.2.header.toList ↔ c ∈ x.2.raw)) ∧
      (splitLines p.dump.toList = entries.map Entry.line ++ [[]] ↔
        ∀ x ∈ entries, '\n' ∉ x.2.raw) ∧
      ((∀ x ∈ entries, '\n' ∉ x.2.raw) →
        ∃ o, readOutlines p.dump = [(0, o)] ∧ Shows [.program p] [o]) := by
  obtain ⟨hshows, entries, hlisted⟩ :=
    listed_outlines [p.outline] [.program p] 0 rfl
  have hlines := hlisted.lines_program
  have hlineOf : (p.outline.lines 0).map lineOf = entries.map Entry.line := by
    rw [hlines, List.map_map]
    rfl
  have hwf : (Entry.program p).WellFormed :=
    Program.parse_nodes (fun _ => Statement.wellFormed) text p h
  have hheaders : ∀ x ∈ entries, ∀ c, isControl c = true →
      (c ∈ x.2.header.toList ↔ c ∈ x.2.raw) := fun x hx c hc =>
    Entry.mem_header
      (hlisted.wellFormed (List.forall_mem_singleton.mpr hwf) x hx) hc
  have hraw : (∀ x ∈ p.outline.lines 0, '\n' ∉ x.2.toList) ↔
      ∀ x ∈ entries, '\n' ∉ x.2.raw := by
    rw [hlines, List.forall_mem_map]
    exact forall₂_congr fun x hx => not_congr (hheaders x hx '\n' rfl)
  have hbegins : ∀ x ∈ p.outline.lines 0, Begins x.2 := by
    rw [hlines]
    exact List.forall_mem_map.mpr fun x _ => x.2.header_begins
  refine ⟨entries, hlisted, ?_, hheaders, ?_,
    fun hplain => ⟨p.outline, ?_, hshows⟩⟩
  · rw [Program.dump, toList_render, hlineOf]
  · rw [← hlineOf, Program.dump, splitLines_render_iff, hraw]
  · exact readOutlines_render (hraw.mpr hplain) hbegins

/-- A text with a literal that has a line feed, and a choice in a rule. -/
def dumpedText : String :=
  "e \"k\\nl\" ; " ++
    "rule r a : b { if $(a[1-]) <= x { return y ; } else { return z ; } }"

theorem dumpedText_lists : ∃ p entries o, Program.parse "t" dumpedText = .ok p ∧
    Listed 0 [.program p] entries ∧ entries.length = 18 ∧
    splitLines p.dump.toList = entries.map Entry.line ++ [[]] ∧
    readOutlines p.dump = [(0, o)] ∧ Shows [.program p] [o] := by
  have hparse : ((Program.parse "t" dumpedText).toOption.elim false fun p =>
      decide ((p.outline.lines 0).length = 18 ∧
        ∀ x ∈ p.outline.lines 0, '\n' ∉ x.2.toList)) = true := by decide +kernel
  obtain ⟨p, hp, hlines⟩ := Except.exists_ok_of_elim hparse
  obtain ⟨hlength, hplain⟩ := of_decide_eq_true hlines
  obtain ⟨entries, hlisted, -, hheaders, hsplit, hread⟩ :=
    dump_lists "t" dumpedText p hp
  rw [hlisted.lines_program] at hlength hplain
  have hraw : ∀ x ∈ entries, '\n' ∉ x.2.raw := fun x hx hn =>
    List.forall_mem_map.mp hplain x hx ((hheaders x hx '\n' rfl).mpr hn)
  obtain ⟨o, ho, hshows⟩ := hread hraw
  exact ⟨p, entries, o, hp,
    hlisted, by simpa using hlength, hsplit.mpr hraw, ho, hshows⟩

/-- A text with a line feed, spelled by an escape sequence, in a word with a
variable. -/
def brokenText : String := "e a\\n$(b) ;"

/-- The word takes two lines of the dump. -/
theorem dump_broken : ∃ p, Program.parse "t" brokenText = .ok p ∧
    ∀ entries, Listed 0 [.program p] entries →
      splitLines p.dump.toList ≠ entries.map Entry.line ++ [[]] := by
  have hparse : ((Program.parse "t" brokenText).toOption.elim false fun p =>
      decide ((p.outline.lines 0).length = 4 ∧
        (splitLines p.dump.toList).length = 6)) = true := by
    decide +kernel
  obtain ⟨p, hp, hlengths⟩ := Except.exists_ok_of_elim hparse
  obtain ⟨hentries, hsplit⟩ := of_decide_eq_true hlengths
  refine ⟨p, hp, fun entries hlisted heq => ?_⟩
  rw [hlisted.lines_program, List.length_map] at hentries
  rw [heq, List.length_append, List.length_map, hentries] at hsplit
  exact absurd hsplit (by decide)

end Jam
