/-
What is displayed of a variable is its source without blanks and comments.

The text that a variable displays reads back as the same variable, but for
the places, and displays the same text again; and so does a name
(`display_round_trip`).

Display, source and what is read back are compared by the items of a
derivation: the spelling of items is what their parts display
(`Item.parts_display`), it is what is left of a text that they are
produced of when the blanks are taken out (`Produces.unspaced`), and they
are produced of it (`Produces.respelled`). The last holds whatever follows
the spelling, so it is an induction that never asks whether removing a
blank has joined two tokens.
-/
import Jam.Syntax.Display
import Jam.Proofs.Syntax.Division
import Jam.Proofs.Syntax.Variables

namespace Jam

variable {source : String} {a : Alphabet} {s t r : List Char} {form : Form}
  {items : List Item}

-- ============================================================ spelling

mutual

/-- An item as a text without blanks. -/
def Item.spelling : Item → List Char
  | .run text => text
  | .reference name [] => '$' :: '(' :: (Item.spellings name ++ [')'])
  | .reference name (item :: items) => '$' :: '(' :: (Item.spellings name ++
    '[' :: (item.spelling ++ Item.spellings items ++ [']', ')']))
termination_by structural item => item

/-- Items, one behind the other. -/
def Item.spellings : List Item → List Char
  | [] => []
  | item :: items => item.spelling ++ Item.spellings items
termination_by structural items => items

end

theorem Item.spellings_append (items items' : List Item) :
    Item.spellings (items ++ items') =
      Item.spellings items ++ Item.spellings items' := by
  induction items with
  | nil => rfl
  | cons item items ih =>
    rw [List.cons_append, Item.spellings, Item.spellings, ih, List.append_assoc]

/-- The items of a phrase as a text without blanks. -/
def Form.spell : Form → List Item → List Char
  | .subscript, item :: more => '[' :: (Item.spellings (item :: more) ++ [']'])
  | _, made => Item.spellings made

theorem spell_subscript (h : items ≠ []) :
    Form.subscript.spell items = '[' :: (Item.spellings items ++ [']']) := by
  cases items with
  | nil => exact absurd rfl h
  | cons => rfl

theorem Item.spelling_reference (name subscript : List Item) :
    (Item.reference name subscript).spelling = '$' :: '(' ::
      (Item.spellings name ++ (Form.subscript.spell subscript ++ [')'])) := by
  cases subscript with
  | nil => rfl
  | cons item items =>
    rw [Item.spelling, spell_subscript (List.cons_ne_nil _ _), Item.spellings,
      List.cons_append, List.append_assoc _ [']']]
    rfl

-- ================================================= spelling and source

/-- Blanks and comments are what is skipped. -/
theorem Skips.unspaced_eq (h : Skips s t) :
    unspaced false s = unspaced false t := by
  induction h with
  | nothing => rfl
  | blank hc _ ih => rw [unspaced_of_blank hc, ih]
  | comment _ ih => rw [unspaced_hash, unspaced_comment, ih]

/-- Without blanks and comments, a text that items are produced of is their
spelling. -/
theorem Produces.unspaced (h : Produces form s r items) :
    unspaced false s = form.spell items ++ unspaced false r := by
  induction h with
  | nothing | absent => rfl
  | @run a cs s r items _ hcs _ ih =>
    have hinner : ∀ c ∈ cs, isInner c = true := fun c hc =>
      isInner_of_isAlnum (a.isAlnum_of_accepts (hcs c hc))
    rw [unspaced_append hinner, ih]
    exact (List.append_assoc _ _ _).symm
  | «variable» _ _ ihv ih =>
    rw [ihv, ih]
    dsimp only [Form.spell]
    rw [Item.spellings_append, List.append_assoc]
  | index _ hne ih =>
    rw [unspaced_of_inner rfl, ih, unspaced_of_inner rfl, spell_subscript hne]
    simp [Form.spell]
  | range _ _ _ ih ih' =>
    rw [unspaced_of_inner rfl, ih, unspaced_of_inner rfl, ih',
      unspaced_of_inner rfl, spell_subscript (by simp)]
    simp [Form.spell, Item.spellings_append, Item.spellings, Item.spelling]
  | reference hbefore _ _ _ hafter ihname ihsub =>
    rw [unspaced_of_inner rfl, unspaced_of_inner rfl, hbefore.unspaced_eq,
      ihname, ihsub, hafter.unspaced_eq, unspaced_of_inner rfl]
    simp [Form.spell, Item.spellings, Item.spelling_reference]

/-- Items are produced of their spelling, whatever follows. -/
theorem Produces.respelled (h : Produces form s r items) (r' : List Char) :
    Produces form (form.spell items ++ r') r' items := by
  induction h generalizing r' with
  | nothing => exact .nothing
  | absent => exact .absent
  | @run a cs s r items hne hcs _ ih =>
    have h := Produces.run hne hcs (ih r')
    rwa [← List.append_assoc] at h
  | @«variable» a s t r vs items _ _ ihv ih =>
    have h := Produces.variable (ihv (Item.spellings items ++ r')) (ih r')
    dsimp only [Form.spell] at h ⊢
    rwa [← List.append_assoc, ← Item.spellings_append] at h
  | @index s r items _ hne ih =>
    have h := Produces.index (ih (']' :: r')) hne
    rw [spell_subscript hne]
    simpa [Form.spell] using h
  | @range s t r first last _ hne _ ih ih' =>
    have h := Produces.range (ih _) hne (ih' (']' :: r'))
    rw [spell_subscript (by simp)]
    simpa [Form.spell, Item.spellings_append, Item.spellings, Item.spelling]
      using h
  | @reference s t u v r name subscript _ _ hne _ _ ihname ihsub =>
    have h :=
      Produces.reference .nothing (ihname _) hne (ihsub (')' :: r')) .nothing
    simpa [Form.spell, Item.spellings, Item.spelling_reference] using h

-- ================================================ spelling and display

theorem displayParts_glue (part : Part) (parts : List Part) :
    displayParts (part.glue parts) =
      displayParts [part] ++ displayParts parts := by
  rcases part with text | v
  · rcases parts with _ | ⟨text' | v', parts⟩
    · simp [Part.glue, displayParts]
    · simp [Part.glue, displayParts, String.append_assoc]
    · simp [Part.glue, displayParts]
  · simp [Part.glue, displayParts]

mutual

/-- A part displays the spelling of the item that it is. -/
theorem Item.part_display (source : String) :
    ∀ item : Item, (displayParts [item.part source]).toList = item.spelling
  | .run text => by simp [Item.part, displayParts, Item.spelling]
  | .reference name [] => by
    simp [Item.part, displayParts, Variable.display, Identifier.display,
      Item.spelling, Item.parts_display source name]
  | .reference name (item :: items) => by
    simp [Item.part, displayParts, Variable.display, Identifier.display,
      Item.spelling, Item.parts_display source name, displayParts_glue,
      Item.part_display source item, Item.parts_display source items]
termination_by structural item => item

theorem Item.parts_display (source : String) :
    ∀ items : List Item,
      (displayParts (Item.parts source items)).toList = Item.spellings items
  | [] => rfl
  | item :: items => by
    rw [Item.parts, displayParts_glue, String.toList_append, Item.part_display
      source item, Item.parts_display source items, Item.spellings]
termination_by structural items => items

end

mutual

/-- What is displayed does not tell the place. -/
theorem Identifier.mapSpans_display (f : Span → Span) :
    ∀ i : Identifier, (i.mapSpans f).display = i.display
  | ⟨parts, _⟩ => Part.mapAll_display f parts
termination_by structural i => i

theorem Part.mapAll_display (f : Span → Span) :
    ∀ parts : List Part, displayParts (Part.mapAll f parts) = displayParts parts
  | [] => rfl
  | .text text :: parts => congrArg (text ++ ·) (Part.mapAll_display f parts)
  | .variable v :: parts =>
    congrArg₂ (· ++ ·) (Variable.mapSpans_display f v)
      (Part.mapAll_display f parts)
termination_by structural parts => parts

theorem Variable.mapSpans_display (f : Span → Span) :
    ∀ v : Variable, (v.mapSpans f).display = v.display
  | ⟨name, none, _⟩ => by
    rw [Variable.mapSpans, Variable.display, Identifier.mapSpans_display f name,
      Variable.display]
  | ⟨name, some subscript, _⟩ => by
    rw [Variable.mapSpans, Variable.display, Identifier.mapSpans_display f name,
      Identifier.mapSpans_display f subscript, Variable.display]
termination_by structural v => v

end

theorem Identifier.unplaced_display (i : Identifier) :
    i.unplaced.display = i.display :=
  Identifier.mapSpans_display _ i

theorem Variable.unplaced_display (v : Variable) :
    v.unplaced.display = v.display :=
  Variable.mapSpans_display _ v

/-- An identifier of these items displays their spelling. -/
theorem Identifier.display_eq {i : Identifier}
    (h : i.unplaced = Item.identifier source items) :
    i.display.toList = Form.spell (.items .name) items := by
  rw [← i.unplaced_display, h]
  exact Item.parts_display source items

/-- A variable that is this item displays its spelling. -/
theorem Variable.display_eq {v : Variable} {name subscript : List Item}
    (h : v.unplaced = ⟨Item.identifier source name,
      Item.subscript? source subscript, .ofPoint source .origin⟩) :
    v.display.toList = Form.variable.spell [.reference name subscript] := by
  have hpart := Item.part_display source (.reference name subscript)
  rw [Item.part_reference, ← h, displayParts, v.unplaced_display, displayParts,
    String.append_empty] at hpart
  exact hpart.trans (List.append_nil _).symm

-- ====================================================== the round trip

/-- What a variable displays is its text without the blanks and comments in it,
and this is read as the same variable, which displays the same; and so it is
with names. -/
theorem display_round_trip (source text : String) :
    (∀ p, Phrase.parse source .variable text = .ok p → ∃ v, p = .variable v ∧
      v.display.toList = unspaced false text.toList ∧
      ∃ w, Phrase.parse source .variable v.display = .ok (.variable w) ∧
        w.unplaced = v.unplaced ∧ w.display = v.display) ∧
    (∀ p, Phrase.parse source .name text = .ok p → ∃ i, p = .identifier i ∧
      i.display.toList = unspaced false text.toList ∧
      ∃ j, Phrase.parse source .name i.display = .ok (.identifier j) ∧
        j.unplaced = i.unplaced ∧ j.display = i.display) := by
  constructor
  · intro p hp
    obtain ⟨name, subscript, h⟩ := produces_of_parse ⟨p, hp⟩
    obtain ⟨v, hv, heq⟩ := h.parses source
    have hdisplay := Variable.display_eq heq
    have hagain := h.respelled []
    rw [List.append_nil, ← hdisplay] at hagain
    obtain ⟨w, hw, hsame⟩ := hagain.parses source
    have hwv : w.unplaced = v.unplaced := hsame.trans heq.symm
    refine ⟨v, Except.ok.inj (hp.symm.trans hv), ?_, w, hw, hwv, ?_⟩
    · rw [hdisplay, h.unspaced, unspaced, List.append_nil]
    · rw [← w.unplaced_display, hwv, v.unplaced_display]
  · intro p hp
    obtain ⟨items, hne, h⟩ := (name_parses_iff source text).1.mp ⟨p, hp⟩
    obtain ⟨i, hi, heq⟩ := (name_parses_iff source text).2 items hne h
    have hdisplay := Identifier.display_eq heq
    have hagain := h.respelled []
    rw [List.append_nil, ← hdisplay] at hagain
    obtain ⟨j, hj, hsame⟩ :=
      (name_parses_iff source i.display).2 items hne hagain
    have hji : j.unplaced = i.unplaced := hsame.trans heq.symm
    refine ⟨i, Except.ok.inj (hp.symm.trans hi), ?_, j, hj, hji, ?_⟩
    · rw [hdisplay, h.unspaced, unspaced, List.append_nil]
    · rw [← j.unplaced_display, hji, i.unplaced_display]

/-- Blanks and comments, with a sign in them that would end the variable, and a
text in the subscript that is made of a number and a dash. -/
theorem displayed_without_blanks :
    (∃ v w, Phrase.parse "t" .variable "$( # a )\n a$( b )[$(\tn #\r)1-] )" =
      .ok (.variable v) ∧ v.display.toList = "$(a$(b)[$(n)1-])".toList ∧
      Phrase.parse "t" .variable v.display = .ok (.variable w) ∧
      w.unplaced = v.unplaced ∧ w.display = v.display) ∧
    ∃ i j, Phrase.parse "t" .name "a$( b)c" = .ok (.identifier i) ∧
      i.display.toList = "a$(b)c".toList ∧
      Phrase.parse "t" .name i.display = .ok (.identifier j) ∧
      j.unplaced = i.unplaced ∧ j.display = i.display := by
  constructor
  · obtain ⟨p, hp⟩ : (Phrase.parse "t" .variable
        "$( # a )\n a$( b )[$(\tn #\r)1-] )").Succeeds := by
      decide +kernel
    obtain ⟨v, rfl, hdisplay, w, hw⟩ := (display_round_trip "t" _).1 p hp
    exact ⟨v, w, hp, hdisplay.trans (by decide), hw⟩
  · obtain ⟨p, hp⟩ : (Phrase.parse "t" .name "a$( b)c").Succeeds := by
      decide +kernel
    obtain ⟨i, rfl, hdisplay, j, hj⟩ := (display_round_trip "t" _).2 p hp
    exact ⟨i, j, hp, hdisplay.trans (by decide), hj⟩

end Jam
