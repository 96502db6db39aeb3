/-
The texts of tokens.

A token is a node whose text is read, not its children. Two sorts of
readings can refuse a text: escape sequences are resolved, and a mark is
looked up among those that there are. Neither does refuse one that the
grammar has made a token of. A backslash is excluded everywhere outside of
escape sequences, so the text of a string or fragment is `Escaped`; and
the marks of comparisons and assignments are those of the syntax.

The tokens that names are made of have no such readings. Their texts are
kept as they are, so it is known of which characters they are made.
-/
import Jam.Proofs.Peg.Spells
import Jam.Proofs.Grammar.Children
import Jam.Proofs.Text.Stands

namespace Jam

open Nonterminal

variable {m : Mode} {t : Node} {x : Char}

-- ========================================================== characters

theorem isOctalDigit_eq (x : Char) :
    isOctalDigit x = (octalDigit? x).isSome := by
  rw [isOctalDigit, octalDigit?, ← Bool.decide_and]
  simp only [apply_ite Option.isSome, Option.isSome_some, Option.isSome_none,
    Bool.if_true_left, Bool.or_false]

theorem isHexDigit_eq (x : Char) : isHexDigit x = (hexDigit? x).isSome := by
  rw [isHexDigit, isDigit, hexDigit?, ← Bool.decide_and, ← Bool.decide_and,
    ← Bool.decide_and]
  simp only [apply_ite Option.isSome, Option.isSome_some, Option.isSome_none,
    Bool.if_true_left, Bool.if_false_right, Bool.or_assoc, Bool.and_true]

-- ==================================================== escape sequences

theorem digit_of_isHexDigit (h : isHexDigit x = true) :
    ∃ v, IsDigit 16 x v := by
  obtain ⟨v, hv⟩ := Option.isSome_iff_exists.mp (isHexDigit_eq x ▸ h)
  exact ⟨v, hexDigit?_eq_some_iff.mp hv⟩

theorem digit_of_isOctalDigit (h : isOctalDigit x = true) :
    ∃ v, IsDigit 8 x v := by
  obtain ⟨v, hv⟩ := Option.isSome_iff_exists.mp (isOctalDigit_eq x ▸ h)
  exact ⟨v, octalDigit?_eq_some_iff.mp hv⟩

/-- Every code point that can be written is one of a character. -/
theorem stands_hex {y : Char} (hx : isHexDigit x = true)
    (hy : isHexDigit y = true) : ∃ e, Stands ['\\', 'x', x, y] e := by
  obtain ⟨high, hx⟩ := digit_of_isHexDigit hx
  obtain ⟨low, hy⟩ := digit_of_isHexDigit hy
  obtain ⟨heq, hlt⟩ := ofDigits_hex_lt hx hy
  exact ⟨_, .hex hx hy ((toNat_ofNat_of_lt hlt).trans heq.symm)⟩

/-- One octal digit and further ones, at most so many together. -/
structure OctalRun (n : Nat) (ds : List Char) : Prop where
  nonempty : ds ≠ []
  length_le : ds.length ≤ n
  digits : ∃ vs, List.Forall₂ (IsDigit 8) ds vs

theorem octalRun_one (hx : isOctalDigit x = true) : OctalRun 1 [x] := by
  obtain ⟨v, hv⟩ := digit_of_isOctalDigit hx
  exact ⟨List.cons_ne_nil x [], Nat.le_refl 1, [v], .cons hv .nil⟩

theorem OctalRun.append {n : Nat} {ds ds' : List Char} (h : OctalRun n ds)
    (h' : ds' = [] ∨ OctalRun 1 ds') : OctalRun (n + 1) (ds ++ ds') := by
  rcases h' with rfl | h'
  · rw [List.append_nil]
    exact ⟨h.nonempty, Nat.le_succ_of_le h.length_le, h.digits⟩
  · obtain ⟨vs, hvs⟩ := h.digits
    obtain ⟨vs', hvs'⟩ := h'.digits
    refine ⟨List.append_ne_nil_of_left_ne_nil h.nonempty ds', ?_, vs ++ vs',
      List.rel_append hvs hvs'⟩
    rw [List.length_append]
    exact Nat.add_le_add h.length_le h'.length_le

theorem OctalRun.stands {ds : List Char} (h : OctalRun 3 ds) :
    ∃ e, Stands ('\\' :: ds) e := by
  obtain ⟨vs, hvs⟩ := h.digits
  exact ⟨_, .octal h.nonempty h.length_le hvs
    (toNat_ofNat_of_lt (ofDigits_octal_lt hvs h.length_le))⟩

theorem spells_signs :
    Spells grammar m escapedSigns fun xs => ∃ e, Stands ('\\' :: xs) e := by
  have sign {text : String} (h : ∃ s ∈ signs, text.toList = [s.1]) :
      Spells grammar m (Peg.lit text) fun xs => ∃ e, Stands ('\\' :: xs) e := by
    obtain ⟨s, hs, ht⟩ := h
    refine .lit ?_
    rw [ht]
    exact ⟨s.2, .sign hs⟩
  exact .alt (sign (by decide)) <| .alt (sign (by decide)) <|
    .alt (sign (by decide)) <| .alt (sign (by decide)) <|
    .alt (sign (by decide)) <| .alt (sign (by decide)) <|
    .alt (sign (by decide)) <| .alt (sign (by decide)) <|
    .alt (sign (by decide)) <| sign (by decide)

/-- What is matched as an escape sequence stands for a character. -/
theorem spells_stands :
    Spells grammar m (nt .escape) fun xs => ∃ e, Stands xs e := by
  refine .call fun m => .seq (P := fun xs => xs = ['\\'])
    (Q := fun xs => ∃ e, Stands ('\\' :: xs) e) (.lit rfl)
    (.alt ?_ (.alt ?_ spells_signs)) ?_
  · -- two hexadecimal digits
    have digit : Spells grammar m (.one isHexDigit) fun xs =>
        ∃ x, xs = [x] ∧ isHexDigit x = true := .one fun x hx => ⟨x, rfl, hx⟩
    refine .seq (P := fun xs => ∃ x, xs = ['x', x] ∧ isHexDigit x = true)
      (.seq (P := fun xs => xs = ['x']) (.lit rfl) digit ?_) digit ?_
    · rintro _ _ rfl ⟨x, rfl, hx⟩
      exact ⟨x, rfl, hx⟩
    · rintro _ _ ⟨x, rfl, hx⟩ ⟨y, rfl, hy⟩
      exact stands_hex hx hy
  · -- up to three octal digits
    have first : Spells grammar m (.one isOctalDigit) (OctalRun 1) :=
      .one fun _ => octalRun_one
    have further : Spells grammar m (.opt (.one isOctalDigit)) fun xs =>
        xs = [] ∨ OctalRun 1 xs :=
      .opt (.one fun _ hx => .inr (octalRun_one hx)) (.inl rfl)
    exact .seq (.seq first further fun _ _ => OctalRun.append) further
      fun _ _ hx hy => (hx.append hy).stands
  · rintro _ ys rfl hy
    exact hy

theorem spells_escape : Spells grammar m (nt .escape) Escaped :=
  fun c d nodes h => by
  obtain ⟨taken, ht, e, hstands⟩ := spells_stands c d nodes h
  exact ⟨taken, ht, hstands.escaped⟩

/-- Escape sequences, and any characters but backslashes. -/
theorem spells_escapes {e : Peg Nonterminal}
    (h : Meets grammar m.notAhead e '\\') :
    Spells grammar m (nt .escape <|> anyBut e) Escaped :=
  .alt spells_escape <| .excluding fun _ hx =>
    .plain (fun heq => hx (heq ▸ h)) .nil

theorem escaped_quoted (h : Is [.quoted] t) : Escaped t.text := by
  refine h.grown.text fun m => ?_
  rw [h.kind_eq]
  exact .many (spells_escapes (.right .lit)) .nil fun _ _ => .append

theorem escaped_unquoted (h : Is [.unquoted] t) : Escaped t.text := by
  refine h.grown.text fun m => ?_
  rw [h.kind_eq]
  have hp : Spells grammar m (Peg.plus (nt .escape <|> anyBut
      (nt .blank <|> Peg.lit "\\" <|> Peg.lit "$(" <|> Peg.one isControl)))
      Escaped :=
    .plus (spells_escapes (.right (.left .lit))) .nil fun _ _ => .append
  exact .seq (.notAhead .nil) hp fun _ _ => .append

theorem escaped_fragment (h : Is [.fragment] t) : Escaped t.text := by
  refine h.grown.text fun m => ?_
  rw [h.kind_eq]
  exact .plus (spells_escapes (.right (.left .lit))) .nil fun _ _ => .append

/-- A fragment has a text, also when its escape sequences are resolved. -/
theorem resolved_fragment_ne_nil (h : Is [.fragment] t) {text : List Char}
    (ht : unescape t.text = some text) : text ≠ [] := by
  refine unescape_ne_nil (h.grown.text_ne_nil ?_) ht
  rw [h.kind_eq]
  rfl

-- ================================================== letters and digits

/-- Characters of one class, and at least one of them. -/
theorem text_of_plus {r : Nonterminal} {accepts : Char → Bool} (h : Is [r] t)
    (hr : grammar.body r = Peg.plus (Peg.one accepts)) :
    t.text ≠ [] ∧ ∀ c ∈ t.text, accepts c = true := by
  have hbody : grammar.body t.kind = Peg.plus (Peg.one accepts) :=
    h.kind_eq ▸ hr
  refine ⟨h.grown.text_ne_nil (by rw [hbody]; rfl),
    h.grown.text (P := fun xs => ∀ c ∈ xs, accepts c = true) fun m => ?_⟩
  rw [hbody]
  exact .plus (.one fun _ hx => List.forall_mem_singleton.mpr hx)
    (List.forall_mem_nil _) fun _ _ hx hy => List.forall_mem_append.mpr ⟨hx, hy⟩

theorem text_identifier (h : Is [.identifier] t) :
    t.text ≠ [] ∧ ∀ c ∈ t.text, isAlnum c = true := text_of_plus h rfl

theorem text_number (h : Is [.number] t) :
    t.text ≠ [] ∧ ∀ c ∈ t.text, isDigit c = true := text_of_plus h rfl

theorem text_rangeDash (h : Is [.rangeDash] t) : t.text = ['-'] := by
  refine h.grown.text (P := (· = ['-'])) fun m => ?_
  rw [h.kind_eq]
  exact .lit rfl

-- =============================================================== marks

theorem mark_compareOp (h : Is [.compareOp] t) :
    ∃ op, CompareOp.ofMark? (String.ofList t.text) = some op := by
  refine h.grown.text
    (P := fun xs => ∃ op, CompareOp.ofMark? (String.ofList xs) = some op)
    fun m => ?_
  rw [h.kind_eq]
  exact .alt (.lit ⟨.ne, rfl⟩) <| .alt (.lit ⟨.le, rfl⟩) <|
    .alt (.lit ⟨.ge, rfl⟩) <|
    .alt (.lit ⟨.eq, rfl⟩) <| .alt (.lit ⟨.lt, rfl⟩) (.lit ⟨.gt, rfl⟩)

theorem mark_assignOp (h : Is [.assignOp] t) :
    ∃ op, AssignOp.ofMark? (String.ofList t.text) = some op := by
  refine h.grown.text
    (P := fun xs => ∃ op, AssignOp.ofMark? (String.ofList xs) = some op)
    fun m => ?_
  rw [h.kind_eq]
  exact .alt (.lit ⟨.append, rfl⟩) <|
    .alt (.lit ⟨.keep, rfl⟩) (.lit ⟨.set, rfl⟩)

end Jam
