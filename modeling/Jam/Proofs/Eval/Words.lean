/-
What reading words can give.

Four facts about readings that statements about runs go by.

- A literal name, one without variables in it, is read as its text in every
  environment, without a warning (`Identifier.resolve_of_literal`).
- Reading several lists gives as many values (`length_of_listValues`).
- If a reading fails, the error names one place, and its cause is a variable
  that does not fit into a name or a subscript that is none
  (`Reading.Sound`). In particular no reading fails because of the
  number of invocations, and none fails with the syntax.
- The warnings of a reading are about variables that have no value and
  subscripts that do not fit (`Reading.Built.warnings`).

The last two hold of everything that is put together from warnings and
failures of these kinds (`Reading.Built`), and along the syntax it is only
shown that words, lists and conditions are.
-/
import Jam.Eval.Words

namespace Jam

-- ======================================================= literal names

/-- The text of parts that are all text. -/
def literalParts? : List Part → Option String
  | [] => some ""
  | .text text :: parts => (literalParts? parts).map (text ++ ·)
  | .variable _ :: _ => none

/-- The text of a name without variables in it. -/
def Identifier.literal? (i : Identifier) : Option String :=
  literalParts? i.parts

theorem resolveParts_of_literal (env : Environment) :
    ∀ (parts : List Part) {text : String}, literalParts? parts = some text →
      resolveParts env parts = pure text
  | [], _, h => by
    cases h
    rfl
  | .text head :: parts, _, h => by
    obtain ⟨tail, htail, rfl⟩ := Option.map_eq_some_iff.mp h
    rw [resolveParts, resolveParts_of_literal env parts htail]
    rfl
  | .variable _ :: _, _, h => nomatch h

/-- A literal name is its text, whatever the variables are. -/
theorem Identifier.resolve_of_literal (env : Environment) {i : Identifier}
    {text : String} (h : i.literal? = some text) :
    i.resolve env = pure text := by
  cases i with
  | mk parts span =>
    rw [Identifier.resolve]
    exact resolveParts_of_literal env parts h

-- =================================================== numbers of values

/-- What follows a reading in a reading sees its value and its warnings. -/
theorem Reading.run_bind {α β : Type} (x : Reading α) (f : α → Reading β)
    (warnings : Array Warning) :
    (x >>= f).run.run warnings =
      match x.run.run warnings with
      | (.ok a, warnings) => (f a).run.run warnings
      | (.error e, warnings) => (.error e, warnings) := by
  change (match x.run.run warnings with
    | (r, warnings) => (ExceptT.bindCont f r : StateM _ _).run warnings) = _
  rcases x.run.run warnings with ⟨_ | _, _⟩ <;> rfl

theorem length_of_mapM_run {α β : Type} {f : α → Reading β} {as : List α}
    {bs : List β} {warnings : Array Warning}
    (h : ((as.mapM f).run.run warnings).1 = .ok bs) :
    bs.length = as.length := by
  induction as generalizing bs warnings with
  | nil =>
    cases h
    rfl
  | cons a as ih =>
    rw [List.mapM_cons, Reading.run_bind] at h
    split at h
    · next b middle _ =>
      rw [Reading.run_bind] at h
      split at h
      · next bs' last hrun =>
        cases h
        have hlen : bs'.length = as.length := ih (by rw [hrun])
        simp [hlen]
      · cases h
    · cases h

/-- Several lists have as many values. -/
theorem length_of_listValues {env : Environment} {ls : List WordList}
    {values : List Value} (h : (listValues env ls).results.1 = .ok values) :
    values.length = ls.length :=
  length_of_mapM_run h

-- ================================================== errors of readings

/-- The causes for which a reading can fail. -/
def Cause.OfReading : Cause → Prop
  | .identifierArity .. | .identifierCharacter .. | .badSubscript _ => True
  | .ungrammatical _ | .recursionLimit .. | .internal _ => False

/-- An error of a reading: one place, and a cause that readings have. -/
def Error.OfReading (e : Error) : Prop :=
  ∃ cause span, e = .found cause span ∧ cause.OfReading

/-- The kinds of warnings that readings have. -/
def WarningKind.OfReading : WarningKind → Prop
  | .unsetVariable | .subscriptOutOfRange => True
  | .undefinedRule | .strayControlFlow => False

namespace Reading

/-- The reading fails with errors of readings only. -/
structure Sound {α : Type} (r : Reading α) : Prop where
  errors : ∀ warnings e, (r.run.run warnings).1 = .error e → e.OfReading

/-- What the whole reading fails with is an error of readings. -/
theorem Sound.results {α : Type} {r : Reading α} (h : Sound r) {e : Error}
    (he : r.results.1 = .error e) : e.OfReading := h.errors #[] e he

/-- What is put together from values, and from the errors and the warnings that
readings have. -/
inductive Built : {α : Type} → Reading α → Prop
  | pure {α : Type} (a : α) : Built (Pure.pure a : Reading α)
  | fail {α : Type} {cause : Cause} (h : cause.OfReading) (span : Span) :
      Built (Reading.fail cause span : Reading α)
  | warn {kind : WarningKind} (h : kind.OfReading) (message : String)
      (span : Span) : Built (Reading.warn kind message span)
  | bind {α β : Type} {x : Reading α} {f : α → Reading β} :
      Built x → (∀ a, Built (f a)) → Built (x >>= f)

namespace Built

theorem sound {α : Type} {r : Reading α} (h : Built r) : Sound r := by
  induction h with
  | pure a => exact ⟨fun _ _ h => nomatch h⟩
  | @fail _ cause hc span =>
    refine ⟨fun _ e he => ?_⟩
    cases he
    exact ⟨cause, span, rfl, hc⟩
  | warn => exact ⟨fun _ _ h => nomatch h⟩
  | bind _ _ hx hf =>
    refine ⟨fun warnings e h => ?_⟩
    rw [run_bind] at h
    split at h
    · next a warnings' _ => exact (hf a).errors warnings' e h
    · next e' warnings' hrun =>
      cases h
      exact hx.errors warnings e (by rw [hrun])

/-- Warnings are added to those there are, and are of the kinds that readings
have. -/
theorem run_warnings {α : Type} {r : Reading α} (h : Built r)
    (warnings : Array Warning) :
    ∃ more : List Warning, (r.run.run warnings).2 = warnings ++ more.toArray ∧
      ∀ w ∈ more, w.kind.OfReading := by
  induction h generalizing warnings with
  | pure | fail => exact ⟨[], Array.append_empty.symm, List.forall_mem_nil _⟩
  | warn hk message span =>
    exact ⟨[_], Array.push_eq_append, List.forall_mem_singleton.mpr hk⟩
  | bind _ _ hx hf =>
    obtain ⟨more, hmore, hkinds⟩ := hx warnings
    rw [run_bind]
    split
    · next a middle hrun =>
      rw [hrun] at hmore
      obtain ⟨more', hmore', hkinds'⟩ := hf a middle
      refine ⟨more ++ more', ?_, List.forall_mem_append.mpr ⟨hkinds, hkinds'⟩⟩
      have hmiddle : middle = warnings ++ more.toArray := hmore
      rw [hmore', hmiddle]
      exact Array.append_assoc.trans
        (congrArg (warnings ++ ·) (List.append_toArray more more'))
    · next e middle hrun =>
      rw [hrun] at hmore
      exact ⟨more, hmore, hkinds⟩

theorem warnings {α : Type} {r : Reading α} (h : Built r) :
    ∀ w ∈ r.results.2.toList, w.kind.OfReading := by
  obtain ⟨more, hmore, hkinds⟩ := h.run_warnings #[]
  have hall : r.results.2.toList = more := by
    rw [results, hmore]
    simp
  rw [hall]
  exact hkinds

end Built

end Reading

section Words

open Reading (Built Sound)

variable (env : Environment)

theorem Variable.asPart_built (v : Variable) (value : Value) :
    Built (v.asPart value) := by
  unfold Variable.asPart
  split
  · split
    · exact .pure _
    · exact .fail (by trivial) _
  · exact .fail (by trivial) _

theorem valueOrUnset_built (name : String) (span : Span) :
    Built (valueOrUnset env name span) := by
  unfold valueOrUnset
  split
  · exact .pure _
  · exact .bind (.warn (by trivial) ..) fun _ => .pure _

theorem selection_built (value : Value) (text : String) (span : Span) :
    Built (selection value text span) := by
  unfold selection
  split
  · exact .fail (by trivial) _
  · split
    · exact .pure _
    · exact .bind (.warn (by trivial) ..) fun _ => .pure _

mutual

theorem Identifier.resolve_built : ∀ i : Identifier, Built (i.resolve env)
  | ⟨parts, _⟩ => by
    rw [Identifier.resolve]
    exact resolveParts_built parts
termination_by structural i => i

theorem resolveParts_built : ∀ parts : List Part, Built (resolveParts env parts)
  | [] => .pure ""
  | .text text :: parts => by
    rw [resolveParts]
    exact .bind (resolveParts_built parts) fun _ => .pure _
  | .variable v :: parts => by
    rw [resolveParts]
    refine .bind (Variable.value_built v) fun value => ?_
    refine .bind (v.asPart_built value) fun text => ?_
    exact .bind (resolveParts_built parts) fun _ => .pure _
termination_by structural parts => parts

theorem Variable.value_built : ∀ v : Variable, Built (v.value env)
  | ⟨name, none, span⟩ => by
    rw [Variable.value]
    exact .bind (Identifier.resolve_built name) fun name =>
      valueOrUnset_built env name span
  | ⟨name, some subscript, span⟩ => by
    rw [Variable.value]
    refine .bind (Identifier.resolve_built name) fun name => ?_
    refine .bind (valueOrUnset_built env name span) fun value => ?_
    exact .bind (Identifier.resolve_built subscript) fun text =>
      selection_built value text subscript.span
termination_by structural v => v

end

theorem Word.value_built (w : Word) : Built (w.value env) :=
  match w with
  | .literal _ => .pure _
  | .identifier i => .bind (i.resolve_built env) fun _ => .pure _
  | .variable v => v.value_built env

theorem wordsValue_built : ∀ ws : List Word, Built (wordsValue env ws)
  | [] => .pure []
  | w :: ws =>
    .bind (w.value_built env) fun _ =>
      .bind (wordsValue_built ws) fun _ => .pure _

theorem WordList.value_built (l : WordList) : Built (l.value env) :=
  wordsValue_built env l.items

theorem listValues_built (ls : List WordList) : Built (listValues env ls) := by
  unfold listValues
  induction ls with
  | nil => exact .pure []
  | cons l ls ih =>
    rw [List.mapM_cons]
    exact .bind (l.value_built env) fun _ => .bind ih fun _ => .pure _

mutual

theorem Condition.holds_built : ∀ c : Condition, Built (c.holds env)
  | .truth word => by
    rw [Condition.holds]
    exact .bind (word.value_built env) fun _ => .pure _
  | .compare left op right => by
    rw [Condition.holds]
    exact .bind (left.value_built env) fun _ =>
      .bind (right.value_built env) fun _ => .pure _
  | .member element list => by
    rw [Condition.holds]
    exact .bind (element.value_built env) fun _ =>
      .bind (list.value_built env) fun _ => .pure _
  | .not condition => by
    rw [Condition.holds]
    exact .bind (Condition.holds_built condition) fun _ => .pure _
  | .and terms => by
    rw [Condition.holds]
    exact allHold_built terms
  | .or terms => by
    rw [Condition.holds]
    exact someHolds_built terms

theorem allHold_built : ∀ cs : List Condition, Built (allHold env cs)
  | [] => .pure true
  | c :: cs => by
    rw [allHold]
    refine .bind (Condition.holds_built c) fun holds => ?_
    split
    · exact allHold_built cs
    · exact .pure false

theorem someHolds_built : ∀ cs : List Condition, Built (someHolds env cs)
  | [] => .pure false
  | c :: cs => by
    rw [someHolds]
    refine .bind (Condition.holds_built c) fun holds => ?_
    split
    · exact .pure true
    · exact someHolds_built cs

end

theorem Identifier.resolve_sound (i : Identifier) : Sound (i.resolve env) :=
  (i.resolve_built env).sound

theorem Variable.value_sound (v : Variable) : Sound (v.value env) :=
  (v.value_built env).sound

theorem WordList.value_sound (l : WordList) : Sound (l.value env) :=
  (l.value_built env).sound

theorem listValues_sound (ls : List WordList) : Sound (listValues env ls) :=
  (listValues_built env ls).sound

theorem Condition.holds_sound (c : Condition) : Sound (c.holds env) :=
  (c.holds_built env).sound

end Words

end Jam
