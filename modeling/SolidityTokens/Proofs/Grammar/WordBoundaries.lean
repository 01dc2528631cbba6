import SolidityTokens.Proofs.Grammar.Classification
import SolidityTokens.Proofs.Recognizer.Relocation

/-!
# What the end of a word is asked for

Of all parts of the grammar, only the booleans look at the options. So a pattern
that does not mention them makes the same run whether the options ask for the
end of a word or not (`SolidityTokens.Pattern.respects`), and where booleans are
looked for, the two runs come apart at one kind of place only: in front of
`true` or `false` with a character after it that continues the word
(`SolidityTokens.ContinuedBoolean`). There the strict run fails and the lax one
finds the boolean (`SolidityTokens.Recognizer.PartsAtBooleans`).

For the search for a literal this has to be argued. When the strict run rejects
a boolean, the search goes on to other kinds; it finds nothing, because no other
kind begins with `t` or `f`.
-/

namespace SolidityTokens

open Recognizer Grammar

variable {α : Type}

/-! ### The same cursor under other options -/

/-- The same place under other options. -/
def Cursor.under (options : Options) (c : Cursor) : Cursor := { c with options := options }

/-- Changing the options is a relocation; the offsets stay the same. -/
def Relocation.under (options : Options) : Relocation where
  cursor := Cursor.under options
  offset := id
  rest_cursor _ := rfl
  advance_cursor _ := rfl
  rewindTo_cursor _ _ := rfl
  position_cursor _ := rfl
  offset_injective := id

/-- **Two outcomes agree**: the same was found, at the same position, and the
same happened. -/
structure Outcome.Agrees (outcome outcome' : Outcome α) : Prop where
  /-- The same was found. -/
  value_eq : outcome'.value = outcome.value
  /-- The runs ended at the same position. -/
  position_eq : outcome'.cursor.position = outcome.cursor.position
  /-- The same happened. -/
  events_eq : outcome'.events = outcome.events

theorem Event.relocate_id : Event.relocate id = id := by
  funext event
  cases event <;> rfl

theorem agrees_of_run_eq {f : Recognizer α} {options : Options} {c : Cursor}
    (h : f.run (c.under options) = (f.run c).relocate (.under options)) :
    (f.run c).Agrees (f.run (c.under options)) := by
  rw [h]
  refine ⟨rfl, rfl, ?_⟩
  change (f.run c).events.map (Event.relocate id) = (f.run c).events
  rw [Event.relocate_id, List.map_id]

/-! ### The parts of the grammar that do not look at the options -/

section Rules

variable (m : Relocation)

instance {digit : Recognizer Text} [Respects m digit] : Respects m (grouped digit) := by
  rw [grouped]
  infer_instance

instance {digit : Recognizer Text} [Respects m digit] : Respects m (groupedDigits digit) := by
  rw [groupedDigits]
  infer_instance

instance : Respects m identifier := by
  rw [identifier, identifierStart, identifierPart]
  infer_instance

instance (table : Keyword) : Respects m (keyword table) := by
  rw [keyword]
  infer_instance

instance : Respects m elementaryType := by
  rw [elementaryType, keywordAmong]
  infer_instance

instance : Respects m decimalDigits := by
  rw [decimalDigits]
  infer_instance

instance : Respects m hexNumber := by
  rw [hexNumber]
  infer_instance

instance : Respects m decimalNumber := by
  rw [decimalNumber, exponentDigits]
  infer_instance

instance : Respects m numberLiteral := by
  rw [numberLiteral, unitSuffix]
  infer_instance

instance : Respects m escapeSequence := by
  rw [escapeSequence, characterCode, characterCode]
  infer_instance

instance {body : Quote → Recognizer Text} [∀ quote, Respects m (body quote)] :
    Respects m (quoted body) := by
  rw [quoted, openingQuote]
  infer_instance

instance (quote : Quote) : Respects m (plainElement quote) := by
  rw [plainElement]
  infer_instance

instance (quote : Quote) : Respects m (unicodeElement quote) := by
  rw [unicodeElement]
  infer_instance

instance : Respects m hexPairs := by
  rw [hexPairs, hexPair]
  infer_instance

instance : Respects m emptyString := by
  rw [emptyString]
  infer_instance

instance : Respects m quotedString := by
  rw [quotedString]
  infer_instance

instance : Respects m nonEmptyString := by
  rw [nonEmptyString]
  infer_instance

instance : Respects m stringLiteral := by
  rw [stringLiteral]
  infer_instance

instance : Respects m hexString := by
  rw [hexString]
  infer_instance

instance : Respects m unicodeString := by
  rw [unicodeString]
  infer_instance

/-- **Every rule but those of booleans and of literals** makes the same run at a
relocated cursor. -/
theorem Rule.respects {rule : Rule} (hboolean : rule ≠ .booleanLiteral)
    (hliteral : rule ≠ .literal) : Respects m rule.recognizer := by
  cases rule with
  | booleanLiteral => exact absurd rfl hboolean
  | literal => exact absurd rfl hliteral
  | _ =>
    simp only [Rule.recognizer, Grammar.hexStringLiteral, Grammar.unicodeStringLiteral]
    infer_instance

theorem LiteralKind.respects {kind : LiteralKind} (hboolean : kind ≠ .boolean) :
    Respects m (literalOf kind) := by
  cases kind with
  | boolean => exact absurd rfl hboolean
  | _ =>
    simp only [literalOf]
    infer_instance

end Rules

/-! ### Patterns without booleans -/

/-- Whether a pattern mentions booleans: by their rule, by that of literals,
which tries them, or by their kind. -/
def Pattern.mentionsBooleans : Pattern → Bool
  | rule named => named == .booleanLiteral || named == .literal
  | literalOf kind => kind == .boolean
  | andThen first second => first.mentionsBooleans || second.mentionsBooleans
  | orElse first second => first.mentionsBooleans || second.mentionsBooleans
  | atomic body => body.mentionsBooleans
  | times _ body => body.mentionsBooleans
  | many body => body.mentionsBooleans
  | many1 body => body.mentionsBooleans
  | optionally body => body.mentionsBooleans
  | empty => false
  | fail => false
  | satisfy _ => false
  | word _ => false
  | keyword _ => false

/-- **A pattern that does not mention booleans makes the same run at a relocated
cursor.** -/
theorem Pattern.respects (m : Relocation) {pattern : Pattern}
    (h : pattern.mentionsBooleans = false) : Respects m pattern.recognizer := by
  induction pattern with
  | rule named =>
    obtain ⟨hboolean, hliteral⟩ := Bool.or_eq_false_iff.mp h
    exact Rule.respects m (beq_eq_false_iff_ne.mp hboolean) (beq_eq_false_iff_ne.mp hliteral)
  | literalOf kind => exact LiteralKind.respects m (beq_eq_false_iff_ne.mp h)
  | andThen first second ihfirst ihsecond =>
    obtain ⟨hfirst, hsecond⟩ := Bool.or_eq_false_iff.mp h
    have := ihfirst hfirst
    have := ihsecond hsecond
    rw [recognizer]
    infer_instance
  | orElse first second ihfirst ihsecond =>
    obtain ⟨hfirst, hsecond⟩ := Bool.or_eq_false_iff.mp h
    have := ihfirst hfirst
    have := ihsecond hsecond
    rw [recognizer]
    infer_instance
  | atomic body ih | times n body ih | many body ih | many1 body ih | optionally body ih =>
    have := ih h
    rw [recognizer]
    infer_instance
  | empty | fail | satisfy p | word expected | keyword table =>
    rw [recognizer]
    infer_instance

/-! ### Booleans -/

/-- **A boolean is continued**: a text begins with the word `w`, which is `true`
or `false`, and with a character after it that belongs to the same word. -/
def ContinuedBoolean (w t : Text) : Prop :=
  (w = "true".toList ∨ w = "false".toList) ∧
    ∃ ch r, t = w ++ ch :: r ∧ isIdentifierPart ch = true

/-- Two booleans at the beginning of one text are the same. -/
theorem boolean_unique {w w' r r' : Text} (hw : w = "true".toList ∨ w = "false".toList)
    (hw' : w' = "true".toList ∨ w' = "false".toList) (h : w ++ r = w' ++ r') :
    w = w' ∧ r = r' := by
  have hdecides : Decides (word "true".toList <|> word "false".toList) {} _ := decides_trueOrFalse
  exact hdecides.unique hw hw' h

section Boolean

variable {options : Options} {c : Cursor} {w : Text}

/-- After a boolean that is not continued comes no part of a word. -/
theorem avoids_of_not_continued {r : Text} (hw : w = "true".toList ∨ w = "false".toList)
    (h : ¬ContinuedBoolean w (w ++ r)) : Avoids isIdentifierPart r := by
  cases r with
  | nil => exact avoids_nil _
  | cons ch r =>
    rw [avoids_cons, ← Bool.not_eq_true]
    exact fun hch => h ⟨hw, ch, r, rfl, hch⟩

/-- Where no boolean is continued, the end of a word is there whether it is
asked for or not. -/
theorem run_booleanLiteral_under (h : ∀ w, ¬ContinuedBoolean w c.rest) :
    booleanLiteral.run (c.under options) =
      (booleanLiteral.run c).relocate (.under options) := by
  refine run_atomic_cursor (m := .under options) (run_bind_cursor (Respects.run_cursor c) ?_)
  intro m hm
  obtain ⟨read, t, o⟩ := c
  obtain ⟨w, r, rfl, hw⟩ := decides_trueOrFalse.exists_cut (Option.isSome_iff_exists.mpr ⟨m, hm⟩)
  have hr : r.head?.any isIdentifierPart = false := avoids_of_not_continued hw (h w)
  rw [(decides_trueOrFalse.takes hw read).2, run_wordBoundary, run_wordBoundary]
  simp only [Relocation.under, Cursor.under, Cursor.peek, hr, Bool.and_false]
  rfl

/-- A continued boolean is cut off where the end of a word is not asked for. -/
theorem ContinuedBoolean.exists_cut (h : ContinuedBoolean w c.rest) :
    ∃ r, c.rest = w ++ r ∧ BooleanCut ⟨false⟩ w r := by
  obtain ⟨hw, ch, r, hrest, -⟩ := h
  exact ⟨ch :: r, hrest, hw, fun hfalse => absurd hfalse Bool.false_ne_true⟩

/-- Where the end of a word is asked for, nothing is cut off from a continued
boolean. -/
theorem ContinuedBoolean.uncut {t : Text} (h : ContinuedBoolean w t) :
    Uncut (BooleanCut ⟨true⟩) t := by
  obtain ⟨hw, ch, r, rfl, hch⟩ := h
  rintro m r' heq ⟨hm, hr'⟩
  obtain ⟨-, rfl⟩ := boolean_unique hw hm heq
  have havoids := (avoids_cons _ ch r).mp (hr' rfl)
  exact Bool.false_ne_true (havoids.symm.trans hch)

/-- Where the end of a word is not asked for, a continued boolean is found. -/
theorem ContinuedBoolean.run_lax (h : ContinuedBoolean w c.rest) :
    (booleanLiteral.run (c.under ⟨false⟩)).value = some w ∧
      (booleanLiteral.run (c.under ⟨false⟩)).cursor.position = c.position + Text.size w := by
  obtain ⟨read, t, o⟩ := c
  obtain ⟨r, rfl, hcut⟩ := h.exists_cut
  have hsettles : Settles booleanLiteral := settles_literalOf .boolean
  have hvalue : (booleanLiteral.run ⟨read, w ++ r, ⟨false⟩⟩).value = some w :=
    decides_booleanLiteral.value_eq hsettles hcut
  exact ⟨hvalue, (hsettles.reads hvalue).position_eq⟩

/-- No other kind of literal begins like a continued boolean. -/
theorem ContinuedBoolean.value_literalOf (h : ContinuedBoolean w c.rest)
    (hoptions : c.options = ⟨true⟩) (kind : LiteralKind) :
    ((literalOf kind).run c).value = none := by
  obtain ⟨read, t, _⟩ := c
  obtain rfl : _ = (⟨true⟩ : Options) := hoptions
  by_cases hkind : kind = .boolean
  · subst hkind
    exact decides_booleanLiteral.refuses h.uncut read
  · refine kind.decides.refuses (fun m r ht hcut => hkind ?_) read
    obtain ⟨ch, m, rfl, hch⟩ := hcut.ofFirst?
    obtain ⟨rfl | rfl, ch', r', ht', -⟩ := h
    · obtain ⟨rfl, -⟩ := List.cons.inj (ht.symm.trans ht')
      exact Option.some.inj (hch.symm.trans (by decide))
    · obtain ⟨rfl, -⟩ := List.cons.inj (ht.symm.trans ht')
      exact Option.some.inj (hch.symm.trans (by decide))

end Boolean

/-! ### The search for a literal -/

/-- A search among recognizers that fail in place is relocated if each of them
is from where the search begins. -/
theorem run_firstOf_cursor {ι : Type} {f : ι → Recognizer α} {m : Relocation} {c : Cursor}
    (hplace : ∀ i, FailsInPlace (f i)) (is : List ι)
    (h : ∀ i, (f i).run (m.cursor c) = ((f i).run c).relocate m) :
    (firstOf (is.map f)).run (m.cursor c) = ((firstOf (is.map f)).run c).relocate m := by
  induction is with
  | nil => rfl
  | cons i is ih =>
    refine run_orElse_cursor (h i) fun hnone => ?_
    rw [hplace i c hnone]
    exact ih

/-- What is recorded of a search is the same if the search is. -/
theorem agrees_recorded {f : Recognizer (LiteralKind × Text)} {options : Options} {c : Cursor}
    (h : f.run (c.under options) = (f.run c).relocate (.under options)) :
    ((recorded f).run c).Agrees ((recorded f).run (c.under options)) := by
  have hrun : (recorded f).run (c.under options) = _ := run_recorded_cursor (m := .under options) h
  rw [hrun]
  refine ⟨?_, rfl, ?_⟩
  · change ((recorded f).run c).value.map id = ((recorded f).run c).value
    rw [Option.map_id, id]
  · change ((recorded f).run c).events.map (Event.relocate id) = ((recorded f).run c).events
    rw [Event.relocate_id, List.map_id]

/-- Where no boolean is continued, every kind makes the same run, and so does
the search. -/
theorem agrees_literalAmong {options : Options} {c : Cursor} (kinds : List LiteralKind)
    (h : ∀ w, ¬ContinuedBoolean w c.rest) :
    ((literalAmong kinds).run c).Agrees ((literalAmong kinds).run (c.under options)) := by
  rw [literalAmong_eq, kindSearch]
  have hplace := fun kind => (failsInPlace_literalOf kind).bind_pure (Prod.mk kind)
  refine agrees_recorded (run_firstOf_cursor (m := .under options) hplace kinds fun kind => ?_)
  by_cases hkind : kind = .boolean
  · subst hkind
    exact run_bind_cursor (run_booleanLiteral_under h) fun _ _ => rfl
  · have := LiteralKind.respects (.under options) hkind
    exact Respects.run_cursor c

/-! ### Strict and lax runs -/

/-- **A strict and a lax run come apart at continued booleans only**, of a
recognizer `f` that finds `found w` where it finds the boolean `w`. -/
structure Recognizer.PartsAtBooleans (f : Recognizer α) (found : Text → α) (strict lax : Cursor) :
    Prop where
  /-- What is found strictly is found in the lax run as well, and ends at the
  same position. -/
  lax_of_strict : ∀ a, (f.run strict).value = some a →
    (f.run lax).value = some a ∧
      (f.run lax).cursor.position = (f.run strict).cursor.position
  /-- Where no boolean is continued, the runs agree. -/
  agrees : (∀ w, ¬ContinuedBoolean w strict.rest) → (f.run strict).Agrees (f.run lax)
  /-- Where one is, the strict run fails and goes nowhere, and the lax one finds
  the boolean. -/
  parts : ∀ w, ContinuedBoolean w strict.rest →
    (f.run strict).value = none ∧ (f.run strict).cursor.position = strict.position ∧
      (f.run lax).value = some (found w) ∧
      (f.run lax).cursor.position = strict.position + Text.size w

namespace Recognizer.PartsAtBooleans

variable {f : Recognizer α} {found : Text → α} {strict lax : Cursor}

theorem of_agrees_of_parts
    (hagrees : (∀ w, ¬ContinuedBoolean w strict.rest) → (f.run strict).Agrees (f.run lax))
    (hparts : ∀ w, ContinuedBoolean w strict.rest →
      (f.run strict).value = none ∧ (f.run strict).cursor.position = strict.position ∧
        (f.run lax).value = some (found w) ∧
        (f.run lax).cursor.position = strict.position + Text.size w) :
    PartsAtBooleans f found strict lax where
  lax_of_strict a ha := by
    -- The strict run found something, so no boolean is continued.
    have h := hagrees fun w hw => Option.some_ne_none a (ha.symm.trans (hparts w hw).1)
    exact ⟨h.value_eq.trans ha, h.position_eq⟩
  agrees := hagrees
  parts := hparts

theorem bind_pure {β : Type} (h : PartsAtBooleans f found strict lax) (g : α → β) :
    PartsAtBooleans (f >>= fun a => pure (g a)) (fun w => g (found w)) strict lax := by
  refine of_agrees_of_parts (fun hnot => ?_) fun w hw => ?_
  · obtain ⟨hvalue, hposition, hevents⟩ := h.agrees hnot
    rw [run_bind_pure, run_bind_pure, hvalue]
    exact ⟨rfl, hposition, hevents⟩
  · obtain ⟨hstrict, hstays, hlax, hends⟩ := h.parts w hw
    rw [run_bind_pure, run_bind_pure, hstrict, hlax]
    exact ⟨rfl, hstays, rfl, hends⟩

end Recognizer.PartsAtBooleans

/-! ### Booleans and literals -/

section Parts

variable {c : Cursor}

theorem partsAtBooleans_booleanLiteral (hc : c.options = ⟨true⟩) :
    PartsAtBooleans booleanLiteral id c (c.under ⟨false⟩) := by
  refine .of_agrees_of_parts (fun hnot => ?_) fun w hw => ?_
  · exact agrees_of_run_eq (run_booleanLiteral_under hnot)
  · have hnone : (booleanLiteral.run c).value = none := hw.value_literalOf hc .boolean
    have hstays : (booleanLiteral.run c).cursor = c := failsInPlace_literalOf .boolean c hnone
    obtain ⟨hlax, hends⟩ := hw.run_lax
    exact ⟨hnone, congrArg Cursor.position hstays, hlax, hends⟩

/-- The search for a literal finds the boolean, or, if the boolean is rejected,
nothing. -/
theorem partsAtBooleans_literal (hc : c.options = ⟨true⟩) :
    PartsAtBooleans literal
      (fun w => ⟨.boolean, w, ⟨c.position, c.position + Text.size w⟩⟩) c (c.under ⟨false⟩) := by
  refine .of_agrees_of_parts (fun hnot => agrees_literalAmong LiteralKind.all hnot) fun w hw => ?_
  obtain ⟨hnone, hstays⟩ : (literal.run c).value = none ∧ (literal.run c).cursor = c :=
    run_literalAmong_of_none fun kind _ => hw.value_literalOf hc kind
  obtain ⟨hlax, hends⟩ := hw.run_lax
  have hboolean : ((literalOf .boolean).run (c.under ⟨false⟩)).value = some w := hlax
  obtain ⟨hfound, hcursor⟩ := run_literalAmong_of_value (LiteralKind.mem_all _) hboolean
  refine ⟨hnone, congrArg Cursor.position hstays, ?_, ?_⟩
  · rw [← hends]
    exact hfound
  · exact (congrArg Cursor.position hcursor).trans hends

end Parts

/-! ### The main result -/

/-- **What the options ask for concerns booleans only.** At every boundary of
every text: a pattern that does not mention booleans makes the same run, strict
or lax; and where booleans or literals are looked for, the two runs come apart
at continued booleans only. -/
theorem wordBoundaries_influence_booleans_only (text : Text) (start : Nat) (strict lax : Cursor)
    (hstrict : Cursor.atOffset? text start { wordBoundaries := true } = some strict)
    (hlax : Cursor.atOffset? text start { wordBoundaries := false } = some lax) :
    (∀ pattern : Pattern, pattern.mentionsBooleans = false →
      (pattern.recognizer.run strict).Agrees (pattern.recognizer.run lax)) ∧
    PartsAtBooleans Rule.booleanLiteral.recognizer id strict lax ∧
    PartsAtBooleans Rule.literal.recognizer id strict lax ∧
    PartsAtBooleans literal (fun w => ⟨.boolean, w, ⟨start, start + Text.size w⟩⟩)
      strict lax := by
  obtain ⟨rfl, rfl, hoptions⟩ := Cursor.atOffset?_eq_some_iff.mp hstrict
  have hunder : Cursor.atOffset? strict.text strict.position _ = some (strict.under ⟨false⟩) :=
    Cursor.atOffset?_eq_some_iff.mpr ⟨rfl, rfl, rfl⟩
  obtain rfl : strict.under ⟨false⟩ = lax := Option.some.inj (hunder.symm.trans hlax)
  have hliteral := partsAtBooleans_literal hoptions
  refine ⟨fun pattern h => ?_, partsAtBooleans_booleanLiteral hoptions,
    hliteral.bind_pure Literal.text, hliteral⟩
  exact agrees_of_run_eq ((pattern.respects (.under ⟨false⟩) h).run_cursor strict)

/-- A boolean that goes on as a word, after a character of two bytes: the search
for a literal finds nothing if strict and the boolean if lax, and a pattern that
mentions neither reads the word in both runs. -/
theorem wordBoundaries_influence_booleans_only_continued :
    let strict : Cursor := ⟨['é'], "trueish".toList, ⟨true⟩⟩
    let lax : Cursor := ⟨['é'], "trueish".toList, ⟨false⟩⟩
    let pattern : Pattern := .orElse (.rule .numberLiteral) (.many1 (.rule .identifier))
    Cursor.atOffset? "étrueish".toList 2 { wordBoundaries := true } = some strict ∧
      Cursor.atOffset? "étrueish".toList 2 { wordBoundaries := false } = some lax ∧
      pattern.mentionsBooleans = false ∧
      (pattern.recognizer.run lax).value = (pattern.recognizer.run strict).value ∧
      ContinuedBoolean "true".toList strict.rest ∧
      (literal.run strict).value = none ∧
      (literal.run lax).value = some ⟨.boolean, "true".toList, ⟨2, 6⟩⟩ := by
  intro strict lax pattern
  have hstrict : Cursor.atOffset? "étrueish".toList 2 { wordBoundaries := true } = some strict := by
    decide
  have hlax : Cursor.atOffset? "étrueish".toList 2 { wordBoundaries := false } = some lax := by
    decide
  have hpattern : pattern.mentionsBooleans = false := by decide
  have hcontinued : ContinuedBoolean "true".toList strict.rest :=
    ⟨Or.inl rfl, 'i', "sh".toList, rfl, by decide⟩
  obtain ⟨hagrees, -, -, hliteral⟩ :=
    wordBoundaries_influence_booleans_only _ 2 strict lax hstrict hlax
  obtain ⟨hnone, -, hfound, -⟩ := hliteral.parts _ hcontinued
  exact ⟨hstrict, hlax, hpattern, (hagrees pattern hpattern).value_eq, hcontinued, hnone, hfound⟩

end SolidityTokens
