import SolidityTokens.Proofs.Recognizer.Relocation

/-!
# What lies before the cursor

A recognizer sees the text after its place and the options, and nothing else.
What was read before its place only enters into numbers: the position where it
ends, and the offsets in its record. So a run that is repeated with more text
before it is **the same run, moved to the right** by the size of that text
(`SolidityTokens.Recipe.run_behind`).

This is a statement about two runs on two texts, and it is proved for every
recipe at once, since putting text before a cursor is a relocation that keeps
the options (`SolidityTokens.Relocation.behind`). The one place where positions
are compared, the test whether anything was given back, compares two that are
moved alike.
-/

namespace SolidityTokens

open Recognizer Grammar

variable {α : Type}

/-! ### Moving to the right -/

/-- The event `n` bytes further on. -/
def Event.shift (n : Nat) : Event → Event
  | reverted start position => reverted (n + start) (n + position)
  | recognized kind text start => recognized kind text (n + start)

/-- The span `n` bytes further on. -/
def Span.shift (n : Nat) (span : Span) : Span := ⟨n + span.start, n + span.stop⟩

/-- The literal `n` bytes further on. -/
def Literal.shift (n : Nat) (literal : Literal) : Literal :=
  { literal with span := literal.span.shift n }

namespace Cursor

/-- The same place with more text before it. -/
def behind (front : Text) (c : Cursor) : Cursor := { c with read := c.read ++ front.reverse }

variable (front : Text) (c : Cursor)

@[simp] theorem text_behind : (c.behind front).text = front ++ c.text := by
  simp [behind, Cursor.text]

@[simp] theorem position_behind :
    (c.behind front).position = Text.size front + c.position := by
  rw [behind, position, position, Text.size_append, Text.size_reverse, Nat.add_comm]

theorem advance_behind (n : Nat) : (c.behind front).advance n = (c.advance n).behind front := by
  simp [behind, advance]

end Cursor

/-- What a run leaves behind with more text before it. -/
def Outcome.behind (front : Text) (outcome : Outcome α) : Outcome α :=
  ⟨outcome.value, outcome.cursor.behind front,
    outcome.events.map (Event.shift (Text.size front))⟩

theorem Event.relocate_add (n : Nat) : Event.relocate (n + ·) = Event.shift n := by
  funext event
  cases event <;> rfl

/-- Putting more text before a cursor is a relocation. -/
def Relocation.behind (front : Text) : Relocation where
  cursor := Cursor.behind front
  offset := (Text.size front + ·)
  rest_cursor _ := rfl
  advance_cursor c := c.advance_behind front 1
  rewindTo_cursor _ _ := rfl
  position_cursor := Cursor.position_behind front
  offset_injective := Nat.add_left_cancel

theorem Outcome.relocate_behind (front : Text) (outcome : Outcome α) :
    outcome.relocate (.behind front) = outcome.behind front := by
  rw [Outcome.behind, ← Event.relocate_add]
  rfl

/-- A literal is recorded with its offset, and so it is moved as well. -/
theorem run_recorded_behind (front : Text) {f : Recognizer (LiteralKind × Text)}
    (hf : ∀ c : Cursor, f.run (c.behind front) = (f.run c).behind front) (c : Cursor) :
    (recorded f).run (c.behind front) =
      ⟨((recorded f).run c).value.map (Literal.shift (Text.size front)),
        ((recorded f).run c).cursor.behind front,
        ((recorded f).run c).events.map (Event.shift (Text.size front))⟩ := by
  have hrun : f.run ((Relocation.behind front).cursor c) = (f.run c).relocate (.behind front) :=
    (hf c).trans (Outcome.relocate_behind front _).symm
  rw [← Event.relocate_add]
  exact run_recorded_cursor hrun

/-- **What lies before the cursor moves a run, and does nothing else to it.** -/
theorem Recipe.run_behind {f : Recognizer α} (recipe : Recipe f) (front : Text) (c : Cursor) :
    f.run (c.behind front) = (f.run c).behind front := by
  have hrespects : Respects (.behind front) f := recipe.respects (.behind front) fun _ => rfl
  exact (hrespects.run_cursor c).trans (Outcome.relocate_behind front _)

/-! ### Two runs on two texts -/

/-- **One outcome is another one moved to the right by `n` bytes**: the same was
found, up to the offsets that `move` moves, the position where the run ended is
moved, and the record is the same, event by event, with its offsets moved. -/
structure Outcome.MovedBy (n : Nat) (move : α → α) (outcome moved : Outcome α) : Prop where
  /-- The same was found. -/
  value_eq : moved.value = outcome.value.map move
  /-- The run ended `n` bytes further on. -/
  position_eq : moved.cursor.position = n + outcome.cursor.position
  /-- The same is left to read. -/
  rest_eq : moved.cursor.rest = outcome.cursor.rest
  /-- The same happened, `n` bytes further on. -/
  events_eq : moved.events = outcome.events.map (Event.shift n)

theorem Recipe.movedBy {f : Recognizer α} (recipe : Recipe f) (front : Text) (c : Cursor) :
    (f.run c).MovedBy (Text.size front) id (f.run (c.behind front)) := by
  rw [recipe.run_behind front c]
  exact ⟨Option.map_id.symm ▸ rfl, Cursor.position_behind front _, rfl, rfl⟩

/-- **Recognition ignores what lies before the cursor.** Put any text in front
of a text, and start as many bytes further on: every pattern, the search for a
literal and the one for an elementary type find the same, end as many bytes
further on, and leave the same record with its offsets moved by as many
bytes. -/
theorem recognition_ignores_preceding_text (front text : Text) (offset : Nat)
    (options : Options) (c : Cursor) (hc : Cursor.atOffset? text offset options = some c) :
    ∃ d, Cursor.atOffset? (front ++ text) (Text.size front + offset) options = some d ∧
      (∀ pattern : Pattern, (pattern.recognizer.run c).MovedBy (Text.size front) id
        (pattern.recognizer.run d)) ∧
      (literal.run c).MovedBy (Text.size front) (Literal.shift (Text.size front))
        (literal.run d) ∧
      (elementaryType.run c).MovedBy (Text.size front) id (elementaryType.run d) := by
  obtain ⟨rfl, rfl, rfl⟩ := Cursor.atOffset?_eq_some_iff.mp hc
  have hd : Cursor.atOffset? (front ++ c.text) (Text.size front + c.position) c.options =
      some (c.behind front) :=
    Cursor.atOffset?_eq_some_iff.mpr
      ⟨Cursor.text_behind front c, Cursor.position_behind front c, rfl⟩
  refine ⟨c.behind front, hd, fun pattern => pattern.recipe.movedBy front c, ?_,
    (Recipe.keywordAmong Keyword.elementaryTypes).movedBy front c⟩
  -- A literal carries its span, so here the value is moved too.
  have hliteral := run_recorded_behind front
    ((Recipe.kindAmong LiteralKind.all).run_behind front) c
  rw [literal, literalAmong, hliteral]
  exact ⟨rfl, Cursor.position_behind front _, rfl, rfl⟩

/-- A hex number that is spoiled and given back, after characters of two and of
three bytes, and a loop whose only run fails and leaves a digit read. -/
theorem recognition_ignores_preceding_text_spoiled :
    let front : Text := ['€', '(']
    let c : Cursor := ⟨['é'], "0x_".toList, {}⟩
    let leaking : Pattern := .many (.andThen (.char '0') (.char '0'))
    Cursor.atOffset? "é0x_".toList 2 {} = some c ∧
      ∃ d, Cursor.atOffset? (front ++ "é0x_".toList) (Text.size front + 2) {} = some d ∧
        (leaking.recognizer.run c).MovedBy (Text.size front) id (leaking.recognizer.run d) ∧
        (literal.run c).MovedBy (Text.size front) (Literal.shift (Text.size front))
          (literal.run d) := by
  intro front c leaking
  have hc : Cursor.atOffset? "é0x_".toList 2 {} = some c := by decide
  obtain ⟨d, hd, hpattern, hliteral, -⟩ :=
    recognition_ignores_preceding_text front "é0x_".toList 2 {} c hc
  exact ⟨hc, d, hd, hpattern leaking, hliteral⟩

end SolidityTokens
