import SolidityTokens.Pattern

/-!
# Sessions

A session is a program that works on one cursor: it runs patterns, looks at the
text, moves, tries things out on a copy, and brackets some of its steps by a
checkpoint that is settled afterwards, by keeping what was read or by giving it
back. Performing a session yields a transcript: the answers of its steps, the
cursor at the end, and the events on the way.

A checkpoint that is dropped gives everything back, like one that is reverted.
What is given back is the place only: options that were changed inside a
checkpoint stay changed.
-/

namespace SolidityTokens

/-- What a single step does. -/
inductive Action where
  /-- Runs a pattern. -/
  | run (pattern : Pattern)
  /-- Looks for a literal. -/
  | literal
  /-- Looks for the name of a sized elementary type. -/
  | elementaryType
  /-- Looks at the cursor. -/
  | state
  /-- Asks for the text that a span covers. -/
  | slice (span : Span)
  /-- Moves to an offset, and possibly changes the options. -/
  | seek (offset : Nat) (wordBoundaries : Option Bool)

/-- How a checkpoint is settled. -/
inductive Ending where
  /-- What was read since the checkpoint stays read. -/
  | commit
  /-- It is given back. -/
  | revert
  /-- The checkpoint is abandoned, which gives it back as well. -/
  | drop
deriving DecidableEq, Repr

/-- A program of steps on one cursor. -/
inductive Session where
  /-- There is nothing more to do. -/
  | done
  /-- A single step, and then the rest. -/
  | act (action : Action) (next : Session)
  /-- Steps on a copy of the cursor, and then the rest on the cursor itself. -/
  | onCopy (steps next : Session)
  /-- Steps under a checkpoint, which is settled before the rest. -/
  | checkpoint (steps : Session) (ending : Ending) (next : Session)

/-- What a step answers. -/
inductive Answer where
  /-- The match of a pattern, and the position after it. -/
  | run (found : Option Text) (position : Nat)
  /-- The literal, and the position after it. -/
  | literal (found : Option Literal) (position : Nat)
  /-- The type name with its table, and the position after it. -/
  | elementaryType (found : Option (Keyword × Text)) (position : Nat)
  /-- The cursor as it stands. -/
  | state (cursor : Cursor)
  /-- The text that a span covers. -/
  | slice (found : Option Text)
  /-- Whether the offset could be moved to, and the position now. -/
  | seek (success : Bool) (position : Nat)
  /-- The answers on the copy, where the copy ended, and the position of the
  cursor itself. -/
  | onCopy (answers : List Answer) (copyPosition position : Nat)
  /-- The answers under the checkpoint, the span from its start to where they
  ended, the text that was kept, and the position after settling. -/
  | checkpoint (answers : List Answer) (span : Span) (kept : Option Text) (position : Nat)

/-- What performing steps leaves behind. -/
structure Transcript where
  /-- The answers, in order. -/
  answers : List Answer
  /-- Where the cursor stands now. -/
  cursor : Cursor
  /-- What happened, in order. -/
  events : List Event

namespace Transcript

/-- Goes on from where the cursor stands. -/
def andThen (transcript : Transcript) (next : Cursor → Transcript) : Transcript :=
  let later := next transcript.cursor
  ⟨transcript.answers ++ later.answers, later.cursor, transcript.events ++ later.events⟩

/-- The transcript of a single answer. -/
def ofOutcome {α : Type} (outcome : Outcome α) (answer : Option α → Nat → Answer) :
    Transcript :=
  ⟨[answer outcome.value outcome.cursor.position], outcome.cursor, outcome.events⟩

end Transcript

/-- Moves the cursor to an offset of its text, with the word boundary option
changed if a new value is given. Nothing changes when the offset is no
boundary. -/
def Cursor.seek? (c : Cursor) (offset : Nat) (wordBoundaries : Option Bool) : Option Cursor :=
  atOffset? c.text offset ⟨wordBoundaries.getD c.options.wordBoundaries⟩

/-- Performs a single step. -/
def Action.perform : Action → Cursor → Transcript
  | .run pattern, c => .ofOutcome (pattern.recognizer.run c) .run
  | .literal, c => .ofOutcome (Grammar.literal.run c) .literal
  | .elementaryType, c => .ofOutcome (Grammar.elementaryType.run c) .elementaryType
  | .state, c => ⟨[.state c], c, []⟩
  | .slice span, c => ⟨[.slice (c.slice? span)], c, []⟩
  | .seek offset wordBoundaries, c =>
    match c.seek? offset wordBoundaries with
    | some moved => ⟨[.seek true moved.position], moved, []⟩
    | none => ⟨[.seek false c.position], c, []⟩

/-- Settles a checkpoint that was opened at `start`, after the steps under
it. -/
def Ending.settle (ending : Ending) (start : Cursor) (inner : Transcript) : Transcript :=
  let span : Span := ⟨start.position, inner.cursor.position⟩
  match ending with
  | .commit =>
    ⟨[.checkpoint inner.answers span (some (inner.cursor.textSince start))
        inner.cursor.position],
      inner.cursor, inner.events⟩
  | .revert | .drop =>
    ⟨[.checkpoint inner.answers span none start.position],
      inner.cursor.rewindTo start,
      inner.events ++ Recognizer.revertEvents start.position inner.cursor.position⟩

namespace Session

/-- **Performs a session from a cursor.** -/
def perform : Session → Cursor → Transcript
  | done, c => ⟨[], c, []⟩
  | act action next, c => (action.perform c).andThen next.perform
  | onCopy steps next, c =>
    let inner := steps.perform c
    Transcript.andThen
      ⟨[.onCopy inner.answers inner.cursor.position c.position], c, inner.events⟩ next.perform
  | checkpoint steps ending next, c =>
    (ending.settle c (steps.perform c)).andThen next.perform

end Session

end SolidityTokens
