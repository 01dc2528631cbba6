import SolidityTokens.Session
import SolidityTokens.Proofs.Recognizer.Recipe

/-!
# A machine on byte offsets

Cursors are places by construction, and nothing that a cursor does can go wrong.
The machine of this file makes no such promise. Its state is a text, a
**number** that is meant as a byte offset into it, the options, and the numbers
that were noted when checkpoints were opened. Whatever it wants to see of the
text it has to cut out between two numbers, and there are three ways to get
stuck:

* a cut whose bounds are in the wrong order, lie past the end of the text or
  split a character (`SolidityTokens.Span.slice?`);
* a span or a length asked for between bounds in the wrong order
  (`SolidityTokens.Span.ofBounds?`, `SolidityTokens.Span.length?`);
* a loop whose body leaves the number behind where it was, or past the end of
  the text.

An operation that gets stuck answers `none`. What an operation leaves behind
otherwise is a reply, which has, next to the value, the new state and the
events, a log of **every** state on the way and of what led to it.

Recipes say how recognizers are put together, so a recipe is also a program for
the machine (`SolidityTokens.Recipe.exec`), and so is a session
(`SolidityTokens.Session.exec`).
-/

namespace SolidityTokens

open Recognizer

/-- The state of the machine. -/
structure Machine where
  /-- The whole text. -/
  text : Text
  /-- The number that is meant as the byte offset of the place. -/
  position : Nat
  /-- The options in force. -/
  options : Options
  /-- The numbers noted for the checkpoints that are open, innermost first. -/
  opened : List Nat

namespace Machine

/-- What can change the state of the machine. -/
inductive Cause where
  /-- A character was read. -/
  | moved
  /-- A checkpoint was opened. -/
  | opened
  /-- A checkpoint was settled, by keeping what was read or by giving it
  back. -/
  | settled
  /-- The place was replaced by another one, possibly under other options. -/
  | replaced
deriving DecidableEq, Repr

/-- An entry of the log: a state, and what led to it. -/
structure Point where
  /-- What led to the state. -/
  cause : Cause
  /-- The state. -/
  machine : Machine

/-- What an operation leaves behind, if it does not get stuck. -/
structure Reply (α : Type) where
  /-- What was found; `none` is a failure, which is not the same as being
  stuck. -/
  value : Option α
  /-- The state afterwards. -/
  machine : Machine
  /-- What happened, in order. -/
  events : List Event
  /-- The states on the way, in order. -/
  log : List Point

variable {α β : Type}

/-! ### Looking at the text -/

/-- The text from the place to the end. -/
def remaining (m : Machine) : Option Text := Span.slice? ⟨m.position, Text.size m.text⟩ m.text

/-- The next character, if there is one. -/
def peek (m : Machine) : Option (Option Char) := m.remaining.map List.head?

/-- The span from the start of the innermost checkpoint to the place. -/
def span (m : Machine) : Option Span := do
  let start ← m.opened.head?
  Span.ofBounds? start m.position

/-- The number of bytes since the innermost checkpoint was opened. -/
def length (m : Machine) : Option Nat := do
  let start ← m.opened.head?
  Span.length? ⟨start, m.position⟩

/-! ### Checkpoints -/

/-- Opens a checkpoint. -/
def checkpoint (m : Machine) : Machine := { m with opened := m.position :: m.opened }

/-- Settles the innermost checkpoint by keeping what was read since, and answers
with it. -/
def commit (m : Machine) : Option (Text × Machine) :=
  match m.opened with
  | [] => none
  | start :: opened => do
    let kept ← Span.slice? ⟨start, m.position⟩ m.text
    return (kept, { m with opened := opened })

/-- Settles the innermost checkpoint by going back to its start. -/
def rewind (m : Machine) : Option (List Event × Machine) :=
  match m.opened with
  | [] => none
  | start :: opened =>
    some (revertEvents start m.position, { m with position := start, opened := opened })

/-! ### Operations on runs -/

/-- The reply of an operation that changes nothing. -/
def answer (m : Machine) (value : Option α) : Reply α := ⟨value, m, [], []⟩

/-- The reply that comes after another one. -/
def Reply.followedBy (first : Reply α) (second : Reply β) : Reply β :=
  ⟨second.value, second.machine, first.events ++ second.events, first.log ++ second.log⟩

/-- Reads one character with the property `p`. -/
def satisfy (p : Char → Bool) (m : Machine) : Option (Reply Text) := do
  match ← m.peek with
  | none => return m.answer none
  | some ch =>
    if p ch then
      let moved : Machine := { m with position := m.position + ch.utf8Size }
      let found ← Span.slice? ⟨m.position, moved.position⟩ m.text
      return ⟨some found, moved, [], [⟨.moved, moved⟩]⟩
    else return m.answer none

/-- Fails when the next character has the property `p`. -/
def notFollowedBy (p : Char → Bool) (m : Machine) : Option (Reply Unit) := do
  let next ← m.peek
  return m.answer (if next.any p then none else some ())

/-- Fails inside a word; looks at the text only if the options ask for it. -/
def wordBoundary (m : Machine) : Option (Reply Unit) :=
  if m.options.wordBoundaries then m.notFollowedBy Grammar.isIdentifierPart
  else some (m.answer (some ()))

/-- Runs `f` and, if it finds something, goes on. -/
def bind (f : Machine → Option (Reply α)) (g : α → Machine → Option (Reply β)) (m : Machine) :
    Option (Reply β) := do
  let first ← f m
  match first.value with
  | none => return ⟨none, first.machine, first.events, first.log⟩
  | some a => return first.followedBy (← g a first.machine)

/-- Runs `f` and, if it fails, runs `g` from there. -/
def orElse (f g : Machine → Option (Reply α)) (m : Machine) : Option (Reply α) := do
  let first ← f m
  match first.value with
  | none => return first.followedBy (← g first.machine)
  | some _ => return first

/-- Runs `mark`; if it matches, `body` has to match after it. -/
def whenMatched (mark : Machine → Option (Reply α)) (body : Machine → Option (Reply β))
    (m : Machine) : Option (Reply Unit) := do
  let first ← mark m
  match first.value with
  | none => return ⟨some (), first.machine, first.events, first.log⟩
  | some _ =>
    let second := first.followedBy (← body first.machine)
    return ⟨second.value.map fun _ => (), second.machine, second.events, second.log⟩

/-- Runs `body` under a checkpoint of its own, which is settled by what it
finds. -/
def atomic (body : Machine → Option (Reply α)) (m : Machine) : Option (Reply Text) := do
  let reply ← body m.checkpoint
  let before := ⟨.opened, m.checkpoint⟩ :: reply.log
  match reply.value with
  | some _ =>
    let (kept, settled) ← reply.machine.commit
    return ⟨some kept, settled, reply.events, before ++ [⟨.settled, settled⟩]⟩
  | none =>
    let (events, settled) ← reply.machine.rewind
    return ⟨none, settled, reply.events ++ events, before ++ [⟨.settled, settled⟩]⟩

/-- Runs `body` as a unit; where it fails, the answer is the text between the
place and itself, which is cut out beforehand. -/
def optionally (body : Machine → Option (Reply α)) (m : Machine) : Option (Reply Text) := do
  let empty ← Span.slice? ⟨m.position, m.position⟩ m.text
  let reply ← m.atomic body
  return ⟨some (reply.value.getD empty), reply.machine, reply.events, reply.log⟩

/-- Runs `body` until it fails or leaves the place where it was. The loop is
stuck when the place went back, or past the end of the text. -/
def loop (body : Machine → Option (Reply α)) (m : Machine) : Option (Reply Unit) :=
  match body m with
  | none => none
  | some reply =>
    if reply.value.isNone ∨ reply.machine.position = m.position then
      some ⟨some (), reply.machine, reply.events, reply.log⟩
    else if reply.machine.text = m.text ∧ m.position < reply.machine.position ∧
        reply.machine.position ≤ Text.size m.text then do
      return reply.followedBy (← loop body reply.machine)
    else none
termination_by Text.size m.text - m.position
decreasing_by
  rename_i h
  rw [h.1]
  omega

/-- Runs `body` as often as possible under a checkpoint, and keeps what it
read. -/
def many (body : Machine → Option (Reply α)) (m : Machine) : Option (Reply Text) := do
  let reply ← loop body m.checkpoint
  let (kept, settled) ← reply.machine.commit
  return ⟨some kept, settled, reply.events,
    ⟨.opened, m.checkpoint⟩ :: reply.log ++ [⟨.settled, settled⟩]⟩

/-- Runs `body` and records the literal that it finds, with its span. -/
def recorded (body : Machine → Option (Reply (LiteralKind × Text))) (m : Machine) :
    Option (Reply Literal) := do
  let reply ← body m
  match reply.value with
  | none => return ⟨none, reply.machine, reply.events, reply.log⟩
  | some found =>
    let span ← Span.ofBounds? m.position reply.machine.position
    return ⟨some ⟨found.1, found.2, span⟩, reply.machine,
      reply.events ++ [.recognized found.1 found.2 m.position], reply.log⟩

/-- Another view of what a reply found. -/
def Reply.map (view : α → β) (reply : Reply α) : Reply β :=
  ⟨reply.value.map view, reply.machine, reply.events, reply.log⟩

end Machine

/-- **A recipe as a program for the machine.** -/
def Recipe.exec {α : Type} {f : Recognizer α} : Recipe f → Machine → Option (Machine.Reply α)
  | .pure a, m => some (m.answer (some a))
  | .fail, m => some (m.answer none)
  | .satisfy p, m => m.satisfy p
  | .notFollowedBy p, m => m.notFollowedBy p
  | .wordBoundary, m => m.wordBoundary
  | .bind first second, m => m.bind first.exec fun a => (second a).exec
  | .orElse first second, m => m.orElse first.exec second.exec
  | .whenMatched mark body, m => m.whenMatched mark.exec body.exec
  | .atomic body, m => m.atomic body.exec
  | .optionally body, m => m.optionally body.exec
  | .many body, m => m.many body.exec
  | .literalText body, m => (m.recorded body.exec).map (·.map Literal.text)

/-! ### Sessions on the machine -/

namespace Machine

/-- What performing steps leaves behind, if no step gets stuck. -/
structure Report where
  /-- The answers, in order. -/
  answers : List Answer
  /-- The state afterwards. -/
  machine : Machine
  /-- What happened, in order. -/
  events : List Event
  /-- The states on the way, in order. -/
  log : List Point

/-- The report of a single answer. -/
def Reply.report {α : Type} (reply : Reply α) (answer : Option α → Nat → Answer) : Report :=
  ⟨[answer reply.value reply.machine.position], reply.machine, reply.events, reply.log⟩

/-- Goes on from the state in which a step leaves the machine. -/
def Report.andThen (first : Report) (next : Machine → Option Report) : Option Report := do
  let later ← next first.machine
  return ⟨first.answers ++ later.answers, later.machine, first.events ++ later.events,
    first.log ++ later.log⟩

/-- Replaces the place and the options, if the offset is a boundary of the
text. -/
def seek (m : Machine) (offset : Nat) (wordBoundaries : Option Bool) : Report :=
  if (m.text.split? offset).isSome then
    let moved : Machine :=
      { m with position := offset, options := ⟨wordBoundaries.getD m.options.wordBoundaries⟩ }
    ⟨[.seek true offset], moved, [], [⟨.replaced, moved⟩]⟩
  else ⟨[.seek false m.position], m, [], []⟩

end Machine

/-- A single step on the machine. -/
def Action.exec : Action → Machine → Option Machine.Report
  | .run pattern, m => (pattern.recipe.exec m).map (·.report .run)
  | .literal, m =>
    (m.recorded (Recipe.kindAmong LiteralKind.all).exec).map (·.report .literal)
  | .elementaryType, m =>
    ((Recipe.keywordAmong Keyword.elementaryTypes).exec m).map (·.report .elementaryType)
  | .state, m => do
    let place ← Cursor.atOffset? m.text m.position m.options
    return ⟨[.state place], m, [], []⟩
  | .slice span, m => some ⟨[.slice (span.slice? m.text)], m, [], []⟩
  | .seek offset wordBoundaries, m => some (m.seek offset wordBoundaries)

/-- Settles the checkpoint that was opened in the state `start`, after its span
and its length have been asked for. -/
def Ending.exec (ending : Ending) (start : Machine) (inner : Machine.Report) :
    Option Machine.Report := do
  let span ← inner.machine.span
  let _ ← inner.machine.length
  let before := ⟨.opened, start.checkpoint⟩ :: inner.log
  match ending with
  | .commit =>
    let (kept, settled) ← inner.machine.commit
    return ⟨[.checkpoint inner.answers span (some kept) settled.position], settled,
      inner.events, before ++ [⟨.settled, settled⟩]⟩
  | .revert | .drop =>
    let (events, settled) ← inner.machine.rewind
    return ⟨[.checkpoint inner.answers span none settled.position], settled,
      inner.events ++ events, before ++ [⟨.settled, settled⟩]⟩

/-- **A session as a program for the machine.** A copy of the cursor has no
checkpoints; its states are not states of the cursor and do not appear in the
log. -/
def Session.exec : Session → Machine → Option Machine.Report
  | done, m => some ⟨[], m, [], []⟩
  | act action next, m => do (← action.exec m).andThen next.exec
  | onCopy steps next, m => do
    let inner ← steps.exec { m with opened := [] }
    Machine.Report.andThen
      ⟨[.onCopy inner.answers inner.machine.position m.position], m, inner.events, []⟩ next.exec
  | checkpoint steps ending next, m => do
    let inner ← steps.exec m.checkpoint
    (← ending.exec m inner).andThen next.exec

end SolidityTokens
