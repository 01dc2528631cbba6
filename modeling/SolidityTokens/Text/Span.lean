import SolidityTokens.Text.Basic

/-!
# Spans

A span names the bytes from `start` up to, and not including, `stop`. Nothing
stops a caller from writing the two bounds in the wrong order; such a span has
no length and covers no text.
-/

namespace SolidityTokens

/-- A range of byte offsets. -/
structure Span where
  /-- The offset of the first byte. -/
  start : Nat
  /-- The offset after the last byte. -/
  stop : Nat
deriving DecidableEq, Repr

namespace Span

/-- The empty span at the beginning of a text. -/
def zero : Span := ⟨0, 0⟩

instance : Inhabited Span := ⟨zero⟩

/-- The span between two bounds, which have to be in order. -/
def ofBounds? (start stop : Nat) : Option Span :=
  if start ≤ stop then some ⟨start, stop⟩ else none

/-- The number of bytes in a span, defined when its bounds are in order. -/
def length? (span : Span) : Option Nat :=
  if span.start ≤ span.stop then some (span.stop - span.start) else none

/-- A span is empty when its bounds coincide. -/
def isEmpty (span : Span) : Bool := span.start == span.stop

/-- The text that a span covers: there is one when the bounds are in order and
both are boundaries of the text. -/
def slice? (span : Span) (text : Text) : Option Text :=
  if span.start ≤ span.stop then do
    let (_, back) ← text.split? span.start
    let (middle, _) ← Text.split? back (span.stop - span.start)
    return middle
  else none

/-- **A span covers exactly the middle part of a decomposition of the text at
its two bounds.** -/
theorem slice?_eq_some_iff {span : Span} {text middle : Text} :
    span.slice? text = some middle ↔
      ∃ front back, text = front ++ middle ++ back ∧ Text.size front = span.start ∧
        Text.size (front ++ middle) = span.stop := by
  unfold slice?
  split
  next hle =>
    simp only [bind, Option.bind_eq_some_iff, pure, Prod.exists, Option.some.injEq,
      Text.split?_eq_some_iff, Text.size_append]
    constructor
    · rintro ⟨front, _, ⟨rfl, hfront⟩, _, back, ⟨rfl, hmiddle⟩, rfl⟩
      exact ⟨front, back, by simp, hfront, by omega⟩
    · rintro ⟨front, back, rfl, hfront, hstop⟩
      exact ⟨front, middle ++ back, ⟨by simp, hfront⟩, middle, back, ⟨rfl, by omega⟩, rfl⟩
  next hgt =>
    simp only [reduceCtorEq, Text.size_append, false_iff, not_exists]
    rintro front back ⟨-, hfront, hstop⟩
    omega

end Span

end SolidityTokens
