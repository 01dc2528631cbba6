import SolidityTokens.Grammar.Quoted

/-!
# Literals

A literal is found by trying its five kinds in order, and the text that was read
is kept together with the kind and the place. No value is computed, apart from
that of the booleans.
-/

namespace SolidityTokens

/-- A literal in a text. -/
structure Literal where
  /-- Its kind. -/
  kind : LiteralKind
  /-- How it is written. -/
  text : Text
  /-- Where it stands. -/
  span : Span
deriving DecidableEq, Repr

namespace Literal

/-- The value of a boolean literal. -/
def asBool (literal : Literal) : Option Bool :=
  match literal.kind with
  | .boolean => some (literal.text == "true".toList)
  | _ => none

/-- Whether the literal denotes a string. -/
def isString (literal : Literal) : Bool := literal.kind.isString

end Literal

namespace Grammar

open Recognizer

/-- A literal of a given kind. Hex and unicode strings need at least one part
here. -/
def literalOf : LiteralKind → Recognizer Text
  | .string => stringLiteral
  | .number => numberLiteral
  | .boolean => booleanLiteral
  | .hexString => many1 hexString
  | .unicodeString => many1 unicodeString

/-- What `f` finds, a kind and a text, as a literal at its place, which is
recorded. -/
def recorded (f : Recognizer (LiteralKind × Text)) : Recognizer Literal := do
  let start ← here
  let found ← f
  emit (.recognized found.1 found.2 start.position)
  let stop ← here
  return ⟨found.1, found.2, ⟨start.position, stop.position⟩⟩

/-- A literal of the first of several kinds that matches. -/
def literalAmong (kinds : List LiteralKind) : Recognizer Literal :=
  recorded (firstOf (kinds.map fun kind => do
    let text ← literalOf kind
    return (kind, text)))

/-- **Any literal.** -/
def literal : Recognizer Literal := literalAmong LiteralKind.all

theorem run_recorded (f : Recognizer (LiteralKind × Text)) (c : Cursor) :
    (recorded f).run c =
      match (f.run c).value with
      | none => ⟨none, (f.run c).cursor, (f.run c).events⟩
      | some found =>
        ⟨some ⟨found.1, found.2, ⟨c.position, (f.run c).cursor.position⟩⟩, (f.run c).cursor,
          (f.run c).events ++ [.recognized found.1 found.2 c.position]⟩ := by
  rw [recorded, run_bind, run_here]
  simp only [run_bind]
  cases (f.run c).value <;> simp

end Grammar

end SolidityTokens
