import SolidityTokens.Recognizer.Basic

/-!
# Recognizing a whole text

A text is exactly one token when a recognizer that starts at its beginning reads
all of it. There are two ways to fall short, and the error says which.
-/

namespace SolidityTokens

/-- Why a text is not exactly what was looked for. -/
inductive Mismatch where
  /-- There is no match at the beginning. -/
  | noMatch
  /-- The match has `matched` bytes, and `remaining` bytes come after it. -/
  | incomplete (matched remaining : Nat)
deriving DecidableEq, Repr

namespace Mismatch

/-- The error in words. -/
def message : Mismatch → String
  | noMatch => "no match at offset 0"
  | incomplete matched remaining => s!"matched {matched} bytes, {remaining} bytes left over"

end Mismatch

namespace Recognizer

/-- **Runs a recognizer on a text that it has to read to the end.** -/
def recognizeWhole (f : Recognizer Text) (text : Text) (options : Options) :
    Except Mismatch Text :=
  let outcome := f.run (.atStart text options)
  match outcome.value with
  | none => .error .noMatch
  | some found =>
    if outcome.cursor.isEof then .ok found
    else .error (.incomplete (Text.size found) (Text.size outcome.cursor.rest))

/-- There is no match in a text exactly when the recognizer fails at its
beginning. -/
theorem recognizeWhole_eq_noMatch_iff {f : Recognizer Text} {text : Text} {options : Options} :
    f.recognizeWhole text options = .error .noMatch ↔
      (f.run (.atStart text options)).value = none := by
  rw [recognizeWhole]
  cases (f.run (.atStart text options)).value with
  | none => simp
  | some found => simp; split <;> simp

/-- A text is recognized exactly when there is a match at its beginning and
nothing is left after it. -/
theorem recognizeWhole_eq_ok_iff {f : Recognizer Text} {text m : Text} {options : Options} :
    f.recognizeWhole text options = .ok m ↔
      (f.run (.atStart text options)).value = some m ∧
        (f.run (.atStart text options)).cursor.rest = [] := by
  rw [recognizeWhole]
  cases (f.run (.atStart text options)).value with
  | none => simp
  | some found => simp [Cursor.isEof]; split <;> simp_all

/-- A match is incomplete exactly when something is left after it, and the error
counts the bytes of both. -/
theorem recognizeWhole_eq_incomplete_iff {f : Recognizer Text} {text : Text} {options : Options}
    {matched remaining : Nat} :
    f.recognizeWhole text options = .error (.incomplete matched remaining) ↔
      ∃ m, (f.run (.atStart text options)).value = some m ∧
        (f.run (.atStart text options)).cursor.rest ≠ [] ∧
        Text.size m = matched ∧
        Text.size (f.run (.atStart text options)).cursor.rest = remaining := by
  rw [recognizeWhole]
  cases (f.run (.atStart text options)).value with
  | none => simp
  | some found => simp [Cursor.isEof]; split <;> simp_all

end Recognizer

end SolidityTokens
