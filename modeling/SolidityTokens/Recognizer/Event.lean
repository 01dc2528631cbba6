import SolidityTokens.Text.Basic
import SolidityTokens.Literal.Kind

/-!
# Events

Running a recognizer leaves a record of two things that its answer does not
show: every time input that had been read was given back, and every literal that
was recognized.
-/

namespace SolidityTokens

/-- One entry of the record that a run leaves. -/
inductive Event where
  /-- The cursor went back from `position` to `start`. -/
  | reverted (start position : Nat)
  /-- A literal with this text was recognized at `start`. -/
  | recognized (kind : LiteralKind) (text : Text) (start : Nat)
deriving DecidableEq, Repr

namespace Event

/-- How much attention an event deserves. -/
inductive Level where
  /-- A detail of the search. -/
  | trace
  /-- A result worth reporting. -/
  | debug
deriving DecidableEq, Repr

/-- Giving input back is a detail of the search; a literal is a result. -/
def level : Event → Level
  | reverted .. => .trace
  | recognized .. => .debug

/-- What an event says, apart from its particulars. -/
def message : Event → String
  | reverted .. => "revert"
  | recognized .. => "recognized literal"

end Event

end SolidityTokens
