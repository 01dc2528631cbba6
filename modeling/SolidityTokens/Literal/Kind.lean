/-!
# The kinds of literals
-/

namespace SolidityTokens

/-- The five forms that a literal can take. -/
inductive LiteralKind where
  /-- Adjacent plain strings, such as `"abc"'def'`. -/
  | string
  /-- A number with an optional unit, such as `0xff`, `1.5e-3` or `1 ether`. -/
  | number
  /-- One of the words `true` and `false`. -/
  | boolean
  /-- Strings of hex byte pairs, such as `hex"00ff"`. -/
  | hexString
  /-- Strings of arbitrary characters, such as `unicode"é"`. -/
  | unicodeString
deriving DecidableEq, Repr

namespace LiteralKind

/-- The kinds, in the order in which a literal is tried. -/
def all : List LiteralKind := [string, number, boolean, hexString, unicodeString]

/-- The name of a kind in messages. -/
def name : LiteralKind → String
  | string => "string"
  | number => "number"
  | boolean => "boolean"
  | hexString => "hex string"
  | unicodeString => "unicode string"

/-- Whether literals of this kind denote strings. -/
def isString : LiteralKind → Bool
  | string | hexString | unicodeString => true
  | number | boolean => false

theorem mem_all (kind : LiteralKind) : kind ∈ all := by
  cases kind <;> decide

end LiteralKind

end SolidityTokens
