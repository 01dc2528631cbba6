import SolidityTokens.Literal.Basic

/-!
# The rules of the grammar

Every construct of the lexical grammar under one type, so that a rule can be
chosen, listed and quantified over. A rule answers with the text it read.
-/

namespace SolidityTokens

/-- The rules of the lexical grammar. -/
inductive Rule where
  /-- A whole identifier. -/
  | identifier
  /-- The word `true` or `false`. -/
  | booleanLiteral
  /-- Grouped decimal digits. -/
  | decimalDigits
  /-- A number in hex digits, such as `0xdead_beef`. -/
  | hexNumber
  /-- A number in decimal digits, such as `1_000.5e-3`. -/
  | decimalNumber
  /-- A number with an optional unit, such as `30 minutes`. -/
  | numberLiteral
  /-- A backslash and what it escapes. -/
  | escapeSequence
  /-- Two equal quotes. -/
  | emptyString
  /-- A plain string. -/
  | quotedString
  /-- A plain string with something in it. -/
  | nonEmptyString
  /-- Adjacent plain strings. -/
  | stringLiteral
  /-- The word `hex` and strings of hex pairs. -/
  | hexString
  /-- Adjacent hex strings, possibly none. -/
  | hexStringLiteral
  /-- The word `unicode` and strings of any characters. -/
  | unicodeString
  /-- Adjacent unicode strings, possibly none. -/
  | unicodeStringLiteral
  /-- A type such as `uint256`. -/
  | unsignedIntegerType
  /-- A type such as `int8`. -/
  | signedIntegerType
  /-- A type such as `bytes32`. -/
  | fixedBytes
  /-- A unit such as `ether`. -/
  | numberUnit
  /-- An unsigned integer, signed integer or fixed bytes type. -/
  | elementaryType
  /-- A literal of any kind, which is recorded. -/
  | literal
deriving DecidableEq, Repr

namespace Rule

/-- All rules. -/
def all : List Rule :=
  [identifier, booleanLiteral, decimalDigits, hexNumber, decimalNumber, numberLiteral,
    escapeSequence, emptyString, quotedString, nonEmptyString, stringLiteral, hexString,
    hexStringLiteral, unicodeString, unicodeStringLiteral, unsignedIntegerType,
    signedIntegerType, fixedBytes, numberUnit, elementaryType, literal]

/-- What a rule recognizes. -/
def recognizer : Rule → Recognizer Text
  | identifier => Grammar.identifier
  | booleanLiteral => Grammar.booleanLiteral
  | decimalDigits => Grammar.decimalDigits
  | hexNumber => Grammar.hexNumber
  | decimalNumber => Grammar.decimalNumber
  | numberLiteral => Grammar.numberLiteral
  | escapeSequence => Grammar.escapeSequence
  | emptyString => Grammar.emptyString
  | quotedString => Grammar.quotedString
  | nonEmptyString => Grammar.nonEmptyString
  | stringLiteral => Grammar.stringLiteral
  | hexString => Grammar.hexString
  | hexStringLiteral => Grammar.hexStringLiteral
  | unicodeString => Grammar.unicodeString
  | unicodeStringLiteral => Grammar.unicodeStringLiteral
  | unsignedIntegerType => Grammar.keyword .unsignedInteger
  | signedIntegerType => Grammar.keyword .signedInteger
  | fixedBytes => Grammar.keyword .fixedBytes
  | numberUnit => Grammar.keyword .numberUnit
  | elementaryType => do
    let found ← Grammar.elementaryType
    return found.2
  | literal => do
    let found ← Grammar.literal
    return found.text

theorem mem_all (rule : Rule) : rule ∈ all := by
  cases rule <;> decide

end Rule

end SolidityTokens
