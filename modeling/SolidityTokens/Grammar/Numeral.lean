import SolidityTokens.Grammar.Keyword

/-!
# Numbers

Digits may be grouped by single underscores, each of them between two digits. A
number commits itself early: a decimal point or an exponent mark has to be
followed by digits, and a group of digits must not be followed by an underscore,
or there is no number at all.
-/

namespace SolidityTokens.Grammar

open Recognizer

/-- `item`, or an underscore and `item`. -/
def grouped (item : Recognizer Text) : Recognizer Text :=
  item <|> atomic do
    let _ ← char '_'
    item

/-- Digits of one kind, with single underscores between them; a stray underscore
after them spoils them all. -/
def groupedDigits (digit : Recognizer Text) : Recognizer Text :=
  atomic do
    let _ ← digit
    let _ ← many (grouped digit)
    notFollowedBy (· == '_')

/-- Decimal digits, possibly grouped. -/
def decimalDigits : Recognizer Text := groupedDigits (charOf .decimalDigit)

/-- The mark `0x` and hex digits, possibly grouped. -/
def hexNumber : Recognizer Text :=
  atomic do
    let _ ← word "0x".toList
    groupedDigits (charOf .hexDigit)

/-- The exponent of a decimal number, after its mark. -/
def exponentDigits : Recognizer Text := do
  let _ ← optionally (char '-')
  decimalDigits

/-- Digits, then possibly a point with digits, then possibly an exponent. -/
def decimalNumber : Recognizer Text :=
  atomic do
    let _ ← decimalDigits
    whenMatched (char '.') decimalDigits
    whenMatched (oneOf ['e', 'E']) exponentDigits

/-- Spaces and tabs, if any, and a unit. -/
def unitSuffix : Recognizer Text := do
  let _ ← many (oneOf [' ', '\t'])
  keyword .numberUnit

/-- A number and possibly its unit. Blanks are only read together with a
unit. -/
def numberLiteral : Recognizer Text :=
  atomic do
    let _ ← hexNumber <|> decimalNumber
    optionally unitSuffix

end SolidityTokens.Grammar
