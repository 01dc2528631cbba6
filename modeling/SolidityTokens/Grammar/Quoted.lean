import SolidityTokens.Grammar.Numeral

/-!
# Quoted strings

A quoted string is closed by the quote that opened it; between them the other
quote is a character like any other. There are three families, which differ in
what may stand between the quotes: printable characters, pairs of hex digits, or
any characters at all on one line. The first and the last also have escapes.
-/

namespace SolidityTokens

/-- The two quotes. -/
inductive Quote where
  /-- The quote `"`. -/
  | double
  /-- The quote `'`. -/
  | single
deriving DecidableEq, Repr

namespace Quote

/-- The character that is written. -/
def mark : Quote → Char
  | double => '"'
  | single => '\''

/-- The characters that stand for themselves between two such quotes. -/
def printable : Quote → CharClass
  | double => .doubleQuotedPrintable
  | single => .singleQuotedPrintable

end Quote

namespace Grammar

open Recognizer

/-! ### Escapes -/

/-- A letter that announces a character code, and exactly `n` hex digits. -/
def characterCode (announcer : Char) (n : Nat) : Recognizer Text :=
  atomic do
    let _ ← char announcer
    times n (charOf .hexDigit)

/-- A backslash, and then a quote, a backslash, one of the letters `n`, `r` and
`t`, a line break, or a character code of four digits after `u` or of two after
`x`. -/
def escapeSequence : Recognizer Text :=
  atomic do
    let _ ← char '\\'
    oneOf ['\'', '"', '\\', 'n', 'r', 't', '\n', '\r'] <|> characterCode 'u' 4 <|>
      characterCode 'x' 2

/-! ### What stands between quotes -/

/-- One element of a plain string. -/
def plainElement (quote : Quote) : Recognizer Text :=
  charOf quote.printable <|> escapeSequence

/-- One element of a unicode string. -/
def unicodeElement (quote : Quote) : Recognizer Text :=
  noneOf [quote.mark, '\r', '\n', '\\'] <|> escapeSequence

/-- Two hex digits. -/
def hexPair : Recognizer Text := times 2 (charOf .hexDigit)

/-- Pairs of hex digits, with single underscores between them, or nothing. -/
def hexPairs : Recognizer Text :=
  optionally do
    let _ ← hexPair
    many (grouped hexPair)

/-! ### Quoted strings -/

/-- Either quote. -/
def openingQuote : Recognizer Quote :=
  (do
    let _ ← char Quote.double.mark
    return .double) <|>
  (do
    let _ ← char Quote.single.mark
    return .single)

/-- **An opening quote, a body that may depend on it, and the same quote.** -/
def quoted (body : Quote → Recognizer Text) : Recognizer Text :=
  atomic do
    let quote ← openingQuote
    let _ ← body quote
    char quote.mark

/-- Two equal quotes. -/
def emptyString : Recognizer Text :=
  times 2 (char Quote.double.mark) <|> times 2 (char Quote.single.mark)

/-- A plain string. -/
def quotedString : Recognizer Text := quoted fun quote => many (plainElement quote)

/-- A plain string that is not empty. -/
def nonEmptyString : Recognizer Text := quoted fun quote => many1 (plainElement quote)

/-- Plain strings one after the other. -/
def stringLiteral : Recognizer Text := many1 (nonEmptyString <|> emptyString)

/-- The word `hex` and quoted strings of hex pairs. -/
def hexString : Recognizer Text :=
  atomic do
    let _ ← word "hex".toList
    many1 (quoted fun _ => hexPairs)

/-- The word `unicode` and quoted strings of any characters. -/
def unicodeString : Recognizer Text :=
  atomic do
    let _ ← word "unicode".toList
    many1 (quoted fun quote => many (unicodeElement quote))

/-- Any number of hex strings, possibly none. -/
def hexStringLiteral : Recognizer Text := many hexString

/-- Any number of unicode strings, possibly none. -/
def unicodeStringLiteral : Recognizer Text := many unicodeString

end Grammar

end SolidityTokens
