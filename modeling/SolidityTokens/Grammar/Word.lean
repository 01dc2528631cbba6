import SolidityTokens.Recognizer.Character
import SolidityTokens.Recognizer.Repetition

/-!
# Words

Identifiers, and the two words that are literals. An identifier is read to its
very end; a boolean is read as a fixed word, and it is the options that say
whether the word has to end there.
-/

namespace SolidityTokens.Grammar

open Recognizer

/-- Whether a character can continue an identifier. -/
def isIdentifierPart (ch : Char) : Bool := ch.isAlphanum || ch == '$' || ch == '_'

/-- A character that can begin an identifier. -/
def identifierStart : Recognizer Text := charOf .letter <|> oneOf ['$', '_']

/-- A character that can continue an identifier. -/
def identifierPart : Recognizer Text :=
  charOf .letter <|> charOf .decimalDigit <|> oneOf ['$', '_']

/-- An identifier: a letter, `$` or `_`, then any number of letters, digits, `$`
and `_`. -/
def identifier : Recognizer Text :=
  atomic do
    let _ ← identifierStart
    many identifierPart

/-- Fails inside a word, if the options ask for word boundaries. -/
def wordBoundary : Recognizer Unit := do
  let c ← here
  if c.options.wordBoundaries then notFollowedBy isIdentifierPart else pure ()

/-- The word `true` or `false`. -/
def booleanLiteral : Recognizer Text :=
  atomic do
    let _ ← word "true".toList <|> word "false".toList
    wordBoundary

@[simp] theorem run_wordBoundary (c : Cursor) :
    wordBoundary.run c =
      ⟨if c.options.wordBoundaries && c.peek.any isIdentifierPart then none else some (),
        c, []⟩ := by
  rw [wordBoundary, run_bind]
  cases h : c.options.wordBoundaries <;> simp [h]

end SolidityTokens.Grammar
