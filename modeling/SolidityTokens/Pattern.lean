import SolidityTokens.Grammar.Rule

/-!
# Patterns

Recognizers as expressions: the rules of the grammar, single characters and
words, put together by sequence, alternative, repetition and backtracking. A
property of *every* recognizer that can be written with these means is proved by
induction on the pattern.

Sequence and alternative do not give anything back by themselves; a pattern may
fail and leave input read. `atomic`, `times`, `many1`, `optionally` and `choice`
give it back, `many` does not.
-/

namespace SolidityTokens

/-- An expression for a recognizer. -/
inductive Pattern where
  /-- The empty text. -/
  | empty
  /-- Never matches. -/
  | fail
  /-- One character with a property. -/
  | satisfy (p : Char → Bool)
  /-- A fixed word. -/
  | word (expected : Text)
  /-- A rule of the grammar. -/
  | rule (named : Rule)
  /-- A word of a keyword table. -/
  | keyword (table : Keyword)
  /-- A literal of a given kind. -/
  | literalOf (kind : LiteralKind)
  /-- One pattern and then another; the answer is that of the second. -/
  | andThen (first second : Pattern)
  /-- One pattern or, from where it failed, another. -/
  | orElse (first second : Pattern)
  /-- All or nothing. -/
  | atomic (body : Pattern)
  /-- Exactly `n` times, all or nothing. -/
  | times (n : Nat) (body : Pattern)
  /-- As often as possible. -/
  | many (body : Pattern)
  /-- As often as possible, at least once. -/
  | many1 (body : Pattern)
  /-- Once or not at all. -/
  | optionally (body : Pattern)

namespace Pattern

/-! ### Further patterns -/

/-- A character of a class. -/
def charOf (charClass : CharClass) : Pattern := satisfy charClass.contains

/-- A given character. -/
def char (expected : Char) : Pattern := satisfy (· == expected)

/-- A character that occurs in `set`. -/
def oneOf (set : Text) : Pattern := satisfy set.contains

/-- A character that does not occur in `set`. -/
def noneOf (set : Text) : Pattern := satisfy fun ch => !set.contains ch

/-- A character from `lo` to `hi`. -/
def between (lo hi : Char) : Pattern := satisfy fun ch => lo ≤ ch && ch ≤ hi

/-- Several patterns in turn; the answer is that of the last. -/
def inSequence : List Pattern → Pattern
  | [] => empty
  | [last] => last
  | first :: next :: patterns => andThen first (inSequence (next :: patterns))

/-- The first pattern that matches, each tried from where the one before it
failed. -/
def firstOf : List Pattern → Pattern
  | [] => fail
  | first :: patterns => orElse first (firstOf patterns)

/-- The first pattern that matches, all of them tried from the same place. -/
def choice (patterns : List Pattern) : Pattern := firstOf (patterns.map atomic)

/-! ### What a pattern recognizes -/

/-- **The recognizer that a pattern stands for.** -/
def recognizer : Pattern → Recognizer Text
  | empty => pure []
  | fail => failure
  | satisfy p => Recognizer.satisfy p
  | word expected => Recognizer.word expected
  | rule named => named.recognizer
  | keyword table => Grammar.keyword table
  | literalOf kind => Grammar.literalOf kind
  | andThen first second => do
    let _ ← first.recognizer
    second.recognizer
  | orElse first second => first.recognizer <|> second.recognizer
  | atomic body => Recognizer.atomic body.recognizer
  | times n body => Recognizer.times n body.recognizer
  | many body => Recognizer.many body.recognizer
  | many1 body => Recognizer.many1 body.recognizer
  | optionally body => Recognizer.optionally body.recognizer

theorem recognizer_firstOf (patterns : List Pattern) :
    (firstOf patterns).recognizer = Recognizer.firstOf (patterns.map recognizer) := by
  induction patterns with
  | nil => rfl
  | cons first patterns ih => simp [firstOf, recognizer, ih]

theorem recognizer_choice (patterns : List Pattern) :
    (choice patterns).recognizer = Recognizer.choice (patterns.map recognizer) := by
  rw [choice, recognizer_firstOf, Recognizer.choice, List.map_map, List.map_map]
  rfl

end Pattern

end SolidityTokens
