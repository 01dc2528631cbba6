import SolidityTokens.Pattern
import SolidityTokens.Proofs.Recognizer.Movement

/-!
# How recognizers are put together

A recognizer is a function, and a function does not show what it is made of. A
**recipe** does: `SolidityTokens.Recipe f` is a way of putting `f` together from
single characters, tests of the next character, sequence, alternative,
repetition and the operations that give input back. Every rule of the grammar
has a recipe (`SolidityTokens.Rule.recipe`) and so has every pattern
(`SolidityTokens.Pattern.recipe`).

What is true of everything that can be put together this way is then proved
once, by induction on the recipe, with one case for each way. The first such
fact is `SolidityTokens.Recipe.run_rel`: a relation between the cursor before
and after that survives reading a character, going on and giving input back
holds of every run. Both `SolidityTokens.Recipe.forward` and
`SolidityTokens.Recipe.options_run` are instances.

A recipe is data and not a proposition, since other runs than the one of
`SolidityTokens.Recognizer.run` can be read off it.
-/

namespace SolidityTokens

open Recognizer Grammar

/-- **How a recognizer is put together.** -/
inductive Recipe : {α : Type} → Recognizer α → Type 1
  /-- Finding something without looking. -/
  | pure {α : Type} (a : α) : Recipe (pure a : Recognizer α)
  /-- Finding nothing. -/
  | fail {α : Type} : Recipe (failure : Recognizer α)
  /-- Reading one character. -/
  | satisfy (p : Char → Bool) : Recipe (satisfy p)
  /-- Testing the next character. -/
  | notFollowedBy (p : Char → Bool) : Recipe (notFollowedBy p)
  /-- Testing for the end of a word, if the options ask for it. -/
  | wordBoundary : Recipe wordBoundary
  /-- One after the other. -/
  | bind {α β : Type} {f : Recognizer α} {g : α → Recognizer β} (first : Recipe f)
      (second : ∀ a, Recipe (g a)) : Recipe (f >>= g)
  /-- One or, from where it failed, the other. -/
  | orElse {α : Type} {f g : Recognizer α} (first : Recipe f) (second : Recipe g) :
      Recipe (f <|> g)
  /-- A part that a mark makes mandatory. -/
  | whenMatched {α β : Type} {f : Recognizer α} {g : Recognizer β} (mark : Recipe f)
      (body : Recipe g) : Recipe (whenMatched f g)
  /-- All or nothing. -/
  | atomic {α : Type} {f : Recognizer α} (body : Recipe f) : Recipe (atomic f)
  /-- Once or not at all. -/
  | optionally {α : Type} {f : Recognizer α} (body : Recipe f) : Recipe (optionally f)
  /-- As often as possible. -/
  | many {α : Type} {f : Recognizer α} (body : Recipe f) : Recipe (many f)
  /-- The text of a literal that is recorded. -/
  | literalText {f : Recognizer (LiteralKind × Text)} (body : Recipe f) :
      Recipe (recorded f >>= fun found => Pure.pure found.text)

namespace Recipe

variable {α β : Type} {f : Recognizer α}

/-! ### Derived recipes -/

/-- A test that has already been made. -/
def guard (b : Bool) : Recipe (guard b : Recognizer Unit) :=
  match b with
  | true => pure ()
  | false => fail

/-- Several runs in turn. -/
def inTurn (body : Recipe f) : (n : Nat) → Recipe (inTurn f n)
  | 0 => pure ()
  | n + 1 => bind body fun _ => body.inTurn n

/-- An exact number of runs, all or nothing. -/
def times (n : Nat) (body : Recipe f) : Recipe (times n f) := atomic (body.inTurn n)

/-- At least one run. -/
def many1 (body : Recipe f) : Recipe (many1 f) := atomic (bind body fun _ => many body)

/-- The characters of a word. -/
def spelled : (text : Text) → Recipe (spelled text)
  | [] => pure ()
  | ch :: text => bind (satisfy (· == ch)) fun _ => spelled text

/-- A fixed word. -/
def word (expected : Text) : Recipe (word expected) := atomic (spelled expected)

/-- The first that matches of a family of recognizers. -/
def firstOfMap {ι : Type} {f : ι → Recognizer α} (body : ∀ i, Recipe (f i)) :
    (is : List ι) → Recipe (firstOf (is.map f))
  | [] => fail
  | i :: is => orElse (body i) (firstOfMap body is)

/-! ### The recipes of the grammar -/

/-- The recipe of an identifier. -/
def identifier : Recipe identifier :=
  atomic (bind (orElse (satisfy _) (satisfy _)) fun _ =>
    many (orElse (satisfy _) (orElse (satisfy _) (satisfy _))))

/-- The recipe of a boolean literal. -/
def booleanLiteral : Recipe booleanLiteral :=
  atomic (bind (orElse (word _) (word _)) fun _ => wordBoundary)

/-- The recipe of a word of a table. -/
def keyword (table : Keyword) : Recipe (keyword table) :=
  atomic (bind identifier fun found => guard (table.contains found))

/-- The recipe of a word of one of several tables. -/
def keywordAmong (tables : List Keyword) : Recipe (keywordAmong tables) :=
  firstOfMap (fun table => bind (keyword table) fun found => pure (table, found)) tables

/-- The recipe of something that an underscore may precede. -/
def grouped {item : Recognizer Text} (body : Recipe item) : Recipe (grouped item) :=
  orElse body (atomic (bind (satisfy _) fun _ => body))

/-- The recipe of grouped digits. -/
def groupedDigits {digit : Recognizer Text} (body : Recipe digit) :
    Recipe (groupedDigits digit) :=
  atomic (bind body fun _ => bind (many (grouped body)) fun _ => notFollowedBy _)

/-- The recipe of decimal digits. -/
def decimalDigits : Recipe decimalDigits := groupedDigits (satisfy _)

/-- The recipe of a number in hex digits. -/
def hexNumber : Recipe hexNumber :=
  atomic (bind (word _) fun _ => groupedDigits (satisfy _))

/-- The recipe of a number in decimal digits. -/
def decimalNumber : Recipe decimalNumber :=
  atomic (bind decimalDigits fun _ => bind (whenMatched (satisfy _) decimalDigits) fun _ =>
    whenMatched (satisfy _) (bind (optionally (satisfy _)) fun _ => decimalDigits))

/-- The recipe of a number with its unit. -/
def numberLiteral : Recipe numberLiteral :=
  atomic (bind (orElse hexNumber decimalNumber) fun _ =>
    optionally (bind (many (satisfy _)) fun _ => keyword _))

/-- The recipe of a character code. -/
def characterCode (announcer : Char) (n : Nat) : Recipe (characterCode announcer n) :=
  atomic (bind (satisfy _) fun _ => times n (satisfy _))

/-- The recipe of an escape. -/
def escapeSequence : Recipe escapeSequence :=
  atomic (bind (satisfy _) fun _ =>
    orElse (satisfy _) (orElse (characterCode _ _) (characterCode _ _)))

/-- The recipe of an element of a plain string. -/
def plainElement (quote : Quote) : Recipe (plainElement quote) :=
  orElse (satisfy _) escapeSequence

/-- The recipe of an element of a unicode string. -/
def unicodeElement (quote : Quote) : Recipe (unicodeElement quote) :=
  orElse (satisfy _) escapeSequence

/-- The recipe of two hex digits. -/
def hexPair : Recipe hexPair := times 2 (satisfy _)

/-- The recipe of pairs of hex digits. -/
def hexPairs : Recipe hexPairs :=
  optionally (bind hexPair fun _ => many (grouped hexPair))

/-- The recipe of an opening quote. -/
def openingQuote : Recipe openingQuote :=
  orElse (bind (satisfy _) fun _ => pure _) (bind (satisfy _) fun _ => pure _)

/-- The recipe of a body between quotes. -/
def quoted {f : Quote → Recognizer Text} (body : ∀ quote, Recipe (f quote)) :
    Recipe (quoted f) :=
  atomic (bind openingQuote fun quote => bind (body quote) fun _ => satisfy _)

/-- The recipe of two equal quotes. -/
def emptyString : Recipe emptyString := orElse (times 2 (satisfy _)) (times 2 (satisfy _))

/-- The recipe of a plain string. -/
def quotedString : Recipe quotedString := quoted fun quote => many (plainElement quote)

/-- The recipe of a plain string that is not empty. -/
def nonEmptyString : Recipe nonEmptyString := quoted fun quote => many1 (plainElement quote)

/-- The recipe of adjacent plain strings. -/
def stringLiteral : Recipe stringLiteral := many1 (orElse nonEmptyString emptyString)

/-- The recipe of hex strings after their mark. -/
def hexString : Recipe hexString :=
  atomic (bind (word _) fun _ => many1 (quoted fun _ => hexPairs))

/-- The recipe of unicode strings after their mark. -/
def unicodeString : Recipe unicodeString :=
  atomic (bind (word _) fun _ => many1 (quoted fun quote => many (unicodeElement quote)))

/-- The recipe of a literal of a given kind. -/
def literalOf : (kind : LiteralKind) → Recipe (literalOf kind)
  | .string => stringLiteral
  | .number => numberLiteral
  | .boolean => booleanLiteral
  | .hexString => many1 hexString
  | .unicodeString => many1 unicodeString

/-- The recipe of the search for a literal among several kinds. -/
def kindAmong (kinds : List LiteralKind) :
    Recipe (firstOf (kinds.map fun kind => do
      let text ← Grammar.literalOf kind
      return (kind, text))) :=
  firstOfMap (fun kind => bind (literalOf kind) fun text => pure (kind, text)) kinds

end Recipe

/-- **Every rule of the grammar has a recipe.** -/
def Rule.recipe : (rule : Rule) → Recipe rule.recognizer
  | identifier => .identifier
  | booleanLiteral => .booleanLiteral
  | decimalDigits => .decimalDigits
  | hexNumber => .hexNumber
  | decimalNumber => .decimalNumber
  | numberLiteral => .numberLiteral
  | escapeSequence => .escapeSequence
  | emptyString => .emptyString
  | quotedString => .quotedString
  | nonEmptyString => .nonEmptyString
  | stringLiteral => .stringLiteral
  | hexString => .hexString
  | hexStringLiteral => .many .hexString
  | unicodeString => .unicodeString
  | unicodeStringLiteral => .many .unicodeString
  | unsignedIntegerType => .keyword .unsignedInteger
  | signedIntegerType => .keyword .signedInteger
  | fixedBytes => .keyword .fixedBytes
  | numberUnit => .keyword .numberUnit
  | elementaryType => .bind (.keywordAmong _) fun found => .pure found.2
  | literal => .literalText (.kindAmong _)

/-- **Every pattern has a recipe.** -/
def Pattern.recipe : (pattern : Pattern) → Recipe pattern.recognizer
  | empty => .pure []
  | fail => .fail
  | satisfy p => .satisfy p
  | word expected => .word expected
  | rule named => named.recipe
  | keyword table => .keyword table
  | literalOf kind => .literalOf kind
  | andThen first second => .bind first.recipe fun _ => second.recipe
  | orElse first second => .orElse first.recipe second.recipe
  | atomic body => .atomic body.recipe
  | times n body => .times n body.recipe
  | many body => .many body.recipe
  | many1 body => .many1 body.recipe
  | optionally body => .optionally body.recipe

/-! ### What every recipe does to the cursor -/

namespace Recipe

variable {α : Type} {f : Recognizer α}

/-- **A relation that survives reading a character, going on and giving input
back holds between the cursors before and after every run.** -/
theorem run_rel {R : Cursor → Cursor → Prop} (hrefl : ∀ c, R c c)
    (htrans : ∀ {c d e}, R c d → R d e → R c e) (hadvance : ∀ c : Cursor, R c (c.advance 1))
    (hrewind : ∀ {c d : Cursor}, R c d → R c (d.rewindTo c)) (recipe : Recipe f) (c : Cursor) :
    R c (f.run c).cursor := by
  induction recipe generalizing c with
  | pure a => exact hrefl c
  | fail => exact hrefl c
  | satisfy p =>
    cases hrest : c.rest with
    | nil =>
      rw [run_satisfy_nil p c hrest]
      exact hrefl c
    | cons ch rest =>
      rw [run_satisfy_cons p c hrest]
      by_cases hp : p ch
      · rw [if_pos hp]
        exact hadvance c
      · rw [if_neg hp]
        exact hrefl c
  | notFollowedBy p => exact hrefl c
  | wordBoundary =>
    rw [run_wordBoundary]
    exact hrefl c
  | @bind _ _ f g _ _ ihf ihg =>
    rw [run_bind]
    cases (f.run c).value with
    | none => exact ihf c
    | some a => exact htrans (ihf c) (ihg a _)
  | @orElse _ f g _ _ ihf ihg =>
    rw [run_orElse]
    cases (f.run c).value with
    | none => exact htrans (ihf c) (ihg _)
    | some a => exact ihf c
  | @whenMatched _ _ f g _ _ ihf ihg =>
    rw [run_whenMatched]
    cases (f.run c).value with
    | none => exact ihf c
    | some a => exact htrans (ihf c) (ihg _)
  | @atomic _ f _ ih =>
    -- Going back needs no assumption on how the body failed.
    rw [run_atomic]
    cases (f.run c).value with
    | none => exact hrewind (ih c)
    | some a => exact ih c
  | @optionally _ f _ ih =>
    rw [run_optionally, run_atomic]
    cases (f.run c).value with
    | none => exact hrewind (ih c)
    | some a => exact ih c
  | many _ ih => exact finalCursor_runs_of_step (R := R) htrans ih c
  | @literalText f _ ih =>
    rw [run_bind_pure, run_recorded]
    cases (f.run c).value with
    | none => exact ih c
    | some found => exact ih c

/-- **Whatever is put together from these parts is forward.** -/
theorem forward (recipe : Recipe f) : Forward f := by
  refine forward_iff_exists_reads.mpr fun c => ?_
  refine run_rel (R := fun c d => ∃ m, c.Reads m d) (fun c => ⟨[], .refl c⟩) ?_
    (fun c => ⟨_, .advance c 1⟩) (fun _ => ⟨[], .rewindTo _ _⟩) recipe c
  rintro c d e ⟨m, hm⟩ ⟨n, hn⟩
  exact ⟨m ++ n, hm.trans hn⟩

/-- **No recognizer changes the options.** -/
theorem options_run (recipe : Recipe f) (c : Cursor) : (f.run c).cursor.options = c.options :=
  run_rel (R := fun c d => d.options = c.options) (fun _ => rfl)
    (fun h h' => h'.trans h) (fun _ => rfl) id recipe c

end Recipe

end SolidityTokens
