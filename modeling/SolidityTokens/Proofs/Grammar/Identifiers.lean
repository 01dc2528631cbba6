import SolidityTokens.Proofs.Grammar.Words
import SolidityTokens.Proofs.Recognizer.Prefixes

/-!
# What a word is

The grammar says in two places what the characters of a word are. The loop of an
identifier tries three classes one after the other; the test for the end of a
word is a single predicate. They are **the same set of characters**
(`SolidityTokens.identifierPart_eq`), and so an identifier is the longest run of
characters with that predicate, if there is one and it does not begin with a
digit (`SolidityTokens.value_identifier_eq_some_iff`).

A boolean is not read as an identifier at all: it is a fixed word, and one look
at the character after it. If that look is asked for, it makes the word **the
whole identifier**; if not, the word may go on
(`SolidityTokens.words_are_read_alike`).
-/

namespace SolidityTokens

open Recognizer Grammar

/-! ### The characters of a word -/

/-- Trying two tests one after the other is trying their disjunction. -/
theorem satisfy_orElse_satisfy (p q : Char → Bool) :
    (satisfy p <|> satisfy q) = satisfy fun ch => p ch || q ch := by
  ext c
  rw [run_orElse]
  cases hrest : c.rest with
  | nil =>
    simp only [run_satisfy_nil _ c hrest]
    rfl
  | cons ch rest =>
    simp only [run_satisfy_cons _ c hrest]
    cases hp : p ch with
    | true => rfl
    | false =>
      simp only [Bool.false_or, Bool.false_eq_true, if_false, run_satisfy_cons _ c hrest]
      split <;> rfl

/-- **What the loop of an identifier reads is what the end of a word is tested
for.** -/
theorem identifierPart_eq : identifierPart = satisfy isIdentifierPart := by
  rw [identifierPart, charOf, charOf, oneOf, satisfy_orElse_satisfy, satisfy_orElse_satisfy]
  congr 1
  funext ch
  simp only [isIdentifierPart, Char.isAlphanum, CharClass.contains, List.contains_cons,
    List.contains_nil, Bool.or_false, Bool.or_assoc]

/-- No letter is a digit: the digits come before the letters. -/
theorem isDigit_eq_false_of_isAlpha {ch : Char} (h : ch.isAlpha = true) : ch.isDigit = false := by
  have hbelow : ∀ digits ∈ CharClass.decimalDigit.ranges, ∀ letters ∈ CharClass.letter.ranges,
      ¬letters.1 ≤ digits.2 := by
    decide
  have hletter : CharClass.letter.contains ch = true := h
  rw [← Bool.not_eq_true]
  intro (hdigit : CharClass.decimalDigit.contains ch = true)
  obtain ⟨⟨letters, hletters, hlo, -⟩, -⟩ := CharClass.contains_iff.mp hletter
  obtain ⟨⟨digits, hdigits, -, hhi⟩, -⟩ := CharClass.contains_iff.mp hdigit
  exact hbelow digits hdigits letters hletters (Char.le_trans hlo hhi)

/-- Of the characters that continue an identifier, only the digits cannot begin
one. -/
theorem isIdentifierStart_iff {ch : Char} (h : isIdentifierPart ch = true) :
    isIdentifierStart ch = true ↔ ch.isDigit = false := by
  constructor
  · intro hstart
    simp only [isIdentifierStart, Bool.or_eq_true, beq_iff_eq] at hstart
    rcases hstart with (hletter | rfl) | rfl
    · exact isDigit_eq_false_of_isAlpha hletter
    · rfl
    · rfl
  · intro hdigit
    rw [isIdentifierPart, Char.isAlphanum, hdigit, Bool.or_false] at h
    exact h

theorem isIdentifier_iff {v : Text} (hv : ∀ ch ∈ v, isIdentifierPart ch = true) :
    isIdentifier v = true ↔ v ≠ [] ∧ Avoids Char.isDigit v := by
  cases v with
  | nil => exact iff_of_false Bool.false_ne_true fun h => h.1 rfl
  | cons ch v =>
    obtain ⟨hch, hv⟩ := List.forall_mem_cons.mp hv
    rw [isIdentifier, Bool.and_eq_true, List.all_eq_true, isIdentifierStart_iff hch, avoids_cons]
    exact ⟨fun h => ⟨List.cons_ne_nil ch v, h.1⟩, fun h => ⟨h.2, hv⟩⟩

/-! ### Identifiers -/

section Words

variable {c : Cursor} {m : Text}

theorem findsRun_identifier (c : Cursor) :
    identifier.FindsRun [] isIdentifierPart (fun v => isIdentifier v = true) c := by
  refine Decides.findsRun (decides_identifier.congr fun m r => and_congr_left fun _ => ?_)
    Rule.identifier.settles isIdentifierPart_of_isIdentifier
  simp only [List.nil_append, exists_eq_left']

/-- **An identifier is the whole run of identifier characters**, if that is not
empty and does not begin with a digit. -/
theorem value_identifier_eq_some_iff :
    (identifier.run c).value = some m ↔
      m = c.rest.takeWhile isIdentifierPart ∧ m ≠ [] ∧ Avoids Char.isDigit m := by
  rw [(findsRun_identifier c).value_eq_some_iff (List.nil_append c.rest).symm, List.nil_append,
    isIdentifier_iff fun ch hch => List.mem_takeWhile_imp hch, and_comm]
  exact and_congr_right fun hm => hm ▸ Iff.rfl

theorem value_identifier_eq_none_iff :
    (identifier.run c).value = none ↔
      c.rest.takeWhile isIdentifierPart = [] ∨
        ¬Avoids Char.isDigit (c.rest.takeWhile isIdentifierPart) := by
  rw [(findsRun_identifier c).value_eq_none_iff (List.nil_append c.rest).symm,
    isIdentifier_iff fun ch hch => List.mem_takeWhile_imp hch, not_and_or, not_not]

/-! ### Booleans -/

theorem value_booleanLiteral_eq_some_iff :
    (booleanLiteral.run c).value = some m ↔ ∃ r, c.rest = m ++ r ∧ BooleanCut c.options m r :=
  (decides_booleanLiteral.findsCut Rule.booleanLiteral.settles).value_eq_some_iff m

/-- **Where words have to end, a boolean is an identifier** that is one of two
words. -/
theorem value_booleanLiteral_of_strict (h : c.options.wordBoundaries = true) :
    (booleanLiteral.run c).value = some m ↔
      (m = "true".toList ∨ m = "false".toList) ∧ (identifier.run c).value = some m := by
  have hidentifier : (m = "true".toList ∨ m = "false".toList) → isIdentifier m = true := by
    rintro (rfl | rfl) <;> decide
  rw [value_booleanLiteral_eq_some_iff,
    (decides_identifier.findsCut Rule.identifier.settles).value_eq_some_iff]
  constructor
  · rintro ⟨r, hrest, hm, hr⟩
    exact ⟨hm, r, hrest, hidentifier hm, hr h⟩
  · rintro ⟨hm, r, hrest, -, hr⟩
    exact ⟨r, hrest, hm, fun _ => hr⟩

/-- **Where they do not, a boolean is one of two words that come next.** -/
theorem value_booleanLiteral_of_lax (h : c.options.wordBoundaries = false) :
    (booleanLiteral.run c).value = some m ↔
      (m = "true".toList ∨ m = "false".toList) ∧ m <+: c.rest := by
  rw [value_booleanLiteral_eq_some_iff]
  constructor
  · rintro ⟨r, hrest, hm, -⟩
    exact ⟨hm, r, hrest.symm⟩
  · rintro ⟨hm, r, hrest⟩
    refine ⟨r, hrest.symm, hm, fun hstrict => ?_⟩
    exact absurd (h.symm.trans hstrict) Bool.false_ne_true

end Words

/-! ### The main result -/

/-- **Identifiers, booleans and the end of a word speak of the same words.** At
every place of every text, and under any options:

* the characters that the loop of an identifier reads are those that are tested
  for at the end of a word;
* an identifier is the longest run of these characters, if it is not empty and
  does not begin with a digit, and there is none otherwise;
* a boolean is found if it is one of two words, and it is the identifier that is
  found at the same place, if words have to end, or else what comes next in the
  text. -/
theorem words_are_read_alike (c : Cursor) :
    identifierPart = satisfy isIdentifierPart ∧
    (∀ m, (identifier.run c).value = some m ↔
      m = c.rest.takeWhile isIdentifierPart ∧ m ≠ [] ∧ Avoids Char.isDigit m) ∧
    ((identifier.run c).value = none ↔
      c.rest.takeWhile isIdentifierPart = [] ∨
        ¬Avoids Char.isDigit (c.rest.takeWhile isIdentifierPart)) ∧
    ∀ b, (booleanLiteral.run c).value = some b ↔
      (b = "true".toList ∨ b = "false".toList) ∧
        if c.options.wordBoundaries then (identifier.run c).value = some b else b <+: c.rest := by
  refine ⟨identifierPart_eq, fun m => value_identifier_eq_some_iff, value_identifier_eq_none_iff,
    fun b => ?_⟩
  cases hoptions : c.options.wordBoundaries with
  | true => exact value_booleanLiteral_of_strict hoptions
  | false => exact value_booleanLiteral_of_lax hoptions

/-- A word that goes on is an identifier, and it is a boolean only if words need
not end. -/
example : let read options := (.atStart "truely".toList options : Cursor)
    (identifier.run (read {})).value = some "truely".toList ∧
      (booleanLiteral.run (read {})).value = none ∧
      (booleanLiteral.run (read ⟨false⟩)).value = some "true".toList := by
  decide +kernel

end SolidityTokens
