import SolidityTokens.Recognizer.Backtrack

/-!
# Single characters and fixed words

The recognizers from which all others are made: one character with a given
property, and a fixed word, which is read character by character and given back
as a whole when one of them differs.

The classes of characters are tests, and `CharClass.contains_iff` says which
characters pass them: those of a few ranges, without the ones that have to be
escaped.
-/

namespace SolidityTokens

/-- The classes of characters that the grammar names. All of them are ASCII. -/
inductive CharClass where
  /-- The letters `a` to `z` and `A` to `Z`. -/
  | letter
  /-- The digits `0` to `9`. -/
  | decimalDigit
  /-- The digits `0` to `9`, `a` to `f` and `A` to `F`. -/
  | hexDigit
  /-- What may stand unescaped between single quotes. -/
  | singleQuotedPrintable
  /-- What may stand unescaped between double quotes. -/
  | doubleQuotedPrintable
deriving DecidableEq, Repr

namespace CharClass

/-- Space to tilde: the printable characters. -/
def isPrintable (ch : Char) : Bool := ' ' ≤ ch && ch ≤ '~'

/-- Whether a character belongs to a class. -/
def contains : CharClass → Char → Bool
  | letter, ch => ch.isAlpha
  | decimalDigit, ch => ch.isDigit
  | hexDigit, ch => ch.isDigit || ('a' ≤ ch && ch ≤ 'f') || ('A' ≤ ch && ch ≤ 'F')
  | singleQuotedPrintable, ch => isPrintable ch && ch != '\'' && ch != '\\'
  | doubleQuotedPrintable, ch => isPrintable ch && ch != '"' && ch != '\\'

/-- The ranges of characters that make up a class, each given by its first
character and its last. -/
def ranges : CharClass → List (Char × Char)
  | letter => [('A', 'Z'), ('a', 'z')]
  | decimalDigit => [('0', '9')]
  | hexDigit => [('0', '9'), ('a', 'f'), ('A', 'F')]
  | singleQuotedPrintable => [(' ', '~')]
  | doubleQuotedPrintable => [(' ', '~')]

/-- The characters of these ranges that a class leaves out, since they have to
be escaped. -/
def escaped : CharClass → Text
  | singleQuotedPrintable => ['\'', '\\']
  | doubleQuotedPrintable => ['"', '\\']
  | _ => []

theorem isDigit_iff {ch : Char} : ch.isDigit = true ↔ '0' ≤ ch ∧ ch ≤ '9' :=
  Bool.and_eq_true_iff.trans (and_congr decide_eq_true_iff decide_eq_true_iff)

theorem isPrintable_iff {ch : Char} : isPrintable ch = true ↔ ' ' ≤ ch ∧ ch ≤ '~' := by
  rw [isPrintable, Bool.and_eq_true, decide_eq_true_eq, decide_eq_true_eq]

/-- **A class holds the characters of its ranges**, but for those that have to
be escaped. -/
theorem contains_iff {charClass : CharClass} {ch : Char} :
    charClass.contains ch = true ↔
      (∃ range ∈ charClass.ranges, range.1 ≤ ch ∧ ch ≤ range.2) ∧ ch ∉ charClass.escaped := by
  cases charClass with
  | letter =>
    have hupper : ch.isUpper = true ↔ 'A' ≤ ch ∧ ch ≤ 'Z' := decide_eq_true_iff
    have hlower : ch.isLower = true ↔ 'a' ≤ ch ∧ ch ≤ 'z' :=
      Bool.and_eq_true_iff.trans (and_congr decide_eq_true_iff decide_eq_true_iff)
    have hletter : letter.contains ch = true ↔ ch.isUpper = true ∨ ch.isLower = true :=
      Bool.or_eq_true_iff
    rw [hletter, hupper, hlower]
    simp [ranges, escaped]
  | decimalDigit => simp [contains, ranges, escaped, isDigit_iff]
  | hexDigit => simp [contains, ranges, escaped, isDigit_iff, or_assoc]
  | singleQuotedPrintable => simp [contains, ranges, escaped, isPrintable_iff, and_assoc]
  | doubleQuotedPrintable => simp [contains, ranges, escaped, isPrintable_iff, and_assoc]

/-- A character of a class lies in one of the ranges that cover those of the
class. -/
theorem exists_range_of_cover {charClass : CharClass} {ch : Char} {cover : List (Char × Char)}
    (hcover : ∀ range ∈ charClass.ranges,
      ∃ range' ∈ cover, range'.1 ≤ range.1 ∧ range.2 ≤ range'.2)
    (h : charClass.contains ch = true) : ∃ range ∈ cover, range.1 ≤ ch ∧ ch ≤ range.2 := by
  obtain ⟨⟨range, hrange, hlo, hhi⟩, -⟩ := contains_iff.mp h
  obtain ⟨range', hrange', hfirst, hlast⟩ := hcover range hrange
  exact ⟨range', hrange', Char.le_trans hfirst hlo, Char.le_trans hhi hlast⟩

end CharClass

namespace Recognizer

/-- **One character with the property `p`.** Stays in place when there is
none. -/
def satisfy (p : Char → Bool) : Recognizer Text :=
  ⟨fun c =>
    match c.rest with
    | [] => ⟨none, c, []⟩
    | ch :: _ => if p ch then ⟨some [ch], c.advance 1, []⟩ else ⟨none, c, []⟩⟩

/-- One character of a class. -/
def charOf (charClass : CharClass) : Recognizer Text := satisfy charClass.contains

/-- A given character. -/
def char (expected : Char) : Recognizer Text := satisfy (· == expected)

/-- A character that occurs in `set`. -/
def oneOf (set : Text) : Recognizer Text := satisfy set.contains

/-- A character that does not occur in `set`. -/
def noneOf (set : Text) : Recognizer Text := satisfy fun ch => !set.contains ch

/-- A character from `lo` to `hi`, in the order of code points. -/
def between (lo hi : Char) : Recognizer Text := satisfy fun ch => lo ≤ ch && ch ≤ hi

/-- The characters of a word one after the other, without giving anything
back. -/
def spelled : Text → Recognizer Unit
  | [] => pure ()
  | ch :: text => do
    let _ ← char ch
    spelled text

/-- A given word, all or nothing. -/
def word (expected : Text) : Recognizer Text := atomic (spelled expected)

/-! ### How the operations run -/

theorem run_satisfy_nil (p : Char → Bool) (c : Cursor) (h : c.rest = []) :
    (satisfy p).run c = ⟨none, c, []⟩ := by
  simp [satisfy, h]

theorem run_satisfy_cons (p : Char → Bool) (c : Cursor) {ch : Char} {rest : Text}
    (h : c.rest = ch :: rest) :
    (satisfy p).run c = if p ch then ⟨some [ch], c.advance 1, []⟩ else ⟨none, c, []⟩ := by
  simp [satisfy, h]

end Recognizer

end SolidityTokens
