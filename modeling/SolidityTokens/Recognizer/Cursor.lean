import SolidityTokens.Text.Span

/-!
# Cursors

A cursor is a place in a text: what has been read, nearest character first, and
what is left to read. The byte offset of the place is the size of the part that
was read, so it is a boundary of the text by construction
(`Cursor.isBoundary_position`), and no operation has to check it again.

The cursor also carries the options of the recognizers that run on it.
-/

namespace SolidityTokens

/-- What a caller can ask of the recognizers. -/
structure Options where
  /-- When set, the words `true` and `false` are only boolean literals if the
  character after them cannot continue an identifier. -/
  wordBoundaries : Bool := true
deriving DecidableEq, Repr, Inhabited

/-- A place in a text. -/
structure Cursor where
  /-- The characters before the place, nearest first. -/
  read : Text
  /-- The characters after the place. -/
  rest : Text
  /-- The options in force. -/
  options : Options
deriving DecidableEq, Repr

namespace Cursor

/-! ### Making cursors -/

/-- The cursor at the beginning of a text. -/
def atStart (text : Text) (options : Options) : Cursor := ⟨[], text, options⟩

/-- The cursor at a byte offset of a text, if that offset is a boundary. -/
def atOffset? (text : Text) (offset : Nat) (options : Options) : Option Cursor :=
  (text.split? offset).map fun (front, back) => ⟨front.reverse, back, options⟩

/-! ### Looking at the text -/

/-- The whole text. -/
def text (c : Cursor) : Text := c.read.reverse ++ c.rest

/-- The byte offset of the place. -/
def position (c : Cursor) : Nat := Text.size c.read

/-- The next character, if there is one. -/
def peek (c : Cursor) : Option Char := c.rest.head?

/-- Whether the text is read to its end. -/
def isEof (c : Cursor) : Bool := c.rest.isEmpty

/-- The part of the whole text that a span covers. -/
def slice? (c : Cursor) (span : Span) : Option Text := span.slice? c.text

/-- The text between an earlier cursor and a later one of the same text. -/
def textSince (c start : Cursor) : Text :=
  start.rest.take (start.rest.length - c.rest.length)

/-! ### Moving -/

/-- The place after the next `n` characters, or the end of the text. -/
def advance (c : Cursor) (n : Nat) : Cursor :=
  { c with read := (c.rest.take n).reverse ++ c.read, rest := c.rest.drop n }

/-- The place `start`, under the options now in force. -/
def rewindTo (c start : Cursor) : Cursor := { start with options := c.options }

/-! ### How the operations look through `text` and `position` -/

@[simp] theorem text_atStart (text : Text) (options : Options) :
    (atStart text options).text = text := by
  simp [atStart, Cursor.text]

@[simp] theorem position_atStart (text : Text) (options : Options) :
    (atStart text options).position = 0 := rfl

/-- **There is a cursor at an offset exactly when the text can be cut there**,
and it has the first part of the cut read and the second part left. -/
theorem atOffset?_eq_some_iff {text : Text} {offset : Nat} {options : Options} {c : Cursor} :
    atOffset? text offset options = some c ↔
      c.text = text ∧ c.position = offset ∧ c.options = options := by
  obtain ⟨read, rest, opts⟩ := c
  simp only [atOffset?, Option.map_eq_some_iff, Prod.exists, Text.split?_eq_some_iff,
    Cursor.mk.injEq, Cursor.text, position]
  constructor
  · rintro ⟨front, back, ⟨rfl, rfl⟩, rfl, rfl, rfl⟩
    simp
  · rintro ⟨rfl, rfl, rfl⟩
    exact ⟨read.reverse, rest, ⟨rfl, by simp⟩, by simp⟩

/-- The position of a cursor is a boundary of its text. -/
theorem isBoundary_position (c : Cursor) : c.text.IsBoundary c.position :=
  ⟨c.read.reverse, c.rest, rfl, by simp [position]⟩

@[simp] theorem text_advance (c : Cursor) (n : Nat) : (c.advance n).text = c.text := by
  simp [advance, Cursor.text]

@[simp] theorem position_advance (c : Cursor) (n : Nat) :
    (c.advance n).position = c.position + Text.size (c.rest.take n) := by
  simp [advance, position, Nat.add_comm]

@[simp] theorem options_advance (c : Cursor) (n : Nat) : (c.advance n).options = c.options := rfl

@[simp] theorem advance_zero (c : Cursor) : c.advance 0 = c := rfl

theorem advance_advance (c : Cursor) (m n : Nat) :
    (c.advance m).advance n = c.advance (m + n) := by
  simp only [advance, List.drop_drop, Cursor.mk.injEq, and_true]
  rw [List.take_add, List.reverse_append, List.append_assoc]

/-- What lies between a cursor and the place `n` characters further on. -/
@[simp] theorem textSince_advance (c : Cursor) (n : Nat) :
    (c.advance n).textSince c = c.rest.take n := by
  simp only [textSince, advance, List.length_drop]
  rcases Nat.le_total n c.rest.length with h | h
  · congr 1; omega
  · rw [List.take_of_length_le h, List.take_of_length_le (by omega)]

@[simp] theorem rewindTo_self (c : Cursor) : c.rewindTo c = c := rfl

end Cursor

end SolidityTokens
