import SolidityTokens.Recognizer.Cursor

/-!
# Boundaries and bytes

An offset counts bytes, a text is a list of characters, and a boundary is where
the two meet: an offset that is the size of some prefix. Said that way,
boundaries are about prefixes. This file says what they are about bytes: **an
offset is a boundary if the byte there begins a character, or if it is the end
of the text** (`SolidityTokens.Text.isBoundary_iff`). It is a test of one byte,
which works since no byte that begins a character occurs inside of one.

The encoding is self-delimiting in another way too, which is needed where words
are compared: of two different characters, neither begins with the bytes of the
other, and so **the bytes of a text begin with those of another exactly if the
text does** (`SolidityTokens.Text.utf8_isPrefix_iff`).

There are two ways to hand an offset to the library, as a bound of a span and as
the place of a cursor. Both ask for a boundary and for nothing else, so they
agree on what they accept, and also on what they show of the text
(`SolidityTokens.spans_and_cursors_agree`).
-/

namespace SolidityTokens

namespace Text

/-! ### The bytes of a text -/

/-- The bytes of the UTF-8 form of a text. -/
def utf8 (text : Text) : List UInt8 := text.flatMap String.utf8EncodeChar

@[simp] theorem utf8_nil : utf8 [] = [] := rfl

@[simp] theorem utf8_cons (ch : Char) (text : Text) :
    utf8 (ch :: text) = String.utf8EncodeChar ch ++ utf8 text := List.flatMap_cons

@[simp] theorem utf8_append (front back : Text) : utf8 (front ++ back) = utf8 front ++ utf8 back :=
  List.flatMap_append

/-- The size of a text is the number of its bytes. -/
@[simp] theorem length_utf8 (text : Text) : (utf8 text).length = size text := by
  induction text with
  | nil => rfl
  | cons ch text ih =>
    rw [utf8_cons, List.length_append, String.length_utf8EncodeChar, ih, size_cons]

/-- The bytes of a character tell where it ends: they can be read off in front
of any others. -/
theorem utf8EncodeChar_append_inj {ch ch' : Char} {back back' : List UInt8}
    (h : String.utf8EncodeChar ch ++ back = String.utf8EncodeChar ch' ++ back') :
    ch = ch' ∧ back = back' := by
  have hdecode : ∀ (ch : Char) (back : List UInt8),
      (String.utf8EncodeChar ch ++ back).toByteArray.utf8DecodeChar? 0 = some ch := by
    intro ch back
    rw [List.toByteArray_append]
    exact ByteArray.utf8DecodeChar?_utf8EncodeChar_append
  obtain rfl : ch = ch' := Option.some.inj (by rw [← hdecode ch back, h, hdecode])
  exact ⟨rfl, List.append_cancel_left h⟩

/-- **A text begins with another one exactly if its bytes do.** -/
theorem utf8_isPrefix_iff {w text : Text} : utf8 w <+: utf8 text ↔ w <+: text := by
  induction w generalizing text with
  | nil => exact iff_of_true List.nil_prefix List.nil_prefix
  | cons ch w ih =>
    cases text with
    | nil =>
      refine iff_of_false (fun h => ?_) (fun h => List.cons_ne_nil ch w (List.prefix_nil.mp h))
      exact String.utf8EncodeChar_ne_nil
        (List.append_eq_nil_iff.mp (List.prefix_nil.mp (utf8_cons ch w ▸ h))).1
    | cons ch' text =>
      rw [List.cons_prefix_cons, ← ih, utf8_cons, utf8_cons]
      constructor
      · rintro ⟨back, hback⟩
        rw [List.append_assoc] at hback
        obtain ⟨rfl, hrest⟩ := utf8EncodeChar_append_inj hback
        exact ⟨rfl, back, hrest⟩
      · rintro ⟨rfl, hrest⟩
        exact (List.prefix_append_right_inj _).mpr hrest

/-! ### Boundaries -/

theorem isBoundary_zero (text : Text) : text.IsBoundary 0 := ⟨[], text, rfl, rfl⟩

theorem isBoundary_size (text : Text) : text.IsBoundary (size text) :=
  ⟨text, [], (List.append_nil text).symm, rfl⟩

/-- The boundaries after the first one are those of the text without its first
character. -/
theorem isBoundary_cons_iff {ch : Char} {text : Text} {k : Nat} :
    IsBoundary (ch :: text) k ↔ k = 0 ∨ ∃ j, text.IsBoundary j ∧ k = ch.utf8Size + j := by
  constructor
  · rintro ⟨front, back, htext, rfl⟩
    cases front with
    | nil => exact Or.inl rfl
    | cons ch' front =>
      obtain ⟨rfl, rfl⟩ := List.cons.inj htext
      exact Or.inr ⟨size front, ⟨front, back, rfl, rfl⟩, rfl⟩
  · rintro (rfl | ⟨j, ⟨front, back, rfl, rfl⟩, rfl⟩)
    · exact isBoundary_zero _
    · exact ⟨ch :: front, back, rfl, rfl⟩

/-- **An offset is a boundary if it is the end of the text, or if the byte there
begins a character.** -/
theorem isBoundary_iff {text : Text} {k : Nat} :
    text.IsBoundary k ↔
      k = size text ∨ ∃ byte, (utf8 text)[k]? = some byte ∧ byte.IsUTF8FirstByte := by
  induction text generalizing k with
  | nil => simp [IsBoundary, eq_comm]
  | cons ch text ih =>
    have hpos := ch.utf8Size_pos
    rw [isBoundary_cons_iff, size_cons, utf8_cons]
    rcases Nat.lt_or_ge k ch.utf8Size with hlt | hge
    · -- The offset is in the first character, so it has to be its first byte.
      have hk : k < (String.utf8EncodeChar ch).length := by rwa [String.length_utf8EncodeChar]
      have hfirst : (String.utf8EncodeChar ch)[k].IsUTF8FirstByte ↔ k = 0 :=
        UInt8.isUTF8FirstByte_getElem_utf8EncodeChar
      rw [List.getElem?_append_left hk, List.getElem?_eq_getElem hk]
      constructor
      · rintro (rfl | ⟨j, -, rfl⟩)
        · exact Or.inr ⟨_, rfl, hfirst.mpr rfl⟩
        · omega
      · rintro (rfl | ⟨byte, hbyte, hbegins⟩)
        · omega
        · obtain rfl := Option.some.inj hbyte
          exact Or.inl (hfirst.mp hbegins)
    · -- It is in the rest of the text, at an offset that is smaller by one character.
      obtain ⟨j, rfl⟩ := Nat.exists_eq_add_of_le hge
      have hlength : (String.utf8EncodeChar ch).length = ch.utf8Size :=
        String.length_utf8EncodeChar ch
      rw [List.getElem?_append_right (by omega), hlength, Nat.add_sub_cancel_left,
        Nat.add_left_cancel_iff, ← ih]
      constructor
      · rintro (hzero | ⟨i, hi, heq⟩)
        · omega
        · rwa [Nat.add_left_cancel heq]
      · exact fun hj => Or.inr ⟨j, hj, rfl⟩

/-- Two boundaries in order cut a text in three. -/
theorem IsBoundary.exists_between {text : Text} {a b : Nat} (ha : text.IsBoundary a)
    (hb : text.IsBoundary b) (hle : a ≤ b) :
    ∃ front middle back, text = front ++ middle ++ back ∧ size front = a ∧
      size (front ++ middle) = b := by
  obtain ⟨front, rest, htext, rfl⟩ := ha
  obtain ⟨front', back, htext', rfl⟩ := hb
  -- One of the two prefixes goes on where the other one ends, and it is the
  -- second one that is longer.
  rcases List.append_eq_append_iff.mp (htext.symm.trans htext') with
    ⟨middle, rfl, rfl⟩ | ⟨middle, rfl, rfl⟩
  · exact ⟨front, middle, back, by rw [htext, List.append_assoc], rfl, rfl⟩
  · have hnil : middle = [] := by
      rw [← size_eq_zero_iff]
      rw [size_append] at hle
      omega
    subst hnil
    rw [List.append_nil] at htext ⊢
    exact ⟨front', [], rest, by rw [htext, List.append_nil], rfl, by rw [List.append_nil]⟩

end Text

/-! ### Spans -/

namespace Span

variable {text : Text} {a b c : Nat}

/-- There is a text between two boundaries in order. -/
theorem isSome_slice?_of_isBoundary (ha : text.IsBoundary a) (hb : text.IsBoundary b)
    (hle : a ≤ b) : (slice? ⟨a, b⟩ text).isSome := by
  obtain ⟨front, middle, back, htext, hfront, hmiddle⟩ := ha.exists_between hb hle
  rw [slice?_eq_some_iff.mpr ⟨front, back, htext, hfront, hmiddle⟩]
  rfl

/-- **A span covers a text if its bounds are boundaries in order**, and only
then. -/
theorem isSome_slice?_iff :
    (slice? ⟨a, b⟩ text).isSome ↔ a ≤ b ∧ text.IsBoundary a ∧ text.IsBoundary b := by
  constructor
  · intro hsome
    obtain ⟨middle, hmiddle⟩ := Option.isSome_iff_exists.mp hsome
    obtain ⟨front, back, rfl, rfl, rfl⟩ := slice?_eq_some_iff.mp hmiddle
    refine ⟨?_, ⟨front, middle ++ back, List.append_assoc .., rfl⟩,
      ⟨front ++ middle, back, rfl, rfl⟩⟩
    rw [Text.size_append]
    exact Nat.le_add_right _ _
  · exact fun ⟨hle, ha, hb⟩ => isSome_slice?_of_isBoundary ha hb hle

/-- The bytes of the text that a span covers are those between its bounds. -/
theorem utf8_of_slice? {s : Text} (h : slice? ⟨a, b⟩ text = some s) :
    s.utf8 = (text.utf8.take b).drop a := by
  obtain ⟨front, back, rfl, rfl, rfl⟩ := slice?_eq_some_iff.mp h
  rw [Text.utf8_append, ← Text.length_utf8 (front ++ s), List.take_left, Text.utf8_append,
    ← Text.length_utf8 front, List.drop_left]

/-- **Adjacent spans cover adjacent texts.** -/
theorem slice?_append (ha : text.IsBoundary a) (hb : text.IsBoundary b) (hc : text.IsBoundary c)
    (hab : a ≤ b) (hbc : b ≤ c) :
    ∃ s t, slice? ⟨a, b⟩ text = some s ∧ slice? ⟨b, c⟩ text = some t ∧
      slice? ⟨a, c⟩ text = some (s ++ t) := by
  obtain ⟨front, s, rest, htext, rfl, rfl⟩ := ha.exists_between hb hab
  obtain ⟨front', t, back, htext', hfront', rfl⟩ := hb.exists_between hc hbc
  -- Both decompositions cut the text at the middle bound, where there is only
  -- one cut.
  obtain ⟨rfl, rfl⟩ := Text.append_inj_of_size_eq
    (htext.symm.trans (htext'.trans (List.append_assoc ..))) hfront'.symm
  refine ⟨s, t, ?_, ?_, ?_⟩
  · exact slice?_eq_some_iff.mpr ⟨front, t ++ back, htext, rfl, rfl⟩
  · exact slice?_eq_some_iff.mpr ⟨front ++ s, back, htext', rfl, rfl⟩
  · exact slice?_eq_some_iff.mpr ⟨front, back, by rw [htext', ← List.append_assoc], rfl, by
      rw [List.append_assoc]⟩

end Span

/-! ### Cursors -/

namespace Cursor

variable {text : Text} {offset : Nat} {options : Options} {c : Cursor}

/-- **There is a cursor at every boundary**, and nowhere else. -/
theorem isSome_atOffset?_iff : (atOffset? text offset options).isSome ↔ text.IsBoundary offset := by
  rw [atOffset?, Option.isSome_map]
  exact Text.split?_isSome_iff

/-- What a cursor has left is the text from its place to the end. -/
theorem slice?_position_size (c : Cursor) :
    Span.slice? ⟨c.position, Text.size c.text⟩ c.text = some c.rest := by
  refine Span.slice?_eq_some_iff.mpr ⟨c.read.reverse, [], ?_, Text.size_reverse c.read, rfl⟩
  exact (List.append_nil _).symm

theorem isEof_iff_peek_eq_none : c.isEof ↔ c.peek = none := by
  rw [isEof, peek, List.isEmpty_iff, List.head?_eq_none_iff]

/-- There is no next character only at the end of the text. -/
theorem peek_eq_none_iff : c.peek = none ↔ c.position = Text.size c.text := by
  rw [peek, List.head?_eq_none_iff, Cursor.text, Text.size_append, Text.size_reverse, position,
    Nat.left_eq_add, Text.size_eq_zero_iff]

end Cursor

/-- **Offsets, spans and cursors agree on the boundaries of a text**, for all
offsets:

* an offset is a boundary if it is the end of the text, or if the byte there
  begins a character;
* a span covers a text if its bounds are boundaries in order, and what it covers
  is the middle of the text between them, in characters and in bytes;
* adjacent spans cover adjacent texts;
* there is a cursor at an offset if that is a boundary, and what it has left is
  what the span from there to the end covers; there is no next character only at
  the end. -/
theorem spans_and_cursors_agree (text : Text) :
    (∀ k, text.IsBoundary k ↔
      k = Text.size text ∨ ∃ byte, text.utf8[k]? = some byte ∧ byte.IsUTF8FirstByte) ∧
    (∀ a b, (Span.slice? ⟨a, b⟩ text).isSome ↔
      a ≤ b ∧ text.IsBoundary a ∧ text.IsBoundary b) ∧
    (∀ a b s, Span.slice? ⟨a, b⟩ text = some s →
      (∃ x y, text = x ++ s ++ y ∧ Text.size x = a ∧ Text.size (x ++ s) = b) ∧
        s.utf8 = (text.utf8.take b).drop a) ∧
    (∀ a b c, text.IsBoundary a → text.IsBoundary b → text.IsBoundary c → a ≤ b → b ≤ c →
      ∃ s t, Span.slice? ⟨a, b⟩ text = some s ∧ Span.slice? ⟨b, c⟩ text = some t ∧
        Span.slice? ⟨a, c⟩ text = some (s ++ t)) ∧
    (∀ a options, (Cursor.atOffset? text a options).isSome ↔ text.IsBoundary a) ∧
    ∀ a options c, Cursor.atOffset? text a options = some c →
      Span.slice? ⟨a, Text.size text⟩ text = some c.rest ∧ (c.isEof ↔ c.peek = none) ∧
        (c.peek = none ↔ a = Text.size text) := by
  refine ⟨fun k => Text.isBoundary_iff, fun a b => Span.isSome_slice?_iff,
    fun a b s hs => ⟨Span.slice?_eq_some_iff.mp hs, Span.utf8_of_slice? hs⟩,
    fun a b c => Span.slice?_append, fun a options => Cursor.isSome_atOffset?_iff, ?_⟩
  intro a options c hc
  obtain ⟨rfl, rfl, rfl⟩ := Cursor.atOffset?_eq_some_iff.mp hc
  exact ⟨c.slice?_position_size, Cursor.isEof_iff_peek_eq_none, Cursor.peek_eq_none_iff⟩

/-- Characters of two, three and four bytes: the boundaries between them, and
one offset inside the second of them. -/
theorem spans_and_cursors_agree_wide :
    let text : Text := "é€𝄞".toList
    text.utf8.length = 9 ∧ text.IsBoundary 2 ∧ text.IsBoundary 5 ∧ text.IsBoundary 9 ∧
      ¬text.IsBoundary 3 ∧ (Span.slice? ⟨3, 5⟩ text).isNone ∧
      (Cursor.atOffset? text 3 {}).isNone ∧
      (∃ x y, text = x ++ ['€'] ++ y ∧ Text.size x = 2 ∧ Text.size (x ++ ['€']) = 5) ∧
      (∃ s t, Span.slice? ⟨2, 5⟩ text = some s ∧ Span.slice? ⟨5, 9⟩ text = some t ∧
        Span.slice? ⟨2, 9⟩ text = some (s ++ t)) ∧
      Span.slice? ⟨5, Text.size text⟩ text = some ['𝄞'] := by
  intro text
  obtain ⟨hbyte, hslice, hmiddle, happend, hoffset, hcursor⟩ := spans_and_cursors_agree text
  have htwo : text.IsBoundary 2 := ⟨['é'], ['€', '𝄞'], by decide, by decide⟩
  have hfive : text.IsBoundary 5 := ⟨['é', '€'], ['𝄞'], by decide, by decide⟩
  have hnine : text.IsBoundary 9 := ⟨text, [], by decide, by decide⟩
  have hthree : ¬text.IsBoundary 3 := by
    rw [hbyte]
    rintro (hend | ⟨byte, hat, hfirst⟩)
    · exact absurd hend (by decide)
    · -- The second byte of a character.
      obtain rfl : byte = 0x82 := Option.some.inj (hat.symm.trans (by decide))
      exact absurd hfirst (by decide)
  refine ⟨by decide, htwo, hfive, hnine, hthree, ?_, ?_, (hmiddle 2 5 ['€'] (by decide)).1,
    happend 2 5 9 htwo hfive hnine (by decide) (by decide), ?_⟩
  · rw [← Option.not_isSome, Bool.not_eq_true', Bool.eq_false_iff]
    exact fun h => hthree ((hslice 3 5).mp h).2.1
  · rw [← Option.not_isSome, Bool.not_eq_true', Bool.eq_false_iff]
    exact fun h => hthree ((hoffset 3 {}).mp h)
  · exact (hcursor 5 {} ⟨['€', 'é'], ['𝄞'], {}⟩ (by decide)).1

end SolidityTokens
