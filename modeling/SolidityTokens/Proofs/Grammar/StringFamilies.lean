import SolidityTokens.Proofs.Grammar.Strings

/-!
# The three families of strings

Plain strings, hex strings and unicode strings are read by three different
loops, and yet the families lie inside one another once the tags are taken off:
**what stands after the tag of a hex string is a plain string, and a plain
string is what stands after the tag of a unicode string and is written in plain
characters** (`SolidityTokens.string_families_nest`).

That two languages agree on the words written in certain characters
(`SolidityTokens.Recognizer.writtenIn`) is passed on by products, sums and
stars. So it is enough to compare single elements. The characters that stand for
themselves in a plain string are those of a unicode string that are printable.
The escapes are the same in both, and they are where the line breaks come in:
these are plain characters because an escape may have one, and not because they
could stand for themselves.
-/

namespace SolidityTokens

open scoped Computability

namespace Recognizer

variable {A B : Language Char} {p q : Char → Bool} {m : Text}

/-! ### Words in certain characters -/

/-- The words of a language all of whose characters have the property `p`. -/
def writtenIn (p : Char → Bool) (A : Language Char) : Language Char :=
  {m | m ∈ A ∧ ∀ ch ∈ m, p ch = true}

theorem mem_writtenIn : m ∈ writtenIn p A ↔ m ∈ A ∧ ∀ ch ∈ m, p ch = true :=
  Iff.rfl

theorem writtenIn_of_le (h : A ≤ (oneChar p)∗) : writtenIn p A = A := by
  ext m
  exact and_iff_left_of_imp (forall_mem_of_le h)

theorem writtenIn_oneChar : writtenIn p (oneChar q) = oneChar fun ch => q ch && p ch := by
  ext m
  constructor
  · rintro ⟨⟨ch, hq, rfl⟩, hp⟩
    exact ⟨ch, Bool.and_eq_true_iff.mpr ⟨hq, hp ch List.mem_cons_self⟩, rfl⟩
  · rintro ⟨ch, h, rfl⟩
    obtain ⟨hq, hp⟩ := Bool.and_eq_true_iff.mp h
    exact ⟨⟨ch, hq, rfl⟩, fun ch' hch' => List.mem_singleton.mp hch' ▸ hp⟩

theorem writtenIn_add : writtenIn p (A + B) = writtenIn p A + writtenIn p B := by
  ext m
  exact or_and_right

theorem writtenIn_mul : writtenIn p (A * B) = writtenIn p A * writtenIn p B := by
  ext m
  rw [mem_writtenIn, Language.mem_mul, Language.mem_mul]
  constructor
  · rintro ⟨⟨m₁, hm₁, m₂, hm₂, rfl⟩, hp⟩
    obtain ⟨hp₁, hp₂⟩ := List.forall_mem_append.mp hp
    exact ⟨m₁, ⟨hm₁, hp₁⟩, m₂, ⟨hm₂, hp₂⟩, rfl⟩
  · rintro ⟨m₁, ⟨hm₁, hp₁⟩, m₂, ⟨hm₂, hp₂⟩, rfl⟩
    exact ⟨⟨m₁, hm₁, m₂, hm₂, rfl⟩, List.forall_mem_append.mpr ⟨hp₁, hp₂⟩⟩

theorem writtenIn_kstar : writtenIn p A∗ = (writtenIn p A)∗ := by
  ext m
  rw [mem_writtenIn, Language.mem_kstar, Language.mem_kstar]
  constructor
  · rintro ⟨⟨parts, rfl, hparts⟩, hp⟩
    exact ⟨parts, rfl, fun part hpart =>
      ⟨hparts part hpart, fun ch hch => hp ch (List.mem_flatten.mpr ⟨part, hpart, hch⟩)⟩⟩
  · rintro ⟨parts, rfl, hparts⟩
    refine ⟨⟨parts, rfl, fun part hpart => (hparts part hpart).1⟩, fun ch hch => ?_⟩
    obtain ⟨part, hpart, hch⟩ := List.mem_flatten.mp hch
    exact (hparts part hpart).2 ch hch

theorem writtenIn_plus : writtenIn p (plus A) = plus (writtenIn p A) := by
  rw [plus, plus, writtenIn_mul, writtenIn_kstar]

theorem plus_mono (h : A ≤ B) : plus A ≤ plus B :=
  mul_le_mul' h (kstar_mono h)

end Recognizer

open Recognizer Grammar

/-! ### Plain characters -/

/-- The characters of plain strings: printable ones, and line breaks. -/
def isPlain (ch : Char) : Bool := CharClass.isPrintable ch || ch == '\n' || ch == '\r'

theorem isPlain_iff {ch : Char} :
    isPlain ch = true ↔ CharClass.isPrintable ch = true ∨ ch = '\n' ∨ ch = '\r' := by
  rw [isPlain, Bool.or_eq_true, Bool.or_eq_true, beq_iff_eq, beq_iff_eq, or_assoc]

theorem isPlain_mark (quote : Quote) : isPlain quote.mark = true := by
  cases quote <;> decide

theorem isPrintable_of_hexDigit {ch : Char} (h : CharClass.hexDigit.contains ch = true) :
    CharClass.isPrintable ch = true := by
  have hcover : ∀ range ∈ CharClass.hexDigit.ranges,
      ∃ range' ∈ [(' ', '~')], range'.1 ≤ range.1 ∧ range.2 ≤ range'.2 := by
    decide
  obtain ⟨range, hrange, hch⟩ := CharClass.exists_range_of_cover hcover h
  rw [List.mem_singleton.mp hrange] at hch
  exact CharClass.isPrintable_iff.mpr hch

/-- What is printable stands for itself, except for the quote and the
backslash. -/
theorem contains_printable_iff {quote : Quote} {ch : Char} :
    quote.printable.contains ch = true ↔
      CharClass.isPrintable ch = true ∧ ch ≠ quote.mark ∧ ch ≠ '\\' := by
  cases quote <;>
    simp only [Quote.printable, Quote.mark, CharClass.contains, Bool.and_eq_true, bne_iff_ne,
      and_assoc]

theorem isUnicodePart_iff {quote : Quote} {ch : Char} :
    isUnicodePart quote ch = true ↔ ch ≠ quote.mark ∧ ch ≠ '\r' ∧ ch ≠ '\n' ∧ ch ≠ '\\' := by
  simp [isUnicodePart]

/-- Between the same quotes, a plain character that stands for itself in a
unicode string does so in a plain one. A line break does not. -/
theorem isUnicodePart_and_isPlain (quote : Quote) (ch : Char) :
    (isUnicodePart quote ch && isPlain ch) = quote.printable.contains ch := by
  rw [Bool.eq_iff_iff, Bool.and_eq_true, isUnicodePart_iff, isPlain_iff, contains_printable_iff]
  constructor
  · rintro ⟨⟨hmark, hreturn, hfeed, hbackslash⟩, hprintable | rfl | rfl⟩
    · exact ⟨hprintable, hmark, hbackslash⟩
    -- The line breaks are plain, but they stand for themselves in neither
    -- family.
    · exact absurd rfl hfeed
    · exact absurd rfl hreturn
  · rintro ⟨hprintable, hmark, hbackslash⟩
    refine ⟨⟨hmark, ?_, ?_, hbackslash⟩, Or.inl hprintable⟩
    · rintro rfl
      exact absurd hprintable (by decide)
    · rintro rfl
      exact absurd hprintable (by decide)

theorem writtenIn_escapes : writtenIn isPlain escapes = escapes := by
  refine writtenIn_of_le (escapes_le (by decide) (fun ch h => ?_) fun ch h => ?_)
  · have hset : ['\'', '"', '\\', 'n', 'r', 't', '\n', '\r'].all isPlain = true := by decide
    exact List.all_eq_true.mp hset ch (List.contains_iff_mem.mp h)
  · exact isPlain_iff.mpr (Or.inl (isPrintable_of_hexDigit h))

/-! ### Elements and segments -/

theorem plainElements_eq (quote : Quote) :
    plainElements quote = writtenIn isPlain (unicodeElements quote) := by
  simp only [unicodeElements, writtenIn_add, writtenIn_oneChar, isUnicodePart_and_isPlain,
    writtenIn_escapes, plainElements]

theorem writtenIn_quotedOf {B : Quote → Language Char} {p : Char → Bool}
    (hp : ∀ quote : Quote, p quote.mark = true) :
    writtenIn p (quotedOf B) = quotedOf fun quote => writtenIn p (B quote) := by
  ext m
  constructor
  · rintro ⟨⟨quote, b, rfl, hb⟩, hm⟩
    refine ⟨quote, b, rfl, hb, fun ch hch => hm ch ?_⟩
    exact List.mem_cons_of_mem _ (List.mem_append_left _ hch)
  · rintro ⟨quote, b, rfl, hb, hm⟩
    refine ⟨⟨quote, b, rfl, hb⟩, ?_⟩
    rw [List.forall_mem_cons, List.forall_mem_append, List.forall_mem_singleton]
    exact ⟨hp quote, hm, hp quote⟩

/-- **Plain strings are unicode strings in plain characters.** -/
theorem quotedStrings_eq : quotedStrings = writtenIn isPlain unicodeSegments := by
  simp only [unicodeSegments, writtenIn_quotedOf isPlain_mark, writtenIn_kstar, ← plainElements_eq,
    quotedStrings]

theorem hexBodies_le (quote : Quote) : hexBodies ≤ (oneChar quote.printable.contains)∗ := by
  have hdigit : ∀ ch, CharClass.hexDigit.contains ch = true →
      quote.printable.contains ch = true := by
    intro ch hch
    refine contains_printable_iff.mpr ⟨isPrintable_of_hexDigit hch, ?_, ?_⟩
    · rintro rfl
      cases quote <;> exact absurd hch (by decide)
    · rintro rfl
      exact absurd hch (by decide)
  have hmark : quote.printable.contains '_' = true := by cases quote <;> decide
  have hpairs : hexPairWords ≤ (oneChar quote.printable.contains)∗ :=
    pow_le_kstar_of_le (oneChar_le hdigit) 2
  have hmarked : underscored hexPairWords ≤ (oneChar quote.printable.contains)∗ :=
    mul_le_kstar (one_add_le_kstar (oneChar_le fun ch hch => beq_iff_eq.mp hch ▸ hmark)) hpairs
  exact one_add_le_kstar (mul_le_kstar hpairs (kstar_le_kstar hmarked))

/-- **Hex pairs in quotes are plain strings.** -/
theorem hexSegments_le : hexSegments ≤ quotedStrings := by
  rintro m ⟨quote, b, rfl, hb⟩
  have hle : hexBodies ≤ (plainElements quote)∗ :=
    (hexBodies_le quote).trans (kstar_mono le_self_add)
  exact ⟨quote, b, rfl, hle hb⟩

/-! ### Accepted strings -/

theorem accepts_stringLiteral_iff (s : Text) (options : Options) :
    (∃ m, stringLiteral.recognizeWhole s options = .ok m) ↔ s ∈ plus quotedStrings := by
  have hdecides : Decides stringLiteral options _ := decides_stringLiteral
  simp only [hdecides.recognizeWhole_eq_ok_iff Rule.stringLiteral.settles, exists_eq_left]
  exact and_iff_left (not_startsIn_nil fun hnil => (headed_of_mem_quotedOf hnil).ne_nil rfl)

/-- A tagged string is accepted exactly when segments stand after the tag. -/
theorem accepts_tagged_iff {f : Recognizer Text} {options : Options} {tag : Text}
    {B : Quote → Language Char} (h : Decides f options (TaggedCut tag (quotedOf B)))
    (hf : Settles f) (s : Text) :
    (∃ m, f.recognizeWhole (tag ++ s) options = .ok m) ↔ s ∈ plus (quotedOf B) := by
  simp only [h.recognizeWhole_eq_ok_iff hf, exists_eq_left]
  constructor
  · rintro ⟨hm, -⟩
    obtain ⟨_, rfl, s', hs', heq⟩ := Language.mem_mul.mp hm
    exact List.append_cancel_left heq ▸ hs'
  · intro hs
    refine ⟨Language.append_mem_mul rfl hs, not_startsIn_nil fun hnil => ?_⟩
    exact (headed_of_mem_quotedOf hnil).ne_nil rfl

/-- **The three families of strings nest.** Without its tag, a hex string is a
plain string; and the plain strings are the unicode strings without their tag in
which every character is printable or a line break. -/
theorem string_families_nest (s : Text) (options : Options) :
    ((∃ m, Rule.hexString.recognizer.recognizeWhole ("hex".toList ++ s) options = .ok m) →
      ∃ m, Rule.stringLiteral.recognizer.recognizeWhole s options = .ok m) ∧
    ((∃ m, Rule.stringLiteral.recognizer.recognizeWhole s options = .ok m) ↔
      (∃ m, Rule.unicodeString.recognizer.recognizeWhole ("unicode".toList ++ s) options =
        .ok m) ∧
      ∀ ch ∈ s, (' ' ≤ ch ∧ ch ≤ '~') ∨ ch = '\n' ∨ ch = '\r') := by
  have hdecides : Decides hexString options _ := decides_hexString
  have hdecides' : Decides unicodeString options _ := decides_unicodeString
  have hhex := accepts_tagged_iff hdecides Rule.hexString.settles s
  have hunicode := accepts_tagged_iff hdecides' Rule.unicodeString.settles s
  have hplain := accepts_stringLiteral_iff s options
  constructor
  · intro h
    exact hplain.mpr (plus_mono hexSegments_le (hhex.mp h))
  · refine hplain.trans ?_
    rw [quotedStrings_eq, ← writtenIn_plus]
    refine and_congr hunicode.symm (forall₂_congr fun ch _ => ?_)
    rw [isPlain_iff, CharClass.isPrintable_iff]

/-- Pairs of hex digits in two segments, with different quotes. -/
theorem string_families_nest_two_segments :
    let s := "'01_ab'\"\"".toList
    (∃ m, Rule.hexString.recognizer.recognizeWhole ("hex".toList ++ s) {} = .ok m) ∧
      (∃ m, Rule.stringLiteral.recognizer.recognizeWhole s {} = .ok m) ∧
      ∃ m, Rule.unicodeString.recognizer.recognizeWhole ("unicode".toList ++ s) {} = .ok m := by
  intro s
  have hhex : Rule.hexString.recognizer.recognizeWhole ("hex".toList ++ s) {} =
      .ok ("hex".toList ++ s) := by
    decide +kernel
  obtain ⟨hplain, hunicode⟩ := string_families_nest s {}
  exact ⟨⟨_, hhex⟩, hplain ⟨_, hhex⟩, (hunicode.mp (hplain ⟨_, hhex⟩)).1⟩

end SolidityTokens
