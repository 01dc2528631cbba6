import SolidityTokens.Proofs.Grammar.Numbers

/-!
# The cuts of strings

What stands between two quotes is made of elements none of which begins with the
quote that closes the string. So the loop over the elements stops at the first
quote that is not part of an element, and a quoted string is a word of a
language, whatever follows it (`SolidityTokens.decides_quoted`).

The literals are runs of such words, and a run is cut off where no further word
begins.
-/

namespace SolidityTokens

open scoped Computability

open Recognizer Grammar

variable {options : Options}

/-! ### Escapes -/

/-- The characters that a backslash alone escapes. -/
def isEscapable (ch : Char) : Bool :=
  ['\'', '"', '\\', 'n', 'r', 't', '\n', '\r'].contains ch

/-- A letter and `n` hex digits. -/
def characterCodes (announcer : Char) (n : Nat) : Language Char :=
  oneChar (· == announcer) * oneChar CharClass.hexDigit.contains ^ n

/-- The escapes: a backslash, and a character that it escapes or a character
code. -/
def escapes : Language Char :=
  oneChar (· == '\\') *
    (oneChar isEscapable + (characterCodes 'u' 4 + characterCodes 'x' 2))

theorem decides_characterCode (announcer : Char) (n : Nat) :
    Decides (characterCode announcer n) options fun m _ => m ∈ characterCodes announcer n := by
  have hdigits : Decides (times n (charOf .hexDigit)) options _ :=
    (decides_satisfy CharClass.hexDigit.contains).times n
  exact ((decides_satisfy _).andThen hdigits).atomic.congr fun _ _ => sequel_mem_iff

theorem headed_of_mem_characterCodes {announcer : Char} {n : Nat} {m : Text}
    (hm : m ∈ characterCodes announcer n) : Headed (· == announcer) m :=
  headed_of_marked hm

theorem headed_of_mem_escapes {m : Text} (hm : m ∈ escapes) : Headed (· == '\\') m :=
  headed_of_marked hm

/-- The characters of escapes. -/
theorem escapes_le {p : Char → Bool} (hmarks : ['\\', 'u', 'x'].all p = true)
    (hescapable : ∀ ch, isEscapable ch = true → p ch = true)
    (hdigit : ∀ ch, CharClass.hexDigit.contains ch = true → p ch = true) :
    escapes ≤ (oneChar p)∗ := by
  have hmark : ∀ mark ∈ ['\\', 'u', 'x'], oneChar (· == mark) ≤ (oneChar p)∗ :=
    fun mark hmem => oneChar_le fun _ h => beq_iff_eq.mp h ▸ List.all_eq_true.mp hmarks mark hmem
  have hcode : ∀ mark ∈ ['\\', 'u', 'x'], ∀ n, characterCodes mark n ≤ (oneChar p)∗ :=
    fun mark hmem n => mul_le_kstar (hmark mark hmem) (pow_le_kstar_of_le (oneChar_le hdigit) n)
  refine mul_le_kstar (hmark _ (by simp)) (add_le (oneChar_le hescapable) ?_)
  exact add_le (hcode _ (by simp) 4) (hcode _ (by simp) 2)

/-- **An escape is cut off in front of anything.** -/
theorem decides_escapeSequence : Decides escapeSequence options fun m _ => m ∈ escapes := by
  have hcodes : Decides (characterCode 'u' 4 <|> characterCode 'x' 2) options fun m _ =>
      m ∈ characterCodes 'u' 4 + characterCodes 'x' 2 :=
    (decides_characterCode 'u' 4).orElse_of_headed (Recipe.characterCode 'u' 4).failsInPlace
      (decides_characterCode 'x' 2) headed_of_mem_characterCodes headed_of_mem_characterCodes
      (by simp)
  have hescaped : Decides
      (oneOf ['\'', '"', '\\', 'n', 'r', 't', '\n', '\r'] <|> characterCode 'u' 4 <|>
        characterCode 'x' 2) options fun m _ =>
      m ∈ oneChar isEscapable + (characterCodes 'u' 4 + characterCodes 'x' 2) := by
    refine (decides_satisfy isEscapable).orElse_of_headed (failsInPlace_satisfy _) hcodes
      headed_of_mem_oneChar
      (headed_of_mem_add headed_of_mem_characterCodes headed_of_mem_characterCodes) ?_
    intro ch hch
    obtain rfl | rfl : ch = 'u' ∨ ch = 'x' := by simpa using hch
    · decide
    · decide
  exact ((decides_satisfy _).andThen hescaped).atomic.congr fun _ _ => sequel_mem_iff

/-! ### Elements -/

/-- The characters that stand for themselves in a unicode string. -/
def isUnicodePart (quote : Quote) (ch : Char) : Bool :=
  !([quote.mark, '\r', '\n', '\\'].contains ch)

/-- The elements of a plain string. -/
def plainElements (quote : Quote) : Language Char :=
  oneChar quote.printable.contains + escapes

/-- The elements of a unicode string. -/
def unicodeElements (quote : Quote) : Language Char := oneChar (isUnicodePart quote) + escapes

/-- Two hex digits. -/
def hexPairWords : Language Char := oneChar CharClass.hexDigit.contains ^ 2

/-- Pairs of hex digits, with single underscores between them, or nothing. -/
def hexBodies : Language Char :=
  1 + hexPairWords * (underscored hexPairWords)∗

section Elements

variable {p : Char → Bool}

/-- A character that stands for itself, or an escape. -/
theorem decides_element (hp : p '\\' = false) :
    Decides (satisfy p <|> escapeSequence) options fun m _ => m ∈ oneChar p + escapes :=
  (decides_satisfy p).orElse_of_headed (failsInPlace_satisfy p) decides_escapeSequence
    headed_of_mem_oneChar headed_of_mem_escapes (eq_false_of_beq hp)

theorem failsInPlace_element : FailsInPlace (satisfy p <|> escapeSequence) :=
  (failsInPlace_satisfy p).orElse Rule.escapeSequence.failsInPlace

/-- What an element can begin with. -/
theorem headed_of_mem_element {m : Text} (hm : m ∈ oneChar p + escapes) :
    Headed (fun ch => p ch || ch == '\\') m :=
  headed_of_mem_add headed_of_mem_oneChar headed_of_mem_escapes hm

end Elements

/-! ### Quotes -/

/-- Two equal quotes, and a word of a language that may depend on them in
between. -/
def quotedOf (B : Quote → Language Char) : Language Char :=
  {m | ∃ quote b, m = Quote.mark quote :: (b ++ [quote.mark]) ∧ b ∈ B quote}

/-- Whether a character is a quote. -/
def isQuote (ch : Char) : Bool := ch == Quote.double.mark || ch == Quote.single.mark

theorem isQuote_mark (quote : Quote) : isQuote quote.mark = true := by
  cases quote <;> decide

theorem headed_of_mem_quotedOf {B : Quote → Language Char} {m : Text} (hm : m ∈ quotedOf B) :
    Headed isQuote m := by
  obtain ⟨quote, b, rfl, -⟩ := hm
  exact ⟨quote.mark, b ++ [quote.mark], rfl, isQuote_mark quote⟩

theorem exists_mark_of_not_avoids {t : Text} (ht : ¬Avoids isQuote t) :
    ∃ quote t', t = Quote.mark quote :: t' := by
  cases t with
  | nil => exact absurd (avoids_nil _) ht
  | cons ch t =>
    rw [avoids_cons, Bool.not_eq_false, isQuote, Bool.or_eq_true, beq_iff_eq, beq_iff_eq] at ht
    rcases ht with rfl | rfl
    · exact ⟨.double, t, rfl⟩
    · exact ⟨.single, t, rfl⟩

theorem run_openingQuote_mark (quote : Quote) (read rest : Text) :
    openingQuote.run ⟨read, quote.mark :: rest, options⟩ =
      ⟨some quote, ⟨quote.mark :: read, rest, options⟩, []⟩ := by
  cases quote <;> rfl

theorem value_openingQuote_of_avoids {read t : Text} (ht : Avoids isQuote t) :
    (openingQuote.run ⟨read, t, options⟩).value = none := by
  cases t with
  | nil => rfl
  | cons ch t =>
    rw [avoids_cons, isQuote, Bool.or_eq_false_iff] at ht
    simp only [openingQuote, char, run_orElse, run_bind, satisfy, ht.1, ht.2,
      Bool.false_eq_true, if_false]

/-- What an opening quote is, the rest can depend on. -/
theorem decides_openingQuote_bind {α : Type} {g : Quote → Recognizer α}
    {L : Quote → Text → Text → Prop} (h : ∀ quote, Decides (g quote) options (L quote)) :
    Decides (openingQuote >>= g) options fun m r =>
      ∃ quote m', m = Quote.mark quote :: m' ∧ L quote m' r where
  takes := by
    rintro _ r ⟨quote, m, rfl, hcut⟩ read
    obtain ⟨hsome, hcursor⟩ := (h quote).takes hcut (quote.mark :: read)
    rw [List.cons_append, run_bind, run_openingQuote_mark]
    refine ⟨hsome, hcursor.trans ?_⟩
    rw [List.reverse_cons, List.append_assoc, List.singleton_append]
  refuses := by
    intro t huncut read
    by_cases ht : Avoids isQuote t
    · rw [run_bind, value_openingQuote_of_avoids ht]
    · obtain ⟨quote, t, rfl⟩ := exists_mark_of_not_avoids ht
      rw [run_bind, run_openingQuote_mark]
      refine (h quote).refuses (fun m r ht hcut => ?_) _
      subst ht
      exact huncut (quote.mark :: m) r rfl ⟨quote, m, rfl, hcut⟩

/-- **A quoted string is cut off in front of anything**, if in front of the
closing quote the cuts of its body are the words of a language. -/
theorem decides_quoted {body : Quote → Recognizer Text} {L : Quote → Text → Text → Prop}
    {B : Quote → Language Char} (h : ∀ quote, Decides (body quote) options (L quote))
    (hB : ∀ quote b r, L quote b (quote.mark :: r) ↔ b ∈ B quote) :
    Decides (quoted body) options fun m _ => m ∈ quotedOf B := by
  refine (decides_openingQuote_bind fun quote =>
    (h quote).andThen (decides_satisfy (· == quote.mark))).atomic.congr fun m r => ?_
  constructor
  · rintro ⟨quote, _, rfl, b, _, rfl, hb, ch, hch, rfl⟩
    obtain rfl : ch = quote.mark := beq_iff_eq.mp hch
    exact ⟨quote, b, rfl, (hB quote b r).mp hb⟩
  · rintro ⟨quote, b, rfl, hb⟩
    exact ⟨quote, b ++ [quote.mark], rfl, b, [quote.mark], rfl, (hB quote b r).mpr hb,
      quote.mark, beq_self_eq_true _, rfl⟩

/-! ### Plain strings -/

/-- Plain strings. -/
def quotedStrings : Language Char := quotedOf fun quote => (plainElements quote)∗

/-- Plain strings that are not empty. -/
def nonEmptyStrings : Language Char := quotedOf fun quote => plus (plainElements quote)

/-- Two equal quotes. -/
def emptyStrings : Language Char := quotedOf fun _ => 1

theorem decides_plainElement (quote : Quote) :
    Decides (plainElement quote) options fun m _ => m ∈ plainElements quote :=
  decides_element (by cases quote <;> decide)

/-- No element of a plain string begins with the closing quote. -/
theorem not_startsIn_plainElements (quote : Quote) (r : Text) :
    ¬StartsIn (plainElements quote) (quote.mark :: r) := by
  refine not_startsIn_of_avoids headed_of_mem_element ((avoids_cons _ _ r).mpr ?_)
  cases quote <;> decide

theorem decides_quotedString : Decides quotedString options fun m _ => m ∈ quotedStrings := by
  refine decides_quoted (fun quote => (decides_plainElement quote).many_mem failsInPlace_element
    fun hm => (headed_of_mem_element hm).ne_nil) fun quote b r => ?_
  -- In front of the closing quote the loop stops by itself.
  exact and_iff_left (not_startsIn_plainElements quote r)

theorem decides_nonEmptyString :
    Decides nonEmptyString options fun m _ => m ∈ nonEmptyStrings := by
  refine decides_quoted (fun quote => (decides_plainElement quote).many1_mem failsInPlace_element
    fun hm => (headed_of_mem_element hm).ne_nil) fun quote b r => ?_
  exact and_iff_left (not_startsIn_plainElements quote r)

theorem mem_oneChar_sq_iff {ch : Char} {m : Text} : m ∈ oneChar (· == ch) ^ 2 ↔ m = [ch, ch] := by
  rw [pow_two, Language.mem_mul]
  constructor
  · rintro ⟨_, ⟨ch₁, h₁, rfl⟩, _, ⟨ch₂, h₂, rfl⟩, rfl⟩
    rw [beq_iff_eq.mp h₁, beq_iff_eq.mp h₂]
    rfl
  · rintro rfl
    have hch : [ch] ∈ oneChar (· == ch) := ⟨ch, beq_self_eq_true ch, rfl⟩
    exact ⟨[ch], hch, [ch], hch, rfl⟩

theorem decides_emptyString : Decides emptyString options fun m _ => m ∈ emptyStrings := by
  have hpair : ∀ ch, Decides (times 2 (char ch)) options fun m _ => m = [ch, ch] := fun ch =>
    ((decides_satisfy (· == ch)).times 2).congr fun _ _ => mem_oneChar_sq_iff
  have hplace : FailsInPlace (times 2 (char Quote.double.mark)) :=
    (Recipe.times 2 (.satisfy _)).failsInPlace
  refine ((hpair _).orElse_of_disjoint hplace (hpair _) ?_).congr fun m r => ?_
  · rintro _ r _ r' heq rfl rfl
    exact absurd (List.cons.inj heq).1 (by decide)
  · constructor
    · rintro (rfl | rfl)
      · exact ⟨.double, [], rfl, rfl⟩
      · exact ⟨.single, [], rfl, rfl⟩
    · rintro ⟨quote, _, rfl, rfl⟩
      cases quote
      · exact Or.inl rfl
      · exact Or.inr rfl

theorem quotedOf_add (B B' : Quote → Language Char) :
    quotedOf B + quotedOf B' = quotedOf fun quote => B quote + B' quote := by
  ext m
  constructor
  · rintro (⟨quote, b, rfl, hb⟩ | ⟨quote, b, rfl, hb⟩)
    · exact ⟨quote, b, rfl, Or.inl hb⟩
    · exact ⟨quote, b, rfl, Or.inr hb⟩
  · rintro ⟨quote, b, rfl, hb | hb⟩
    · exact Or.inl ⟨quote, b, rfl, hb⟩
    · exact Or.inr ⟨quote, b, rfl, hb⟩

/-- A plain string is empty or not. -/
theorem nonEmptyStrings_add_emptyStrings : nonEmptyStrings + emptyStrings = quotedStrings := by
  rw [nonEmptyStrings, emptyStrings, quotedOf_add, quotedStrings]
  simp only [plus, add_comm _ (1 : Language Char), Language.one_add_self_mul_kstar_eq_kstar]

/-- Trying the plain strings that are not empty first, and the empty ones after
them, is trying all of them. -/
theorem decides_nonEmptyString_orElse_emptyString :
    Decides (nonEmptyString <|> emptyString) options fun m _ => m ∈ quotedStrings := by
  have hquoted : Decides quotedString options _ := decides_quotedString
  refine (decides_nonEmptyString.orElse_of_disjoint Rule.nonEmptyString.failsInPlace
    decides_emptyString ?_).congr fun m r => ?_
  · -- Both are plain strings, so they would be the same one.
    intro m r m' r' heq hempty hnonEmpty
    have hm : m ∈ quotedStrings := nonEmptyStrings_add_emptyStrings ▸ Or.inr hempty
    have hm' : m' ∈ quotedStrings := nonEmptyStrings_add_emptyStrings ▸ Or.inl hnonEmpty
    obtain ⟨rfl, -⟩ := hquoted.unique hm hm' heq
    obtain ⟨quote, _, rfl, rfl⟩ := hempty
    obtain ⟨quote', b, heq', hb⟩ := hnonEmpty
    have hne : b ≠ [] := (headed_of_mem_mul headed_of_mem_element hb).ne_nil
    have hlength := congrArg List.length heq'
    simp at hlength
    exact hne hlength
  · rw [← nonEmptyStrings_add_emptyStrings]
    exact Iff.rfl

/-- **Plain strings one after the other are cut off where no further one
begins.** -/
theorem decides_stringLiteral :
    Decides stringLiteral options fun m r =>
      m ∈ plus quotedStrings ∧ ¬StartsIn quotedStrings r := by
  have hplace : FailsInPlace (nonEmptyString <|> emptyString) :=
    Rule.nonEmptyString.failsInPlace.orElse Rule.emptyString.failsInPlace
  exact decides_nonEmptyString_orElse_emptyString.many1_mem hplace
    fun hm => (headed_of_mem_quotedOf hm).ne_nil

/-! ### Tagged strings -/

/-- **The cuts of tagged strings**: a tag and words of a language, in front of
which no further word begins. -/
def TaggedCut (tag : Text) (A : Language Char) (m r : Text) : Prop :=
  m ∈ ({tag} : Language Char) * plus A ∧ ¬StartsIn A r

section Tagged

variable {tag : Text} {A : Language Char}

theorem decides_tagged {f : Recognizer Text} (h : Decides f options fun m _ => m ∈ A)
    (hplace : FailsInPlace f) (hA : ∀ {m}, m ∈ A → m ≠ []) :
    Decides (atomic (word tag >>= fun _ => many1 f)) options (TaggedCut tag A) :=
  ((decides_word tag).andThen (h.many1_mem hplace hA)).atomic.congr fun _ _ => sequel_mem_and_iff

theorem TaggedCut.of_append {m r s : Text} (h : TaggedCut tag A m (r ++ s)) :
    TaggedCut tag A m r :=
  ⟨h.1, fun hr => h.2 (hr.append s)⟩

/-- Tagged strings begin with their tag. -/
theorem TaggedCut.headed {p : Char → Bool} (htag : Headed p tag) {m r : Text}
    (h : TaggedCut tag A m r) : Headed p m := by
  refine headed_of_mem_mul (fun hm => ?_) h.1
  obtain rfl : _ = tag := hm
  exact htag

end Tagged

/-- Quoted strings of hex pairs. -/
def hexSegments : Language Char := quotedOf fun _ => hexBodies

/-- Quoted strings of any characters on one line. -/
def unicodeSegments : Language Char := quotedOf fun quote => (unicodeElements quote)∗

theorem headed_of_mem_hexPairWords {m : Text} (hm : m ∈ hexPairWords) :
    Headed CharClass.hexDigit.contains m := by
  rw [hexPairWords, pow_succ'] at hm
  exact headed_of_mem_mul headed_of_mem_oneChar hm

/-- Pairs of hex digits are read as far as they go, or not at all. -/
theorem decides_hexPairs :
    Decides hexPairs options (Otherwise
      (fun m r => m ∈ hexPairWords * (underscored hexPairWords)∗ ∧
        ¬StartsIn (underscored hexPairWords) r)
      fun m _ => m = []) := by
  have hpair : Decides hexPair options fun m _ => m ∈ hexPairWords :=
    (decides_satisfy CharClass.hexDigit.contains).times 2
  have hplace : FailsInPlace hexPair := (Recipe.times 2 (.satisfy _)).failsInPlace
  have hitem : Decides (grouped hexPair) options _ :=
    decides_grouped hpair hplace headed_of_mem_hexPairWords (by decide)
  have hitems : Decides (Recognizer.many (grouped hexPair)) options _ :=
    hitem.many_mem (failsInPlace_grouped (.times 2 (.satisfy _)) hplace)
      fun hm => (headed_of_mem_underscored headed_of_mem_hexPairWords hm).ne_nil
  have hpairs : Decides (hexPair >>= fun _ => Recognizer.many (grouped hexPair)) options _ :=
    (hpair.andThen hitems).congr fun _ _ => sequel_mem_and_iff
  refine hpairs.optionally (Recipe.atomic ?_).failsInPlace
  exact .bind (.times 2 (.satisfy _)) fun _ => .many (.grouped (.times 2 (.satisfy _)))

theorem decides_hexSegment :
    Decides (quoted fun _ => hexPairs) options fun m _ => m ∈ hexSegments := by
  refine decides_quoted (fun _ => decides_hexPairs) fun quote b r => ?_
  have hdigit : Avoids CharClass.hexDigit.contains (quote.mark :: r) := by
    rw [avoids_cons]
    cases quote <;> decide
  have hclosing : Avoids (isGrouped CharClass.hexDigit.contains) (quote.mark :: r) := by
    rw [avoids_cons]
    cases quote <;> decide
  constructor
  · rintro (⟨hb, -⟩ | ⟨-, rfl⟩)
    · exact Or.inr hb
    · exact Or.inl rfl
  · rintro (rfl | hb)
    · -- The closing quote comes at once, and it begins no pair.
      refine Or.inr ⟨?_, rfl⟩
      rintro m r' heq ⟨hm, -⟩
      have hheaded := (headed_of_mem_mul headed_of_mem_hexPairWords hm).append r'
      rw [← heq] at hheaded
      exact hdigit.not_headed hheaded
    · refine Or.inl ⟨hb, not_startsIn_of_avoids ?_ hclosing⟩
      exact headed_of_mem_underscored headed_of_mem_hexPairWords

theorem decides_hexString :
    Decides hexString options (TaggedCut "hex".toList hexSegments) :=
  decides_tagged decides_hexSegment (Recipe.quoted fun _ => .hexPairs).failsInPlace
    fun hm => (headed_of_mem_quotedOf hm).ne_nil

theorem decides_unicodeSegment :
    Decides (quoted fun quote => Recognizer.many (unicodeElement quote)) options fun m _ =>
      m ∈ unicodeSegments := by
  have helement : ∀ quote, Decides (unicodeElement quote) options fun m _ =>
      m ∈ unicodeElements quote := fun quote => decides_element (by cases quote <;> decide)
  refine decides_quoted (fun quote => (helement quote).many_mem failsInPlace_element
    fun hm => (headed_of_mem_element hm).ne_nil) fun quote b r => and_iff_left ?_
  refine not_startsIn_of_avoids headed_of_mem_element ((avoids_cons _ _ r).mpr ?_)
  cases quote <;> decide

theorem decides_unicodeString :
    Decides unicodeString options (TaggedCut "unicode".toList unicodeSegments) :=
  decides_tagged decides_unicodeSegment
    (Recipe.quoted fun _ => .many (.unicodeElement _)).failsInPlace
    fun hm => (headed_of_mem_quotedOf hm).ne_nil

end SolidityTokens
