import Mathlib.Algebra.Ring.Parity
import SolidityTokens.Proofs.Grammar.StringFamilies
import SolidityTokens.Proofs.Recognizer.Longest

/-!
# Strings in front of other text

What the string rules find in front of arbitrary text.

* A plain string is **the one prefix** that consists of two equal quotes and
  elements between them, where an element is a printable character other than
  that quote and the backslash, or an escape
  (`SolidityTokens.plain_strings_found_exactly`). There is at most one such
  prefix because the string ends at the first quote that is not part of an
  element.
* A hex string is **the longest prefix** that consists of the word `hex` and
  quoted pairs of hex digits, and adjacent hex strings are the longest prefix
  that consists of such strings (`SolidityTokens.hex_strings_found_longest`).
  Unicode strings are found in the same way
  (`SolidityTokens.unicode_strings_found_longest`).

The quoted segments are prefix-free, and so a run of them is the longest one.
The strings that are made of a tag and such a run are *not* prefix-free: with
fewer segments there is a shorter string. That the loop over them still finds
the longest prefix is because a shorter string is followed by a quote, and no
string begins with one (`SolidityTokens.longestCut_tagged_append`).
-/

namespace SolidityTokens

open scoped Computability

open Recognizer Grammar

/-! ### Elements -/

/-- **An escape**: a backslash and what it escapes. -/
inductive Escape : Text → Prop
  /-- One of eight characters. -/
  | character {ch : Char} :
    ch ∈ ['\'', '"', '\\', 'n', 'r', 't', '\n', '\r'] → Escape ['\\', ch]
  /-- A `u` and four hex digits. -/
  | fourDigits {digits : Text} : digits.length = 4 →
    (∀ ch ∈ digits, CharClass.hexDigit.contains ch = true) → Escape ('\\' :: 'u' :: digits)
  /-- An `x` and two hex digits. -/
  | twoDigits {digits : Text} : digits.length = 2 →
    (∀ ch ∈ digits, CharClass.hexDigit.contains ch = true) → Escape ('\\' :: 'x' :: digits)

/-- **An element of a plain string** between two given quotes. -/
inductive PlainElement (quote : Quote) : Text → Prop
  /-- A printable character. -/
  | character {ch : Char} : ' ' ≤ ch → ch ≤ '~' → ch ≠ quote.mark → ch ≠ '\\' →
    PlainElement quote [ch]
  /-- An escape. -/
  | escape {e : Text} : Escape e → PlainElement quote e

/-- **An element of a unicode string** between two given quotes. -/
inductive UnicodeElement (quote : Quote) : Text → Prop
  /-- A character on the same line. -/
  | character {ch : Char} : ch ≠ quote.mark → ch ≠ '\r' → ch ≠ '\n' → ch ≠ '\\' →
    UnicodeElement quote [ch]
  /-- An escape. -/
  | escape {e : Text} : Escape e → UnicodeElement quote e

theorem mem_characterCodes_iff {announcer : Char} {n : Nat} {m : Text} :
    m ∈ characterCodes announcer n ↔ ∃ digits : Text, m = announcer :: digits ∧
      digits.length = n ∧ ∀ ch ∈ digits, CharClass.hexDigit.contains ch = true := by
  constructor
  · intro hm
    obtain ⟨ch, digits, rfl, hch⟩ := headed_of_mem_characterCodes hm
    obtain ⟨-, hdigits⟩ := cons_mem_oneChar_mul_iff.mp hm
    exact ⟨digits, by rw [beq_iff_eq.mp hch], mem_oneChar_pow_iff.mp hdigits⟩
  · rintro ⟨digits, rfl, hdigits⟩
    exact cons_mem_oneChar_mul_iff.mpr ⟨beq_self_eq_true announcer, mem_oneChar_pow_iff.mpr hdigits⟩

theorem mem_escapes_iff {m : Text} : m ∈ escapes ↔ Escape m := by
  constructor
  · intro hm
    obtain ⟨ch, t, rfl, hch⟩ := headed_of_mem_escapes hm
    obtain rfl : ch = '\\' := beq_iff_eq.mp hch
    obtain ⟨-, ⟨ch, hch, rfl⟩ | hfour | htwo⟩ := cons_mem_oneChar_mul_iff.mp hm
    · exact .character (List.contains_iff_mem.mp hch)
    · obtain ⟨digits, rfl, hlength, hdigits⟩ := mem_characterCodes_iff.mp hfour
      exact .fourDigits hlength hdigits
    · obtain ⟨digits, rfl, hlength, hdigits⟩ := mem_characterCodes_iff.mp htwo
      exact .twoDigits hlength hdigits
  · intro hm
    cases hm with
    | @character ch hch =>
      have hmem : [ch] ∈ oneChar isEscapable := ⟨ch, List.contains_iff_mem.mpr hch, rfl⟩
      exact cons_mem_oneChar_mul_iff.mpr ⟨rfl, Or.inl hmem⟩
    | @fourDigits digits hlength hdigits =>
      have hmem : 'u' :: digits ∈ characterCodes 'u' 4 :=
        mem_characterCodes_iff.mpr ⟨digits, rfl, hlength, hdigits⟩
      exact cons_mem_oneChar_mul_iff.mpr ⟨rfl, Or.inr (Or.inl hmem)⟩
    | @twoDigits digits hlength hdigits =>
      have hmem : 'x' :: digits ∈ characterCodes 'x' 2 :=
        mem_characterCodes_iff.mpr ⟨digits, rfl, hlength, hdigits⟩
      exact cons_mem_oneChar_mul_iff.mpr ⟨rfl, Or.inr (Or.inr hmem)⟩

theorem mem_plainElements_iff {quote : Quote} {e : Text} :
    e ∈ plainElements quote ↔ PlainElement quote e := by
  constructor
  · rintro (⟨ch, hch, rfl⟩ | he)
    · obtain ⟨hprintable, hmark, hbackslash⟩ := contains_printable_iff.mp hch
      obtain ⟨hlo, hhi⟩ := CharClass.isPrintable_iff.mp hprintable
      exact .character hlo hhi hmark hbackslash
    · exact .escape (mem_escapes_iff.mp he)
  · rintro (⟨hlo, hhi, hmark, hbackslash⟩ | he)
    · refine Or.inl ⟨_, contains_printable_iff.mpr ⟨?_, hmark, hbackslash⟩, rfl⟩
      exact CharClass.isPrintable_iff.mpr ⟨hlo, hhi⟩
    · exact Or.inr (mem_escapes_iff.mpr he)

theorem mem_unicodeElements_iff {quote : Quote} {e : Text} :
    e ∈ unicodeElements quote ↔ UnicodeElement quote e := by
  constructor
  · rintro (⟨ch, hch, rfl⟩ | he)
    · obtain ⟨hmark, hreturn, hfeed, hbackslash⟩ := isUnicodePart_iff.mp hch
      exact .character hmark hreturn hfeed hbackslash
    · exact .escape (mem_escapes_iff.mp he)
  · rintro (⟨hmark, hreturn, hfeed, hbackslash⟩ | he)
    · exact Or.inl ⟨_, isUnicodePart_iff.mpr ⟨hmark, hreturn, hfeed, hbackslash⟩, rfl⟩
    · exact Or.inr (mem_escapes_iff.mpr he)

/-- **Elements in quotes**: two equal quotes, and between them the elements of a
list, one after the other. What an element is may depend on the quotes. -/
def InQuotes (E : Quote → Text → Prop) (elements : List Text) (m : Text) : Prop :=
  ∃ quote, m = Quote.mark quote :: (elements.flatten ++ [quote.mark]) ∧ ∀ e ∈ elements, E quote e

section InQuotes

variable {E : Quote → Text → Prop} {A : Quote → Language Char}
  (hA : ∀ {quote e}, e ∈ A quote ↔ E quote e) {m : Text}
include hA

theorem mem_quotedOf_kstar_iff :
    m ∈ quotedOf (fun quote => (A quote)∗) ↔ ∃ elements, InQuotes E elements m := by
  constructor
  · rintro ⟨quote, _, rfl, hb⟩
    obtain ⟨elements, rfl, helements⟩ := Language.mem_kstar.mp hb
    exact ⟨elements, quote, rfl, fun e he => hA.mp (helements e he)⟩
  · rintro ⟨elements, quote, rfl, helements⟩
    refine ⟨quote, elements.flatten, rfl, Language.join_mem_kstar fun e he => ?_⟩
    exact hA.mpr (helements e he)

theorem mem_quotedOf_plus_iff :
    m ∈ quotedOf (fun quote => plus (A quote)) ↔
      ∃ elements, elements ≠ [] ∧ InQuotes E elements m := by
  constructor
  · rintro ⟨quote, _, rfl, hb⟩
    obtain ⟨elements, hne, rfl, helements⟩ := mem_plus_iff.mp hb
    exact ⟨elements, hne, quote, rfl, fun e he => hA.mp (helements e he)⟩
  · rintro ⟨elements, hne, quote, rfl, helements⟩
    refine ⟨quote, elements.flatten, rfl, mem_plus_iff.mpr ⟨elements, hne, rfl, fun e he => ?_⟩⟩
    exact hA.mpr (helements e he)

end InQuotes

/-! ### Plain strings -/

/-- **Plain strings are found exactly.** At every place of every text there is
at most one prefix that consists of two equal quotes and elements of plain
strings between them. It is what is found, and nothing is found where there is
none. The same holds if there has to be at least one element, and of single
escapes. -/
theorem plain_strings_found_exactly (c : Cursor) :
    quotedString.FindsCut (fun m _ => ∃ elements, InQuotes PlainElement elements m) c ∧
    nonEmptyString.FindsCut
      (fun m _ => ∃ elements, elements ≠ [] ∧ InQuotes PlainElement elements m) c ∧
    escapeSequence.FindsCut (fun m _ => Escape m) c := by
  refine ⟨?_, ?_, ?_⟩
  · refine Decides.findsCut (decides_quotedString.congr fun m _ => ?_) Rule.quotedString.settles
    exact mem_quotedOf_kstar_iff mem_plainElements_iff
  · refine Decides.findsCut (decides_nonEmptyString.congr fun m _ => ?_)
      Rule.nonEmptyString.settles
    exact mem_quotedOf_plus_iff mem_plainElements_iff
  · refine Decides.findsCut (decides_escapeSequence.congr fun m _ => ?_)
      Rule.escapeSequence.settles
    exact mem_escapes_iff

/-! ### Tagged strings -/

/-- A tag and at least one word of a language. -/
def taggedStrings (tag : Text) (A : Language Char) : Language Char := {tag} * plus A

section Tagged

variable {tag : Text} {A : Language Char} {m m' r s : Text}

theorem mem_taggedStrings_iff : m ∈ taggedStrings tag A ↔ ∃ x ∈ plus A, m = tag ++ x := by
  rw [taggedStrings, Language.mem_mul]
  constructor
  · rintro ⟨_, rfl, x, hx, rfl⟩
    exact ⟨x, hx, rfl⟩
  · rintro ⟨x, hx, rfl⟩
    exact ⟨tag, rfl, x, hx, rfl⟩

theorem plus_le_kstar : plus A ≤ A∗ := mul_kstar_le_kstar

/-- **A run of segments that goes on as far as possible makes the longest
string.** -/
theorem taggedCut_iff_longestCut (hA : PrefixFree A) (hne : [] ∉ A) :
    TaggedCut tag A m r ↔ LongestCut (taggedStrings tag A) m r := by
  constructor
  · rintro ⟨hm, hr⟩
    refine ⟨hm, fun {m'} hm' hprefix => ?_⟩
    obtain ⟨x, hx, rfl⟩ := mem_taggedStrings_iff.mp hm
    obtain ⟨x', hx', rfl⟩ := mem_taggedStrings_iff.mp hm'
    rw [List.append_assoc, List.prefix_append_right_inj] at hprefix
    rw [List.prefix_append_right_inj]
    exact (hA.longestCut_kstar (plus_le_kstar hx) hr).longest (plus_le_kstar hx') hprefix
  · intro h
    refine ⟨h.mem, ?_⟩
    rintro ⟨s, r', rfl, hs⟩
    -- One segment more would make a longer string.
    obtain ⟨x, hx, rfl⟩ := mem_taggedStrings_iff.mp h.mem
    have hmore : x ++ s ∈ plus A := by
      have hle : plus A * A ≤ plus A := by
        rw [plus, mul_assoc]
        exact mul_le_mul' le_rfl kstar_mul_le_kstar
      exact hle (Language.append_mem_mul hx hs)
    have hlonger : tag ++ (x ++ s) <+: tag ++ x := by
      refine h.longest (mem_taggedStrings_iff.mpr ⟨_, hmore, rfl⟩) ⟨r', ?_⟩
      simp only [List.append_assoc]
    have hlength := hlonger.length_le
    simp only [List.length_append] at hlength
    obtain rfl : s = [] := List.length_eq_zero_iff.mp (by omega)
    exact hne hs

/-- What a longer string has more than a shorter one is a run of segments. -/
theorem mem_plus_of_append_mem_taggedStrings (hA : PrefixFree A) (hm : m ∈ taggedStrings tag A)
    (h : m ++ s ∈ taggedStrings tag A) (hs : s ≠ []) : s ∈ plus A := by
  obtain ⟨x, hx, rfl⟩ := mem_taggedStrings_iff.mp hm
  obtain ⟨y, hy, heq⟩ := mem_taggedStrings_iff.mp h
  rw [List.append_assoc, List.append_cancel_left_eq] at heq
  subst heq
  exact mem_plus_of_mem_kstar (hA.mem_kstar_of_append (plus_le_kstar hx) (plus_le_kstar hy)) hs

end Tagged

/-! ### Adjacent tagged strings -/

section Adjacent

variable {tag : Text} {A : Language Char} {p : Char → Bool} {m m' r : Text} (hA : PrefixFree A)
  (hhead : ∀ {x}, x ∈ A → Headed p x) (htag : Headed (!p ·) tag)
include hA hhead

omit hA in
theorem nil_notMem_of_headed : [] ∉ A := fun hnil => (hhead hnil).ne_nil rfl

/-- Where no string can be cut off, none begins. -/
theorem not_startsIn_taggedStrings (huncut : Uncut (TaggedCut tag A) r) :
    ¬StartsIn (taggedStrings tag A) r := by
  intro hstarts
  obtain ⟨m, r, rfl, hcut⟩ := exists_longestCut hstarts
  exact huncut m r rfl ((taggedCut_iff_longestCut hA (nil_notMem_of_headed hhead)).mpr hcut)

include htag

omit hA hhead in
/-- Strings begin like their tag. -/
theorem avoids_of_mem_kstar_taggedStrings (hm : m ∈ (taggedStrings tag A)∗) : Avoids p m := by
  rcases mem_kstar_iff.mp hm with rfl | ⟨first, hfirst, rest, -, rfl⟩
  · exact avoids_nil p
  · obtain ⟨x, -, rfl⟩ := mem_taggedStrings_iff.mp hfirst
    rw [List.append_assoc]
    exact (htag.append _).avoids fun ch hch => by simpa using hch

/-- **One more string in front.** If what comes after the longest string is the
longest prefix made of strings, then so is the whole. Had the first string fewer
segments, the next character would be that of a segment, and no string begins
with it. -/
theorem longestCut_tagged_append (hcut : TaggedCut tag A m (m' ++ r))
    (h : LongestCut (taggedStrings tag A)∗ m' r) :
    LongestCut (taggedStrings tag A)∗ (m ++ m') r := by
  have hlongest := (taggedCut_iff_longestCut hA (nil_notMem_of_headed hhead)).mp hcut
  refine ⟨mem_kstar_iff.mpr (Or.inr ⟨m, hcut.1, m', h.mem, rfl⟩), fun {n} hn hprefix => ?_⟩
  rcases mem_kstar_iff.mp hn with rfl | ⟨first, hfirst, rest, hrest, rfl⟩
  · exact List.nil_prefix
  · rw [List.append_assoc] at hprefix
    obtain ⟨s, rfl⟩ := hlongest.longest hfirst ((List.prefix_append first rest).trans hprefix)
    rw [List.append_assoc, List.prefix_append_right_inj] at hprefix
    rw [List.append_assoc, List.prefix_append_right_inj]
    by_cases hs : s = []
    · -- The first string is the same.
      subst hs
      exact h.longest hrest hprefix
    · -- It is shorter, and nothing can come after it.
      have hsegment : Headed p s :=
        headed_of_mem_mul hhead (mem_plus_of_append_mem_taggedStrings hA hfirst hcut.1 hs)
      have hnil : rest = [] := (avoids_of_mem_kstar_taggedStrings htag hrest).eq_nil_of_isPrefix
        (hsegment.append _) hprefix
      rw [hnil]
      exact List.nil_prefix

/-- **A loop over tagged strings finds the longest prefix that is made of
them.** -/
theorem longestCut_of_iterated (h : Iterated (TaggedCut tag A) m r) :
    LongestCut (taggedStrings tag A)∗ m r := by
  induction h with
  | stop huncut =>
    refine ⟨Language.nil_mem_kstar _, fun {n} hn hprefix => ?_⟩
    rcases mem_kstar_iff.mp hn with rfl | ⟨first, hfirst, rest, -, rfl⟩
    · exact List.prefix_refl []
    · obtain ⟨r', rfl⟩ := hprefix
      refine absurd ?_ (not_startsIn_taggedStrings hA hhead huncut)
      exact ⟨first, rest ++ r', List.append_assoc .., hfirst⟩
  | step hcut _ ih => exact longestCut_tagged_append hA hhead htag hcut ih

theorem iterated_taggedCut_iff :
    Iterated (TaggedCut tag A) m r ↔ LongestCut (taggedStrings tag A)∗ m r := by
  constructor
  · exact longestCut_of_iterated hA hhead htag
  · intro h
    -- The loop makes some cut of the text, and a longest cut is the only one.
    obtain ⟨m', r', heq, hiterated⟩ := exists_iterated
      (L := TaggedCut tag A) (fun hcut => (TaggedCut.headed htag hcut).ne_nil) (m ++ r)
    obtain ⟨rfl, rfl⟩ := h.unique (longestCut_of_iterated hA hhead htag hiterated) heq
    exact hiterated

/-- What decides a tagged string finds the longest one, and a loop over it the
longest prefix that is made of them. -/
theorem findsLongest_tagged {f : Recognizer Text} {c : Cursor}
    (h : Decides f c.options (TaggedCut tag A)) (hf : Settles f) (hplace : FailsInPlace f) :
    f.FindsLongest (taggedStrings tag A) c ∧
      (Recognizer.many f).FindsLongest (taggedStrings tag A)∗ c := by
  constructor
  · refine Decides.findsLongest (h.congr fun m r => ?_) hf
    exact taggedCut_iff_longestCut hA (nil_notMem_of_headed hhead)
  · have hmany := h.many hplace fun hcut => (TaggedCut.headed htag hcut).ne_nil
    refine Decides.findsLongest (hmany.congr fun m r => ?_) hf.forward.settles_many
    exact iterated_taggedCut_iff hA hhead htag

end Adjacent

/-! ### Hex strings -/

/-- **Hex digits in pairs**: there is an even number of them, and every
underscore stands between two pairs, with whole pairs before the first of the
two. -/
structure Paired (body : Text) : Prop where
  /-- The digits are even in number. -/
  even : Even (body.countP CharClass.hexDigit.contains)
  /-- An underscore has a pair before it and a pair after it. -/
  between : ∀ {x y : Text}, body = x ++ '_' :: y → ∃ x' before after y', x = x' ++ before ∧
    y = after ++ y' ∧ before ∈ hexPairWords ∧ after ∈ hexPairWords ∧
    Even (x'.countP CharClass.hexDigit.contains)

section Pairs

variable {pair t x y : Text} (hpair : pair ∈ hexPairWords)
include hpair

theorem even_countP_pair_append (h : Even (t.countP CharClass.hexDigit.contains)) :
    Even ((pair ++ t).countP CharClass.hexDigit.contains) := by
  obtain ⟨hlength, hdigits⟩ := mem_oneChar_pow_iff.mp hpair
  rw [List.countP_append, List.countP_eq_length.mpr hdigits, hlength]
  exact even_two.add h

/-- An underscore after a pair is one in what comes after the pair. -/
theorem exists_append_of_pair_append (heq : pair ++ t = x ++ '_' :: y) :
    ∃ a, x = pair ++ a ∧ t = a ++ '_' :: y := by
  rcases List.append_eq_append_iff.mp heq with ⟨a, hx, ht⟩ | ⟨a, hx, ht⟩
  · exact ⟨a, hx, ht⟩
  · cases a with
    | nil => exact ⟨[], by simpa using hx.symm, by simpa using ht.symm⟩
    | cons ch a =>
      -- The underscore would be a digit of the pair.
      obtain rfl : '_' = ch := (List.cons.inj ht).1
      have hdigit := (mem_oneChar_pow_iff.mp hpair).2 '_' (by simp [hx])
      exact absurd hdigit (by decide)

/-- A further pair in front. -/
theorem Paired.pair_append (h : Paired t) : Paired (pair ++ t) where
  even := even_countP_pair_append hpair h.even
  between := by
    intro x y heq
    obtain ⟨a, rfl, ht⟩ := exists_append_of_pair_append hpair heq
    obtain ⟨x', before, after, y', rfl, hy, hbefore, hafter, heven⟩ := h.between ht
    exact ⟨pair ++ x', before, after, y', (List.append_assoc ..).symm, hy, hbefore, hafter,
      even_countP_pair_append hpair heven⟩

/-- A further pair in front, with an underscore between it and the next one. -/
theorem Paired.pair_underscore {next : Text} (h : Paired (next ++ t))
    (hnext : next ∈ hexPairWords) : Paired (pair ++ '_' :: (next ++ t)) where
  even := even_countP_pair_append hpair h.even
  between := by
    intro x y heq
    obtain ⟨a, rfl, ht⟩ := exists_append_of_pair_append hpair heq
    cases a with
    | nil =>
      -- It is this underscore.
      obtain ⟨-, rfl⟩ := List.cons.inj ht
      exact ⟨[], pair, next, t, List.append_nil pair, rfl, hpair, hnext, Even.zero⟩
    | cons ch a =>
      rw [List.cons_append, List.cons.injEq] at ht
      obtain ⟨rfl, ht⟩ := ht
      obtain ⟨x', before, after, y', rfl, hy, hbefore, hafter, heven⟩ := h.between ht
      exact ⟨pair ++ '_' :: x', before, after, y', by simp, hy, hbefore, hafter,
        even_countP_pair_append hpair heven⟩

end Pairs

theorem paired_nil : Paired [] where
  even := by simp
  between := by simp

/-- Pairs one after the other, with or without an underscore between them. -/
theorem paired_pair_append_flatten {pair : Text} (hpair : pair ∈ hexPairWords) {items : List Text}
    (hitems : ∀ item ∈ items, item ∈ underscored hexPairWords) :
    Paired (pair ++ items.flatten) := by
  induction items generalizing pair with
  | nil => exact paired_nil.pair_append hpair
  | cons item items ih =>
    obtain ⟨hitem, hrest⟩ := List.forall_mem_cons.mp hitems
    rw [underscored_eq] at hitem
    rcases hitem with hitem | hitem
    · exact (ih hitem hrest).pair_append hpair
    · obtain ⟨_, ⟨ch, hch, rfl⟩, after, hafter, rfl⟩ := Language.mem_mul.mp hitem
      obtain rfl : ch = '_' := beq_iff_eq.mp hch
      simpa using (ih hafter hrest).pair_underscore hpair hafter

/-- **What stands between the quotes of a hex string is paired.** -/
theorem paired_of_mem_hexBodies {body : Text} (h : body ∈ hexBodies) : Paired body := by
  rcases h with rfl | h
  · exact paired_nil
  · obtain ⟨pair, hpair, rest, hrest, rfl⟩ := Language.mem_mul.mp h
    obtain ⟨items, rfl, hitems⟩ := Language.mem_kstar.mp hrest
    exact paired_pair_append_flatten hpair hitems

/-- **Hex strings are found as far as they go.** At every place of every text:

* what is found is the longest prefix that consists of the word `hex` and at
  least one quoted sequence of hex pairs, and nothing is found where there is
  none;
* adjacent hex strings are the longest prefix that consists of such strings,
  possibly empty;
* so every segment of a match has an even number of hex digits, and every
  underscore in it stands between two pairs. -/
theorem hex_strings_found_longest (c : Cursor) :
    hexString.FindsLongest (taggedStrings "hex".toList hexSegments) c ∧
    hexStringLiteral.FindsLongest (taggedStrings "hex".toList hexSegments)∗ c ∧
    (hexStringLiteral.run c).value.isSome ∧
    ∀ m, (hexString.run c).value = some m ∨ (hexStringLiteral.run c).value = some m →
      ∃ strings : List Text, m = strings.flatten ∧ ∀ string ∈ strings,
        ∃ segments : List Text, segments ≠ [] ∧ string = "hex".toList ++ segments.flatten ∧
          ∀ segment ∈ segments, ∃ (quote : Quote) (body : Text),
            segment = quote.mark :: (body ++ [quote.mark]) ∧ Paired body := by
  have hsegment : Decides (quoted fun _ => hexPairs) c.options _ := decides_hexSegment
  have hdecides : Decides hexString c.options _ := decides_hexString
  obtain ⟨hstring, hliteral⟩ := findsLongest_tagged hsegment.prefixFree headed_of_mem_quotedOf
    ⟨'h', "ex".toList, rfl, rfl⟩ hdecides Rule.hexString.settles Rule.hexString.failsInPlace
  refine ⟨hstring, hliteral, rfl, fun m hm => ?_⟩
  have hmem : m ∈ (taggedStrings "hex".toList hexSegments)∗ := by
    have hle : taggedStrings "hex".toList hexSegments ≤ (taggedStrings "hex".toList hexSegments)∗ :=
      le_kstar
    rcases hm with hm | hm
    · exact hle ((hstring.value_eq_some_iff m).mp hm).2.1
    · exact ((hliteral.value_eq_some_iff m).mp hm).2.1
  obtain ⟨strings, rfl, hstrings⟩ := Language.mem_kstar.mp hmem
  refine ⟨strings, rfl, fun string hstring => ?_⟩
  obtain ⟨_, hx, rfl⟩ := mem_taggedStrings_iff.mp (hstrings string hstring)
  obtain ⟨segments, hne, rfl, hsegments⟩ := mem_plus_iff.mp hx
  refine ⟨segments, hne, rfl, fun segment hsegment => ?_⟩
  obtain ⟨quote, body, rfl, hbody⟩ := hsegments segment hsegment
  exact ⟨quote, body, rfl, paired_of_mem_hexBodies hbody⟩

/-- A single digit spoils the second segment, and only that one is not read. -/
example : (hexString.run (.atStart "hex\"00_ff\"'1'".toList {})).value =
    some "hex\"00_ff\"".toList := by
  decide +kernel

/-! ### Unicode strings -/

theorem unicodeSegments_eq :
    unicodeSegments = {m | ∃ elements, InQuotes UnicodeElement elements m} := by
  ext m
  exact mem_quotedOf_kstar_iff mem_unicodeElements_iff

/-- **Unicode strings are found as far as they go.** At every place of every
text, what is found is the longest prefix that consists of the word `unicode`
and at least one segment, which is two equal quotes and elements of unicode
strings between them; nothing is found where there is none. Adjacent unicode
strings are the longest prefix that consists of such strings, possibly empty. -/
theorem unicode_strings_found_longest (c : Cursor) :
    let segments : Language Char := {m | ∃ elements, InQuotes UnicodeElement elements m}
    unicodeString.FindsLongest (taggedStrings "unicode".toList segments) c ∧
      unicodeStringLiteral.FindsLongest (taggedStrings "unicode".toList segments)∗ c ∧
      (unicodeStringLiteral.run c).value.isSome := by
  intro segments
  have hsegment : Decides (quoted fun quote => Recognizer.many (unicodeElement quote))
    c.options _ := decides_unicodeSegment
  have hdecides : Decides unicodeString c.options _ := decides_unicodeString
  obtain ⟨hstring, hliteral⟩ := findsLongest_tagged hsegment.prefixFree headed_of_mem_quotedOf
    ⟨'u', "nicode".toList, rfl, rfl⟩ hdecides Rule.unicodeString.settles
    Rule.unicodeString.failsInPlace
  rw [unicodeSegments_eq] at hstring hliteral
  exact ⟨hstring, hliteral, rfl⟩

/-- A line break is read where a backslash escapes it, and not otherwise. -/
example : (unicodeStringLiteral.run (.atStart "unicode'é\\\n'unicode'\n'".toList {})).value =
    some "unicode'é\\\n'".toList := by
  decide +kernel

end SolidityTokens
