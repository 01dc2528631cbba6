import SolidityTokens.Proofs.Grammar.Cuts
import SolidityTokens.Proofs.Recognizer.Following

/-!
# Delimiters

A token is usually followed by something that cannot belong to it: a bracket, a
semicolon, an operator, with or without blanks in between.
`SolidityTokens.IsDelimiter` says which texts are of this kind. No rule can tell
whether a delimiter follows a text or nothing does, **not even a rule that
fails** (`SolidityTokens.delimiter_keeps_token`).

What excludes a character from the beginning of a delimiter is one rule or
another: identifier characters go on with words, digits and exponents, `.` and
`-` with decimal numbers, and quotes, backslashes and line breaks complete an
escape of which the backslash was read. Quotes are excluded everywhere, since a
string that was left open runs on to the next one. Blanks are read on the way to
a unit, but a unit has to follow them.

Every rule decides a relation, so all there is to show is that the relations are
steady in front of delimiters (`SolidityTokens.Rule.steady`).
-/

namespace SolidityTokens

open scoped Computability

open Recognizer Grammar

variable {options : Options} {s : Text}

/-- Whether a character can go on with a token, or complete one. -/
def isTokenPart (ch : Char) : Bool :=
  isIdentifierPart ch || isQuote ch || ['\\', '.', '-', '\r', '\n'].contains ch

/-- **A delimiter**: spaces and tabs, if any, and then nothing or a text without
quotes that begins with a character that is neither a blank nor part of a
token. -/
def IsDelimiter (s : Text) : Prop :=
  ∃ w r, s = w ++ r ∧ (∀ ch ∈ w, isBlank ch = true) ∧
    Avoids (fun ch => isTokenPart ch || isBlank ch) r ∧ ∀ ch ∈ r, isQuote ch = false

/-! ### Characters -/

theorem isTokenPart_of_isIdentifierPart {ch : Char} (h : isIdentifierPart ch = true) :
    isTokenPart ch = true := by
  rw [isTokenPart, h, Bool.true_or, Bool.true_or]

theorem isIdentifierPart_of_decimalDigit {ch : Char}
    (h : CharClass.decimalDigit.contains ch = true) : isIdentifierPart ch = true := by
  have hdigit : ch.isDigit = true := h
  rw [isIdentifierPart, Char.isAlphanum, hdigit, Bool.or_true, Bool.true_or, Bool.true_or]

theorem isIdentifierPart_of_letter {ch : Char} (h : CharClass.letter.contains ch = true) :
    isIdentifierPart ch = true := by
  have hletter : ch.isAlpha = true := h
  rw [isIdentifierPart, Char.isAlphanum, hletter, Bool.true_or, Bool.true_or, Bool.true_or]

theorem isIdentifierPart_of_hexDigit {ch : Char} (h : CharClass.hexDigit.contains ch = true) :
    isIdentifierPart ch = true := by
  have hcover : ∀ range ∈ CharClass.hexDigit.ranges,
      ∃ range' ∈ CharClass.decimalDigit.ranges ++ CharClass.letter.ranges,
        range'.1 ≤ range.1 ∧ range.2 ≤ range'.2 := by
    decide
  obtain ⟨range, hrange, hch⟩ := CharClass.exists_range_of_cover hcover h
  rcases List.mem_append.mp hrange with hdigit | hletter
  · exact isIdentifierPart_of_decimalDigit
      (CharClass.contains_iff.mpr ⟨⟨range, hdigit, hch⟩, List.not_mem_nil⟩)
  · exact isIdentifierPart_of_letter
      (CharClass.contains_iff.mpr ⟨⟨range, hletter, hch⟩, List.not_mem_nil⟩)

theorem isIdentifierPart_of_isGrouped {d : Char → Bool}
    (hd : ∀ ch, d ch = true → isIdentifierPart ch = true) {ch : Char}
    (h : isGrouped d ch = true) : isIdentifierPart ch = true := by
  rcases Bool.or_eq_true_iff.mp h with h | h
  · exact hd ch h
  · rw [beq_iff_eq.mp h]
    decide

theorem isTokenPart_of_mem {set : List Char} (hset : set.all isTokenPart = true) {ch : Char}
    (h : set.contains ch = true) : isTokenPart ch = true :=
  List.all_eq_true.mp hset ch (List.contains_iff_mem.mp h)

/-! ### What delimiters lack -/

namespace IsDelimiter

variable (hs : IsDelimiter s)
include hs

theorem avoids_isTokenPart : Avoids isTokenPart s := by
  obtain ⟨w, r, rfl, hw, hr, -⟩ := hs
  cases w with
  | nil => exact hr.mono fun ch h => by rw [h, Bool.true_or]
  | cons ch w =>
    have hblank : isBlank ch = true := hw ch List.mem_cons_self
    rw [List.cons_append, avoids_cons]
    exact eq_false_of_contains (by decide) ch hblank

theorem avoids {p : Char → Bool} (hp : ∀ ch, p ch = true → isTokenPart ch = true) :
    Avoids p s :=
  hs.avoids_isTokenPart.mono hp

theorem isQuote_eq_false : ∀ ch ∈ s, isQuote ch = false := by
  obtain ⟨w, r, rfl, hw, -, hr⟩ := hs
  intro ch hch
  rcases List.mem_append.mp hch with hch | hch
  · exact eq_false_of_contains (by decide) ch (hw ch hch)
  · exact hr ch hch

/-- A beginning of a delimiter that has nothing but blanks and parts of tokens
in it has nothing but blanks in it. -/
theorem isBlank_of_mem {x r : Text} (heq : s = x ++ r)
    (hx : ∀ ch ∈ x, isTokenPart ch = true ∨ isBlank ch = true) : ∀ ch ∈ x, isBlank ch = true := by
  obtain ⟨w, r', hs, hw, hr', -⟩ := hs
  rcases List.append_eq_append_iff.mp (heq.symm.trans hs) with ⟨y, hy, -⟩ | ⟨y, hy, hr⟩
  · exact fun ch hch => hw ch (hy ▸ List.mem_append_left y hch)
  · cases y with
    | nil =>
      rw [List.append_nil] at hy
      exact hy ▸ hw
    | cons ch y =>
      -- The first character after the blanks is one that `x` cannot have.
      rw [hr, List.cons_append, avoids_cons, Bool.or_eq_false_iff] at hr'
      rcases hx ch (by simp [hy]) with h | h
      · exact absurd (hr'.1.symm.trans h) Bool.false_ne_true
      · exact absurd (hr'.2.symm.trans h) Bool.false_ne_true

end IsDelimiter

/-! ### Words and numbers -/

section Steady

variable (hs : IsDelimiter s)
include hs

theorem steady_of_le_isTokenPart {A : Language Char} (hA : A ≤ (oneChar isTokenPart)∗) :
    Steady s fun m _ => m ∈ A :=
  steady_of_le hA hs.avoids_isTokenPart

/-- Words that have to end there. -/
theorem steady_wordCut {P : Text → Prop} (hP : Steady s fun m _ => P m) :
    Steady s (WordCut P) :=
  hP.and fun _ r =>
    avoids_append_iff_left (hs.avoids fun _ h => isTokenPart_of_isIdentifierPart h) r

theorem steady_identifiers {P : Text → Prop} (hP : ∀ {m}, P m → isIdentifier m = true) :
    Steady s fun m _ => P m := by
  refine steady_of_le_isTokenPart hs (A := {m | P m}) fun m hm => mem_kstar_oneChar.mpr ?_
  exact fun ch hch =>
    isTokenPart_of_isIdentifierPart (isIdentifierPart_of_isIdentifier (hP hm) ch hch)

theorem steady_keyword (table : Keyword) :
    Steady s (WordCut fun m => table.contains m = true) :=
  steady_wordCut hs (steady_identifiers hs fun hm => isIdentifier_of_contains hm)

theorem steady_booleanCut : Steady s (BooleanCut options) := by
  have hwords : Steady s fun m _ => m = "true".toList ∨ m = "false".toList := by
    refine steady_identifiers hs fun {m} hm => ?_
    rcases hm with rfl | rfl <;> decide
  refine hwords.and fun _ r => imp_congr_right fun _ => ?_
  exact avoids_append_iff_left (hs.avoids fun _ h => isTokenPart_of_isIdentifierPart h) r

theorem avoids_isGrouped {d : Char → Bool} (hd : ∀ ch, d ch = true → isIdentifierPart ch = true) :
    Avoids (isGrouped d) s :=
  hs.avoids fun _ h => isTokenPart_of_isIdentifierPart (isIdentifierPart_of_isGrouped hd h)

omit hs in
theorem groups_le_isTokenPart {d : Char → Bool}
    (hd : ∀ ch, d ch = true → isIdentifierPart ch = true) :
    groups d ≤ (oneChar isTokenPart)∗ :=
  groups_le (fun ch h => isTokenPart_of_isIdentifierPart (hd ch h)) (by decide)

theorem steady_decimalDigits :
    Steady s fun m r => m ∈ groups CharClass.decimalDigit.contains ∧
      Avoids (isGrouped CharClass.decimalDigit.contains) r := by
  have hdigit := fun ch => @isIdentifierPart_of_decimalDigit ch
  refine (steady_of_le_isTokenPart hs (groups_le_isTokenPart hdigit)).and fun _ r => ?_
  exact avoids_append_iff_left (avoids_isGrouped hs hdigit) r

theorem steady_hexCut : Steady s HexCut := by
  have hdigit := fun ch => @isIdentifierPart_of_hexDigit ch
  have hnumbers : hexNumbers ≤ (oneChar isTokenPart)∗ :=
    hexNumbers_le_kstar (fun ch h => isTokenPart_of_isIdentifierPart (hdigit ch h)) (by decide)
  refine (steady_of_le_isTokenPart hs hnumbers).and fun _ r => ?_
  exact avoids_append_iff_left (avoids_isGrouped hs hdigit) r

theorem steady_decimalCut : Steady s DecimalCut := by
  have hdigit := fun ch => @isIdentifierPart_of_decimalDigit ch
  have hnumbers : decimalNumbers ≤ (oneChar isTokenPart)∗ :=
    decimalNumbers_le_kstar (fun ch h => isTokenPart_of_isIdentifierPart (hdigit ch h)) (by decide)
  have hexponent : Avoids ['e', 'E'].contains s := hs.avoids fun _ h =>
    isTokenPart_of_mem (by decide) h
  have hpoint : Avoids (· == '.') s := hs.avoids fun ch h => beq_iff_eq.mp h ▸ (by decide)
  refine (steady_of_le_isTokenPart hs hnumbers).and fun m r => ?_
  -- One condition for every way in which a number can go on.
  refine and_congr (avoids_append_iff_left (avoids_isGrouped hs hdigit) r) (and_congr ?_ ?_)
  · exact imp_congr_right fun _ => avoids_append_iff_left hexponent r
  · exact imp_congr_right fun _ => avoids_append_iff_left hpoint r

theorem steady_unitCut : Steady s UnitCut := by
  refine steady_wordCut hs (steady_mem fun {t x r} hmem heq => ?_)
  obtain ⟨w, hw, u, hu, hwu⟩ := Language.mem_mul.mp hmem
  -- What lies in the delimiter is blank, but a unit is at its end.
  by_contra hx
  have hblank : ∀ ch ∈ x, isBlank ch = true := by
    refine hs.isBlank_of_mem heq fun ch hch => ?_
    have hch' : ch ∈ w ++ u := hwu ▸ List.mem_append_right t hch
    rcases List.mem_append.mp hch' with h | h
    · exact Or.inr (mem_kstar_oneChar.mp hw ch h)
    · exact Or.inl (isTokenPart_of_isIdentifierPart (isIdentifierPart_of_mem_units hu ch h))
  have hended : Ended isIdentifierPart (t ++ x) := by
    rw [← hwu, Ended, List.getLast?_append_of_ne_nil w (ne_nil_of_mem_units hu)]
    refine ⟨u.getLast (ne_nil_of_mem_units hu), List.getLast?_eq_some_getLast _, ?_⟩
    exact isIdentifierPart_of_mem_units hu _ (List.getLast_mem _)
  obtain ⟨ch, hch, hpart⟩ := hended.exists_mem hx
  have hnot : isIdentifierPart ch = false := eq_false_of_contains (by decide) ch (hblank ch hch)
  exact Bool.false_ne_true (hnot.symm.trans hpart)

theorem steady_numberCut : Steady s NumberCut :=
  ((steady_hexCut hs).otherwise (steady_decimalCut hs)).sequel
    ((steady_unitCut hs).otherwise steady_nil)

/-! ### Strings -/

theorem steady_escapes : Steady s fun m _ => m ∈ escapes := by
  refine steady_of_le_isTokenPart hs (escapes_le (by decide) (fun ch h => ?_) fun ch h => ?_)
  · exact isTokenPart_of_mem (by decide) h
  · exact isTokenPart_of_isIdentifierPart (isIdentifierPart_of_hexDigit h)

/-- A quoted string ends with a quote, and there is none in a delimiter. -/
theorem steady_quotedOf (B : Quote → Language Char) : Steady s fun m _ => m ∈ quotedOf B := by
  refine steady_of_last (fun {m} hm => ?_) hs.isQuote_eq_false
  obtain ⟨quote, b, rfl, -⟩ := hm
  refine ⟨quote.mark, ?_, isQuote_mark quote⟩
  rw [← List.cons_append, List.getLast?_concat]

theorem steady_taggedCut {tag : Text} (htag : isIdentifier tag = true)
    (B : Quote → Language Char) : Steady s (TaggedCut tag (quotedOf B)) := by
  have htagged : Steady s fun m _ => m ∈ ({tag} : Language Char) :=
    steady_identifiers hs fun {m} hm => (show m = tag from hm) ▸ htag
  exact (htagged.sequel (steady_quotedOf hs B).plus).congr fun _ _ => sequel_mem_and_iff

/-! ### The rules -/

theorem LiteralKind.steady (kind : LiteralKind) : Steady s (kind.Cuts options) := by
  have hhex : Steady s HexStringCut := steady_taggedCut hs (by decide) _
  have hunicode : Steady s UnicodeStringCut := steady_taggedCut hs (by decide) _
  cases kind with
  | string => exact (steady_quotedOf hs _).plus
  | number => exact steady_numberCut hs
  | boolean => exact steady_booleanCut hs
  | hexString => exact hhex.sequel hhex.iterated
  | unicodeString => exact hunicode.sequel hunicode.iterated

theorem steady_literal :
    Steady s fun m r => ∃ kind ∈ LiteralKind.all, kind.Cuts options m r where
  extend := by
    rintro m r ⟨kind, hmem, hcut⟩
    exact ⟨kind, hmem, (kind.steady hs).extend hcut⟩
  restrict := by
    rintro m r t ⟨kind, hmem, hcut⟩ heq
    obtain ⟨r', hr, ht, hcut'⟩ := (kind.steady hs).restrict hcut heq
    exact ⟨r', hr, ht, kind, hmem, hcut'⟩

/-- **In front of a delimiter, the cuts of every rule are steady.** -/
theorem Rule.steady (rule : Rule) : Steady s (rule.Cuts options) := by
  cases rule with
  | identifier => exact steady_wordCut hs (steady_identifiers hs id)
  | booleanLiteral => exact steady_booleanCut hs
  | decimalDigits => exact steady_decimalDigits hs
  | hexNumber => exact steady_hexCut hs
  | decimalNumber => exact steady_decimalCut hs
  | numberLiteral => exact steady_numberCut hs
  | escapeSequence => exact steady_escapes hs
  | emptyString => exact steady_quotedOf hs _
  | quotedString => exact steady_quotedOf hs _
  | nonEmptyString => exact steady_quotedOf hs _
  | stringLiteral => exact (steady_quotedOf hs _).plus
  | hexString => exact steady_taggedCut hs (by decide) _
  | hexStringLiteral => exact (steady_taggedCut hs (by decide) _).iterated
  | unicodeString => exact steady_taggedCut hs (by decide) _
  | unicodeStringLiteral => exact (steady_taggedCut hs (by decide) _).iterated
  | unsignedIntegerType => exact steady_keyword hs _
  | signedIntegerType => exact steady_keyword hs _
  | fixedBytes => exact steady_keyword hs _
  | numberUnit => exact steady_keyword hs _
  | elementaryType =>
    refine steady_wordCut hs (steady_identifiers hs ?_)
    rintro m ⟨table, -, hm⟩
    exact isIdentifier_of_contains hm
  | literal => exact steady_literal hs

/-! ### Recognizers in front of delimiters -/

theorem Rule.ignores (rule : Rule) : Ignores s rule.recognizer :=
  Decides.ignores (fun _ => rule.decides) rule.settles rule.failsInPlace fun _ => rule.steady hs

theorem ignores_elementaryType : Ignores s elementaryType := by
  refine ignores_firstOf (fun table => Ignores.bind_pure ?_ _) Keyword.elementaryTypes
  exact Decides.ignores (fun _ => decides_keyword table) (settles_keyword table)
    (Recipe.keyword table).failsInPlace fun _ => steady_keyword hs table

/-- The search for a literal ignores a delimiter, and so do the span and the
record. -/
theorem ignores_literal : Ignores s literal := by
  have hsearch : Ignores s (kindSearch LiteralKind.all) := by
    refine ignores_firstOf (fun kind => Ignores.bind_pure ?_ _) LiteralKind.all
    exact Decides.ignores (fun _ => kind.decides) (settles_literalOf kind)
      (failsInPlace_literalOf kind) fun _ => kind.steady hs
  intro c
  rw [literal, literalAmong_eq, run_recorded, run_recorded, (hsearch c).1, (hsearch c).2]
  split
  · exact ⟨rfl, rfl⟩
  · exact ⟨rfl, rfl⟩

end Steady

/-- **A delimiter never changes a token.** Put a delimiter at the end of a text:
from every place of the text every rule finds the same as before and ends in the
same place, or fails as before; and so it is with the kind and the span of a
literal and with the table of a type. -/
theorem delimiter_keeps_token (t s : Text) (hs : IsDelimiter s) (offset : Nat)
    (options : Options) (c : Cursor) (hc : Cursor.atOffset? t offset options = some c) :
    ∃ d, Cursor.atOffset? (t ++ s) offset options = some d ∧
      (∀ rule : Rule, (rule.recognizer.run d).value = (rule.recognizer.run c).value ∧
        (rule.recognizer.run d).cursor.position = (rule.recognizer.run c).cursor.position) ∧
      ((literal.run d).value = (literal.run c).value ∧
        (literal.run d).cursor.position = (literal.run c).cursor.position) ∧
      (elementaryType.run d).value = (elementaryType.run c).value ∧
        (elementaryType.run d).cursor.position = (elementaryType.run c).cursor.position := by
  obtain ⟨rfl, rfl, rfl⟩ := Cursor.atOffset?_eq_some_iff.mp hc
  have hd : Cursor.atOffset? (c.text ++ s) c.position c.options = some (c.inFrontOf s) :=
    Cursor.atOffset?_eq_some_iff.mpr ⟨(List.append_assoc ..).symm, rfl, rfl⟩
  have hsame : ∀ {α : Type} {f : Recognizer α}, Ignores s f →
      (f.run (c.inFrontOf s)).value = (f.run c).value ∧
        (f.run (c.inFrontOf s)).cursor.position = (f.run c).cursor.position := by
    intro α f hf
    refine ⟨(hf c).1, ?_⟩
    rw [(hf c).2]
    rfl
  exact ⟨c.inFrontOf s, hd, fun rule => hsame (rule.ignores hs), hsame (ignores_literal hs),
    hsame (ignores_elementaryType hs)⟩

/-- A unit that is cut short in front of a tab: it does not become one, nor a
reason to read on. -/
theorem delimiter_keeps_token_cut_unit :
    let t := "é1 eth".toList
    let s := "\t;er".toList
    let c : Cursor := ⟨['é'], "1 eth".toList, {}⟩
    IsDelimiter s ∧ Cursor.atOffset? t 2 {} = some c ∧
      ∃ d, Cursor.atOffset? (t ++ s) 2 {} = some d ∧
        (Rule.numberLiteral.recognizer.run d).value = some ['1'] ∧
        (Rule.numberLiteral.recognizer.run d).cursor.position = 3 ∧
        (literal.run d).value = some ⟨.number, ['1'], ⟨2, 3⟩⟩ ∧
        (elementaryType.run d).value = none := by
  intro t s c
  have hs : IsDelimiter s :=
    ⟨['\t'], ";er".toList, rfl, by simp [isBlank], rfl, by simp [isQuote, Quote.mark]⟩
  have hc : Cursor.atOffset? t 2 {} = some c := by decide
  obtain ⟨d, hd, hrule, hliteral, htype⟩ := delimiter_keeps_token t s hs 2 {} c hc
  refine ⟨hs, hc, d, hd, (hrule _).1.trans ?_, (hrule _).2.trans ?_, hliteral.1.trans ?_,
    htype.1.trans ?_⟩
  · decide +kernel
  · decide +kernel
  · decide +kernel
  · decide +kernel

end SolidityTokens
