import SolidityTokens.Proofs.Grammar.NumberLiteral
import SolidityTokens.Proofs.Grammar.Strings

/-!
# The cuts of the rules

Every rule of the grammar decides a relation between its match and what follows
it, and `SolidityTokens.Rule.Cuts` collects these relations. The options enter
into them in one place only, where a boolean ends.

The five kinds of literals have no first character in common
(`SolidityTokens.LiteralKind.ofFirst?`). So at most one of them is cut off from
a text, the order in which they are tried does not matter, and the kind that is
found is the kind of what is cut off
(`SolidityTokens.LiteralKind.cuts_of_value`).
-/

namespace SolidityTokens

open scoped Computability

open Recognizer Grammar

variable {options : Options}

/-! ### The kinds of literals -/

/-- The kind of the literals that begin with a given character, if there is
one. -/
def LiteralKind.ofFirst? (ch : Char) : Option LiteralKind :=
  if CharClass.decimalDigit.contains ch then some .number
  else if isQuote ch then some .string
  else if ['t', 'f'].contains ch then some .boolean
  else if ch == 'h' then some .hexString
  else if ch == 'u' then some .unicodeString
  else none

/-- The cuts of the hex strings after one tag. -/
def HexStringCut : Text → Text → Prop := TaggedCut "hex".toList hexSegments

/-- The cuts of the unicode strings after one tag. -/
def UnicodeStringCut : Text → Text → Prop := TaggedCut "unicode".toList unicodeSegments

/-- The cuts of adjacent plain strings. -/
def StringCut (m r : Text) : Prop := m ∈ plus quotedStrings ∧ ¬StartsIn quotedStrings r

/-- **The cuts of the literals of a kind.** -/
def LiteralKind.Cuts (options : Options) : LiteralKind → Text → Text → Prop
  | .string => StringCut
  | .number => NumberCut
  | .boolean => BooleanCut options
  | .hexString => Sequel HexStringCut (Iterated HexStringCut)
  | .unicodeString => Sequel UnicodeStringCut (Iterated UnicodeStringCut)

theorem HexStringCut.headed {m r : Text} (h : HexStringCut m r) : Headed (· == 'h') m :=
  TaggedCut.headed ⟨'h', "ex".toList, rfl, rfl⟩ h

theorem UnicodeStringCut.headed {m r : Text} (h : UnicodeStringCut m r) : Headed (· == 'u') m :=
  TaggedCut.headed ⟨'u', "nicode".toList, rfl, rfl⟩ h

theorem NumberCut.headed {m r : Text} (h : NumberCut m r) :
    Headed CharClass.decimalDigit.contains m := by
  obtain ⟨b, s, rfl, hb, -⟩ := h
  refine Headed.append ?_ s
  rcases hb with ⟨hb, -⟩ | ⟨-, hb, -⟩
  · obtain ⟨_, rfl, digits, -, rfl⟩ := Language.mem_mul.mp hb
    exact ⟨'0', 'x' :: digits, rfl, by decide⟩
  · exact headed_of_mem_mul (headed_of_mem_mul headed_of_mem_groups) hb

namespace LiteralKind

theorem decides (kind : LiteralKind) :
    Decides (literalOf kind) options (kind.Cuts options) := by
  cases kind with
  | string => exact decides_stringLiteral
  | number => exact decides_numberLiteral
  | boolean => exact decides_booleanLiteral
  | hexString =>
    exact decides_hexString.many1 Rule.hexString.failsInPlace
      fun h => (HexStringCut.headed h).ne_nil
  | unicodeString =>
    exact decides_unicodeString.many1 Rule.unicodeString.failsInPlace
      fun h => (UnicodeStringCut.headed h).ne_nil

/-- **The first character of a literal tells its kind.** -/
theorem Cuts.ofFirst? {kind : LiteralKind} {m r : Text} (h : kind.Cuts options m r) :
    ∃ ch t, m = ch :: t ∧ LiteralKind.ofFirst? ch = some kind := by
  cases kind with
  | string =>
    obtain ⟨ch, t, rfl, hch⟩ := headed_of_mem_mul headed_of_mem_quotedOf h.1
    refine ⟨ch, t, rfl, ?_⟩
    rw [isQuote, Bool.or_eq_true, beq_iff_eq, beq_iff_eq] at hch
    rcases hch with rfl | rfl <;> decide
  | number =>
    obtain ⟨ch, t, rfl, hch⟩ := NumberCut.headed h
    exact ⟨ch, t, rfl, if_pos hch⟩
  | boolean =>
    rcases h.1 with rfl | rfl
    · exact ⟨'t', "rue".toList, rfl, by decide⟩
    · exact ⟨'f', "alse".toList, rfl, by decide⟩
  | hexString =>
    obtain ⟨m₁, m₂, rfl, hm₁, -⟩ := h
    obtain ⟨ch, t, heq, hch⟩ := hm₁.headed.append m₂
    refine ⟨ch, t, heq, ?_⟩
    rw [beq_iff_eq.mp hch]
    decide
  | unicodeString =>
    obtain ⟨m₁, m₂, rfl, hm₁, -⟩ := h
    obtain ⟨ch, t, heq, hch⟩ := hm₁.headed.append m₂
    refine ⟨ch, t, heq, ?_⟩
    rw [beq_iff_eq.mp hch]
    decide

/-- Literals that are cut off from the same text are of the same kind. -/
theorem Cuts.kind_eq {kind kind' : LiteralKind} {m m' r r' : Text}
    (h : kind.Cuts options m r) (h' : kind'.Cuts options m' r') (heq : m ++ r = m' ++ r') :
    kind = kind' := by
  obtain ⟨ch, t, rfl, hkind⟩ := h.ofFirst?
  obtain ⟨ch', t', rfl, hkind'⟩ := h'.ofFirst?
  obtain rfl : ch = ch' := (List.cons.inj heq).1
  exact Option.some.inj (hkind.symm.trans hkind')

end LiteralKind

/-! ### The search for a literal -/

theorem failsInPlace_literalOf (kind : LiteralKind) : FailsInPlace (literalOf kind) :=
  failsInPlace_of_settles (.literalOf kind) (settles_literalOf kind)

/-- The search for a literal of one of several kinds cuts off what one of them
does. -/
theorem decides_firstOf_literalOf (kinds : List LiteralKind) :
    Decides (firstOf (kinds.map literalOf)) options fun m r =>
      ∃ kind ∈ kinds, kind.Cuts options m r := by
  induction kinds with
  | nil =>
    refine ⟨?_, fun _ _ => rfl⟩
    rintro m r ⟨kind, hmem, -⟩
    exact absurd hmem List.not_mem_nil
  | cons kind kinds ih =>
    refine (kind.decides.orElse (failsInPlace_literalOf kind) ih).congr fun m r => ?_
    simp only [List.mem_cons, exists_eq_or_imp]
    constructor
    · exact Or.imp_right And.right
    · rintro (hcut | ⟨kind', hmem, hcut⟩)
      · exact Or.inl hcut
      · -- Another kind is not cut off from the same text.
        by_cases hkind : kind' = kind
        · exact Or.inl (hkind ▸ hcut)
        · refine Or.inr ⟨fun m' r' heq hcut' => hkind ?_, kind', hmem, hcut⟩
          exact hcut.kind_eq hcut' heq

/-- **At most one kind matches at a place.** -/
theorem LiteralKind.eq_of_isSome {kind kind' : LiteralKind} {c : Cursor}
    (h : ((literalOf kind).run c).value.isSome) (h' : ((literalOf kind').run c).value.isSome) :
    kind = kind' := by
  obtain ⟨m, r, hrest, hcut⟩ := kind.decides.exists_cut h
  obtain ⟨m', r', hrest', hcut'⟩ := kind'.decides.exists_cut h'
  exact hcut.kind_eq hcut' (hrest.symm.trans hrest')

/-- The search finds the kind that matches, and ends where it does. -/
theorem run_kindSearch_of_value {kinds : List LiteralKind} {kind : LiteralKind}
    (hmem : kind ∈ kinds) {c : Cursor} {m : Text}
    (hvalue : ((literalOf kind).run c).value = some m) :
    ((kindSearch kinds).run c).value = some (kind, m) ∧
      ((kindSearch kinds).run c).cursor = ((literalOf kind).run c).cursor :=
  run_search_of_value failsInPlace_literalOf hmem hvalue LiteralKind.eq_of_isSome

theorem exists_value_literal_of_cuts {kind : LiteralKind} {c : Cursor} {m r : Text}
    (hrest : c.rest = m ++ r) (hcut : kind.Cuts c.options m r) :
    ∃ found, (literal.run c).value = some found ∧ found.kind = kind ∧ found.text = m := by
  obtain ⟨read, t, options⟩ := c
  obtain rfl : t = m ++ r := hrest
  have hvalue : ((literalOf kind).run ⟨read, m ++ r, options⟩).value = some m :=
    kind.decides.value_eq (settles_literalOf kind) hcut
  rw [literal, literalAmong_eq, run_recorded, (run_kindSearch_of_value kind.mem_all hvalue).1]
  exact ⟨_, rfl, rfl, rfl⟩

/-! ### The rules -/

/-- **The cuts of a rule.** -/
def Rule.Cuts (options : Options) : Rule → Text → Text → Prop
  | identifier => WordCut fun m => isIdentifier m = true
  | booleanLiteral => BooleanCut options
  | decimalDigits => fun m r =>
      m ∈ groups CharClass.decimalDigit.contains ∧
        Avoids (isGrouped CharClass.decimalDigit.contains) r
  | hexNumber => HexCut
  | decimalNumber => DecimalCut
  | numberLiteral => NumberCut
  | escapeSequence => fun m _ => m ∈ escapes
  | emptyString => fun m _ => m ∈ emptyStrings
  | quotedString => fun m _ => m ∈ quotedStrings
  | nonEmptyString => fun m _ => m ∈ nonEmptyStrings
  | stringLiteral => StringCut
  | hexString => HexStringCut
  | hexStringLiteral => Iterated HexStringCut
  | unicodeString => UnicodeStringCut
  | unicodeStringLiteral => Iterated UnicodeStringCut
  | unsignedIntegerType => WordCut fun m => Keyword.unsignedInteger.contains m = true
  | signedIntegerType => WordCut fun m => Keyword.signedInteger.contains m = true
  | fixedBytes => WordCut fun m => Keyword.fixedBytes.contains m = true
  | numberUnit => WordCut fun m => Keyword.numberUnit.contains m = true
  | elementaryType => WordCut fun m => ∃ table ∈ Keyword.elementaryTypes, table.contains m = true
  | literal => fun m r => ∃ kind ∈ LiteralKind.all, kind.Cuts options m r

/-- **Every rule decides its cuts.** -/
theorem Rule.decides (rule : Rule) :
    Decides rule.recognizer options (rule.Cuts options) := by
  cases rule with
  | identifier => exact decides_identifier
  | booleanLiteral => exact decides_booleanLiteral
  | decimalDigits => exact decides_decimalDigits
  | hexNumber => exact decides_hexNumber
  | decimalNumber => exact decides_decimalNumber
  | numberLiteral => exact decides_numberLiteral
  | escapeSequence => exact decides_escapeSequence
  | emptyString => exact decides_emptyString
  | quotedString => exact decides_quotedString
  | nonEmptyString => exact decides_nonEmptyString
  | stringLiteral => exact decides_stringLiteral
  | hexString => exact decides_hexString
  | hexStringLiteral =>
    exact decides_hexString.many Rule.hexString.failsInPlace
      fun h => (HexStringCut.headed h).ne_nil
  | unicodeString => exact decides_unicodeString
  | unicodeStringLiteral =>
    exact decides_unicodeString.many Rule.unicodeString.failsInPlace
      fun h => (UnicodeStringCut.headed h).ne_nil
  | unsignedIntegerType => exact decides_keyword _
  | signedIntegerType => exact decides_keyword _
  | fixedBytes => exact decides_keyword _
  | numberUnit => exact decides_keyword _
  | elementaryType =>
    rw [recognizer_elementaryType]
    exact decides_firstOf_keyword _
  | literal =>
    exact (decides_firstOf_literalOf LiteralKind.all).congr_run run_literal_eq

/-- A match is a cut. -/
theorem Rule.cuts_of_value {rule : Rule} {c : Cursor} {m : Text}
    (h : (rule.recognizer.run c).value = some m) :
    ∃ r, c.rest = m ++ r ∧ rule.Cuts c.options m r :=
  rule.decides.cut_of_value rule.settles h

/-- **The kind that is found is the kind of what is cut off.** -/
theorem LiteralKind.cuts_of_value {c : Cursor} {found : Literal}
    (h : (literal.run c).value = some found) :
    ∃ r, c.rest = found.text ++ r ∧ found.kind.Cuts c.options found.text r := by
  have hvalue : (Rule.literal.recognizer.run c).value = some found.text := by
    change ((literal >>= fun found => pure found.text).run c).value = some found.text
    rw [run_bind_pure, h]
    rfl
  obtain ⟨r, hrest, kind, -, hcut⟩ := Rule.cuts_of_value hvalue
  obtain ⟨found', hvalue', rfl, -⟩ := exists_value_literal_of_cuts hrest hcut
  obtain rfl : found = found' := Option.some.inj (h.symm.trans hvalue')
  exact ⟨r, hrest, hcut⟩

end SolidityTokens
