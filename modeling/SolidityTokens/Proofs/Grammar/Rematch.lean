import SolidityTokens.Proofs.Grammar.Cuts

/-!
# A match is a token of its own

A rule may look beyond its match, and what it sees there may make it fail, or
make it take another of its alternatives. But what makes it fail is never the
*absence* of something: whatever is cut off in front of a text is cut off in
front of nothing as well (`SolidityTokens.Rule.Cuts.trim`). The one rule for
which this needs an argument is that of numbers, since there a hex number that
is spoiled further on gives way to the decimal number `0`; the match does not
reach as far as the mark `x`, so without what follows there is no hex number
either.

So **every match is matched again, whole and under any options**, by the rule
that found it, and a literal keeps its kind (`SolidityTokens.match_rematches`).
-/

namespace SolidityTokens

open Recognizer Grammar

variable {options options' : Options}

/-! ### Cutting off in front of nothing -/

theorem BooleanCut.trim {m r : Text} (h : BooleanCut options m r) : BooleanCut options' m [] :=
  ⟨h.1, fun _ => avoids_nil _⟩

theorem StringCut.trim {m r : Text} (h : StringCut m r) : StringCut m [] := by
  refine ⟨h.1, not_startsIn_nil fun hnil => ?_⟩
  exact (headed_of_mem_quotedOf hnil).ne_nil rfl

theorem HexStringCut.of_append {m r s : Text} (h : HexStringCut m (r ++ s)) : HexStringCut m r :=
  TaggedCut.of_append h

theorem UnicodeStringCut.of_append {m r s : Text} (h : UnicodeStringCut m (r ++ s)) :
    UnicodeStringCut m r :=
  TaggedCut.of_append h

theorem iterated_hexStringCut_trim {m r : Text} (h : Iterated HexStringCut m r) :
    Iterated HexStringCut m [] :=
  h.trim (fun h => h.headed.ne_nil) HexStringCut.of_append

theorem iterated_unicodeStringCut_trim {m r : Text} (h : Iterated UnicodeStringCut m r) :
    Iterated UnicodeStringCut m [] :=
  h.trim (fun h => h.headed.ne_nil) UnicodeStringCut.of_append

theorem LiteralKind.Cuts.trim {kind : LiteralKind} {m r : Text} (h : kind.Cuts options m r) :
    kind.Cuts options' m [] := by
  cases kind with
  | string => exact StringCut.trim h
  | number => exact NumberCut.trim h
  | boolean => exact BooleanCut.trim h
  | hexString =>
    obtain ⟨m₁, m₂, rfl, hm₁, hm₂⟩ := h
    refine ⟨m₁, m₂, rfl, ?_, iterated_hexStringCut_trim hm₂⟩
    rw [List.append_nil]
    exact hm₁.of_append
  | unicodeString =>
    obtain ⟨m₁, m₂, rfl, hm₁, hm₂⟩ := h
    refine ⟨m₁, m₂, rfl, ?_, iterated_unicodeStringCut_trim hm₂⟩
    rw [List.append_nil]
    exact hm₁.of_append

/-- **What a rule cuts off in front of a text, it cuts off in front of
nothing**, under any options. -/
theorem Rule.Cuts.trim {rule : Rule} {m r : Text} (h : rule.Cuts options m r) :
    rule.Cuts options' m [] := by
  cases rule with
  | identifier => exact ⟨h.1, avoids_nil _⟩
  | booleanLiteral => exact BooleanCut.trim h
  | decimalDigits => exact ⟨h.1, avoids_nil _⟩
  | hexNumber => exact HexCut.of_append h
  | decimalNumber => exact DecimalCut.of_append h
  | numberLiteral => exact NumberCut.trim h
  | escapeSequence => exact h
  | emptyString => exact h
  | quotedString => exact h
  | nonEmptyString => exact h
  | stringLiteral => exact StringCut.trim h
  | hexString => exact HexStringCut.of_append h
  | hexStringLiteral => exact iterated_hexStringCut_trim h
  | unicodeString => exact UnicodeStringCut.of_append h
  | unicodeStringLiteral => exact iterated_unicodeStringCut_trim h
  | unsignedIntegerType => exact ⟨h.1, avoids_nil _⟩
  | signedIntegerType => exact ⟨h.1, avoids_nil _⟩
  | fixedBytes => exact ⟨h.1, avoids_nil _⟩
  | numberUnit => exact ⟨h.1, avoids_nil _⟩
  | elementaryType => exact ⟨h.1, avoids_nil _⟩
  | literal =>
    obtain ⟨kind, hkind, hcut⟩ := h
    exact ⟨kind, hkind, hcut.trim⟩

/-! ### Matching again -/

/-- **Every match is matched again**, whole and under any options, and as a
literal of the same kind. -/
theorem match_rematches (text : Text) (start : Nat) (o₁ o₂ : Options) (c : Cursor) :
    Cursor.atOffset? text start o₁ = some c →
      (∀ (rule : Rule) (m : Text), (rule.recognizer.run c).value = some m →
        rule.recognizer.recognizeWhole m o₂ = .ok m) ∧
      ∀ found : Literal, (literal.run c).value = some found →
        ∃ found', (literal.run (.atStart found.text o₂)).value = some found' ∧
          found'.kind = found.kind ∧ found'.text = found.text := by
  rintro -
  constructor
  · intro rule m hm
    -- Decided under the old options in context, and under the new ones at the
    -- end of a text.
    obtain ⟨r, -, hcut⟩ := Rule.cuts_of_value hm
    exact (rule.decides.recognizeWhole_eq_ok_iff rule.settles).mpr ⟨rfl, hcut.trim⟩
  · intro found hfound
    obtain ⟨r, -, hcut⟩ := LiteralKind.cuts_of_value hfound
    have hrest : (Cursor.atStart found.text o₂).rest = found.text ++ [] :=
      (List.append_nil found.text).symm
    exact exists_value_literal_of_cuts hrest hcut.trim

/-- A boolean inside a longer word, found where the options allow it, is matched
whole where they do not. -/
theorem match_rematches_inside_word :
    let c : Cursor := ⟨['é'], "trueish".toList, ⟨false⟩⟩
    let found : Literal := ⟨.boolean, "true".toList, ⟨2, 6⟩⟩
    Cursor.atOffset? "étrueish".toList 2 ⟨false⟩ = some c ∧
      (Rule.booleanLiteral.recognizer.run c).value = some found.text ∧
      Rule.booleanLiteral.recognizer.recognizeWhole found.text ⟨true⟩ = .ok found.text ∧
      (literal.run c).value = some found ∧
      ∃ found', (literal.run (.atStart found.text ⟨true⟩)).value = some found' ∧
        found'.kind = found.kind ∧ found'.text = found.text := by
  intro c found
  have hc : Cursor.atOffset? "étrueish".toList 2 ⟨false⟩ = some c := by decide
  have hvalue : (Rule.booleanLiteral.recognizer.run c).value = some found.text := by
    decide +kernel
  have hfound : (literal.run c).value = some found := by decide +kernel
  obtain ⟨hwhole, hkind⟩ := match_rematches "étrueish".toList 2 ⟨false⟩ ⟨true⟩ c hc
  exact ⟨hc, hvalue, hwhole .booleanLiteral _ hvalue, hfound, hkind found hfound⟩

end SolidityTokens
