import SolidityTokens.Proofs.Grammar.Numbers

/-!
# Numbers with units

A unit may be glued to its number, and then its first letters compete with the
number for what it can be continued with: `1ether` is spoiled by what looks like
an exponent mark, and `0x1days` would be a longer hex number. A number that
already has its exponent has no such quarrel, so `1e5ether` is one. With a blank
between the number and the unit nothing of this matters.

**The language of numbers with units**
(`SolidityTokens.accepts_numberLiteral_iff`) says exactly which texts are
numbers.
-/

namespace SolidityTokens

open scoped Computability

open Recognizer Grammar

variable {options : Options}

/-! ### Hex numbers and decimal numbers -/

/-- A number: a hex number or, failing that, a decimal one. -/
def NumeralCut : Text → Text → Prop := Otherwise HexCut DecimalCut

theorem decides_numeral : Decides (hexNumber <|> decimalNumber) options NumeralCut :=
  decides_hexNumber.orElse Rule.hexNumber.failsInPlace decides_decimalNumber

/-- No decimal number has the mark of the hex numbers in it. -/
theorem decimalNumbers_le : decimalNumbers ≤ (oneChar (· != 'x'))∗ := by
  refine decimalNumbers_le_kstar (fun ch h => bne_iff_ne.mpr ?_) (by decide)
  rintro rfl
  exact absurd h (by decide)

theorem ne_nil_of_mem_decimalNumbers {m : Text} (hm : m ∈ decimalNumbers) : m ≠ [] := by
  obtain ⟨a, f, e, rfl, ha, -, -⟩ := mem_decimalNumbers.mp hm
  exact ((headed_of_mem_groups ha).append _).ne_nil

/-- After a decimal number, only an `x` can turn it into a hex number. -/
theorem uncut_hexCut {m r : Text} (hm : m ∈ decimalNumbers) (hr : Avoids (· == 'x') r) :
    Uncut HexCut (m ++ r) := by
  rintro m' r' heq ⟨hm', -⟩
  obtain ⟨_, rfl, g, -, rfl⟩ := Language.mem_mul.mp hm'
  have hx : ∀ ch ∈ m, (ch != 'x') = true := forall_mem_of_le decimalNumbers_le hm
  -- The `x` is the second character: it stands in `m` or right behind it.
  rcases m with - | ⟨ch, - | ⟨ch', m⟩⟩
  · exact ne_nil_of_mem_decimalNumbers hm rfl
  · obtain rfl : r = 'x' :: (g ++ r') := (List.cons.inj heq).2
    rw [avoids_cons] at hr
    exact absurd hr (by decide)
  · obtain rfl : ch' = 'x' := (List.cons.inj (List.cons.inj heq).2).1
    exact absurd (hx 'x' (by simp)) (by decide)

theorem numeralCut_iff {m r : Text} (hr : Avoids (· == 'x') r) :
    NumeralCut m r ↔ HexCut m r ∨ DecimalCut m r :=
  or_congr_right ⟨fun h => h.2, fun h => ⟨uncut_hexCut h.1 hr, h⟩⟩

/-! ### Units -/

/-- The nine units that can follow a number. -/
def unitWords : List Text :=
  ["wei", "gwei", "ether", "seconds", "minutes", "hours", "days", "weeks", "years"].map
    String.toList

/-- The units that can follow a number, as a language. -/
def units : Language Char := {m | m ∈ unitWords}

theorem mem_units_iff {u : Text} : u ∈ units ↔ Keyword.numberUnit.contains u = true := by
  rw [Keyword.contains, List.contains_iff_mem]
  rfl

/-- Spaces and tabs. -/
def isBlank (ch : Char) : Bool := [' ', '\t'].contains ch

/-- Spaces and tabs, if any, and a unit, which has to end there. -/
def UnitCut : Text → Text → Prop := WordCut fun m => m ∈ (oneChar isBlank)∗ * units

theorem ne_nil_of_mem_units {u : Text} (hu : u ∈ units) : u ≠ [] := by
  have hwords : ∀ u ∈ unitWords, u ≠ [] := by decide
  exact hwords u hu

/-- Units are words. -/
theorem isIdentifierPart_of_mem_units {u : Text} (hu : u ∈ units) :
    ∀ ch ∈ u, isIdentifierPart ch = true := by
  have hwords : unitWords.all (·.all isIdentifierPart) = true := by decide
  exact List.all_eq_true.mp (List.all_eq_true.mp hwords u hu)

/-- What no unit begins with, blanks and a unit do not begin with. -/
theorem avoids_suffix {q : Char → Bool} (hq : ∀ ch, isBlank ch = true → q ch = false)
    {w u : Text} (hw : w ∈ (oneChar isBlank)∗) (hu : w = [] → Avoids q u) :
    Avoids q (w ++ u) := by
  rw [mem_kstar_oneChar] at hw
  cases w with
  | nil => exact hu rfl
  | cons ch w => exact (avoids_cons q ch _).mpr (hq ch (hw ch List.mem_cons_self))

theorem decides_unitSuffix : Decides unitSuffix options UnitCut := by
  have hblanks : Decides (Recognizer.many (oneOf [' ', '\t'])) options fun m r =>
      (∀ ch ∈ m, isBlank ch = true) ∧ Avoids isBlank r :=
    (decides_satisfy _).many_oneChar (failsInPlace_satisfy _)
  refine (hblanks.andThen (decides_keyword .numberUnit)).congr fun m r => ?_
  constructor
  · rintro ⟨w, u, rfl, ⟨hw, -⟩, hu, hr⟩
    exact ⟨Language.append_mem_mul (mem_kstar_oneChar.mpr hw) (mem_units_iff.mpr hu), hr⟩
  · rintro ⟨hm, hr⟩
    obtain ⟨w, hw, u, hu, rfl⟩ := Language.mem_mul.mp hm
    have hwords : ∀ u ∈ unitWords, Avoids isBlank u := by decide
    refine ⟨w, u, rfl, ⟨mem_kstar_oneChar.mp hw, ?_⟩, mem_units_iff.mp hu, hr⟩
    rw [avoids_append_iff (ne_nil_of_mem_units hu)]
    exact hwords u hu

/-! ### Numbers with units -/

/-- A number, and the unit after it or, failing that, nothing. -/
def NumberCut : Text → Text → Prop := Sequel NumeralCut (Otherwise UnitCut fun m _ => m = [])

theorem decides_numberLiteral : Decides numberLiteral options NumberCut := by
  have recipe : Recipe unitSuffix := .bind (.many (.satisfy _)) fun _ => .keyword _
  have hunit : Decides (optionally unitSuffix) options _ :=
    decides_unitSuffix.optionally recipe.atomic.failsInPlace
  exact (decides_numeral.andThen hunit).atomic

theorem avoids_x_of_unitCut {m r : Text} (h : UnitCut m r) : Avoids (· == 'x') m := by
  obtain ⟨w, hw, u, hu, rfl⟩ := Language.mem_mul.mp h.1
  have hwords : ∀ u ∈ unitWords, Avoids (· == 'x') u := by decide
  exact avoids_suffix (eq_false_of_contains (by decide)) hw fun _ => hwords u hu

theorem ne_nil_of_unitCut {m r : Text} (h : UnitCut m r) : m ≠ [] := by
  obtain ⟨w, -, u, hu, rfl⟩ := Language.mem_mul.mp h.1
  exact fun h => ne_nil_of_mem_units hu (List.append_eq_nil_iff.mp h).2

/-- **A number is cut off at the end of a text** if it is a hex or a decimal
number that the unit after it, if there is one, neither continues nor spoils. -/
theorem numberCut_nil_iff {t : Text} :
    NumberCut t [] ↔ ∃ b s, t = b ++ s ∧ (HexCut b s ∨ DecimalCut b s) ∧
      (s = [] ∨ s ∈ (oneChar isBlank)∗ * units) := by
  constructor
  · rintro ⟨b, s, rfl, hb, hs⟩
    rw [List.append_nil] at hb
    rcases hs with hs | ⟨-, rfl⟩
    · exact ⟨b, s, rfl, (numeralCut_iff (avoids_x_of_unitCut hs)).mp hb, Or.inr hs.1⟩
    · exact ⟨b, [], rfl, (numeralCut_iff (avoids_nil _)).mp hb, Or.inl rfl⟩
  · rintro ⟨b, s, rfl, hb, rfl | hs⟩
    · have huncut : Uncut UnitCut [] := Uncut.of_nil ne_nil_of_unitCut
      exact ⟨b, [], rfl, (numeralCut_iff (avoids_nil _)).mpr hb, Or.inr ⟨huncut, rfl⟩⟩
    · have hcut : UnitCut s [] := ⟨hs, avoids_nil _⟩
      refine ⟨b, s, rfl, ?_, Or.inl hcut⟩
      rw [List.append_nil]
      exact (numeralCut_iff (avoids_x_of_unitCut hcut)).mpr hb

/-- A number that is cut off in front of a text is cut off at the end of one. -/
theorem NumberCut.trim {m r : Text} (h : NumberCut m r) : NumberCut m [] := by
  obtain ⟨b, s, rfl, hb, hs⟩ := h
  -- That there is no hex number need not be kept: after the suffix it follows.
  have hs' : s = [] ∨ s ∈ (oneChar isBlank)∗ * units := hs.symm.imp And.right And.left
  refine numberCut_nil_iff.mpr ⟨b, s, rfl, ?_, hs'⟩
  rcases hb with hb | ⟨-, hb⟩
  · exact Or.inl hb.of_append
  · exact Or.inr hb.of_append

/-! ### The language -/

/-- A number with an exponent is a decimal number that is not a mantissa. -/
theorem mem_mantissas_mul_exponents_iff {m : Text} (hm : m ∈ decimalNumbers) :
    m ∈ mantissas * exponents ↔ m ∉ mantissas := by
  obtain ⟨a, f, e, rfl, ha, hf, he⟩ := mem_decimalNumbers.mp hm
  rw [append_mem_mantissas_iff ha hf he]
  constructor
  · rintro h rfl
    obtain ⟨x, hx, e, he, heq⟩ := Language.mem_mul.mp h
    have hmark : ∀ ch, ['e', 'E'].contains ch = true → isMantissaPart ch = false :=
      eq_false_of_contains (by decide)
    refine notMem_of_marked hmark mantissas_le he x [] ?_
    rw [List.append_nil, heq]
    exact (append_mem_mantissas_iff ha hf (Or.inl rfl)).mpr rfl
  · intro hne
    rw [← List.append_assoc]
    exact Language.append_mem_mul (Language.append_mem_mul ha hf) (he.resolve_left hne)

section Glued

variable {b u : Text} (hu : u ∈ units)

include hu in
/-- The units that begin with a hex digit are `days` and `ether`. -/
theorem hexCut_unit_iff :
    HexCut b u ↔ b ∈ hexNumbers ∧ u ≠ "days".toList ∧ u ≠ "ether".toList := by
  have hwords : ∀ u ∈ unitWords, (Avoids (isGrouped CharClass.hexDigit.contains) u ↔
      u ≠ "days".toList ∧ u ≠ "ether".toList) := by decide
  exact and_congr_right fun _ => hwords u hu

include hu in
/-- The unit that begins with an exponent mark is `ether`. -/
theorem decimalCut_unit_iff :
    DecimalCut b u ↔
      b ∈ decimalNumbers ∧ (u ≠ "ether".toList ∨ b ∈ mantissas * exponents) := by
  have hwords : ∀ u ∈ unitWords,
      Avoids (isGrouped CharClass.decimalDigit.contains) u ∧ Avoids (· == '.') u ∧
        (Avoids ['e', 'E'].contains u ↔ u ≠ "ether".toList) := by decide
  obtain ⟨hdigit, hpoint, hmark⟩ := hwords u hu
  refine and_congr_right fun hb => ?_
  rw [mem_mantissas_mul_exponents_iff hb, ← hmark]
  constructor
  · rintro ⟨-, h, -⟩
    exact or_iff_not_imp_right.mpr fun hb => h (not_not.mp hb)
  · intro h
    exact ⟨hdigit, fun hb => h.resolve_right (not_not.mpr hb), fun _ => hpoint⟩

end Glued

/-- In front of a blank, every number is cut off. -/
theorem numeral_blank_iff {b w : Text} (hw : w ∈ plus (oneChar isBlank)) (t : Text) :
    HexCut b (w ++ t) ∨ DecimalCut b (w ++ t) ↔ b ∈ hexNumbers + decimalNumbers := by
  have havoids : ∀ {q : Char → Bool}, [' ', '\t'].any q = false → Avoids q (w ++ t) :=
    fun hq => ((headed_of_marked hw).append t).avoids (eq_false_of_contains hq)
  constructor
  · rintro (hb | hb)
    · exact Or.inl hb.1
    · exact Or.inr hb.1
  · rintro (hb | hb)
    · exact Or.inl ⟨hb, havoids (by decide)⟩
    · exact Or.inr ⟨hb, havoids (by decide), fun _ => havoids (by decide),
        fun _ => havoids (by decide)⟩

/-- **The language of numbers with units.** A text is a number with or without a
unit exactly when it is a hex or a decimal number; or such a number, at least
one blank and a unit; or a number and a unit without a blank, where the unit is
not `ether` after a decimal number that has no exponent, and neither `days` nor
`ether` after a hex number. -/
theorem accepts_numberLiteral_iff (t : Text) (options : Options) :
    (∃ m, numberLiteral.recognizeWhole t options = .ok m) ↔
      t ∈ hexNumbers + decimalNumbers ∨
      t ∈ (hexNumbers + decimalNumbers) * (plus (oneChar isBlank) * units) ∨
      ∃ b u, t = b ++ u ∧ u ∈ units ∧
        (b ∈ decimalNumbers ∧ (u ≠ "ether".toList ∨ b ∈ mantissas * exponents) ∨
          b ∈ hexNumbers ∧ u ≠ "days".toList ∧ u ≠ "ether".toList) := by
  have hdecides : Decides numberLiteral options NumberCut := decides_numberLiteral
  simp only [hdecides.recognizeWhole_eq_ok_iff Rule.numberLiteral.settles, exists_eq_left,
    numberCut_nil_iff]
  constructor
  · -- A suffix is nothing, or blanks and a unit; the blanks may be missing.
    rintro ⟨b, s, rfl, hb, rfl | hs⟩
    · rw [List.append_nil]
      exact Or.inl (hb.imp And.left And.left)
    · obtain ⟨w, hw, u, hu, rfl⟩ := Language.mem_mul.mp hs
      by_cases hblank : w = []
      · subst hblank
        refine Or.inr (Or.inr ⟨b, u, rfl, hu, ?_⟩)
        exact hb.symm.imp (decimalCut_unit_iff hu).mp (hexCut_unit_iff hu).mp
      · have hplus : w ∈ plus (oneChar isBlank) := mem_plus_of_mem_kstar hw hblank
        refine Or.inr (Or.inl (Language.append_mem_mul ?_ (Language.append_mem_mul hplus hu)))
        exact (numeral_blank_iff hplus u).mp hb
  · rintro (ht | ht | ⟨b, u, rfl, hu, hb⟩)
    · refine ⟨t, [], (List.append_nil t).symm, ?_, Or.inl rfl⟩
      exact ht.imp (⟨·, avoids_nil _⟩)
        (⟨·, avoids_nil _, fun _ => avoids_nil _, fun _ => avoids_nil _⟩)
    · obtain ⟨b, hb, s, hs, rfl⟩ := Language.mem_mul.mp ht
      obtain ⟨w, hw, u, hu, rfl⟩ := Language.mem_mul.mp hs
      refine ⟨b, w ++ u, rfl, (numeral_blank_iff hw u).mpr hb, Or.inr ?_⟩
      have hblanks : w ∈ (oneChar isBlank)∗ := (mul_kstar_le_kstar : plus _ ≤ _) hw
      exact Language.append_mem_mul hblanks hu
    · refine ⟨b, u, rfl, ?_, Or.inr ⟨[], Language.nil_mem_kstar _, u, hu, rfl⟩⟩
      exact hb.symm.imp (hexCut_unit_iff hu).mpr (decimalCut_unit_iff hu).mpr

end SolidityTokens
