import SolidityTokens.Proofs.Grammar.NumberLiteral
import SolidityTokens.Proofs.Recognizer.Prefixes

/-!
# Numbers in front of other text

What a number rule finds in front of arbitrary text, said about the text and not
about the recognizers.

* Grouped digits are **the whole run** of digits and underscores or nothing
  (`SolidityTokens.digit_runs_all_or_nothing`). The loop only looks one
  character ahead when it is done, and that one character tells all: a run is
  spoiled exactly when an underscore stands first, last or next to another one
  (`SolidityTokens.mem_groups_iff_not_misgrouped`).
* A decimal number is **the one prefix** that is a decimal number and that the
  character after it neither continues nor spoils
  (`SolidityTokens.decimalNumber_in_context`).
* A number with a unit is a number **with the blanks and the whole word after
  it**, if that word is a unit (`SolidityTokens.numberLiteral_in_context`). A
  hex number that is spoiled gives way to the digit `0` in front of its mark,
  and that one has no unit, since no unit begins with `x`.
-/

namespace SolidityTokens

open scoped Computability

open Recognizer Grammar

/-! ### Where underscores may stand -/

/-- **A run is misgrouped** when an underscore stands first, last or next to
another one. -/
def Misgrouped (run : Text) : Prop :=
  ['_'] <+: run ∨ ['_'] <:+ run ∨ ['_', '_'] <:+: run

instance (run : Text) : Decidable (Misgrouped run) :=
  inferInstanceAs (Decidable (_ ∨ _ ∨ _))

section Groups

variable {d : Char → Bool}

theorem nil_notMem_groups : [] ∉ groups d := fun hnil => (headed_of_mem_groups hnil).ne_nil rfl

/-- Grouped digits are a digit and what can come after one. -/
theorem cons_mem_groups_iff {ch : Char} {t : Text} :
    ch :: t ∈ groups d ↔ d ch = true ∧ t ∈ (underscored (oneChar d))∗ := by
  rw [groups_eq, cons_mem_oneChar_mul_iff]

/-- What comes after a digit begins with a digit, or with an underscore and
grouped digits. -/
theorem cons_mem_kstar_underscored_iff {ch : Char} {t : Text} :
    ch :: t ∈ (underscored (oneChar d))∗ ↔
      d ch = true ∧ t ∈ (underscored (oneChar d))∗ ∨ ch = '_' ∧ t ∈ groups d := by
  have hunfold : (underscored (oneChar d))∗ =
      1 + (oneChar d * (underscored (oneChar d))∗ + oneChar (· == '_') * groups d) := by
    rw [groups_eq, ← mul_assoc, ← add_mul, ← underscored_eq,
      Language.one_add_self_mul_kstar_eq_kstar]
  have hmark : ch :: t ∈ oneChar (· == '_') * groups d ↔ ch = '_' ∧ t ∈ groups d := by
    rw [cons_mem_oneChar_mul_iff, beq_iff_eq]
  rw [← cons_mem_oneChar_mul_iff, ← hmark]
  nth_rewrite 1 [hunfold]
  exact or_iff_right (List.cons_ne_nil ch t)

/-- A character of a run is an underscore or a digit, and not both. -/
theorem digit_of_isGrouped {ch : Char} (hch : isGrouped d ch = true) (hne : ch ≠ '_') :
    d ch = true :=
  (Bool.or_eq_true_iff.mp hch).resolve_right fun h => hne (beq_iff_eq.mp h)

/-- After the first digit, a run goes on as it should if no underscore stands
last or next to another one. -/
theorem mem_kstar_underscored_iff (hd : d '_' = false) {t : Text}
    (ht : ∀ ch ∈ t, isGrouped d ch = true) :
    t ∈ (underscored (oneChar d))∗ ↔ ¬['_'] <:+ t ∧ ¬['_', '_'] <:+: t := by
  induction t with
  | nil => simp [Language.nil_mem_kstar]
  | cons ch t ih =>
    obtain ⟨hch, htail⟩ := List.forall_mem_cons.mp ht
    by_cases hmark : ch = '_'
    · subst hmark
      -- An underscore comes first, so what matters is the character after it.
      cases t with
      | nil => simp [cons_mem_kstar_underscored_iff, hd, nil_notMem_groups]
      | cons ch' t =>
        by_cases hmark' : ch' = '_'
        · subst hmark'
          simp [cons_mem_kstar_underscored_iff, cons_mem_groups_iff, hd, List.infix_cons_iff]
        · have hdigit : d ch' = true := digit_of_isGrouped (htail ch' List.mem_cons_self) hmark'
          have hstep : '_' :: ch' :: t ∈ (underscored (oneChar d))∗ ↔
              ch' :: t ∈ (underscored (oneChar d))∗ := by
            simp [cons_mem_kstar_underscored_iff (d := d), cons_mem_groups_iff, hd, hdigit, hmark']
          rw [hstep, ih htail]
          simp [List.suffix_cons_iff, List.infix_cons_iff, Ne.symm hmark']
    · have hdigit : d ch = true := digit_of_isGrouped hch hmark
      have hstep : ch :: t ∈ (underscored (oneChar d))∗ ↔ t ∈ (underscored (oneChar d))∗ := by
        simp [cons_mem_kstar_underscored_iff (d := d), hdigit, hmark]
      rw [hstep, ih htail]
      simp [List.suffix_cons_iff, List.infix_cons_iff, Ne.symm hmark]

/-- **Digits are well grouped unless they are misgrouped**, or there are
none. -/
theorem mem_groups_iff_not_misgrouped (hd : d '_' = false) {run : Text}
    (hrun : ∀ ch ∈ run, isGrouped d ch = true) :
    run ∈ groups d ↔ run ≠ [] ∧ ¬Misgrouped run := by
  cases run with
  | nil => exact iff_of_false nil_notMem_groups fun h => h.1 rfl
  | cons ch t =>
    obtain ⟨hch, ht⟩ := List.forall_mem_cons.mp hrun
    rw [cons_mem_groups_iff, mem_kstar_underscored_iff hd ht, Misgrouped]
    by_cases hmark : ch = '_'
    · subst hmark
      simp [hd]
    · have hdigit : d ch = true := digit_of_isGrouped hch hmark
      simp [hdigit, List.suffix_cons_iff, List.infix_cons_iff, Ne.symm hmark]

/-- A run is spoiled if it is empty or misgrouped. -/
theorem takeWhile_notMem_groups_iff (hd : d '_' = false) (t : Text) :
    t.takeWhile (isGrouped d) ∉ groups d ↔
      t.takeWhile (isGrouped d) = [] ∨ Misgrouped (t.takeWhile (isGrouped d)) := by
  rw [mem_groups_iff_not_misgrouped hd fun _ => List.mem_takeWhile_imp, not_and_or, not_not,
    not_not]

end Groups

/-! ### Runs of digits -/

theorem findsRun_decimalDigits (c : Cursor) :
    decimalDigits.FindsRun [] (isGrouped CharClass.decimalDigit.contains)
      (· ∈ groups CharClass.decimalDigit.contains) c := by
  refine Decides.findsRun (decides_decimalDigits.congr fun m r => and_congr_left fun _ => ?_)
    Rule.decimalDigits.settles (forall_mem_of_le (groups_le_isGrouped _))
  simp

theorem findsRun_hexNumber (c : Cursor) :
    hexNumber.FindsRun "0x".toList (isGrouped CharClass.hexDigit.contains)
      (· ∈ groups CharClass.hexDigit.contains) c := by
  refine Decides.findsRun (decides_hexNumber.congr fun m r => and_congr_left fun _ => ?_)
    Rule.hexNumber.settles (forall_mem_of_le (groups_le_isGrouped _))
  rw [hexNumbers, Language.mem_mul]
  constructor
  · rintro ⟨_, rfl, run, hrun, rfl⟩
    exact ⟨run, rfl, hrun⟩
  · rintro ⟨run, rfl, hrun⟩
    exact ⟨_, rfl, run, hrun, rfl⟩

/-- **Runs of digits are all or nothing.** At every place of every text, decimal
digits are the longest run of digits and underscores there, if it is well
grouped, and nothing otherwise; a hex number is the mark `0x` with the longest
such run of hex digits after it. In both, nothing is found exactly when the run
is empty or has an underscore first, last or next to another one. -/
theorem digit_runs_all_or_nothing (c : Cursor) :
    decimalDigits.FindsRun [] (isGrouped CharClass.decimalDigit.contains)
      (· ∈ groups CharClass.decimalDigit.contains) c ∧
    hexNumber.FindsRun "0x".toList (isGrouped CharClass.hexDigit.contains)
      (· ∈ groups CharClass.hexDigit.contains) c ∧
    ((decimalDigits.run c).value = none ↔
      let run := c.rest.takeWhile (isGrouped CharClass.decimalDigit.contains)
      run = [] ∨ Misgrouped run) ∧
    ∀ t, c.rest = "0x".toList ++ t →
      ((hexNumber.run c).value = none ↔
        let run := t.takeWhile (isGrouped CharClass.hexDigit.contains)
        run = [] ∨ Misgrouped run) := by
  refine ⟨findsRun_decimalDigits c, findsRun_hexNumber c, ?_, fun t ht => ?_⟩
  · rw [(findsRun_decimalDigits c).value_eq_none_iff (List.nil_append c.rest).symm]
    exact takeWhile_notMem_groups_iff (by decide) c.rest
  · rw [(findsRun_hexNumber c).value_eq_none_iff ht]
    exact takeWhile_notMem_groups_iff (by decide) t

/-! ### Decimal numbers -/

/-- **A decimal number is found where it ends.** At every place of every text
there is at most one prefix that consists of grouped digits, possibly a fraction
and possibly an exponent, and is followed by no digit or underscore, by no
exponent mark if it has no exponent, and by no point if it has neither. It is
what is found, and nothing is found where there is none. -/
theorem decimalNumber_in_context (c : Cursor) :
    decimalNumber.FindsCut (fun m r => ∃ digits fraction exponent,
      m = digits ++ (fraction ++ exponent) ∧
      digits ∈ groups CharClass.decimalDigit.contains ∧
      (fraction = [] ∨ fraction ∈ fractions) ∧ (exponent = [] ∨ exponent ∈ exponents) ∧
      Avoids (isGrouped CharClass.decimalDigit.contains) r ∧
      (exponent = [] → Avoids ['e', 'E'].contains r) ∧
      (fraction = [] ∧ exponent = [] → Avoids (· == '.') r)) c := by
  refine Decides.findsCut (decides_decimalNumber.congr fun m r => ?_) Rule.decimalNumber.settles
  constructor
  · intro hcut
    obtain ⟨digits, fraction, exponent, rfl, hdigits, hfraction, hexponent⟩ :=
      mem_decimalNumbers.mp hcut.1
    exact ⟨digits, fraction, exponent, rfl, hdigits, hfraction, hexponent,
      (decimalCut_append_iff hdigits hfraction hexponent).mp hcut⟩
  · rintro ⟨digits, fraction, exponent, rfl, hdigits, hfraction, hexponent, hr⟩
    exact (decimalCut_append_iff hdigits hfraction hexponent).mpr hr

/-! ### Numbers with units -/

/-- **What a number takes of the text after it**: the blanks there and the whole
word after them, if that word is a unit, and nothing otherwise. -/
def unitTaken (t : Text) : Text :=
  let word := (t.dropWhile isBlank).takeWhile isIdentifierPart
  if word ∈ unitWords then t.takeWhile isBlank ++ word else []

/-- A unit that is cut off after blanks is the whole word there. -/
theorem UnitCut.word_mem_unitWords {m r : Text} (h : UnitCut m r) :
    ((m ++ r).dropWhile isBlank).takeWhile isIdentifierPart ∈ unitWords := by
  obtain ⟨hm, hr⟩ := h
  obtain ⟨w, hw, u, hu, rfl⟩ := Language.mem_mul.mp hm
  have hwords : ∀ u ∈ unitWords, Avoids isBlank u := by decide
  have hblank : Avoids isBlank (u ++ r) := by
    rw [avoids_append_iff (ne_nil_of_mem_units hu)]
    exact hwords u hu
  rw [List.append_assoc, dropWhile_append_of_avoids (mem_kstar_oneChar.mp hw) hblank,
    takeWhile_append_of_avoids (isIdentifierPart_of_mem_units hu) hr]
  exact hu

/-- After a number, what is taken is a unit that is cut off there or, failing
that, nothing. -/
theorem otherwise_unitTaken (t : Text) :
    ∃ r, t = unitTaken t ++ r ∧ Otherwise UnitCut (fun m _ => m = []) (unitTaken t) r := by
  rw [unitTaken]
  split
  next hword =>
    refine ⟨(t.dropWhile isBlank).dropWhile isIdentifierPart, ?_, Or.inl ⟨?_, ?_⟩⟩
    · rw [List.append_assoc, List.takeWhile_append_dropWhile, List.takeWhile_append_dropWhile]
    · refine Language.append_mem_mul (mem_kstar_oneChar.mpr fun ch hch => ?_) hword
      exact List.mem_takeWhile_imp hch
    · exact avoids_dropWhile isIdentifierPart _
  next hword =>
    refine ⟨t, rfl, Or.inr ⟨?_, rfl⟩⟩
    rintro m r heq hcut
    rw [List.nil_append] at heq
    exact hword (heq ▸ hcut.word_mem_unitWords)

/-- No unit is taken in front of an `x`. -/
theorem unitTaken_x (t : Text) : unitTaken ('x' :: t) = [] := by
  have hword : ('x' :: t).takeWhile isIdentifierPart = 'x' :: t.takeWhile isIdentifierPart :=
    List.takeWhile_cons_of_pos (by decide)
  have hwords : ∀ u ∈ unitWords, Avoids (· == 'x') u := by decide
  rw [unitTaken, List.dropWhile_cons_of_neg (by decide), hword, if_neg]
  intro hmem
  exact absurd (hwords _ hmem) (by simp)

/-- What has a property that neither the space nor the tab has is no blank. -/
theorem isBlank_eq_false {p : Char → Bool} (hp : [' ', '\t'].any p = false) {ch : Char}
    (hch : p ch = true) : isBlank ch = false := by
  rw [← Bool.not_eq_true]
  exact fun hblank => Bool.false_ne_true ((eq_false_of_contains hp ch hblank).symm.trans hch)

/-- Numbers have no blanks in them. -/
theorem isBlank_of_mem_numbers {b : Text} (hb : b ∈ hexNumbers + decimalNumbers) :
    ∀ ch ∈ b, isBlank ch = false := by
  have hnotBlank : ∀ {p : Char → Bool}, [' ', '\t'].any p = false →
      ∀ ch, p ch = true → (!isBlank ch) = true := by
    intro p hp ch hch
    rw [isBlank_eq_false hp hch, Bool.not_false]
  have hle : hexNumbers + decimalNumbers ≤ (oneChar (!isBlank ·))∗ :=
    add_le (hexNumbers_le_kstar (hnotBlank (by decide)) (by decide))
      (decimalNumbers_le_kstar (hnotBlank (by decide)) (by decide))
  intro ch hch
  exact Bool.not_eq_true' _ ▸ forall_mem_of_le hle hb ch hch

/-- What is cut off is a number alone, or with blanks and a unit that ends
there. -/
theorem NumberCut.shape {m r : Text} (h : NumberCut m r) :
    m ∈ hexNumbers + decimalNumbers ∨
      m ∈ (hexNumbers + decimalNumbers) * ((oneChar isBlank)∗ * units) ∧
        Avoids isIdentifierPart r := by
  obtain ⟨b, s, rfl, hb, hs⟩ := h
  have hnumber : b ∈ hexNumbers + decimalNumbers := hb.imp And.left fun h => h.2.1
  rcases hs with hs | ⟨-, rfl⟩
  · exact Or.inr ⟨Language.append_mem_mul hnumber hs.1, hs.2⟩
  · rw [List.append_nil]
    exact Or.inl hnumber

/-- What is cut off does not end in a blank. -/
theorem NumberCut.isBlank_getLast? {m r : Text} (h : NumberCut m r) :
    ∀ ch ∈ m.getLast?, isBlank ch = false := by
  rcases h.shape with hm | ⟨hm, -⟩
  · exact fun ch hch => isBlank_of_mem_numbers hm ch (List.mem_of_getLast? hch)
  · obtain ⟨b, -, s, hs, rfl⟩ := Language.mem_mul.mp hm
    obtain ⟨w, -, u, hu, rfl⟩ := Language.mem_mul.mp hs
    rw [← List.append_assoc, List.getLast?_append_of_ne_nil _ (ne_nil_of_mem_units hu)]
    intro ch hch
    have hpart : isIdentifierPart ch = true :=
      isIdentifierPart_of_mem_units hu ch (List.mem_of_getLast? hch)
    exact isBlank_eq_false (by decide) hpart

section InContext

variable {c : Cursor} {b : Text}

/-- A number that is found, hex or else decimal, is cut off. -/
theorem numeralCut_of_value
    (hb : ((hexNumber.run c).value <|> (decimalNumber.run c).value) = some b) :
    ∃ t, c.rest = b ++ t ∧ NumeralCut b t := by
  have hhex : Decides hexNumber c.options HexCut := decides_hexNumber
  have hdecimal : Decides decimalNumber c.options DecimalCut := decides_decimalNumber
  cases hvalue : (hexNumber.run c).value with
  | some m =>
    rw [hvalue] at hb
    obtain rfl : m = b := Option.some.inj hb
    obtain ⟨t, hrest, hcut⟩ := hhex.cut_of_value Rule.hexNumber.settles hvalue
    exact ⟨t, hrest, Or.inl hcut⟩
  | none =>
    rw [hvalue] at hb
    obtain ⟨t, hrest, hcut⟩ := hdecimal.cut_of_value Rule.decimalNumber.settles hb
    refine ⟨t, hrest, Or.inr ⟨?_, hcut⟩⟩
    exact hrest ▸ hhex.value_eq_none_iff.mp hvalue

/-- A number is found with what it takes of the text after it. -/
theorem value_numberLiteral
    (hb : ((hexNumber.run c).value <|> (decimalNumber.run c).value) = some b) :
    ∃ t, c.rest = b ++ t ∧ (numberLiteral.run c).value = some (b ++ unitTaken t) := by
  obtain ⟨t, hrest, hcut⟩ := numeralCut_of_value hb
  obtain ⟨r, ht, hunit⟩ := otherwise_unitTaken t
  have hfinds : numberLiteral.FindsCut NumberCut c :=
    decides_numberLiteral.findsCut Rule.numberLiteral.settles
  refine ⟨t, hrest, (hfinds.value_eq_some_iff _).mpr ⟨r, ?_, b, unitTaken t, rfl, ?_, hunit⟩⟩
  · rw [hrest, List.append_assoc, ← ht]
  · rw [← ht]
    exact hcut

/-- In front of the mark `0x` without a hex number, the decimal number is
`0`. -/
theorem value_decimalNumber_of_mark {t : Text} (hrest : c.rest = "0x".toList ++ t) :
    (decimalNumber.run c).value = some ['0'] := by
  have hfinds : decimalNumber.FindsCut DecimalCut c :=
    decides_decimalNumber.findsCut Rule.decimalNumber.settles
  have hzero : ['0'] ∈ groups CharClass.decimalDigit.contains :=
    cons_mem_groups_iff.mpr ⟨by decide, Language.nil_mem_kstar _⟩
  refine (hfinds.value_eq_some_iff _).mpr ⟨'x' :: t, hrest, ?_⟩
  refine (decimalCut_append_iff (f := []) (e := []) hzero (Or.inl rfl) (Or.inl rfl)).mpr ?_
  simp only [avoids_cons]
  decide

/-- Nothing is found only where there is no number, hex or decimal. -/
theorem value_numberLiteral_eq_none_iff :
    (numberLiteral.run c).value = none ↔
      (hexNumber.run c).value = none ∧ (decimalNumber.run c).value = none := by
  have hhex : Decides hexNumber c.options HexCut := decides_hexNumber
  have hdecimal : Decides decimalNumber c.options DecimalCut := decides_decimalNumber
  have hnumber : Decides numberLiteral c.options NumberCut := decides_numberLiteral
  constructor
  · intro hnone
    rw [← Option.orElse_eq_none]
    by_contra hsome
    obtain ⟨b, hb⟩ := Option.ne_none_iff_exists'.mp hsome
    obtain ⟨t, -, hvalue⟩ := value_numberLiteral hb
    exact Option.some_ne_none _ (hvalue.symm.trans hnone)
  · rintro ⟨hnoHex, hnoDecimal⟩
    refine hnumber.value_eq_none_iff.mpr ?_
    rintro m r hrest ⟨b, s, rfl, hb, -⟩
    rw [List.append_assoc] at hrest
    rcases hb with hcut | ⟨-, hcut⟩
    · exact hhex.value_eq_none_iff.mp hnoHex b (s ++ r) hrest hcut
    · exact hdecimal.value_eq_none_iff.mp hnoDecimal b (s ++ r) hrest hcut

/-- In front of the mark `0x` without a hex number, `0` is found, and no unit
with it. -/
theorem value_numberLiteral_of_mark {t : Text} (hrest : c.rest = "0x".toList ++ t)
    (hhex : (hexNumber.run c).value = none) : (numberLiteral.run c).value = some ['0'] := by
  have hzero : ((hexNumber.run c).value <|> (decimalNumber.run c).value) = some ['0'] := by
    rw [hhex, value_decimalNumber_of_mark hrest]
    rfl
  obtain ⟨t', hrest', hvalue⟩ := value_numberLiteral hzero
  obtain rfl : 'x' :: t = t' := (List.cons.inj (hrest.symm.trans hrest')).2
  rwa [unitTaken_x, List.append_nil] at hvalue

end InContext

/-- **A number takes the whole unit after it or nothing.** At every place of
every text:

* in front of the mark `0x` there is always a number, and it is `0` if there is
  no hex number;
* there is no number only where there is neither a hex number nor a decimal one;
* what is found is the hex number or, failing that, the decimal one, with the
  blanks and the whole word after it if that word is a unit, and alone
  otherwise;
* so what is found does not end in a blank, has no blanks without a unit, and
  has no unit that is only the beginning of a word. -/
theorem numberLiteral_in_context (c : Cursor) :
    ("0x".toList <+: c.rest → (numberLiteral.run c).value.isSome ∧
      ((hexNumber.run c).value = none → (numberLiteral.run c).value = some ['0'])) ∧
    ((numberLiteral.run c).value = none ↔
      (hexNumber.run c).value = none ∧ (decimalNumber.run c).value = none) ∧
    (∀ b, ((hexNumber.run c).value <|> (decimalNumber.run c).value) = some b →
      ∃ t, c.rest = b ++ t ∧ (numberLiteral.run c).value = some (b ++ unitTaken t) ∧
        (numberLiteral.run c).cursor.position = c.position + Text.size (b ++ unitTaken t)) ∧
    ∀ m r, (numberLiteral.run c).value = some m → c.rest = m ++ r →
      (∀ ch ∈ m.getLast?, isBlank ch = false) ∧
      (m ∈ hexNumbers + decimalNumbers ∨
        m ∈ (hexNumbers + decimalNumbers) * ((oneChar isBlank)∗ * units) ∧
          Avoids isIdentifierPart r) := by
  have hfinds : numberLiteral.FindsCut NumberCut c :=
    decides_numberLiteral.findsCut Rule.numberLiteral.settles
  refine ⟨?_, value_numberLiteral_eq_none_iff, ?_, ?_⟩
  · rintro ⟨t, hrest⟩
    refine ⟨?_, value_numberLiteral_of_mark hrest.symm⟩
    rw [← Option.ne_none_iff_isSome, Ne, value_numberLiteral_eq_none_iff,
      value_decimalNumber_of_mark hrest.symm]
    exact fun h => Option.some_ne_none _ h.2
  · intro b hb
    obtain ⟨t, hrest, hvalue⟩ := value_numberLiteral hb
    refine ⟨t, hrest, hvalue, ?_⟩
    rw [hfinds.position_eq, hvalue, Option.getD_some]
  · intro m r hvalue hrest
    obtain ⟨r', hrest', hcut⟩ := (hfinds.value_eq_some_iff m).mp hvalue
    obtain rfl : r = r' := List.append_cancel_left (hrest.symm.trans hrest')
    exact ⟨hcut.isBlank_getLast?, hcut.shape⟩

end SolidityTokens
