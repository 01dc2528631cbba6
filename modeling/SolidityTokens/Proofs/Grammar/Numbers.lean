import SolidityTokens.Proofs.Grammar.Words

/-!
# The cuts of numbers

The languages of numbers are built from classes of characters by union,
concatenation and star: digits in groups (`SolidityTokens.groups`), hex numbers,
and decimal numbers with their fraction and exponent. A number is cut off in
front of a character that can neither continue it nor spoil it, and which
characters these are depends on what the number already has: the point matters
only to a number that has neither a fraction nor an exponent, the exponent mark
only to one that has no exponent (`SolidityTokens.DecimalCut`).

The loop that reads grouped digits reads them one by one, and not group by
group. That the two describe the same language is an instance of the law of
Kleene algebra that unfolds the star of a sum.
-/

namespace SolidityTokens

open scoped Computability

open Recognizer Grammar

variable {options : Options}

/-! ### Languages -/

/-- A word of a language, possibly with an underscore in front of it. -/
def underscored (A : Language Char) : Language Char := (1 + oneChar (· == '_')) * A

/-- Digits in groups, with single underscores between the groups. -/
def groups (d : Char → Bool) : Language Char :=
  plus (oneChar d) * (oneChar (· == '_') * plus (oneChar d))∗

/-- Grouped digits after the mark `0x`. -/
def hexNumbers : Language Char := {"0x".toList} * groups CharClass.hexDigit.contains

/-- A point and grouped digits. -/
def fractions : Language Char := oneChar (· == '.') * groups CharClass.decimalDigit.contains

/-- An exponent mark, possibly a minus sign, and grouped digits. -/
def exponents : Language Char :=
  oneChar ['e', 'E'].contains *
    ((1 + oneChar (· == '-')) * groups CharClass.decimalDigit.contains)

/-- Grouped digits and possibly a fraction: a decimal number without an
exponent. -/
def mantissas : Language Char := groups CharClass.decimalDigit.contains * (1 + fractions)

/-- Decimal numbers. -/
def decimalNumbers : Language Char := mantissas * (1 + exponents)

/-- Whether a character belongs to a run of grouped digits. -/
def isGrouped (d : Char → Bool) (ch : Char) : Bool := d ch || ch == '_'

theorem underscored_eq (A : Language Char) : underscored A = A + oneChar (· == '_') * A := by
  rw [underscored, add_mul, one_mul]

/-- Groups of digits, read digit by digit. -/
theorem groups_eq (d : Char → Bool) : groups d = oneChar d * (underscored (oneChar d))∗ := by
  rw [groups, plus, underscored_eq, kstar_add, mul_assoc, mul_assoc]

theorem groups_le {d q : Char → Bool} (hd : ∀ ch, d ch = true → q ch = true)
    (hq : q '_' = true) : groups d ≤ (oneChar q)∗ := by
  have hdigit := oneChar_le hd
  have hmark : oneChar (· == '_') ≤ (oneChar q)∗ := oneChar_le fun ch hch => by
    rw [beq_iff_eq.mp hch]
    exact hq
  have hplus : plus (oneChar d) ≤ (oneChar q)∗ :=
    mul_le_kstar hdigit (kstar_le_kstar hdigit)
  exact mul_le_kstar hplus (kstar_le_kstar (mul_le_kstar hmark hplus))

/-- Grouped digits begin with a digit. -/
theorem headed_of_mem_groups {d : Char → Bool} {m : Text} (hm : m ∈ groups d) : Headed d m :=
  headed_of_mem_mul (headed_of_mem_mul headed_of_mem_oneChar) hm

/-! ### Grouped digits -/

section Grouped

variable {d : Char → Bool} {A : Language Char} {f : Recognizer Text}

theorem failsInPlace_grouped (recipe : Recipe f) (hplace : FailsInPlace f) :
    FailsInPlace (grouped f) :=
  hplace.orElse (Recipe.atomic (.bind (.satisfy _) fun _ => recipe)).failsInPlace

theorem headed_of_mem_underscored (hA : ∀ {m}, m ∈ A → Headed d m) {m : Text}
    (hm : m ∈ underscored A) : Headed (isGrouped d) m := by
  rw [underscored_eq] at hm
  exact headed_of_mem_add hA headed_of_marked hm

theorem decides_grouped (h : Decides f options fun m _ => m ∈ A) (hplace : FailsInPlace f)
    (hA : ∀ {m}, m ∈ A → Headed d m) (hd : d '_' = false) :
    Decides (grouped f) options fun m _ => m ∈ underscored A := by
  have hsecond : Decides (atomic (char '_' >>= fun _ => f)) options fun m _ =>
      m ∈ oneChar (· == '_') * A :=
    ((decides_satisfy _).andThen h).atomic.congr fun _ _ => sequel_mem_iff
  rw [underscored_eq]
  exact h.orElse_of_headed hplace hsecond hA headed_of_marked (eq_false_of_beq hd)

end Grouped

theorem avoids_isGrouped_iff {d : Char → Bool} {r : Text} :
    Avoids (isGrouped d) r ↔
      ¬StartsIn (underscored (oneChar d)) r ∧ Avoids (· == '_') r := by
  constructor
  · intro hr
    constructor
    · exact not_startsIn_of_avoids (headed_of_mem_underscored headed_of_mem_oneChar) hr
    · cases r with
      | nil => exact avoids_nil _
      | cons ch r =>
        rw [avoids_cons, isGrouped, Bool.or_eq_false_iff] at hr
        exact (avoids_cons _ ch r).mpr hr.2
  · rintro ⟨hstop, hmark⟩
    cases r with
    | nil => exact avoids_nil _
    | cons ch r =>
      -- A digit would begin a further word of the loop.
      rw [avoids_cons] at hmark ⊢
      rw [isGrouped, hmark, Bool.or_false, ← Bool.not_eq_true]
      rw [underscored_eq] at hstop
      exact fun hd => hstop ⟨[ch], r, rfl, Or.inl ⟨ch, hd, rfl⟩⟩

/-- **Grouped digits are cut off where the run of digits and underscores
ends.** -/
theorem decides_groupedDigits {d : Char → Bool} (hd : d '_' = false) :
    Decides (groupedDigits (satisfy d)) options fun m r =>
      m ∈ groups d ∧ Avoids (isGrouped d) r := by
  have hitem : Decides (grouped (satisfy d)) options _ :=
    decides_grouped (decides_satisfy d) (failsInPlace_satisfy d) headed_of_mem_oneChar hd
  have hdigits : Decides (many (grouped (satisfy d))) options _ :=
    hitem.many_mem (failsInPlace_grouped (.satisfy d) (failsInPlace_satisfy d))
      fun hm => (headed_of_mem_underscored headed_of_mem_oneChar hm).ne_nil
  -- The loop stops in front of an underscore too, if no digit comes after it;
  -- that is what the check at the end is for.
  refine ((decides_satisfy d).andThen (hdigits.andThen
    (decides_notFollowedBy (· == '_')))).atomic.congr fun m r => ?_
  rw [groups_eq, avoids_isGrouped_iff, Language.mem_mul]
  constructor
  · rintro ⟨m₁, _, rfl, hm₁, m₂, _, rfl, ⟨hm₂, hstop⟩, rfl, hr⟩
    rw [List.append_nil]
    exact ⟨⟨m₁, hm₁, m₂, hm₂, rfl⟩, hstop, hr⟩
  · rintro ⟨⟨m₁, hm₁, m₂, hm₂, rfl⟩, hstop, hr⟩
    exact ⟨m₁, m₂, rfl, hm₁, m₂, [], (List.append_nil m₂).symm, ⟨hm₂, hstop⟩, rfl, hr⟩

theorem decides_decimalDigits :
    Decides decimalDigits options fun m r =>
      m ∈ groups CharClass.decimalDigit.contains ∧
        Avoids (isGrouped CharClass.decimalDigit.contains) r :=
  decides_groupedDigits (by decide)

/-- **The cuts of hex numbers.** What follows must not be a hex digit or an
underscore. -/
def HexCut (m r : Text) : Prop :=
  m ∈ hexNumbers ∧ Avoids (isGrouped CharClass.hexDigit.contains) r

theorem HexCut.of_append {m r s : Text} (h : HexCut m (r ++ s)) : HexCut m r :=
  ⟨h.1, h.2.of_append⟩

theorem decides_hexNumber : Decides hexNumber options HexCut := by
  have hdigits : Decides (groupedDigits (charOf .hexDigit)) options _ :=
    decides_groupedDigits (by decide)
  refine ((decides_word "0x".toList).andThen hdigits).atomic.congr fun m r => ?_
  exact sequel_mem_and_iff

/-! ### Decimal numbers -/

/-- **The cuts of decimal numbers.** What follows must not be a digit or an
underscore, no exponent mark if there is no exponent yet, and no point if there
is neither an exponent nor a fraction. -/
def DecimalCut (m r : Text) : Prop :=
  m ∈ decimalNumbers ∧ Avoids (isGrouped CharClass.decimalDigit.contains) r ∧
    (m ∈ mantissas → Avoids ['e', 'E'].contains r) ∧
    (m ∈ groups CharClass.decimalDigit.contains → Avoids (· == '.') r)

theorem DecimalCut.of_append {m r s : Text} (h : DecimalCut m (r ++ s)) : DecimalCut m r :=
  ⟨h.1, h.2.1.of_append, fun hm => (h.2.2.1 hm).of_append, fun hm => (h.2.2.2 hm).of_append⟩

theorem decides_exponentDigits :
    Decides exponentDigits options fun m r =>
      m ∈ (1 + oneChar (· == '-')) * groups CharClass.decimalDigit.contains ∧
        Avoids (isGrouped CharClass.decimalDigit.contains) r := by
  have hsign : Decides (optionally (char '-')) options _ :=
    (decides_satisfy (· == '-')).optionally (Recipe.atomic (.satisfy _)).failsInPlace
  refine (hsign.andThen decides_decimalDigits).congr fun m r => ?_
  rw [Language.mem_mul]
  constructor
  · rintro ⟨m₁, m₂, rfl, hm₁ | ⟨-, rfl⟩, hm₂, hr⟩
    · exact ⟨⟨m₁, Or.inr hm₁, m₂, hm₂, rfl⟩, hr⟩
    · exact ⟨⟨[], Or.inl rfl, m₂, hm₂, rfl⟩, hr⟩
  · rintro ⟨⟨m₁, rfl | hm₁, m₂, hm₂, rfl⟩, hr⟩
    · -- The digits that follow do not begin with a minus sign.
      refine ⟨[], m₂, rfl, Or.inr ⟨?_, rfl⟩, hm₂, hr⟩
      refine uncut_iff_not_startsIn.mpr (not_startsIn_oneChar.mpr ?_)
      refine ((headed_of_mem_groups hm₂).append r).avoids fun ch hch => ?_
      rw [beq_eq_false_iff_ne]
      rintro rfl
      exact absurd hch (by decide)
    · exact ⟨m₁, m₂, rfl, Or.inl hm₁, hm₂, hr⟩

theorem groups_le_isGrouped (d : Char → Bool) : groups d ≤ (oneChar (isGrouped d))∗ :=
  groups_le (fun ch h => by rw [isGrouped, h, Bool.true_or]) (Bool.or_true _)

/-- Whether a character can occur in a decimal number without an exponent. -/
def isMantissaPart (ch : Char) : Bool :=
  isGrouped CharClass.decimalDigit.contains ch || ch == '.'

theorem mantissas_le : mantissas ≤ (oneChar isMantissaPart)∗ := by
  have hgroups : groups CharClass.decimalDigit.contains ≤ (oneChar isMantissaPart)∗ :=
    groups_le (fun ch h => by rw [isMantissaPart, isGrouped, h, Bool.true_or, Bool.true_or])
      (by decide)
  have hpoint : oneChar (· == '.') ≤ (oneChar isMantissaPart)∗ :=
    oneChar_le fun ch h => by rw [isMantissaPart, h, Bool.or_true]
  exact mul_le_kstar hgroups (one_add_le_kstar (mul_le_kstar hpoint hgroups))

theorem groups_le_mantissas : groups CharClass.decimalDigit.contains ≤ mantissas :=
  le_mul_of_one_le_right' le_self_add

/-- Hex numbers are made of hex digits, underscores and their mark. -/
theorem hexNumbers_le_kstar {q : Char → Bool}
    (hdigit : ∀ ch, CharClass.hexDigit.contains ch = true → q ch = true)
    (hmarks : ['0', 'x', '_'].all q = true) : hexNumbers ≤ (oneChar q)∗ := by
  rw [List.all_eq_true] at hmarks
  have hmark : ({"0x".toList} : Language Char) ≤ (oneChar q)∗ := by
    rintro m rfl
    exact mem_kstar_oneChar.mpr fun ch hch => hmarks ch (List.mem_append_left ['_'] hch)
  exact mul_le_kstar hmark (groups_le hdigit (hmarks '_' (by decide)))

/-- Decimal numbers are made of digits, underscores and the marks of their
parts. -/
theorem decimalNumbers_le_kstar {q : Char → Bool}
    (hdigit : ∀ ch, CharClass.decimalDigit.contains ch = true → q ch = true)
    (hmarks : ['_', '.', 'e', 'E', '-'].all q = true) :
    decimalNumbers ≤ (oneChar q)∗ := by
  rw [List.all_eq_true] at hmarks
  have hdigits : groups CharClass.decimalDigit.contains ≤ (oneChar q)∗ :=
    groups_le hdigit (hmarks '_' (by decide))
  have hmark : ∀ ch ∈ ['_', '.', 'e', 'E', '-'], oneChar (· == ch) ≤ (oneChar q)∗ :=
    fun ch hch => oneChar_le fun ch' h => beq_iff_eq.mp h ▸ hmarks ch hch
  have hexponentMark : oneChar ['e', 'E'].contains ≤ (oneChar q)∗ := by
    refine oneChar_le fun ch h => hmarks ch ?_
    obtain rfl | rfl : ch = 'e' ∨ ch = 'E' := by simpa using h
    · decide
    · decide
  have hfraction : fractions ≤ (oneChar q)∗ := mul_le_kstar (hmark '.' (by decide)) hdigits
  have hexponent : exponents ≤ (oneChar q)∗ :=
    mul_le_kstar hexponentMark
      (mul_le_kstar (one_add_le_kstar (hmark '-' (by decide))) hdigits)
  exact mul_le_kstar (mul_le_kstar hdigits (one_add_le_kstar hfraction))
    (one_add_le_kstar hexponent)

/-- The three parts of a decimal number. -/
theorem mem_decimalNumbers {m : Text} :
    m ∈ decimalNumbers ↔ ∃ a f e, m = a ++ (f ++ e) ∧ a ∈ groups CharClass.decimalDigit.contains ∧
      (f = [] ∨ f ∈ fractions) ∧ (e = [] ∨ e ∈ exponents) := by
  rw [decimalNumbers, Language.mem_mul]
  constructor
  · rintro ⟨_, hm, e, he, rfl⟩
    obtain ⟨a, ha, f, hf, rfl⟩ := Language.mem_mul.mp hm
    exact ⟨a, f, e, List.append_assoc .., ha, hf, he⟩
  · rintro ⟨a, f, e, rfl, ha, hf, he⟩
    exact ⟨a ++ f, Language.append_mem_mul ha hf, e, he, List.append_assoc ..⟩

section Parts

variable {a f e : Text} (ha : a ∈ groups CharClass.decimalDigit.contains)
  (hf : f = [] ∨ f ∈ fractions) (he : e = [] ∨ e ∈ exponents)

include ha hf he in
/-- A decimal number is a mantissa if it has no exponent. -/
theorem append_mem_mantissas_iff : a ++ (f ++ e) ∈ mantissas ↔ e = [] := by
  constructor
  · intro hm
    refine he.resolve_right fun he => ?_
    have hmark : ∀ ch, ['e', 'E'].contains ch = true → isMantissaPart ch = false :=
      eq_false_of_contains (by decide)
    refine notMem_of_marked hmark mantissas_le he (a ++ f) [] ?_
    rwa [List.append_nil, List.append_assoc]
  · rintro rfl
    rw [List.append_nil]
    exact Language.append_mem_mul ha hf

include ha hf he in
/-- A decimal number is a group of digits if it has neither fraction nor
exponent. -/
theorem append_mem_groups_iff :
    a ++ (f ++ e) ∈ groups CharClass.decimalDigit.contains ↔ f = [] ∧ e = [] := by
  constructor
  · intro hm
    refine ⟨hf.resolve_right fun hf => ?_,
      (append_mem_mantissas_iff ha hf he).mp (groups_le_mantissas hm)⟩
    have hmark : ∀ ch, (ch == '.') = true →
        isGrouped CharClass.decimalDigit.contains ch = false := eq_false_of_beq (by decide)
    exact notMem_of_marked hmark (groups_le_isGrouped _) hf a e hm
  · rintro ⟨rfl, rfl⟩
    rwa [List.append_nil, List.append_nil]

include ha hf he in
theorem decimalCut_append_iff {r : Text} :
    DecimalCut (a ++ (f ++ e)) r ↔ Avoids (isGrouped CharClass.decimalDigit.contains) r ∧
      (e = [] → Avoids ['e', 'E'].contains r) ∧ (f = [] ∧ e = [] → Avoids (· == '.') r) := by
  have hm : a ++ (f ++ e) ∈ decimalNumbers := mem_decimalNumbers.mpr ⟨a, f, e, rfl, ha, hf, he⟩
  rw [DecimalCut, append_mem_mantissas_iff ha hf he, append_mem_groups_iff ha hf he]
  exact and_iff_right hm

end Parts

/-- **A decimal number is cut off where it can be neither continued nor
spoiled.** -/
theorem decides_decimalNumber : Decides decimalNumber options DecimalCut := by
  refine (decides_decimalDigits.andThen ((decides_marked decides_decimalDigits).andThen
    (decides_marked decides_exponentDigits))).atomic.congr fun m r => ?_
  constructor
  · rintro ⟨a, _, rfl, ⟨ha, hra⟩, f, e, rfl, hf, he⟩
    rw [decimalCut_append_iff ha (hf.symm.imp And.left And.left) (he.symm.imp And.left And.left)]
    -- What follows is seen by the last of the parts that are there.
    rcases he with ⟨he, hr⟩ | ⟨rfl, hmark⟩
    · have hne : e ≠ [] := (headed_of_marked he).ne_nil
      exact ⟨hr, fun h => absurd h hne, fun h => absurd h.2 hne⟩
    · rcases hf with ⟨hf, hr⟩ | ⟨rfl, hpoint⟩
      · exact ⟨hr, fun _ => hmark, fun h => absurd h.1 (headed_of_marked hf).ne_nil⟩
      · exact ⟨hra, fun _ => hmark, fun _ => hpoint⟩
  · intro hcut
    obtain ⟨a, f, e, rfl, ha, hf, he⟩ := mem_decimalNumbers.mp hcut.1
    obtain ⟨hr, hmark, hpoint⟩ := (decimalCut_append_iff ha hf he).mp hcut
    have hexponent : Avoids (isGrouped CharClass.decimalDigit.contains) (e ++ r) :=
      avoids_optional (eq_false_of_contains (by decide)) he fun _ => hr
    -- Each part sees the parts after it, and these begin with their marks.
    refine ⟨a, f ++ e, rfl, ⟨ha, ?_⟩, f, e, rfl, ?_, ?_⟩
    · rw [List.append_assoc]
      exact avoids_optional (eq_false_of_beq (by decide)) hf fun _ => hexponent
    · rcases hf with rfl | hf
      · refine Or.inr ⟨rfl, ?_⟩
        exact avoids_optional (eq_false_of_contains (by decide)) he
          fun he => hpoint ⟨rfl, he⟩
      · exact Or.inl ⟨hf, hexponent⟩
    · rcases he with rfl | he
      · exact Or.inr ⟨rfl, hmark rfl⟩
      · exact Or.inl ⟨he, hr⟩

end SolidityTokens
