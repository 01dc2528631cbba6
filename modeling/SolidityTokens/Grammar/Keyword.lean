import SolidityTokens.Grammar.Word

/-!
# Keywords

The names of the sized elementary types, and the units that can follow a number.
A keyword is a whole identifier: it is read as one, and given back if it is not
in the table, so `uint2567` is not `uint256` followed by a digit.
-/

namespace SolidityTokens

/-- The tables of keywords. -/
inductive Keyword where
  /-- The types `uint`, `uint8`, …, `uint256`. -/
  | unsignedInteger
  /-- The types `int`, `int8`, …, `int256`. -/
  | signedInteger
  /-- The types `bytes1`, …, `bytes32`. -/
  | fixedBytes
  /-- Units of currency and of time. -/
  | numberUnit
deriving DecidableEq, Repr

namespace Keyword

/-- The tables in their fixed order. -/
def all : List Keyword := [unsignedInteger, signedInteger, fixedBytes, numberUnit]

/-- The tables that name types, in the order in which they are tried. -/
def elementaryTypes : List Keyword := [unsignedInteger, signedInteger, fixedBytes]

/-- The name of a table in messages. -/
def name : Keyword → String
  | unsignedInteger => "unsigned integer type"
  | signedInteger => "signed integer type"
  | fixedBytes => "fixed bytes type"
  | numberUnit => "number unit"

/-- The words of a table. -/
def words : Keyword → List String
  | unsignedInteger =>
    ["uint",
      "uint8", "uint16", "uint24", "uint32", "uint40", "uint48", "uint56", "uint64",
      "uint72", "uint80", "uint88", "uint96", "uint104", "uint112", "uint120", "uint128",
      "uint136", "uint144", "uint152", "uint160", "uint168", "uint176", "uint184", "uint192",
      "uint200", "uint208", "uint216", "uint224", "uint232", "uint240", "uint248", "uint256"]
  | signedInteger =>
    ["int",
      "int8", "int16", "int24", "int32", "int40", "int48", "int56", "int64",
      "int72", "int80", "int88", "int96", "int104", "int112", "int120", "int128",
      "int136", "int144", "int152", "int160", "int168", "int176", "int184", "int192",
      "int200", "int208", "int216", "int224", "int232", "int240", "int248", "int256"]
  | fixedBytes =>
    ["bytes1", "bytes2", "bytes3", "bytes4", "bytes5", "bytes6", "bytes7", "bytes8",
      "bytes9", "bytes10", "bytes11", "bytes12", "bytes13", "bytes14", "bytes15", "bytes16",
      "bytes17", "bytes18", "bytes19", "bytes20", "bytes21", "bytes22", "bytes23", "bytes24",
      "bytes25", "bytes26", "bytes27", "bytes28", "bytes29", "bytes30", "bytes31", "bytes32"]
  | numberUnit =>
    ["wei", "gwei", "ether", "seconds", "minutes", "hours", "days", "weeks", "years"]

/-- The words of a table in alphabetical order. -/
def sortedWords (keyword : Keyword) : List String :=
  keyword.words.mergeSort fun a b => decide (a ≤ b)

/-- Whether a text is one of the words of a table. -/
def contains (keyword : Keyword) (text : Text) : Bool :=
  (keyword.words.map String.toList).contains text

end Keyword

namespace Grammar

open Recognizer

/-- **A word of a table**: an identifier that is in it. -/
def keyword (table : Keyword) : Recognizer Text :=
  atomic do
    let found ← identifier
    guard (table.contains found)

/-- A word of the first of several tables that has it, with its table. -/
def keywordAmong (tables : List Keyword) : Recognizer (Keyword × Text) :=
  firstOf (tables.map fun table => do
    let found ← keyword table
    return (table, found))

/-- The name of a sized elementary type, with its table. -/
def elementaryType : Recognizer (Keyword × Text) := keywordAmong Keyword.elementaryTypes

end Grammar

end SolidityTokens
