import SolidityTokens.Proofs.Grammar.Cuts
import SolidityTokens.Proofs.Recognizer.Iteration

/-!
# Two ways of reading strings

The grammar has two ways of saying the same thing, three times over.

* Plain strings one after the other are read segment by segment, and each
  segment is looked for first as one that is not empty and then as an empty one.
  **There is no difference to looking for any segment at once**: an unterminated
  or malformed segment is refused by both, and a segment that is found is found
  as a whole, so the two ways also agree on where the next one begins.
* Adjacent hex strings are a rule of the grammar, which may find nothing, and a
  kind of literal, which may not. **The literal is what the rule finds, if that
  is something** (`SolidityTokens.Recognizer.FindsNonempty`), and the same holds
  of unicode strings.

The second point is a law of loops, for every body that gives input back and
reads something wherever it matches (`SolidityTokens.many1_findsNonempty_many`).
-/

namespace SolidityTokens

open Recognizer Grammar

/-! ### At least one part -/

/-- **A recognizer finds what another one finds, unless that is nothing**, and
it ends in the same place. -/
structure Recognizer.FindsNonempty (f g : Recognizer Text) (c : Cursor) : Prop where
  /-- What is found is what the other one finds, and it is not empty. -/
  value_eq_some_iff : ∀ m, (f.run c).value = some m ↔ (g.run c).value = some m ∧ m ≠ []
  /-- Nothing is found where the other one finds the empty text. -/
  value_eq_none_iff : (f.run c).value = none ↔ (g.run c).value = some []
  /-- The cursor ends in the same place. -/
  cursor_eq : (f.run c).cursor = (g.run c).cursor

section Loop

variable {α : Type} {f : Recognizer α}

/-- A loop that goes on finds something. -/
theorem value_many_ne_nil (hf : Forward f) {c : Cursor} (hgo : goesOn c (f.run c)) :
    ((many f).run c).value ≠ some [] := by
  obtain ⟨m, hm⟩ := forward_iff_exists_reads.mp hf c
  have hne : m ≠ [] := hm.length_rest_lt_iff.mp (goesOn_iff.mp hgo).2
  have hreads := hm.trans (hf.settles_many (f.run c).cursor)
  rw [value_many, cursor_many_of_goesOn hgo, hreads.textSince_eq]
  exact fun h => hne (List.append_eq_nil_iff.mp (Option.some.inj h)).1

/-- **At least one run finds what any number of runs find, unless that is
nothing.** -/
theorem many1_findsNonempty_many (hf : OnlyAdvances f) (hrestores : Restores f)
    (hprogress : Progresses f) (c : Cursor) : (many1 f).FindsNonempty (many f) c := by
  cases hvalue : (f.run c).value with
  | none =>
    obtain ⟨hnone, hplace⟩ := run_many1_of_none hf hrestores hvalue
    obtain ⟨hnil, hplace'⟩ := run_many_of_none hf hrestores hvalue
    refine ⟨fun m => ?_, iff_of_true hnone hnil, hplace.trans hplace'.symm⟩
    rw [hnone, hnil]
    refine iff_of_false (Option.some_ne_none m).symm ?_
    rintro ⟨hm, hne⟩
    exact hne (Option.some.inj hm).symm
  | some a =>
    have hsome := Option.isSome_iff_exists.mpr ⟨a, hvalue⟩
    have hne := value_many_ne_nil hf.forward
      (hf.forward.goesOn_iff_position.mpr ⟨hsome, hprogress c hsome⟩)
    have halike := many1_readsAlike_many hf hrestores hsome
    refine ⟨fun m => ?_, ?_, halike.cursor_eq⟩
    · rw [halike.value_eq]
      refine ⟨fun hm => ⟨hm, ?_⟩, fun hm => hm.1⟩
      rintro rfl
      exact hne hm
    · rw [halike.value_eq]
      exact iff_of_false (Option.some_ne_none _) hne

end Loop

/-! ### Plain strings -/

/-- **A segment is not empty or else empty.** -/
theorem nonEmptyString_orElse_readsAlike (c : Cursor) :
    ReadsAlike (nonEmptyString <|> emptyString) quotedString c :=
  Decides.readsAlike decides_nonEmptyString_orElse_emptyString decides_quotedString
    (Rule.nonEmptyString.settles.orElse Rule.emptyString.settles) Rule.quotedString.settles
    (Rule.nonEmptyString.failsInPlace.orElse Rule.emptyString.failsInPlace)
    Rule.quotedString.failsInPlace

/-! ### Tagged strings -/

theorem Rule.restores (rule : Rule) : Restores rule.recognizer := fun c hnone =>
  congrArg Cursor.position (rule.failsInPlace c hnone)

theorem progresses_hexString : Progresses hexString :=
  progresses_of_decides (fun _ => decides_hexString) fun h => (HexStringCut.headed h).ne_nil

theorem progresses_unicodeString : Progresses unicodeString :=
  progresses_of_decides (fun _ => decides_unicodeString) fun h =>
    (UnicodeStringCut.headed h).ne_nil

/-! ### The main result -/

/-- **Two ways of reading strings agree**, at every place of every text and
under any options:

* looking for a plain string that is not empty, and then for an empty one, is
  looking for a plain string, once or one after the other;
* a hex string literal is what the rule for adjacent hex strings finds, if it
  finds something;
* and so is a unicode string literal. -/
theorem strings_read_two_ways (c : Cursor) :
    ReadsAlike (nonEmptyString <|> emptyString) quotedString c ∧
    ReadsAlike stringLiteral (many1 quotedString) c ∧
    (literalOf .hexString).FindsNonempty hexStringLiteral c ∧
    (literalOf .unicodeString).FindsNonempty unicodeStringLiteral c := by
  refine ⟨nonEmptyString_orElse_readsAlike c, .many1 nonEmptyString_orElse_readsAlike c, ?_, ?_⟩
  · exact many1_findsNonempty_many Rule.hexString.recipe.onlyAdvances Rule.hexString.restores
      progresses_hexString c
  · exact many1_findsNonempty_many Rule.unicodeString.recipe.onlyAdvances
      Rule.unicodeString.restores progresses_unicodeString c

/-- A segment that is cut short ends the reading in the same place, whether it
comes first or later. -/
example : ["hex\"00\"hex\"0", "hex\"0"].map (fun text =>
    let c := Cursor.atStart text.toList {}
    (((literalOf .hexString).run c).value, (hexStringLiteral.run c).value)) =
      [(some "hex\"00\"".toList, some "hex\"00\"".toList), (none, some [])] := by
  decide +kernel

end SolidityTokens
