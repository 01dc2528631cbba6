import SolidityTokens.Proofs.Grammar.Rematch

/-!
# Whole texts, byte for byte

When a text is not exactly one token, the error counts the bytes of the match
and the bytes left over. The first number is taken from what the recognizer
answered with, the second from where it left the cursor, and nothing makes the
two belong together: they do because what settles answers with what it read.

The error also points at a token. The text up to where the match ends is
accepted on its own, by the same recognizer and under the same options, if what
it looks at behind the match is never something that has to be there. This is a
condition on the cuts it decides
(`SolidityTokens.Recognizer.Decides.accountsFor`), and all rules meet it
(`SolidityTokens.Rule.Cuts.trim`).
-/

namespace SolidityTokens

open Recognizer Grammar

/-! ### Verdicts -/

/-- **The verdict on a text accounts for all of it**, whether it is accepted or
not. -/
structure Recognizer.AccountsFor (f : Recognizer Text) (text : Text) (options : Options) :
    Prop where
  /-- A text is accepted as a whole. -/
  eq_of_ok : ∀ m, f.recognizeWhole text options = .ok m → m = text
  /-- An incomplete match ends inside the text, at a boundary, the bytes on both
  sides are counted, and what comes before it is accepted on its own. -/
  of_incomplete : ∀ matched remaining,
    f.recognizeWhole text options = .error (.incomplete matched remaining) →
      0 < remaining ∧ matched + remaining = Text.size text ∧ text.IsBoundary matched ∧
        ∃ front, Span.slice? ⟨0, matched⟩ text = some front ∧
          f.recognizeWhole front options = .ok front
  /-- There is no match if the recognizer fails at the beginning, and only
  then. -/
  noMatch_iff : f.recognizeWhole text options = .error .noMatch ↔
    (f.run (.atStart text options)).value = none

/-- **A recognizer accounts for every text** if it settles, and cuts off in
front of nothing what it cuts off in front of something. -/
theorem Recognizer.Decides.accountsFor {f : Recognizer Text} {options : Options}
    {L : Text → Text → Prop} (h : Decides f options L) (hf : Settles f)
    (htrim : ∀ {m r}, L m r → L m []) (text : Text) : f.AccountsFor text options where
  eq_of_ok m hm := ((h.recognizeWhole_eq_ok_iff hf).mp hm).1
  of_incomplete := by
    intro matched remaining hverdict
    obtain ⟨m, hm, hrest, rfl, rfl⟩ := recognizeWhole_eq_incomplete_iff.mp hverdict
    -- The answer and the cursor come from one reading, so the two numbers
    -- belong together.
    have hreads := hf.reads hm
    have htext : text = m ++ (f.run (.atStart text options)).cursor.rest := hreads.rest_eq
    have hmatched : (f.run (.atStart text options)).cursor.position = Text.size m := by
      rw [hreads.position_eq, Cursor.position_atStart, Nat.zero_add]
    refine ⟨Nat.pos_of_ne_zero (mt Text.size_eq_zero_iff.mp hrest), ?_,
      ⟨m, _, htext, rfl⟩, m, ?_, ?_⟩
    · rw [← Text.size_append, ← htext]
    · have hslice := hreads.slice?_eq
      rwa [hmatched, Cursor.position_atStart, Cursor.text_atStart] at hslice
    · obtain ⟨r, -, hcut⟩ := h.cut_of_value hf hm
      exact (h.recognizeWhole_eq_ok_iff hf).mpr ⟨rfl, htrim hcut⟩
  noMatch_iff := recognizeWhole_eq_noMatch_iff

/-! ### Loops -/

/-- A loop always matches, if only the empty text. -/
theorem recognizeWhole_many_ne_noMatch {α : Type} (f : Recognizer α) (text : Text)
    (options : Options) : (many f).recognizeWhole text options ≠ .error .noMatch := by
  rw [Ne, recognizeWhole_eq_noMatch_iff, run_many]
  exact Option.some_ne_none _

/-! ### The main result -/

/-- **Every byte is accounted for**, by every rule and every class of
characters, in every text and under any options; and where any number of strings
is looked for, there is always a match. -/
theorem recognizeWhole_accounts_for_text (text : Text) (options : Options) :
    (∀ rule : Rule, rule.recognizer.AccountsFor text options) ∧
    (∀ charClass : CharClass, (charOf charClass).AccountsFor text options) ∧
    Rule.hexStringLiteral.recognizer.recognizeWhole text options ≠ .error .noMatch ∧
    Rule.unicodeStringLiteral.recognizer.recognizeWhole text options ≠ .error .noMatch := by
  refine ⟨fun rule => ?_, fun charClass => ?_, recognizeWhole_many_ne_noMatch _ text options,
    recognizeWhole_many_ne_noMatch _ text options⟩
  · exact rule.decides.accountsFor rule.settles Rule.Cuts.trim text
  · exact (decides_satisfy _).accountsFor (settles_satisfy _) id text

/-- A hex number that is spoiled by a character of two bytes: the match is the
digit in front of the mark, and it is a number on its own. -/
theorem recognizeWhole_accounts_for_text_spoiled :
    let number := Rule.numberLiteral.recognizer
    number.recognizeWhole "0x1_é".toList {} = .error (.incomplete 1 5) ∧
      1 + 5 = Text.size "0x1_é".toList ∧ Text.IsBoundary "0x1_é".toList 1 ∧
      ∃ front, Span.slice? ⟨0, 1⟩ "0x1_é".toList = some front ∧
        number.recognizeWhole front {} = .ok front := by
  intro number
  have hverdict : number.recognizeWhole "0x1_é".toList {} = .error (.incomplete 1 5) := by
    decide +kernel
  obtain ⟨-, haccounted⟩ :=
    ((recognizeWhole_accounts_for_text "0x1_é".toList {}).1 .numberLiteral).of_incomplete _ _
      hverdict
  exact ⟨hverdict, haccounted⟩

end SolidityTokens
