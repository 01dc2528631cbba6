import SolidityTokens.Proofs.Text.Boundaries
import SolidityTokens.Recognizer.Character

/-!
# Fixed words

A word is looked for one character at a time, and given back as a whole at the
first that differs or is missing. What this amounts to is a test for a prefix,
of characters as well as of bytes. What it leaves on record tells how far the
comparison got: up to the end of **the longest prefix that the word and the text
have in common** (`SolidityTokens.Recognizer.run_spelled`), in whole characters,
even where the bytes of the next two characters begin alike.
-/

namespace SolidityTokens

/-! ### Common prefixes -/

namespace Text

/-- The characters that two texts begin with alike. -/
def commonPrefix : Text → Text → Text
  | ch :: w, ch' :: text => if ch = ch' then ch :: commonPrefix w text else []
  | _, _ => []

/-- **A text is the longest common prefix of two texts.** -/
structure IsLongestCommonPrefix (m w text : Text) : Prop where
  /-- The first text begins with it. -/
  isPrefix_left : m <+: w
  /-- So does the second. -/
  isPrefix_right : m <+: text
  /-- It begins with everything that both of them begin with. -/
  longest : ∀ x, x <+: w → x <+: text → x <+: m

theorem isLongestCommonPrefix_commonPrefix (w text : Text) :
    IsLongestCommonPrefix (commonPrefix w text) w text := by
  fun_induction commonPrefix w text with
  | case1 w ch text ih =>
    refine ⟨List.cons_prefix_cons.mpr ⟨rfl, ih.isPrefix_left⟩,
      List.cons_prefix_cons.mpr ⟨rfl, ih.isPrefix_right⟩, fun x hw ht => ?_⟩
    cases x with
    | nil => exact List.nil_prefix
    | cons ch' x =>
      obtain ⟨hhead, hw⟩ := List.cons_prefix_cons.mp hw
      obtain ⟨-, ht⟩ := List.cons_prefix_cons.mp ht
      exact List.cons_prefix_cons.mpr ⟨hhead, ih.longest x hw ht⟩
  | case2 ch w ch' text hne =>
    refine ⟨List.nil_prefix, List.nil_prefix, fun x hw ht => ?_⟩
    cases x with
    | nil => exact List.nil_prefix
    | cons ch'' x =>
      obtain ⟨rfl, -⟩ := List.cons_prefix_cons.mp hw
      obtain ⟨rfl, -⟩ := List.cons_prefix_cons.mp ht
      exact absurd rfl hne
  | case3 w text hempty =>
    refine ⟨List.nil_prefix, List.nil_prefix, fun x hw ht => ?_⟩
    cases w with
    | nil => exact hw
    | cons ch w =>
      cases text with
      | nil => exact ht
      | cons ch' text => exact (hempty ch w ch' text rfl rfl).elim

/-- Two texts have one longest common prefix. -/
theorem IsLongestCommonPrefix.eq_commonPrefix {m w text : Text}
    (hm : IsLongestCommonPrefix m w text) : m = commonPrefix w text := by
  have hcommon := isLongestCommonPrefix_commonPrefix w text
  have hle : m <+: commonPrefix w text := hcommon.longest m hm.isPrefix_left hm.isPrefix_right
  have hge : commonPrefix w text <+: m :=
    hm.longest _ hcommon.isPrefix_left hcommon.isPrefix_right
  exact hle.eq_of_length_le hge.length_le

/-- What begins with a word has the whole word in common with it. -/
theorem commonPrefix_eq_left {w text : Text} (h : w <+: text) : commonPrefix w text = w :=
  (IsLongestCommonPrefix.eq_commonPrefix ⟨List.prefix_rfl, h, fun _ hw _ => hw⟩).symm

end Text

/-! ### Reading a word -/

namespace Recognizer

/-- **Spelling a word reads what it has in common with the text**, and finds it
if that is all of it. -/
theorem run_spelled (w : Text) (c : Cursor) :
    (spelled w).run c =
      ⟨if w <+: c.rest then some () else none, c.advance (w.commonPrefix c.rest).length, []⟩ := by
  induction w generalizing c with
  | nil => simp [spelled, Text.commonPrefix]
  | cons ch w ih =>
    rw [spelled, run_bind, char]
    cases hrest : c.rest with
    | nil =>
      rw [run_satisfy_nil _ c hrest]
      simp [Text.commonPrefix]
    | cons ch' rest =>
      rw [run_satisfy_cons _ c hrest]
      by_cases hch : ch' = ch
      · subst hch
        have hnext : (c.advance 1).rest = rest := by rw [Cursor.advance, hrest]; rfl
        simp [Text.commonPrefix, ih, hnext, Cursor.advance_advance, Nat.add_comm]
      · simp [Text.commonPrefix, hch, Ne.symm hch]

/-- A word that comes next is found. -/
theorem run_word_of_isPrefix {w : Text} {c : Cursor} (h : w <+: c.rest) :
    (word w).run c = ⟨some w, c.advance w.length, []⟩ := by
  rw [word, run_atomic, run_spelled, if_pos h, Text.commonPrefix_eq_left h]
  dsimp only
  rw [Cursor.textSince_advance, ← List.prefix_iff_eq_take.mp h]

/-- A word that does not come next is given back, as far as it was read. -/
theorem run_word_of_not_isPrefix {w : Text} {c : Cursor} (h : ¬w <+: c.rest) :
    (word w).run c =
      ⟨none, c, revertEvents c.position (c.position + Text.size (w.commonPrefix c.rest))⟩ := by
  have htake := List.prefix_iff_eq_take.mp
    (Text.isLongestCommonPrefix_commonPrefix w c.rest).isPrefix_right
  rw [word, run_atomic, run_spelled, if_neg h]
  dsimp only
  rw [Cursor.position_advance, ← htake]
  rfl

/-- Going back over a text is recorded unless the text is empty. -/
theorem revertEvents_add_size (position : Nat) (m : Text) :
    revertEvents position (position + Text.size m) =
      if m = [] then [] else [.reverted position (position + Text.size m)] := by
  simp only [revertEvents, Nat.add_eq_left, Text.size_eq_zero_iff]

end Recognizer

open Recognizer

/-- **Looking for a word is testing for a prefix**, at every place of every text
and for every word:

* the word is found, and the cursor moves behind it, exactly if the rest of the
  text begins with it, in characters or, what is the same, in bytes; nothing is
  given back then;
* otherwise nothing is found and the cursor stays where it was. What is recorded
  is one move back to it, from the end of the longest prefix in whole characters
  that the word and the rest of the text have in common, unless that prefix is
  empty. -/
theorem word_is_prefix_test (w : Text) (c : Cursor) :
    (((word w).run c).value = some w ∧
      ((word w).run c).cursor.position = c.position + Text.size w ↔ w <+: c.rest) ∧
    (w <+: c.rest ↔ w.utf8 <+: c.rest.utf8) ∧
    (w <+: c.rest → ((word w).run c).cursor.text = c.text ∧ ((word w).run c).events = []) ∧
    (¬w <+: c.rest → ((word w).run c).value = none ∧ ((word w).run c).cursor = c ∧
      ∃ m, Text.IsLongestCommonPrefix m w c.rest ∧ ((word w).run c).events =
        if m = [] then [] else [.reverted c.position (c.position + Text.size m)]) := by
  refine ⟨?_, Text.utf8_isPrefix_iff.symm, fun h => ?_, fun h => ?_⟩
  · by_cases h : w <+: c.rest
    · rw [run_word_of_isPrefix h]
      refine iff_of_true ⟨rfl, ?_⟩ h
      rw [Cursor.position_advance, ← List.prefix_iff_eq_take.mp h]
    · rw [run_word_of_not_isPrefix h]
      exact iff_of_false (fun hfound => Option.some_ne_none w hfound.1.symm) h
  · rw [run_word_of_isPrefix h]
    exact ⟨c.text_advance w.length, rfl⟩
  · rw [run_word_of_not_isPrefix h, revertEvents_add_size]
    exact ⟨rfl, rfl, _, Text.isLongestCommonPrefix_commonPrefix w c.rest, rfl⟩

/-- Two characters of which the first bytes are the same: the comparison ends in
front of them, after one byte and not after two. -/
theorem word_is_prefix_test_shared_byte :
    let c : Cursor := ⟨['€'], "xè!".toList, {}⟩
    ¬"xé".toList <+: c.rest ∧ "xè".toList <+: c.rest ∧
      ((word "xé".toList).run c).value = none ∧
      ((word "xé".toList).run c).events = [.reverted 3 4] ∧
      ((word "xè".toList).run c).value = some "xè".toList ∧
      ((word "xè".toList).run c).cursor.position = 6 ∧ ((word "xè".toList).run c).events = [] := by
  intro c
  have hother : ¬"xé".toList <+: c.rest := by decide
  have hcomes : "xè".toList <+: c.rest := by decide
  obtain ⟨hvalue, hcursor, m, hm, hevents⟩ := (word_is_prefix_test "xé".toList c).2.2.2 hother
  obtain ⟨hfound, -, hsilent, -⟩ := word_is_prefix_test "xè".toList c
  obtain rfl : m = ['x'] := hm.eq_commonPrefix.trans (by decide)
  exact ⟨hother, hcomes, hvalue, hevents, (hfound.mpr hcomes).1, (hfound.mpr hcomes).2,
    (hsilent hcomes).2⟩

end SolidityTokens
