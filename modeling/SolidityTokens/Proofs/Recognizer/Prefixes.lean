import Mathlib.Data.List.Infix
import Mathlib.Data.List.TakeWhile
import SolidityTokens.Proofs.Recognizer.Decision

/-!
# What is found at a place

The relation that a recognizer decides speaks of all texts at once. At a given
cursor it singles out prefixes of what is left to read: those that the relation
admits in front of what comes after them. A recognizer that decides the relation
**finds the one prefix that is admitted**, or nothing if none is
(`SolidityTokens.Recognizer.Decides.findsCut`).

Often the relation asks for a property of the match and for the end of a run of
characters. Then there is only one candidate, the longest run there is, and the
recognizer **finds that run or nothing**; it never makes do with a part of it
(`SolidityTokens.Recognizer.Decides.findsRun`).
-/

namespace SolidityTokens.Recognizer

variable {α : Type} {options : Options} {L : Text → Text → Prop}

/-! ### Admitted prefixes -/

theorem Decides.value_eq_none_iff {f : Recognizer α} (h : Decides f options L) {read t : Text} :
    (f.run ⟨read, t, options⟩).value = none ↔ Uncut L t := by
  constructor
  · rintro hnone m r rfl hcut
    have hsome := (h.takes hcut read).1
    rw [hnone] at hsome
    exact Bool.false_ne_true hsome
  · exact fun huncut => h.refuses huncut read

/-- **A recognizer finds the one prefix that a relation admits** at a cursor, in
front of what comes after it, and nothing where there is none. -/
structure FindsCut (f : Recognizer Text) (L : Text → Text → Prop) (c : Cursor) : Prop where
  /-- At most one prefix of what is left is admitted. -/
  unique : ∀ {m r m' r' : Text}, c.rest = m ++ r → L m r → c.rest = m' ++ r' → L m' r' → m = m'
  /-- That one is found, and nothing else. -/
  value_eq_some_iff : ∀ m, (f.run c).value = some m ↔ ∃ r, c.rest = m ++ r ∧ L m r
  /-- Nothing is found only where no prefix is admitted. -/
  value_eq_none_iff : (f.run c).value = none ↔ ∀ m r, c.rest = m ++ r → ¬L m r
  /-- The cursor moves behind what was found. -/
  position_eq : (f.run c).cursor.position = c.position + Text.size ((f.run c).value.getD [])

theorem Decides.findsCut {f : Recognizer Text} {c : Cursor} (h : Decides f c.options L)
    (hf : Settles f) : f.FindsCut L c where
  unique hrest hcut hrest' hcut' := (h.unique hcut hcut' (hrest.symm.trans hrest')).1
  value_eq_some_iff m := by
    constructor
    · exact fun hm => h.cut_of_value hf hm
    · rintro ⟨r, hrest, hcut⟩
      obtain ⟨read, t, options⟩ := c
      obtain rfl : t = m ++ r := hrest
      exact h.value_eq hf hcut
  value_eq_none_iff := h.value_eq_none_iff
  position_eq := (hf c).position_eq

/-! ### Longest runs -/

section Longest

variable {p : Char → Bool}

theorem avoids_dropWhile (p : Char → Bool) (t : Text) : Avoids p (t.dropWhile p) := by
  have hhead := List.head?_dropWhile_not p t
  rw [Avoids]
  cases h : (t.dropWhile p).head? with
  | none => rfl
  | some ch =>
    rw [h] at hhead
    exact hhead

theorem takeWhile_eq_nil_of_avoids {r : Text} (hr : Avoids p r) : r.takeWhile p = [] := by
  cases r with
  | nil => rfl
  | cons ch r => rw [List.takeWhile_cons, (avoids_cons p ch r).mp hr]; rfl

theorem dropWhile_eq_self_of_avoids {r : Text} (hr : Avoids p r) : r.dropWhile p = r := by
  cases r with
  | nil => rfl
  | cons ch r => rw [List.dropWhile_cons, (avoids_cons p ch r).mp hr]; rfl

theorem takeWhile_append_of_avoids {m r : Text} (hm : ∀ ch ∈ m, p ch = true) (hr : Avoids p r) :
    (m ++ r).takeWhile p = m := by
  rw [List.takeWhile_append_of_pos hm, takeWhile_eq_nil_of_avoids hr, List.append_nil]

theorem dropWhile_append_of_avoids {m r : Text} (hm : ∀ ch ∈ m, p ch = true) (hr : Avoids p r) :
    (m ++ r).dropWhile p = r := by
  rw [List.dropWhile_append_of_pos hm, dropWhile_eq_self_of_avoids hr]

end Longest

/-- **A recognizer finds a whole run or nothing** at a cursor: after the text
`tag`, the longest run of characters with the property `p`, if that run has the
property `P`. -/
structure FindsRun (f : Recognizer Text) (tag : Text) (p : Char → Bool) (P : Text → Prop)
    (c : Cursor) : Prop where
  /-- A run with the property is found as a whole, after the tag. -/
  value_eq_some : ∀ t, c.rest = tag ++ t → P (t.takeWhile p) →
    (f.run c).value = some (tag ++ t.takeWhile p)
  /-- Of a run without it nothing is found. -/
  value_eq_none : ∀ t, c.rest = tag ++ t → ¬P (t.takeWhile p) → (f.run c).value = none
  /-- Nothing is found without the tag. -/
  value_eq_none_of_untagged : ¬tag <+: c.rest → (f.run c).value = none
  /-- The cursor moves behind what was found. -/
  position_eq : (f.run c).cursor.position = c.position + Text.size ((f.run c).value.getD [])

/-- What is cut off after a tag in front of the end of a run is the whole
run. -/
theorem Decides.findsRun {f : Recognizer Text} {tag : Text} {p : Char → Bool} {P : Text → Prop}
    {c : Cursor} (h : Decides f c.options fun m r => (∃ x, m = tag ++ x ∧ P x) ∧ Avoids p r)
    (hf : Settles f) (hP : ∀ {x}, P x → ∀ ch ∈ x, p ch = true) : f.FindsRun tag p P c where
  value_eq_some := by
    intro t hrest hrun
    refine ((h.findsCut hf).value_eq_some_iff _).mpr ⟨t.dropWhile p, ?_, ⟨_, rfl, hrun⟩,
      avoids_dropWhile p t⟩
    rw [hrest, List.append_assoc, List.takeWhile_append_dropWhile]
  value_eq_none := by
    intro t hrest hrun
    refine (h.findsCut hf).value_eq_none_iff.mpr ?_
    rintro m r hcut ⟨⟨x, rfl, hx⟩, hr⟩
    -- What is cut off is the run, whether it has the property or not.
    have ht : t = x ++ r := by
      rw [hrest, List.append_assoc] at hcut
      exact List.append_cancel_left hcut
    rw [ht, takeWhile_append_of_avoids (hP hx) hr] at hrun
    exact hrun hx
  value_eq_none_of_untagged := by
    intro huntagged
    refine (h.findsCut hf).value_eq_none_iff.mpr ?_
    rintro m r hcut ⟨⟨x, rfl, -⟩, -⟩
    rw [List.append_assoc] at hcut
    exact huntagged ⟨x ++ r, hcut.symm⟩
  position_eq := (h.findsCut hf).position_eq

theorem FindsRun.value_eq_none_iff {f : Recognizer Text} {tag : Text} {p : Char → Bool}
    {P : Text → Prop} {c : Cursor} (h : f.FindsRun tag p P c) {t : Text}
    (hrest : c.rest = tag ++ t) :
    (f.run c).value = none ↔ ¬P (t.takeWhile p) := by
  constructor
  · intro hnone hrun
    exact Option.some_ne_none _ ((h.value_eq_some t hrest hrun).symm.trans hnone)
  · exact h.value_eq_none t hrest

/-- What is found is the whole run. -/
theorem FindsRun.value_eq_some_iff {f : Recognizer Text} {tag : Text} {p : Char → Bool}
    {P : Text → Prop} {c : Cursor} (h : f.FindsRun tag p P c) {t m : Text}
    (hrest : c.rest = tag ++ t) :
    (f.run c).value = some m ↔ P (t.takeWhile p) ∧ m = tag ++ t.takeWhile p := by
  by_cases hrun : P (t.takeWhile p)
  · rw [h.value_eq_some t hrest hrun, Option.some.injEq, eq_comm]
    exact (and_iff_right hrun).symm
  · rw [h.value_eq_none t hrest hrun]
    exact iff_of_false (Option.some_ne_none m).symm fun hm => hrun hm.1

end SolidityTokens.Recognizer
