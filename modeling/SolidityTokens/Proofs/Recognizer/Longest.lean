import SolidityTokens.Proofs.Recognizer.Languages
import SolidityTokens.Proofs.Recognizer.Prefixes

/-!
# Longest words

A loop takes one word of a language after the other and gives none of them back.
Whether what it takes is **the longest prefix that is made of words**
(`SolidityTokens.Recognizer.LongestCut`) depends on the language: a loop that
commits itself to a short word may miss a longer one.

It does not where the language is *prefix-free*
(`SolidityTokens.Recognizer.PrefixFree`), and every language that is decided
whatever follows is (`SolidityTokens.Recognizer.Decides.prefixFree`). Then a
text that is made of words can be taken apart from the left in one way only, and
so what is left after some of the words is made of words again
(`SolidityTokens.Recognizer.PrefixFree.mem_kstar_of_append`). This is the one
induction of the module; that a loop finds the longest prefix follows from it.
-/

namespace SolidityTokens

open scoped Computability

namespace Recognizer

variable {α : Type} {options : Options} {A : Language Char} {m m' r r' s t : Text}

/-! ### Longest cuts -/

/-- **The cut after the longest word** of a language that a text begins with. -/
structure LongestCut (A : Language Char) (m r : Text) : Prop where
  /-- What is cut off is a word. -/
  mem : m ∈ A
  /-- No longer prefix is a word. -/
  longest : ∀ {m' : Text}, m' ∈ A → m' <+: m ++ r → m' <+: m

theorem LongestCut.unique (h : LongestCut A m r) (h' : LongestCut A m' r')
    (heq : m ++ r = m' ++ r') : m = m' ∧ r = r' := by
  have hle : m <+: m' := h'.longest h.mem (heq ▸ List.prefix_append m r)
  have hge : m' <+: m := h.longest h'.mem (heq ▸ List.prefix_append m' r')
  obtain rfl : m = m' := hle.eq_of_length_le hge.length_le
  exact ⟨rfl, List.append_cancel_left heq⟩

/-- A text that begins with a word begins with a longest one. -/
theorem exists_longestCut (h : StartsIn A t) : ∃ m r, t = m ++ r ∧ LongestCut A m r := by
  obtain ⟨m, r, rfl, hm⟩ := h
  induction hn : r.length using Nat.strongRecOn generalizing m r with
  | _ n ih =>
    by_cases hlongest : ∀ {m'}, m' ∈ A → m' <+: m ++ r → m' <+: m
    · exact ⟨m, r, rfl, hm, hlongest⟩
    · -- A longer word leaves less text.
      simp only [not_forall] at hlongest
      obtain ⟨m', hm', ⟨r', heq⟩, hnot⟩ := hlongest
      have hlt : m.length < m'.length := by
        by_contra hge
        exact hnot (List.prefix_of_prefix_length_le ⟨r', heq⟩ (List.prefix_append m r)
          (Nat.le_of_not_lt hge))
      have hlength := congrArg List.length heq
      simp only [List.length_append] at hlength
      rw [← heq]
      exact ih r'.length (by omega) m' r' hm' rfl

/-- **A recognizer finds the longest prefix in a language** at a cursor. -/
structure FindsLongest (f : Recognizer Text) (A : Language Char) (c : Cursor) : Prop where
  /-- What is found is a word with which the text begins, and no longer one
  begins there. -/
  value_eq_some_iff : ∀ m, (f.run c).value = some m ↔
    m <+: c.rest ∧ m ∈ A ∧ ∀ m', m' <+: c.rest → m' ∈ A → m' <+: m
  /-- Nothing is found only where no word begins. -/
  value_eq_none_iff : (f.run c).value = none ↔ ∀ m, m <+: c.rest → m ∉ A
  /-- The cursor moves behind what was found. -/
  position_eq : (f.run c).cursor.position = c.position + Text.size ((f.run c).value.getD [])
  /-- It stands at a boundary of the text. -/
  isBoundary : c.text.IsBoundary (f.run c).cursor.position

theorem Decides.findsLongest {f : Recognizer Text} {c : Cursor}
    (h : Decides f c.options (LongestCut A)) (hf : Settles f) : f.FindsLongest A c where
  value_eq_some_iff m := by
    rw [(h.findsCut hf).value_eq_some_iff]
    constructor
    · rintro ⟨r, hrest, hcut⟩
      rw [hrest]
      exact ⟨List.prefix_append m r, hcut.mem, fun m' hle hm' => hcut.longest hm' hle⟩
    · rintro ⟨⟨r, hrest⟩, hm, hlongest⟩
      exact ⟨r, hrest.symm, hm, fun hm' hle => hlongest _ (hrest ▸ hle) hm'⟩
  value_eq_none_iff := by
    rw [(h.findsCut hf).value_eq_none_iff]
    constructor
    · rintro huncut m ⟨r, hrest⟩ hm
      obtain ⟨m', r', hrest', hcut⟩ := exists_longestCut ⟨m, r, hrest.symm, hm⟩
      exact huncut m' r' hrest' hcut
    · rintro hnone m r hrest hcut
      exact hnone m ⟨r, hrest.symm⟩ hcut.mem
  position_eq := (h.findsCut hf).position_eq
  isBoundary := by
    rw [← (hf c).text_eq]
    exact Cursor.isBoundary_position _

/-! ### Prefix-free languages -/

/-- **A language is prefix-free** when no word begins with another one. -/
def PrefixFree (A : Language Char) : Prop :=
  ∀ {m m' : Text}, m ∈ A → m' ∈ A → m <+: m' → m = m'

/-- What is cut off whatever follows it cannot be longer or shorter. -/
theorem Decides.prefixFree {f : Recognizer α} (h : Decides f options fun m _ => m ∈ A) :
    PrefixFree A := by
  rintro m _ hm hm' ⟨s, rfl⟩
  have heq : m ++ s = (m ++ s) ++ [] := (List.append_nil _).symm
  exact (h.unique hm hm' heq).1

namespace PrefixFree

/-- A text begins with at most one word. -/
theorem eq_of_append_eq (hA : PrefixFree A) (hm : m ∈ A) (hm' : m' ∈ A)
    (heq : m ++ r = m' ++ r') : m = m' ∧ r = r' := by
  have hprefix : m <+: m' ++ r' := heq ▸ List.prefix_append m r
  have hsame : m = m' := by
    rcases List.prefix_or_prefix_of_prefix hprefix (List.prefix_append m' r') with hle | hge
    · exact hA hm hm' hle
    · exact (hA hm' hm hge).symm
  subst hsame
  exact ⟨rfl, List.append_cancel_left heq⟩

/-- **What is left after some of the words is made of words.** -/
theorem mem_kstar_of_append (hA : PrefixFree A) (hm : m ∈ A∗) (h : m ++ s ∈ A∗) : s ∈ A∗ := by
  obtain ⟨parts, rfl, hparts⟩ := Language.mem_kstar.mp hm
  clear hm
  induction parts with
  | nil => exact h
  | cons part parts ih =>
    obtain ⟨hpart, hparts⟩ := List.forall_mem_cons.mp hparts
    rw [List.flatten_cons, List.append_assoc] at h
    refine ih hparts ?_
    rcases mem_kstar_iff.mp h with heq | ⟨first, hfirst, rest, hrest, heq⟩
    · rw [(List.append_eq_nil_iff.mp heq).2]
      exact Language.nil_mem_kstar A
    · -- Both begin with a word, so they begin with the same one.
      rw [← (hA.eq_of_append_eq hfirst hpart heq).2]
      exact hrest

/-- **Words up to where no further one begins are the longest prefix** that is
made of words. -/
theorem longestCut_kstar (hA : PrefixFree A) (hm : m ∈ A∗) (hr : ¬StartsIn A r) :
    LongestCut A∗ m r := by
  refine ⟨hm, fun {m'} hm' hprefix => ?_⟩
  rcases List.prefix_or_prefix_of_prefix hprefix (List.prefix_append m r) with hle | ⟨s, rfl⟩
  · exact hle
  · have hs : s ∈ A∗ := hA.mem_kstar_of_append hm hm'
    obtain ⟨r', rfl⟩ := (List.prefix_append_right_inj m).mp hprefix
    by_cases hnil : s = []
    · rw [hnil, List.append_nil]
    · obtain ⟨part, hpart, s', -, rfl⟩ := Language.mem_mul.mp (mem_plus_of_mem_kstar hs hnil)
      exact absurd ⟨part, s' ++ r', List.append_assoc .., hpart⟩ hr

end PrefixFree

end Recognizer

end SolidityTokens
