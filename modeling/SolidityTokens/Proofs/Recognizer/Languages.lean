import Mathlib.Computability.Language
import Mathlib.Order.CompletePartialOrder
import SolidityTokens.Proofs.Recognizer.Decision

/-!
# Recognizers of languages

Where what follows a match does not matter, the relation that a recognizer
decides is a language. The combinators are then those of languages: a sequence
reads a word of the product, and a loop reads a word of the star, up to where no
further word begins (`SolidityTokens.Recognizer.iterated_mem_iff`).

All languages here are made of single characters
(`SolidityTokens.Recognizer.oneChar`), and most of what has to be known about
one is which characters its words can begin with, and which can occur in them at
all.
-/

namespace SolidityTokens

open scoped Computability

namespace Recognizer

variable {α : Type} {options : Options} {A B : Language Char} {p q : Char → Bool} {m r : Text}

/-! ### Single characters -/

/-- The texts of a single character that has the property `p`. -/
def oneChar (p : Char → Bool) : Language Char := {m | ∃ ch, p ch = true ∧ m = [ch]}

theorem mem_oneChar : m ∈ oneChar p ↔ ∃ ch, p ch = true ∧ m = [ch] :=
  Iff.rfl

theorem headed_of_mem_oneChar (h : m ∈ oneChar p) : Headed p m := by
  obtain ⟨ch, hp, rfl⟩ := h
  exact ⟨ch, [], rfl, hp⟩

theorem decides_satisfy (p : Char → Bool) :
    Decides (satisfy p) options fun m _ => m ∈ oneChar p where
  takes := by
    rintro m r ⟨ch, hp, rfl⟩ read
    rw [run_satisfy_cons p _ rfl, if_pos hp]
    exact ⟨rfl, rfl⟩
  refuses := by
    intro t huncut read
    cases t with
    | nil => rw [run_satisfy_nil p _ rfl]
    | cons ch t =>
      rw [run_satisfy_cons p _ rfl, if_neg]
      exact fun hp => huncut [ch] t rfl ⟨ch, hp, rfl⟩

/-! ### Products, sums and powers -/

theorem sequel_mem_iff : Sequel (fun m _ => m ∈ A) (fun m _ => m ∈ B) m r ↔ m ∈ A * B := by
  rw [Language.mem_mul]
  constructor
  · rintro ⟨m₁, m₂, rfl, hm₁, hm₂⟩
    exact ⟨m₁, hm₁, m₂, hm₂, rfl⟩
  · rintro ⟨m₁, hm₁, m₂, hm₂, rfl⟩
    exact ⟨m₁, m₂, rfl, hm₁, hm₂⟩

/-- A word that begins with a single character of its own. -/
theorem cons_mem_oneChar_mul_iff {ch : Char} {t : Text} :
    ch :: t ∈ oneChar p * B ↔ p ch = true ∧ t ∈ B := by
  rw [Language.mem_mul]
  constructor
  · rintro ⟨_, ⟨first, hfirst, rfl⟩, rest, hrest, heq⟩
    obtain ⟨rfl, rfl⟩ := List.cons.inj heq
    exact ⟨hfirst, hrest⟩
  · rintro ⟨hch, ht⟩
    exact ⟨[ch], ⟨ch, hch, rfl⟩, t, ht, rfl⟩

/-- A condition on what follows is one on what follows the last part. -/
theorem sequel_mem_and_iff {P : Text → Prop} :
    Sequel (fun m _ => m ∈ A) (fun m r => m ∈ B ∧ P r) m r ↔ m ∈ A * B ∧ P r := by
  rw [Language.mem_mul]
  constructor
  · rintro ⟨m₁, m₂, rfl, hm₁, hm₂, hr⟩
    exact ⟨⟨m₁, hm₁, m₂, hm₂, rfl⟩, hr⟩
  · rintro ⟨⟨m₁, hm₁, m₂, hm₂, rfl⟩, hr⟩
    exact ⟨m₁, m₂, rfl, hm₁, hm₂, hr⟩

theorem headed_of_mem_mul (hA : ∀ {m}, m ∈ A → Headed p m) (hm : m ∈ A * B) :
    Headed p m := by
  obtain ⟨m₁, hm₁, m₂, -, rfl⟩ := Language.mem_mul.mp hm
  exact (hA hm₁).append m₂

theorem headed_of_mem_add (hA : ∀ {m}, m ∈ A → Headed p m)
    (hB : ∀ {m}, m ∈ B → Headed q m) (hm : m ∈ A + B) :
    Headed (fun ch => p ch || q ch) m := by
  rcases hm with hm | hm
  · obtain ⟨ch, t, rfl, hch⟩ := hA hm
    exact ⟨ch, t, rfl, Bool.or_eq_true_iff.mpr (Or.inl hch)⟩
  · obtain ⟨ch, t, rfl, hch⟩ := hB hm
    exact ⟨ch, t, rfl, Bool.or_eq_true_iff.mpr (Or.inr hch)⟩

/-- The words of a power are counted by their characters. -/
theorem mem_oneChar_pow_iff {n : Nat} {m : Text} :
    m ∈ oneChar p ^ n ↔ m.length = n ∧ ∀ ch ∈ m, p ch = true := by
  induction n generalizing m with
  | zero =>
    rw [pow_zero, Language.mem_one, List.length_eq_zero_iff]
    constructor
    · rintro rfl
      exact ⟨rfl, List.forall_mem_nil _⟩
    · exact And.left
  | succ n ih =>
    cases m with
    | nil =>
      rw [pow_succ']
      refine iff_of_false (fun hm => ?_) fun h => Nat.succ_ne_zero n h.1.symm
      exact (headed_of_mem_mul headed_of_mem_oneChar hm).ne_nil rfl
    | cons ch m =>
      rw [pow_succ', cons_mem_oneChar_mul_iff, ih, List.forall_mem_cons, List.length_cons,
        Nat.succ_inj, and_left_comm]

theorem Decides.times {f : Recognizer α} (h : Decides f options fun m _ => m ∈ A) (n : Nat) :
    Decides (times n f) options fun m _ => m ∈ A ^ n := by
  refine Decides.atomic ?_
  induction n with
  | zero => exact decides_pure ()
  | succ n ih =>
    refine (h.andThen ih).congr fun m r => ?_
    rw [sequel_mem_iff, pow_succ']

/-! ### Where a word begins -/

/-- A text begins with a word of a language. -/
def StartsIn (A : Language Char) (t : Text) : Prop := ∃ m r, t = m ++ r ∧ m ∈ A

theorem uncut_iff_not_startsIn {t : Text} :
    Uncut (fun m _ => m ∈ A) t ↔ ¬StartsIn A t := by
  simp only [Uncut, StartsIn, not_exists, not_and]

theorem StartsIn.append {t : Text} (h : StartsIn A t) (s : Text) :
    StartsIn A (t ++ s) := by
  obtain ⟨m, r, rfl, hm⟩ := h
  exact ⟨m, r ++ s, List.append_assoc .., hm⟩

theorem not_startsIn_nil (hA : [] ∉ A) : ¬StartsIn A [] := by
  rintro ⟨m, r, h, hm⟩
  rw [(List.append_eq_nil_iff.mp h.symm).1] at hm
  exact hA hm

theorem not_startsIn_of_avoids (hA : ∀ {m}, m ∈ A → Headed p m) {t : Text}
    (ht : Avoids p t) : ¬StartsIn A t := by
  rintro ⟨m, r, rfl, hm⟩
  exact ht.not_headed ((hA hm).append r)

theorem not_startsIn_oneChar {t : Text} :
    ¬StartsIn (oneChar p) t ↔ Avoids p t := by
  cases t with
  | nil => exact iff_of_true (not_startsIn_nil fun ⟨_, _, h⟩ => List.cons_ne_nil _ _ h.symm) rfl
  | cons ch t =>
    rw [avoids_cons, ← Bool.not_eq_true, not_iff_not]
    constructor
    · rintro ⟨_, r, h, ch', hp, rfl⟩
      rw [List.singleton_append, List.cons.injEq] at h
      rw [h.1]
      exact hp
    · exact fun hp => ⟨[ch], t, rfl, ch, hp, rfl⟩

/-- A character with the one property or, failing that, with the other. -/
theorem Decides.satisfy_orElse {g : Recognizer Text}
    (hg : Decides g options fun m _ => m ∈ oneChar q) :
    Decides (satisfy p <|> g) options fun m _ => m ∈ oneChar fun ch => p ch || q ch := by
  refine ((decides_satisfy p).orElse (failsInPlace_satisfy p) hg).congr fun m r => ?_
  constructor
  · rintro (⟨ch, hp, rfl⟩ | ⟨-, ch, hq, rfl⟩)
    · exact ⟨ch, Bool.or_eq_true_iff.mpr (Or.inl hp), rfl⟩
    · exact ⟨ch, Bool.or_eq_true_iff.mpr (Or.inr hq), rfl⟩
  · rintro ⟨ch, h, rfl⟩
    by_cases hp : p ch = true
    · exact Or.inl ⟨ch, hp, rfl⟩
    · have hq : q ch = true := (Bool.or_eq_true_iff.mp h).resolve_left hp
      have havoids : Avoids p ([ch] ++ r) := (avoids_cons p ch r).mpr (Bool.not_eq_true _ ▸ hp)
      exact Or.inr ⟨uncut_iff_not_startsIn.mpr (not_startsIn_oneChar.mpr havoids), ch, hq, rfl⟩

/-! ### Loops -/

/-- **A loop over a language reads a word of its star**, up to where no further
word begins. -/
theorem iterated_mem_iff :
    Iterated (fun m _ => m ∈ A) m r ↔ m ∈ A∗ ∧ ¬StartsIn A r := by
  constructor
  · intro h
    refine ⟨?_, uncut_iff_not_startsIn.mp h.uncut⟩
    induction h with
    | stop _ => exact Language.nil_mem_kstar A
    | step hm _ ih =>
      rw [← Language.one_add_self_mul_kstar_eq_kstar]
      exact Or.inr (Language.append_mem_mul hm ih)
  · rintro ⟨hm, hr⟩
    obtain ⟨parts, rfl, hparts⟩ := Language.mem_kstar.mp hm
    clear hm
    induction parts with
    | nil => exact .stop (uncut_iff_not_startsIn.mpr hr)
    | cons part parts ih =>
      have hrest : ∀ m ∈ parts, m ∈ A := fun m hm => hparts m (List.mem_cons_of_mem part hm)
      exact .step (hparts part List.mem_cons_self) (ih hrest)

/-- At least one word of a language. -/
def plus (A : Language Char) : Language Char := A * A∗

/-- A word of a star is empty, or it begins with a word. -/
theorem mem_kstar_iff : m ∈ A∗ ↔ m = [] ∨ ∃ first ∈ A, ∃ rest ∈ A∗, first ++ rest = m := by
  nth_rewrite 1 [← Language.one_add_self_mul_kstar_eq_kstar]
  exact or_congr_right Language.mem_mul

theorem mem_plus_iff :
    m ∈ plus A ↔
      ∃ parts : List Text, parts ≠ [] ∧ m = parts.flatten ∧ ∀ part ∈ parts, part ∈ A := by
  rw [plus, Language.mem_mul]
  constructor
  · rintro ⟨first, hfirst, _, hrest, rfl⟩
    obtain ⟨parts, rfl, hparts⟩ := Language.mem_kstar.mp hrest
    exact ⟨first :: parts, List.cons_ne_nil first parts, rfl,
      List.forall_mem_cons.mpr ⟨hfirst, hparts⟩⟩
  · rintro ⟨parts, hne, rfl, hparts⟩
    obtain ⟨first, parts, rfl⟩ := List.exists_cons_of_ne_nil hne
    obtain ⟨hfirst, hparts⟩ := List.forall_mem_cons.mp hparts
    exact ⟨first, hfirst, parts.flatten, Language.join_mem_kstar hparts, rfl⟩

theorem mem_plus_of_mem_kstar (hm : m ∈ A∗) (hne : m ≠ []) : m ∈ plus A := by
  rw [← Language.one_add_self_mul_kstar_eq_kstar] at hm
  exact hm.resolve_left hne

theorem Decides.many_mem {f : Recognizer α} (h : Decides f options fun m _ => m ∈ A)
    (hplace : FailsInPlace f) (hA : ∀ {m}, m ∈ A → m ≠ []) :
    Decides (Recognizer.many f) options fun m r => m ∈ A∗ ∧ ¬StartsIn A r :=
  (h.many hplace hA).congr fun _ _ => iterated_mem_iff

theorem Decides.many1_mem {f : Recognizer α} (h : Decides f options fun m _ => m ∈ A)
    (hplace : FailsInPlace f) (hA : ∀ {m}, m ∈ A → m ≠ []) :
    Decides (Recognizer.many1 f) options fun m r => m ∈ plus A ∧ ¬StartsIn A r :=
  (h.andThen (h.many_mem hplace hA)).atomic.congr fun _ _ => sequel_mem_and_iff

theorem mem_kstar_oneChar : m ∈ (oneChar p)∗ ↔ ∀ ch ∈ m, p ch = true := by
  rw [Language.mem_kstar]
  constructor
  · rintro ⟨parts, rfl, hparts⟩ ch hch
    obtain ⟨part, hpart, hch⟩ := List.mem_flatten.mp hch
    obtain ⟨ch', hp, rfl⟩ := hparts part hpart
    rw [List.mem_singleton.mp hch]
    exact hp
  · intro hm
    refine ⟨m.map fun ch => [ch], ?_, ?_⟩
    · rw [← List.flatMap_def, List.flatMap_singleton']
    · intro part hpart
      obtain ⟨ch, hch, rfl⟩ := List.mem_map.mp hpart
      exact ⟨ch, hm ch hch, rfl⟩

/-- A loop over the characters with a property stops in front of one without
it. -/
theorem Decides.many_oneChar {f : Recognizer Text}
    (h : Decides f options fun m _ => m ∈ oneChar p) (hplace : FailsInPlace f) :
    Decides (Recognizer.many f) options fun m r => (∀ ch ∈ m, p ch = true) ∧ Avoids p r := by
  refine (h.many hplace fun hm => (headed_of_mem_oneChar hm).ne_nil).congr fun m r => ?_
  rw [iterated_mem_iff, mem_kstar_oneChar, not_startsIn_oneChar]

/-- **The star of a sum, unfolded**: words of `b` with words of `a` before,
between and after them. -/
theorem kstar_add {K : Type} [KleeneAlgebra K] (a b : K) : (a + b)∗ = a∗ * (b * a∗)∗ := by
  refine le_antisymm (kstar_le_of_mul_le_right ?_ ?_) ?_
  · exact one_le_mul one_le_kstar one_le_kstar
  · rw [add_mul]
    refine add_le ?_ ?_
    · rw [← mul_assoc]
      exact mul_le_mul_left mul_kstar_le_kstar _
    · calc b * (a∗ * (b * a∗)∗) = b * a∗ * (b * a∗)∗ := (mul_assoc ..).symm
        _ ≤ (b * a∗)∗ := mul_kstar_le_kstar
        _ ≤ a∗ * (b * a∗)∗ := le_mul_of_one_le_left' one_le_kstar
  · have ha : a∗ ≤ (a + b)∗ := kstar_mono le_self_add
    have hb : b ≤ a + b := le_add_self
    have hba : (b * a∗)∗ ≤ (a + b)∗ := by
      refine (kstar_mono (mul_le_mul' (hb.trans le_kstar) ha)).trans ?_
      rw [kstar_mul_kstar, kstar_idem]
    exact (mul_le_mul' ha hba).trans (kstar_mul_kstar _).le

/-! ### The characters of the words of a language -/

theorem forall_mem_of_le (h : A ≤ (oneChar p)∗) (hm : m ∈ A) : ∀ ch ∈ m, p ch = true :=
  mem_kstar_oneChar.mp (h hm)

theorem oneChar_le (h : ∀ ch, p ch = true → q ch = true) :
    oneChar p ≤ (oneChar q)∗ := by
  rintro m ⟨ch, hp, rfl⟩
  exact mem_kstar_oneChar.mpr fun ch' hch => List.mem_singleton.mp hch ▸ h ch hp

theorem mul_le_kstar {S : Language Char} (hA : A ≤ S∗) (hB : B ≤ S∗) : A * B ≤ S∗ :=
  (mul_le_mul' hA hB).trans (kstar_mul_kstar S).le

theorem kstar_le_kstar {S : Language Char} (hA : A ≤ S∗) : A∗ ≤ S∗ :=
  (kstar_mono hA).trans (kstar_idem S).le

theorem pow_le_kstar_of_le {S : Language Char} (hA : A ≤ S∗) (n : Nat) : A ^ n ≤ S∗ :=
  pow_le_kstar.trans (kstar_le_kstar hA)

theorem one_add_le_kstar {S : Language Char} (hA : A ≤ S∗) : 1 + A ≤ S∗ :=
  add_le one_le_kstar hA

theorem eq_false_of_beq {ch : Char} (hq : q ch = false) (ch' : Char) (h : (ch' == ch) = true) :
    q ch' = false := by
  rw [beq_iff_eq.mp h]
  exact hq

theorem eq_false_of_contains {set : Text} (hq : set.any q = false) (ch : Char)
    (h : set.contains ch = true) : q ch = false := by
  rw [List.any_eq_false] at hq
  rw [← Bool.not_eq_true]
  exact hq ch (List.contains_iff_mem.mp h)

/-! ### Parts with a mark -/

/-- A part with a mark is there, or the mark is not. -/
theorem decides_marked {f : Recognizer Text} {P : Text → Prop}
    (h : Decides f options fun m r => m ∈ B ∧ P r) :
    Decides (whenMatched (satisfy p) f) options fun m r =>
      m ∈ oneChar p * B ∧ P r ∨ m = [] ∧ Avoids p r := by
  refine ((decides_satisfy p).whenMatched (failsInPlace_satisfy p) h).congr fun m r => ?_
  rw [sequel_mem_and_iff, uncut_iff_not_startsIn, not_startsIn_oneChar]

/-- A marked part begins with the mark. -/
theorem headed_of_marked (hm : m ∈ oneChar p * B) : Headed p m :=
  headed_of_mem_mul headed_of_mem_oneChar hm

theorem avoids_optional (h : ∀ ch, p ch = true → q ch = false)
    (hm : m = [] ∨ m ∈ oneChar p * B) (hr : m = [] → Avoids q r) : Avoids q (m ++ r) := by
  rcases hm with rfl | hm
  · exact hr rfl
  · exact ((headed_of_marked hm).append r).avoids h

/-- Where a marked part occurs, the mark does. -/
theorem notMem_of_marked (h : ∀ ch, p ch = true → q ch = false)
    (hA : A ≤ (oneChar q)∗) (hm : m ∈ oneChar p * B) (s t : Text) : s ++ (m ++ t) ∉ A := by
  obtain ⟨_, ⟨ch, hch, rfl⟩, m₂, -, rfl⟩ := Language.mem_mul.mp hm
  intro hmem
  have hq : q ch = true := forall_mem_of_le hA hmem ch (by simp)
  exact Bool.false_ne_true ((h ch hch).symm.trans hq)

end Recognizer

end SolidityTokens
