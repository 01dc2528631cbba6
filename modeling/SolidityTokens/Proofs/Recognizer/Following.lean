import SolidityTokens.Proofs.Recognizer.Languages

/-!
# What comes after a text

More text at the end of a text can change what a recognizer does there: it can
continue a match, it can spoil it, and it can complete what was left open. For
many texts none of this happens, and the theory of this file says when.

A relation is **steady** in front of a text `s`
(`SolidityTokens.Recognizer.Steady`) when a text that is followed by `s` has
exactly the cuts that it has alone. In particular it has none if it had none
before, and no cut ends inside `s`. Steadiness is kept by sequences,
alternatives and loops, since each of them asks its parts about a text that is
itself followed by `s`. What is left to prove are the languages of single
tokens, and for these there are two reasons: `s` begins with a character that no
word has (`SolidityTokens.Recognizer.steady_of_le`), or it lacks a character
that every word ends with (`SolidityTokens.Recognizer.steady_of_last`).

A recognizer that decides a steady relation ignores `s`
(`SolidityTokens.Recognizer.Decides.ignores`).
-/

namespace SolidityTokens

open scoped Computability

namespace Recognizer

variable {α β : Type} {s : Text}

/-! ### Steady relations -/

/-- **A relation is steady in front of `s`**: the cuts of a text that `s`
follows are the cuts of the text alone. -/
structure Steady (s : Text) (L : Text → Text → Prop) : Prop where
  /-- A cut is also made when `s` follows. -/
  extend : ∀ {m r : Text}, L m r → L m (r ++ s)
  /-- There are no other cuts when `s` follows. -/
  restrict : ∀ {m r t : Text}, L m r → m ++ r = t ++ s → ∃ r', r = r' ++ s ∧ t = m ++ r' ∧ L m r'

namespace Steady

variable {L L' : Text → Text → Prop}

theorem congr (h : Steady s L) (hL : ∀ m r, L m r ↔ L' m r) : Steady s L' where
  extend := fun hcut => (hL _ _).mp (h.extend ((hL _ _).mpr hcut))
  restrict := by
    intro m r t hcut heq
    obtain ⟨r', hr, ht, hcut'⟩ := h.restrict ((hL m r).mpr hcut) heq
    exact ⟨r', hr, ht, (hL m r').mp hcut'⟩

theorem uncut_iff (h : Steady s L) {t : Text} : Uncut L (t ++ s) ↔ Uncut L t := by
  constructor
  · rintro huncut m r rfl hcut
    exact huncut m (r ++ s) (List.append_assoc ..) (h.extend hcut)
  · intro huncut m r heq hcut
    obtain ⟨r', -, ht, hcut'⟩ := h.restrict hcut heq.symm
    exact huncut m r' ht hcut'

/-- A further condition that does not depend on `s`. -/
theorem and (h : Steady s L) {P : Text → Text → Prop} (hP : ∀ m r, P m (r ++ s) ↔ P m r) :
    Steady s fun m r => L m r ∧ P m r where
  extend := fun hcut => ⟨h.extend hcut.1, (hP _ _).mpr hcut.2⟩
  restrict := by
    rintro m r t ⟨hcut, hrest⟩ heq
    obtain ⟨r', rfl, ht, hcut'⟩ := h.restrict hcut heq
    exact ⟨r', rfl, ht, hcut', (hP m r').mp hrest⟩

theorem sequel (h : Steady s L) (h' : Steady s L') : Steady s (Sequel L L') where
  extend := by
    rintro _ r ⟨m₁, m₂, rfl, hm₁, hm₂⟩
    refine ⟨m₁, m₂, rfl, ?_, h'.extend hm₂⟩
    rw [← List.append_assoc]
    exact h.extend hm₁
  restrict := by
    rintro _ r t ⟨m₁, m₂, rfl, hm₁, hm₂⟩ heq
    rw [List.append_assoc] at heq
    -- The first part ends before `s`, and so the second part has `s` at its
    -- end.
    obtain ⟨t', ht', rfl, hm₁'⟩ := h.restrict hm₁ heq
    obtain ⟨r', rfl, rfl, hm₂'⟩ := h'.restrict hm₂ ht'
    exact ⟨r', rfl, (List.append_assoc ..).symm, m₁, m₂, rfl, hm₁', hm₂'⟩

theorem otherwise (h : Steady s L) (h' : Steady s L') : Steady s (Otherwise L L') where
  extend := by
    rintro m r (hcut | ⟨huncut, hcut⟩)
    · exact Or.inl (h.extend hcut)
    · refine Or.inr ⟨?_, h'.extend hcut⟩
      rw [← List.append_assoc]
      exact h.uncut_iff.mpr huncut
  restrict := by
    rintro m r t (hcut | ⟨huncut, hcut⟩) heq
    · obtain ⟨r', hr, ht, hcut'⟩ := h.restrict hcut heq
      exact ⟨r', hr, ht, Or.inl hcut'⟩
    · obtain ⟨r', hr, rfl, hcut'⟩ := h'.restrict hcut heq
      refine ⟨r', hr, rfl, Or.inr ⟨h.uncut_iff.mp ?_, hcut'⟩⟩
      rw [← heq]
      exact huncut

theorem iterated (h : Steady s L) : Steady s (Iterated L) where
  extend := by
    intro m r hm
    induction hm with
    | stop huncut => exact .stop (h.uncut_iff.mpr huncut)
    | step hcut _ ih =>
      refine .step ?_ ih
      rw [← List.append_assoc]
      exact h.extend hcut
  restrict := by
    intro m r t hm heq
    induction hm generalizing t with
    | stop huncut =>
      rw [List.nil_append] at heq
      subst heq
      exact ⟨t, rfl, rfl, .stop (h.uncut_iff.mp huncut)⟩
    | step hcut _ ih =>
      rw [List.append_assoc] at heq
      obtain ⟨t', ht', rfl, hcut'⟩ := h.restrict hcut heq
      obtain ⟨r', rfl, rfl, hm'⟩ := ih ht'
      exact ⟨r', rfl, (List.append_assoc ..).symm, .step hcut' hm'⟩

end Steady

theorem steady_nil : Steady s fun m _ => m = [] where
  extend := id
  restrict := by
    rintro _ r t rfl heq
    exact ⟨t, heq, rfl, rfl⟩

/-! ### Steady languages -/

section Languages

variable {A : Language Char} {p : Char → Bool}

theorem Avoids.mono {q : Char → Bool} {t : Text} (h : Avoids q t)
    (hpq : ∀ ch, p ch = true → q ch = true) : Avoids p t := by
  cases t with
  | nil => exact avoids_nil p
  | cons ch t =>
    rw [avoids_cons, ← Bool.not_eq_true] at h ⊢
    exact fun hp => h (hpq ch hp)

theorem avoids_append_iff_left (hs : Avoids p s) (r : Text) : Avoids p (r ++ s) ↔ Avoids p r := by
  cases r with
  | nil => exact iff_of_true hs (avoids_nil p)
  | cons ch r => exact avoids_append_iff (List.cons_ne_nil ch r)

/-- A language of which no word ends inside `s`. -/
theorem steady_mem (hA : ∀ {t x r : Text}, t ++ x ∈ A → s = x ++ r → x = []) :
    Steady s fun m _ => m ∈ A where
  extend := id
  restrict := by
    intro m r t hm heq
    rcases List.append_eq_append_iff.mp heq with ⟨r', ht, hr⟩ | ⟨x, hx, hs⟩
    · exact ⟨r', hr, ht, hm⟩
    · -- The word would reach into `s`, by nothing as it turns out.
      subst hx
      obtain rfl := hA hm hs
      rw [List.append_nil] at hm ⊢
      exact ⟨[], hs.symm, (List.append_nil t).symm, hm⟩

/-- A language none of whose words has the first character of `s`. -/
theorem steady_of_le (hA : A ≤ (oneChar p)∗) (hs : Avoids p s) : Steady s fun m _ => m ∈ A := by
  refine steady_mem fun {t x r} hmem heq => ?_
  cases x with
  | nil => rfl
  | cons ch x =>
    have hch : p ch = true := forall_mem_of_le hA hmem ch (by simp)
    rw [heq, List.cons_append, avoids_cons, hch] at hs
    exact absurd hs (by decide)

/-- A text ends with a character that has the property `p`. -/
def Ended (p : Char → Bool) (t : Text) : Prop := ∃ ch, t.getLast? = some ch ∧ p ch = true

theorem Ended.exists_mem {t x : Text} (h : Ended p (t ++ x)) (hx : x ≠ []) :
    ∃ ch ∈ x, p ch = true := by
  obtain ⟨ch, hlast, hch⟩ := h
  rw [List.getLast?_append_of_ne_nil t hx] at hlast
  exact ⟨ch, List.mem_of_getLast? hlast, hch⟩

/-- A language each of whose words ends with a character that `s` does not
have. -/
theorem steady_of_last (hA : ∀ {m}, m ∈ A → Ended p m) (hs : ∀ ch ∈ s, p ch = false) :
    Steady s fun m _ => m ∈ A := by
  refine steady_mem fun {t x r} hmem heq => ?_
  by_contra hx
  obtain ⟨ch, hch, hp⟩ := (hA hmem).exists_mem hx
  have hnot : p ch = false := hs ch (heq ▸ List.mem_append_left r hch)
  exact Bool.false_ne_true (hnot.symm.trans hp)

/-- Words of a language one after the other, up to where no further one
begins. -/
theorem Steady.plus (h : Steady s fun m _ => m ∈ A) :
    Steady s fun m r => m ∈ plus A ∧ ¬StartsIn A r :=
  (h.sequel (h.iterated.congr fun _ _ => iterated_mem_iff)).congr fun _ _ => sequel_mem_and_iff

end Languages

end Recognizer

/-! ### Recognizers that ignore what follows -/

/-- The same place with more text at the end. -/
def Cursor.inFrontOf (s : Text) (c : Cursor) : Cursor := { c with rest := c.rest ++ s }

namespace Recognizer

variable {α β : Type} {s : Text}

/-- **A recognizer ignores `s`** at the end of a text: it finds the same, and
ends in the same place. -/
def Ignores (s : Text) (f : Recognizer α) : Prop :=
  ∀ c : Cursor, (f.run (c.inFrontOf s)).value = (f.run c).value ∧
    (f.run (c.inFrontOf s)).cursor = (f.run c).cursor.inFrontOf s

/-- **A recognizer ignores what the relation that it decides is steady in front
of.** -/
theorem Decides.ignores {f : Recognizer Text} {L : Options → Text → Text → Prop}
    (h : ∀ options, Decides f options (L options)) (hf : Settles f) (hplace : FailsInPlace f)
    (hL : ∀ options, Steady s (L options)) : Ignores s f := by
  rintro ⟨read, t, options⟩
  by_cases ht : Uncut (L options) t
  · have hnone := (h options).refuses ht read
    have hnone' := (h options).refuses ((hL options).uncut_iff.mpr ht) read
    refine ⟨hnone'.trans hnone.symm, (hplace _ hnone').trans ?_⟩
    rw [hplace _ hnone]
    rfl
  · obtain ⟨m, r, rfl, hcut⟩ := exists_cut_of_not_uncut ht
    have hcut' := (hL options).extend hcut
    rw [Cursor.inFrontOf]
    simp only [List.append_assoc]
    rw [(h options).value_eq hf hcut, (h options).value_eq hf hcut',
      ((h options).takes hcut read).2, ((h options).takes hcut' read).2]
    exact ⟨rfl, rfl⟩

theorem Ignores.bind_pure {f : Recognizer α} (hf : Ignores s f) (g : α → β) :
    Ignores s (f >>= fun a => pure (g a)) := by
  intro c
  rw [run_bind_pure, run_bind_pure, (hf c).1, (hf c).2]
  exact ⟨rfl, rfl⟩

theorem Ignores.orElse {f g : Recognizer α} (hf : Ignores s f) (hg : Ignores s g) :
    Ignores s (f <|> g) := by
  intro c
  rw [run_orElse, run_orElse, (hf c).1, (hf c).2]
  cases hvalue : (f.run c).value with
  | none => exact hg (f.run c).cursor
  | some a => exact hf c

theorem ignores_firstOf {ι : Type} {f : ι → Recognizer α} (hf : ∀ i, Ignores s (f i))
    (is : List ι) : Ignores s (firstOf (is.map f)) := by
  induction is with
  | nil => exact fun c => ⟨rfl, rfl⟩
  | cons i is ih => exact (hf i).orElse ih

end Recognizer

end SolidityTokens
