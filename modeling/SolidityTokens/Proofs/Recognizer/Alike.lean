import SolidityTokens.Proofs.Recognizer.Decision

/-!
# Reading alike

Two recognizers may be written differently and still find the same and end in
the same place, at one cursor or at all of them
(`SolidityTokens.Recognizer.ReadsAlike`). That is less than being equal: the
record of what happened need not be the same, since what one of them tries and
gives back the other may not try at all.

What is built from parts that read alike reads alike. For loops this asks for
**bodies that read alike everywhere**, as each run begins where the one before
it stopped (`SolidityTokens.Recognizer.ReadsAlike.many`).
-/

namespace SolidityTokens.Recognizer

variable {α β : Type}

/-! ### Units -/

/-- Where its body matches, a unit finds what the body read. -/
theorem run_atomic_of_isSome {f : Recognizer α} {c : Cursor} (h : (f.run c).value.isSome) :
    ((atomic f).run c).value = some ((f.run c).cursor.textSince c) ∧
      ((atomic f).run c).cursor = (f.run c).cursor := by
  obtain ⟨a, ha⟩ := Option.isSome_iff_exists.mp h
  rw [run_atomic, ha]
  exact ⟨rfl, rfl⟩

/-- A unit is all or nothing already. -/
theorem atomic_atomic (f : Recognizer α) : atomic (atomic f) = atomic f := by
  ext c
  rw [run_atomic (atomic f), run_atomic f]
  cases (f.run c).value with
  | some a => rfl
  | none =>
    change (⟨none, _, _ ++ revertEvents c.position c.position⟩ : Outcome Text) = _
    rw [revertEvents_self, List.append_nil]
    rfl

/-! ### Alike -/

/-- **Two recognizers read alike** at a cursor: they find the same and end in
the same place. What happens on the way may differ. -/
structure ReadsAlike (f g : Recognizer α) (c : Cursor) : Prop where
  /-- The same is found. -/
  value_eq : (f.run c).value = (g.run c).value
  /-- The cursor ends in the same place. -/
  cursor_eq : (f.run c).cursor = (g.run c).cursor

namespace ReadsAlike

variable {f g : Recognizer α} {f' g' : Recognizer β} {c : Cursor}

theorem refl (f : Recognizer α) (c : Cursor) : ReadsAlike f f c := ⟨rfl, rfl⟩

theorem symm (h : ReadsAlike f g c) : ReadsAlike g f c := ⟨h.value_eq.symm, h.cursor_eq.symm⟩

theorem trans {h : Recognizer α} (hfg : ReadsAlike f g c) (hgh : ReadsAlike g h c) :
    ReadsAlike f h c :=
  ⟨hfg.value_eq.trans hgh.value_eq, hfg.cursor_eq.trans hgh.cursor_eq⟩

theorem atomic (h : ReadsAlike f g c) :
    ReadsAlike (Recognizer.atomic f) (Recognizer.atomic g) c := by
  constructor <;> rw [run_atomic, run_atomic, h.value_eq, h.cursor_eq]
  all_goals cases (g.run c).value <;> rfl

theorem andThen (h : ReadsAlike f g c) (h' : ∀ d, ReadsAlike f' g' d) :
    ReadsAlike (f >>= fun _ => f') (g >>= fun _ => g') c := by
  constructor
  · rw [run_bind, run_bind, h.value_eq, h.cursor_eq]
    cases (g.run c).value with
    | none => rfl
    | some a => exact (h' (g.run c).cursor).value_eq
  · rw [run_bind, run_bind, h.value_eq, h.cursor_eq]
    cases (g.run c).value with
    | none => rfl
    | some a => exact (h' (g.run c).cursor).cursor_eq

/-- Whether a loop goes on depends on what was found and where the cursor is. -/
theorem goesOn_eq (h : ReadsAlike f g c) : goesOn c (f.run c) = goesOn c (g.run c) := by
  rw [goesOn, goesOn, h.value_eq, h.cursor_eq]

theorem finalCursor_eq (h : ∀ d, ReadsAlike f g d) (c : Cursor) :
    finalCursor c (runs f c) = finalCursor c (runs g c) := by
  fun_induction runs f c with
  | case1 c outcome hgo ih =>
    have hgo' : goesOn c (g.run c) := (h c).goesOn_eq ▸ hgo
    rw [runs_of_goesOn hgo', finalCursor_cons, finalCursor_cons, ← (h c).cursor_eq]
    exact ih
  | case2 c outcome hstop =>
    have hstop' : ¬goesOn c (g.run c) := (h c).goesOn_eq ▸ hstop
    rw [runs_of_not_goesOn hstop']
    exact (h c).cursor_eq

/-- **Bodies that read alike everywhere make loops that do.** -/
theorem many (h : ∀ d, ReadsAlike f g d) (c : Cursor) :
    ReadsAlike (Recognizer.many f) (Recognizer.many g) c := by
  constructor <;> rw [run_many, run_many, finalCursor_eq h]

theorem many1 (h : ∀ d, ReadsAlike f g d) (c : Cursor) :
    ReadsAlike (Recognizer.many1 f) (Recognizer.many1 g) c :=
  ((h c).andThen (ReadsAlike.many h)).atomic

end ReadsAlike

/-- **Two recognizers that decide the same cuts read alike.** -/
theorem Decides.readsAlike {f g : Recognizer Text} {L : Text → Text → Prop} {c : Cursor}
    (hf : Decides f c.options L) (hg : Decides g c.options L) (hsettles : Settles f)
    (hsettles' : Settles g) (hplace : FailsInPlace f) (hplace' : FailsInPlace g) :
    ReadsAlike f g c := by
  obtain ⟨read, t, options⟩ := c
  by_cases ht : Uncut L t
  · have hnone := hf.refuses ht read
    have hnone' := hg.refuses ht read
    exact ⟨hnone.trans hnone'.symm, (hplace _ hnone).trans (hplace' _ hnone').symm⟩
  · obtain ⟨m, r, rfl, hcut⟩ := exists_cut_of_not_uncut ht
    refine ⟨(hf.value_eq hsettles hcut).trans (hg.value_eq hsettles' hcut).symm, ?_⟩
    exact (hf.takes hcut read).2.trans (hg.takes hcut read).2.symm

end SolidityTokens.Recognizer
