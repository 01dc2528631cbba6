import Mathlib.Data.List.Basic
import SolidityTokens.Proofs.Recognizer.Recipe
import SolidityTokens.Recognizer.Whole

/-!
# What recognizers decide

Where a recognizer matches, it cuts the text in front of it in two, into the
match and what is left. Whether a cut is made may depend on both parts: digits
that are followed by an underscore are no match. So the meaning of a recognizer
is a relation between texts, and `SolidityTokens.Recognizer.Decides f options L`
says that `L` is the one of `f`: `f` makes every cut that `L` admits, and fails
on a text that `L` admits no cut of. Since `f` makes at most one cut of a text,
so does `L` (`SolidityTokens.Recognizer.Decides.unique`).

The combinators act on these relations. A sequence cuts the match once more, and
its first part sees the second part and all that follows it; an alternative is
only reached where the first one admits no cut at all; a loop goes on until its
body admits no cut of what is left (`SolidityTokens.Recognizer.Iterated`).

The relations that the combinators produce are awkward, but they can be replaced
by any that are equivalent to them (`SolidityTokens.Recognizer.Decides.congr`).
Where what follows does not matter, such a relation is a language.
-/

namespace SolidityTokens

namespace Recognizer

variable {α β : Type} {options : Options}

/-! ### Cuts -/

/-- A recognizer cuts off `m` in front of `r`, wherever this text stands. -/
def Takes (f : Recognizer α) (options : Options) (m r : Text) : Prop :=
  ∀ read, (f.run ⟨read, m ++ r, options⟩).value.isSome ∧
    (f.run ⟨read, m ++ r, options⟩).cursor = ⟨m.reverse ++ read, r, options⟩

/-- A recognizer fails in front of `t`, wherever this text stands. -/
def Refuses (f : Recognizer α) (options : Options) (t : Text) : Prop :=
  ∀ read, (f.run ⟨read, t, options⟩).value = none

/-- A relation admits no cut of a text. -/
def Uncut (L : Text → Text → Prop) (t : Text) : Prop := ∀ m r, t = m ++ r → ¬L m r

/-- **A recognizer decides a relation** between a match and what follows it. -/
structure Decides (f : Recognizer α) (options : Options) (L : Text → Text → Prop) : Prop where
  /-- The cuts that the relation admits are made. -/
  takes : ∀ {m r : Text}, L m r → f.Takes options m r
  /-- A text of which it admits no cut is refused. -/
  refuses : ∀ {t : Text}, Uncut L t → f.Refuses options t

/-- A recognizer does not move the cursor when it fails. -/
def FailsInPlace (f : Recognizer α) : Prop :=
  ∀ c : Cursor, (f.run c).value = none → (f.run c).cursor = c

theorem Uncut.of_nil {L : Text → Text → Prop} (hL : ∀ {m r}, L m r → m ≠ []) : Uncut L [] := by
  intro m r h hcut
  exact hL hcut (List.append_eq_nil_iff.mp h.symm).1

theorem exists_cut_of_not_uncut {L : Text → Text → Prop} {t : Text} (h : ¬Uncut L t) :
    ∃ m r, t = m ++ r ∧ L m r := by
  simpa only [Uncut, not_forall, not_not, exists_prop] using h

namespace Decides

variable {f : Recognizer α} {g : Recognizer β} {L L' : Text → Text → Prop}

theorem congr (h : Decides f options L) (hL : ∀ m r, L m r ↔ L' m r) : Decides f options L' where
  takes hcut := h.takes ((hL _ _).mpr hcut)
  refuses huncut := h.refuses fun m r ht hcut => huncut m r ht ((hL m r).mp hcut)

theorem congr_run {f' : Recognizer α} (h : Decides f options L)
    (hrun : ∀ c, (f'.run c).value = (f.run c).value ∧ (f'.run c).cursor = (f.run c).cursor) :
    Decides f' options L where
  takes := by
    intro m r hcut read
    rw [(hrun _).1, (hrun _).2]
    exact h.takes hcut read
  refuses := fun huncut read => (hrun _).1.trans (h.refuses huncut read)

/-- A match is a cut that the relation admits. -/
theorem exists_cut (h : Decides f options L) {read t : Text}
    (hsome : (f.run ⟨read, t, options⟩).value.isSome) : ∃ m r, t = m ++ r ∧ L m r := by
  refine exists_cut_of_not_uncut fun huncut => ?_
  rw [h.refuses huncut read] at hsome
  exact Bool.false_ne_true hsome

/-- **A relation that is decided admits at most one cut of a text.** -/
theorem unique (h : Decides f options L) {m m' r r' : Text} (hcut : L m r) (hcut' : L m' r')
    (heq : m ++ r = m' ++ r') : m = m' ∧ r = r' := by
  -- Both cuts are made by the same run, and it ends in one place.
  have hcursor := (h.takes hcut []).2
  rw [heq, (h.takes hcut' []).2, List.append_nil, List.append_nil] at hcursor
  obtain ⟨hm, hr⟩ : m'.reverse = m.reverse ∧ r' = r := by simpa using hcursor
  exact ⟨(List.reverse_injective hm).symm, hr.symm⟩

/-- A recognizer that settles answers with the match. -/
theorem value_eq {f : Recognizer Text} (h : Decides f options L) (hf : Settles f)
    {read m r : Text} (hcut : L m r) : (f.run ⟨read, m ++ r, options⟩).value = some m := by
  obtain ⟨hsome, hcursor⟩ := h.takes hcut read
  obtain ⟨m', hm'⟩ := Option.isSome_iff_exists.mp hsome
  have hreads := (hf.reads hm').rest_eq
  rw [hcursor, List.append_cancel_right_eq] at hreads
  rw [hm', hreads]

/-- What it answers with is cut off. -/
theorem cut_of_value {f : Recognizer Text} (h : Decides f options L) (hf : Settles f)
    {read t m : Text} (hm : (f.run ⟨read, t, options⟩).value = some m) :
    ∃ r, t = m ++ r ∧ L m r := by
  obtain ⟨m', r, rfl, hcut⟩ := h.exists_cut (Option.isSome_iff_exists.mpr ⟨m, hm⟩)
  obtain rfl : m' = m := Option.some.inj ((h.value_eq hf hcut).symm.trans hm)
  exact ⟨r, rfl, hcut⟩

/-- **A whole text is recognized** if the relation admits the cut at its end. -/
theorem recognizeWhole_eq_ok_iff {f : Recognizer Text} (h : Decides f options L)
    (hf : Settles f) {t m : Text} :
    f.recognizeWhole t options = .ok m ↔ m = t ∧ L t [] := by
  rw [Recognizer.recognizeWhole_eq_ok_iff]
  constructor
  · rintro ⟨hvalue, hrest⟩
    obtain ⟨r, rfl, hcut⟩ := h.cut_of_value hf hvalue
    have hcursor : (f.run (.atStart (m ++ r) options)).cursor = _ := (h.takes hcut []).2
    rw [hcursor] at hrest
    obtain rfl : r = [] := hrest
    rw [List.append_nil]
    exact ⟨rfl, hcut⟩
  · rintro ⟨rfl, hcut⟩
    have hvalue : (f.run (.atStart (m ++ []) options)).value = some m := h.value_eq hf hcut
    have hcursor : (f.run (.atStart (m ++ []) options)).cursor = _ := (h.takes hcut []).2
    rw [List.append_nil] at hvalue hcursor
    exact ⟨hvalue, congrArg Cursor.rest hcursor⟩

end Decides

/-! ### Recognizers that read at most one character -/

/-- A text does not begin with a character that has the property `p`. -/
def Avoids (p : Char → Bool) (t : Text) : Prop := t.head?.any p = false

instance (p : Char → Bool) (t : Text) : Decidable (Avoids p t) :=
  inferInstanceAs (Decidable (t.head?.any p = false))

@[simp] theorem avoids_nil (p : Char → Bool) : Avoids p [] := rfl

@[simp] theorem avoids_cons (p : Char → Bool) (ch : Char) (t : Text) :
    Avoids p (ch :: t) ↔ p ch = false := by
  simp [Avoids]

/-- What a text does not begin with, none of its beginnings begins with. -/
theorem Avoids.of_append {p : Char → Bool} {t s : Text} (h : Avoids p (t ++ s)) : Avoids p t := by
  cases t with
  | nil => exact avoids_nil p
  | cons ch t =>
    rw [avoids_cons]
    exact (avoids_cons p ch (t ++ s)).mp h

theorem avoids_append_iff {p : Char → Bool} {t s : Text} (ht : t ≠ []) :
    Avoids p (t ++ s) ↔ Avoids p t := by
  cases t with
  | nil => exact absurd rfl ht
  | cons ch t => rw [List.cons_append, avoids_cons, avoids_cons]

/-- A text begins with a character that has the property `p`. -/
def Headed (p : Char → Bool) (t : Text) : Prop := ∃ ch s, t = ch :: s ∧ p ch = true

theorem Headed.ne_nil {p : Char → Bool} {t : Text} (h : Headed p t) : t ≠ [] := by
  obtain ⟨ch, s, rfl, -⟩ := h
  exact List.cons_ne_nil ch s

theorem Headed.append {p : Char → Bool} {t : Text} (h : Headed p t) (s : Text) :
    Headed p (t ++ s) := by
  obtain ⟨ch, t, rfl, hch⟩ := h
  exact ⟨ch, t ++ s, rfl, hch⟩

theorem Headed.avoids {p q : Char → Bool} {t : Text} (h : Headed p t)
    (hpq : ∀ ch, p ch = true → q ch = false) : Avoids q t := by
  obtain ⟨ch, t, rfl, hch⟩ := h
  exact (avoids_cons q ch t).mpr (hpq ch hch)

theorem Avoids.not_headed {p : Char → Bool} {t : Text} (h : Avoids p t) : ¬Headed p t := by
  rintro ⟨ch, t, rfl, hch⟩
  rw [avoids_cons, hch] at h
  exact Bool.noConfusion h

theorem Avoids.eq_nil_of_isPrefix {p : Char → Bool} {t s : Text} (h : Avoids p t) (hs : Headed p s)
    (hle : t <+: s) : t = [] := by
  obtain ⟨r, rfl⟩ := hle
  by_contra hne
  exact ((avoids_append_iff hne).mpr h).not_headed hs

theorem decides_pure (a : α) : Decides (pure a : Recognizer α) options fun m _ => m = [] where
  takes := by
    rintro m r rfl read
    exact ⟨rfl, rfl⟩
  refuses := fun {t} huncut => absurd rfl (huncut [] t rfl)

theorem decides_notFollowedBy (p : Char → Bool) :
    Decides (notFollowedBy p) options fun m r => m = [] ∧ Avoids p r where
  takes := by
    rintro m r ⟨rfl, hr⟩ read
    refine ⟨?_, rfl⟩
    change (if r.head?.any p then none else some ()).isSome = true
    rw [hr]
    rfl
  refuses := by
    intro t huncut read
    have ht : t.head?.any p = true := by
      rw [← Bool.not_eq_false]
      exact fun ht => huncut [] t rfl ⟨rfl, ht⟩
    change (if t.head?.any p then none else some ()) = none
    rw [ht]
    rfl

theorem failsInPlace_satisfy (p : Char → Bool) : FailsInPlace (satisfy p) := by
  intro c hnone
  cases hrest : c.rest with
  | nil => rw [run_satisfy_nil p c hrest]
  | cons ch rest =>
    rw [run_satisfy_cons p c hrest] at hnone ⊢
    by_cases hp : p ch
    · rw [if_pos hp] at hnone
      exact absurd hnone (Option.some_ne_none _)
    · rw [if_neg hp]

/-- What settles and has a recipe fails in place, options included. -/
theorem failsInPlace_of_settles {f : Recognizer Text} (recipe : Recipe f) (hf : Settles f) :
    FailsInPlace f := by
  intro c hnone
  have hreads := hf.reads_nil hnone
  have hoptions := recipe.options_run c
  obtain ⟨read, rest, options⟩ := c
  rcases hd : (f.run ⟨read, rest, options⟩).cursor with ⟨read', rest', options'⟩
  rw [hd] at hreads hoptions
  obtain rfl : rest = rest' := hreads.rest_eq
  obtain rfl : read' = read := hreads.read_eq
  obtain rfl : options' = options := hoptions
  rfl

/-! ### Sequences -/

/-- The match is cut once more; the first part sees all that follows it. -/
def Sequel (L L' : Text → Text → Prop) (m r : Text) : Prop :=
  ∃ m₁ m₂, m = m₁ ++ m₂ ∧ L m₁ (m₂ ++ r) ∧ L' m₂ r

theorem run_andThen_of_isSome {f : Recognizer α} {g : Recognizer β} {c : Cursor}
    (h : (f.run c).value.isSome) :
    ((f >>= fun _ => g).run c).value = (g.run (f.run c).cursor).value ∧
      ((f >>= fun _ => g).run c).cursor = (g.run (f.run c).cursor).cursor := by
  obtain ⟨a, ha⟩ := Option.isSome_iff_exists.mp h
  rw [run_bind, ha]
  exact ⟨rfl, rfl⟩

theorem Decides.andThen {f : Recognizer α} {g : Recognizer β} {L L' : Text → Text → Prop}
    (hf : Decides f options L) (hg : Decides g options L') :
    Decides (f >>= fun _ => g) options (Sequel L L') where
  takes := by
    rintro _ r ⟨m₁, m₂, rfl, hm₁, hm₂⟩ read
    obtain ⟨hsome, hcursor⟩ := hf.takes hm₁ read
    obtain ⟨hvalue, hlast⟩ := run_andThen_of_isSome (g := g) hsome
    obtain ⟨hsome', hcursor'⟩ := hg.takes hm₂ (m₁.reverse ++ read)
    rw [List.append_assoc, hvalue, hlast, hcursor, hcursor', List.reverse_append,
      List.append_assoc]
    exact ⟨hsome', rfl⟩
  refuses := by
    intro t huncut read
    by_cases ht : Uncut L t
    · rw [run_bind, hf.refuses ht read]
    · obtain ⟨m₁, t', rfl, hm₁⟩ := exists_cut_of_not_uncut ht
      -- The first part makes the one cut there is, so the second decides.
      obtain ⟨hsome, hcursor⟩ := hf.takes hm₁ read
      rw [(run_andThen_of_isSome (g := g) hsome).1, hcursor]
      refine hg.refuses (fun m₂ r hr hm₂ => ?_) _
      subst hr
      exact huncut (m₁ ++ m₂) r (List.append_assoc ..).symm ⟨m₁, m₂, rfl, hm₁, hm₂⟩

/-- A test of the match itself. -/
theorem Decides.guard {f : Recognizer Text} {L : Text → Text → Prop} (h : Decides f options L)
    (hf : Settles f) (p : Text → Bool) :
    Decides (f >>= fun found => guard (p found)) options fun m r => L m r ∧ p m = true where
  takes := by
    rintro m r ⟨hcut, hp⟩ read
    rw [run_bind, h.value_eq hf hcut]
    dsimp only
    rw [hp]
    exact ⟨rfl, (h.takes hcut read).2⟩
  refuses := by
    intro t huncut read
    by_cases ht : Uncut L t
    · rw [run_bind, h.refuses ht read]
    · obtain ⟨m, r, rfl, hcut⟩ := exists_cut_of_not_uncut ht
      have hp : p m = false := by
        rw [← Bool.not_eq_true]
        exact fun hp => huncut m r rfl ⟨hcut, hp⟩
      rw [run_bind, h.value_eq hf hcut]
      dsimp only
      rw [hp]
      rfl

theorem Decides.atomic {f : Recognizer α} {L : Text → Text → Prop} (h : Decides f options L) :
    Decides (atomic f) options L where
  takes := by
    intro m r hcut read
    obtain ⟨hsome, hcursor⟩ := h.takes hcut read
    refine ⟨(isSome_value_atomic f _).trans hsome, ?_⟩
    obtain ⟨a, ha⟩ := Option.isSome_iff_exists.mp hsome
    rw [run_atomic, ha]
    exact hcursor
  refuses := by
    intro t huncut read
    rw [run_atomic, h.refuses huncut read]

/-! ### Alternatives -/

/-- The second relation counts where the first admits no cut. -/
def Otherwise (L L' : Text → Text → Prop) (m r : Text) : Prop :=
  L m r ∨ Uncut L (m ++ r) ∧ L' m r

theorem run_orElse_of_none {f g : Recognizer α} {c : Cursor} (hf : FailsInPlace f)
    (h : (f.run c).value = none) :
    ((f <|> g).run c).value = (g.run c).value ∧ ((f <|> g).run c).cursor = (g.run c).cursor := by
  rw [run_orElse, h, hf c h]
  exact ⟨rfl, rfl⟩

theorem FailsInPlace.orElse {f g : Recognizer α} (hf : FailsInPlace f) (hg : FailsInPlace g) :
    FailsInPlace (f <|> g) := by
  intro c hnone
  cases hvalue : (f.run c).value with
  | none =>
    obtain ⟨hsecond, hcursor⟩ := run_orElse_of_none (g := g) hf hvalue
    rw [hcursor]
    exact hg c (hsecond.symm.trans hnone)
  | some a =>
    rw [run_orElse, hvalue] at hnone
    exact absurd (hvalue.symm.trans hnone) (Option.some_ne_none a)

theorem Decides.orElse {f g : Recognizer α} {L L' : Text → Text → Prop}
    (hf : Decides f options L) (hplace : FailsInPlace f) (hg : Decides g options L') :
    Decides (f <|> g) options (Otherwise L L') where
  takes := by
    rintro m r (hcut | ⟨huncut, hcut⟩) read
    · obtain ⟨hsome, hcursor⟩ := hf.takes hcut read
      obtain ⟨a, ha⟩ := Option.isSome_iff_exists.mp hsome
      rw [run_orElse, ha]
      exact ⟨hsome, hcursor⟩
    · obtain ⟨hvalue, hcursor⟩ := run_orElse_of_none (g := g) hplace (hf.refuses huncut read)
      rw [hvalue, hcursor]
      exact hg.takes hcut read
  refuses := by
    intro t huncut read
    -- Both alternatives are uncut, the second because the first is.
    have hfirst : Uncut L t := fun m r ht hcut => huncut m r ht (Or.inl hcut)
    rw [(run_orElse_of_none (g := g) hplace (hf.refuses hfirst read)).1]
    refine hg.refuses (fun m r ht hcut => huncut m r ht (Or.inr ⟨?_, hcut⟩)) read
    rw [← ht]
    exact hfirst

/-- Where no text has a cut of both, the order of the alternatives does not
matter. -/
theorem Decides.orElse_of_disjoint {f g : Recognizer α} {L L' : Text → Text → Prop}
    (hf : Decides f options L) (hplace : FailsInPlace f) (hg : Decides g options L')
    (hdisjoint : ∀ {m r m' r'}, m ++ r = m' ++ r' → L' m r → ¬L m' r') :
    Decides (f <|> g) options fun m r => L m r ∨ L' m r := by
  refine (hf.orElse hplace hg).congr fun m r => or_congr_right ?_
  exact ⟨fun h => h.2, fun h => ⟨fun m' r' heq => hdisjoint heq h, h⟩⟩

/-- Alternatives that begin with different characters. -/
theorem Decides.orElse_of_headed {f g : Recognizer α} {L L' : Text → Text → Prop}
    {p q : Char → Bool} (hf : Decides f options L) (hplace : FailsInPlace f)
    (hg : Decides g options L') (hp : ∀ {m r}, L m r → Headed p m)
    (hq : ∀ {m r}, L' m r → Headed q m) (hpq : ∀ ch, q ch = true → p ch = false) :
    Decides (f <|> g) options fun m r => L m r ∨ L' m r := by
  refine hf.orElse_of_disjoint hplace hg fun {m r m' r'} heq hcut' hcut => ?_
  have havoids : Avoids p (m ++ r) := ((hq hcut').append r).avoids hpq
  rw [heq] at havoids
  exact havoids.not_headed ((hp hcut).append r')

theorem Decides.optionally {f : Recognizer α} {L : Text → Text → Prop} (h : Decides f options L)
    (hplace : FailsInPlace (Recognizer.atomic f)) :
    Decides (optionally f) options (Otherwise L fun m _ => m = []) :=
  h.atomic.orElse hplace (decides_pure _)

/-- A part that a mark makes mandatory is there, or the mark is not. -/
theorem Decides.whenMatched {f : Recognizer α} {g : Recognizer β} {L L' : Text → Text → Prop}
    (hf : Decides f options L) (hplace : FailsInPlace f) (hg : Decides g options L') :
    Decides (whenMatched f g) options fun m r => Sequel L L' m r ∨ m = [] ∧ Uncut L r where
  takes := by
    rintro m r (hcut | ⟨rfl, huncut⟩) read
    · obtain ⟨m₁, m₂, rfl, hm₁, hm₂⟩ := hcut
      obtain ⟨hsome, hcursor⟩ := hf.takes hm₁ read
      obtain ⟨a, ha⟩ := Option.isSome_iff_exists.mp hsome
      obtain ⟨hsome', hcursor'⟩ := hg.takes hm₂ (m₁.reverse ++ read)
      rw [List.append_assoc, run_whenMatched, ha]
      simp only [hcursor, hcursor', Option.isSome_map, List.reverse_append, List.append_assoc]
      exact ⟨hsome', trivial⟩
    · have hnone := hf.refuses huncut read
      rw [List.nil_append, run_whenMatched, hnone, hplace _ hnone]
      exact ⟨rfl, rfl⟩
  refuses := by
    intro t huncut read
    by_cases ht : Uncut L t
    · exact absurd (Or.inr ⟨rfl, ht⟩) (huncut [] t rfl)
    · obtain ⟨m₁, t', rfl, hm₁⟩ := exists_cut_of_not_uncut ht
      obtain ⟨hsome, hcursor⟩ := hf.takes hm₁ read
      obtain ⟨a, ha⟩ := Option.isSome_iff_exists.mp hsome
      have hbody : g.Refuses options t' := by
        refine hg.refuses fun m₂ r hr hm₂ => ?_
        subst hr
        exact huncut (m₁ ++ m₂) r (List.append_assoc ..).symm
          (Or.inl ⟨m₁, m₂, rfl, hm₁, hm₂⟩)
      rw [run_whenMatched, ha]
      simp only [hcursor, hbody (m₁.reverse ++ read), Option.map_none]

/-! ### Searches -/

theorem FailsInPlace.bind_pure {f : Recognizer α} (hf : FailsInPlace f) (g : α → β) :
    FailsInPlace (f >>= fun a => pure (g a)) := by
  intro c hnone
  rw [run_bind_pure] at hnone ⊢
  exact hf c (Option.map_eq_none_iff.mp hnone)

section Search

variable {ι : Type} {f : ι → Recognizer α} (hplace : ∀ i, FailsInPlace (f i)) {is : List ι}
  {c : Cursor}
include hplace

/-- A search fails in place where every alternative does. -/
theorem run_firstOf_of_none (hnone : ∀ i ∈ is, ((f i).run c).value = none) :
    ((firstOf (is.map f)).run c).value = none ∧ ((firstOf (is.map f)).run c).cursor = c := by
  induction is with
  | nil => exact ⟨rfl, rfl⟩
  | cons i is ih =>
    obtain ⟨hi, his⟩ := List.forall_mem_cons.mp hnone
    obtain ⟨hvalue, hcursor⟩ := run_orElse_of_none (g := firstOf (is.map f)) (hplace i) hi
    rw [List.map_cons, firstOf_cons, hvalue, hcursor]
    exact ih his

/-- **Where only one alternative matches, the search does what that one does**,
wherever it stands among the others. -/
theorem run_firstOf_of_unique {i : ι} (hmem : i ∈ is) {a : α} (ha : ((f i).run c).value = some a)
    (hunique : ∀ j, ((f j).run c).value.isSome → j = i) :
    ((firstOf (is.map f)).run c).value = some a ∧
      ((firstOf (is.map f)).run c).cursor = ((f i).run c).cursor := by
  induction is with
  | nil => exact absurd hmem List.not_mem_nil
  | cons j is ih =>
    rw [List.map_cons, firstOf_cons]
    cases hj : ((f j).run c).value with
    | some b =>
      obtain rfl : j = i := hunique j (Option.isSome_iff_exists.mpr ⟨b, hj⟩)
      rw [run_orElse, hj]
      exact ⟨ha, rfl⟩
    | none =>
      have hne : i ≠ j := by
        rintro rfl
        exact Option.some_ne_none a (ha.symm.trans hj)
      obtain ⟨hvalue, hcursor⟩ := run_orElse_of_none (g := firstOf (is.map f)) (hplace j) hj
      rw [hvalue, hcursor]
      exact ih ((List.mem_cons.mp hmem).resolve_left hne)

/-- A search among alternatives that exclude each other tells which of them
matched. -/
theorem run_search_of_value {i : ι} (hmem : i ∈ is) {a : α} (ha : ((f i).run c).value = some a)
    (hunique : ∀ {i j}, ((f i).run c).value.isSome → ((f j).run c).value.isSome → i = j) :
    ((firstOf (is.map fun i => f i >>= fun a => pure (i, a))).run c).value = some (i, a) ∧
      ((firstOf (is.map fun i => f i >>= fun a => pure (i, a))).run c).cursor =
        ((f i).run c).cursor := by
  have hfound : ((f i >>= fun a => pure (i, a)).run c).value = some (i, a) := by
    rw [run_bind_pure, ha]
    rfl
  have hsearch := run_firstOf_of_unique (fun i => (hplace i).bind_pure (Prod.mk i)) hmem hfound
    fun j hj => by
      rw [run_bind_pure, Option.isSome_map] at hj
      exact hunique hj (Option.isSome_iff_exists.mpr ⟨a, ha⟩)
  rwa [run_bind_pure] at hsearch

/-- It fails in place where none of them matches. -/
theorem run_search_of_none (hnone : ∀ i ∈ is, ((f i).run c).value = none) :
    ((firstOf (is.map fun i => f i >>= fun a => pure (i, a))).run c).value = none ∧
      ((firstOf (is.map fun i => f i >>= fun a => pure (i, a))).run c).cursor = c := by
  refine run_firstOf_of_none (fun i => (hplace i).bind_pure (Prod.mk i)) fun i hi => ?_
  rw [run_bind_pure, hnone i hi]
  rfl

/-- **Only which alternatives are tried matters**, and not in which order, if
they exclude each other. -/
theorem run_search_congr {is' : List ι} (h : ∀ i, i ∈ is ↔ i ∈ is')
    (hunique : ∀ {i j}, ((f i).run c).value.isSome → ((f j).run c).value.isSome → i = j) :
    ((firstOf (is.map fun i => f i >>= fun a => pure (i, a))).run c).value =
        ((firstOf (is'.map fun i => f i >>= fun a => pure (i, a))).run c).value ∧
      ((firstOf (is.map fun i => f i >>= fun a => pure (i, a))).run c).cursor =
        ((firstOf (is'.map fun i => f i >>= fun a => pure (i, a))).run c).cursor := by
  by_cases hnone : ∀ i ∈ is, ((f i).run c).value = none
  · have hnone' : ∀ i ∈ is', ((f i).run c).value = none := fun i hi => hnone i ((h i).mpr hi)
    obtain ⟨hvalue, hcursor⟩ := run_search_of_none hplace hnone
    obtain ⟨hvalue', hcursor'⟩ := run_search_of_none hplace hnone'
    exact ⟨hvalue.trans hvalue'.symm, hcursor.trans hcursor'.symm⟩
  · simp only [not_forall] at hnone
    obtain ⟨i, hmem, hsome⟩ := hnone
    obtain ⟨a, ha⟩ := Option.ne_none_iff_exists'.mp hsome
    obtain ⟨hvalue, hcursor⟩ := run_search_of_value hplace hmem ha hunique
    obtain ⟨hvalue', hcursor'⟩ := run_search_of_value hplace ((h i).mp hmem) ha hunique
    exact ⟨hvalue.trans hvalue'.symm, hcursor.trans hcursor'.symm⟩

end Search

/-! ### Loops -/

/-- **The match of a loop**: parts that the relation admits, each in front of
all that follows it, until it admits no cut of what is left. -/
inductive Iterated (L : Text → Text → Prop) : Text → Text → Prop
  /-- There is no further part. -/
  | stop {r : Text} : Uncut L r → Iterated L [] r
  /-- There is a further part. -/
  | step {m m' r : Text} : L m (m' ++ r) → Iterated L m' r → Iterated L (m ++ m') r

section Loop

variable {f : Recognizer α} {L : Text → Text → Prop}

theorem Iterated.uncut {m r : Text} (h : Iterated L m r) : Uncut L r := by
  induction h with
  | stop huncut => exact huncut
  | step _ _ ih => exact ih

/-- What a loop cut off is cut off again where nothing follows it, if cutting
does not depend on what comes later than what follows. -/
theorem Iterated.trim (hL : ∀ {m r}, L m r → m ≠ [])
    (htrim : ∀ {m r s}, L m (r ++ s) → L m r) {m r : Text} (h : Iterated L m r) :
    Iterated L m [] := by
  induction h with
  | stop _ => exact .stop (Uncut.of_nil hL)
  | @step m m' r hcut _ ih =>
    refine .step ?_ ih
    rw [List.append_nil]
    exact htrim hcut

/-- Every text can be cut after as many parts as possible. -/
theorem exists_iterated (hL : ∀ {m r}, L m r → m ≠ []) (t : Text) :
    ∃ m r, t = m ++ r ∧ Iterated L m r := by
  induction hn : t.length using Nat.strongRecOn generalizing t with
  | _ n ih =>
    by_cases ht : Uncut L t
    · exact ⟨[], t, rfl, .stop ht⟩
    · obtain ⟨m, t', rfl, hcut⟩ := exists_cut_of_not_uncut ht
      -- The part is not empty, so less text is left.
      have hlt : t'.length < n := by
        have hpos := List.length_pos_iff.mpr (hL hcut)
        rw [← hn, List.length_append]
        omega
      obtain ⟨m', r, rfl, hiterated⟩ := ih _ hlt t' rfl
      exact ⟨m ++ m', r, (List.append_assoc ..).symm, .step hcut hiterated⟩

theorem finalCursor_runs_of_iterated (h : Decides f options L) (hplace : FailsInPlace f)
    (hL : ∀ {m r}, L m r → m ≠ []) {m r : Text} (hm : Iterated L m r) (read : Text) :
    finalCursor ⟨read, m ++ r, options⟩ (runs f ⟨read, m ++ r, options⟩) =
      ⟨m.reverse ++ read, r, options⟩ := by
  induction hm generalizing read with
  | @stop r huncut =>
    have hnone := h.refuses huncut read
    rw [List.nil_append, runs_of_not_goesOn]
    · exact hplace _ hnone
    · rw [goesOn_iff, hnone]
      exact fun hgo => Bool.false_ne_true hgo.1
  | @step m m' r hcut _ ih =>
    obtain ⟨hsome, hcursor⟩ := h.takes hcut read
    rw [List.append_assoc, runs_of_goesOn, finalCursor_cons, hcursor, ih, List.reverse_append,
      List.append_assoc]
    -- The body read `m`, which is not empty, so the loop goes on.
    rw [goesOn_iff, hcursor]
    refine ⟨hsome, ?_⟩
    have hpos := List.length_pos_iff.mpr (hL hcut)
    simp only [List.length_append]
    omega

/-- **A loop cuts off as many parts as possible**, if no part is empty. -/
theorem Decides.many (h : Decides f options L) (hplace : FailsInPlace f)
    (hL : ∀ {m r}, L m r → m ≠ []) : Decides (many f) options (Iterated L) where
  takes := fun hm read => ⟨rfl, finalCursor_runs_of_iterated h hplace hL hm read⟩
  refuses := by
    intro t huncut
    obtain ⟨m, r, ht, hm⟩ := exists_iterated hL t
    exact absurd hm (huncut m r ht)

theorem Decides.many1 (h : Decides f options L) (hplace : FailsInPlace f)
    (hL : ∀ {m r}, L m r → m ≠ []) : Decides (many1 f) options (Sequel L (Iterated L)) :=
  (h.andThen (h.many hplace hL)).atomic

end Loop

end Recognizer

end SolidityTokens
