import Mathlib.Data.List.Infix
import SolidityTokens.Proofs.Recognizer.Iteration
import SolidityTokens.Proofs.Recognizer.Languages

/-!
# Counted runs

Running a body a given number of times and running it as often as possible are
two loops with opposite manners. The first gives everything back when one run
fails, the second keeps what matched before. Both make the same runs
(`SolidityTokens.Recognizer.after`), and so they can be compared.

A counted loop **matches if all its runs do**
(`SolidityTokens.Recognizer.value_times_eq_some_iff`), and it may be cut in two
(`SolidityTokens.Recognizer.times_add_readsAlike`). For the latter it does not
matter what the body leaves read when it fails, since the failure of either part
takes the cursor back to the start: of the part, and then of the whole.

An uncounted loop makes the runs that match and one that does not, if the body
reads something wherever it matches. So **`n` runs match exactly where the loop
makes that many**, and what they match is what the loop begins with
(`SolidityTokens.Recognizer.CountsAlong`).
-/

namespace SolidityTokens

namespace Recognizer

variable {α β : Type}

/-! ### Two parts of a count -/

theorem inTurn_add (f : Recognizer α) (m n : Nat) :
    inTurn f (m + n) = inTurn f m >>= fun _ => inTurn f n := by
  induction m with
  | zero => rw [Nat.zero_add, inTurn_zero, pure_bind]
  | succ m ih => rw [Nat.succ_add, inTurn_succ, inTurn_succ, bind_assoc, ih]

/-- **A sequence that is a unit may be made of units**: what a failing part
leaves read is given back by the whole, if the part does not give it back
itself. -/
theorem atomic_andThen_readsAlike (f : Recognizer α) (g : Recognizer β) (c : Cursor) :
    ReadsAlike (atomic (f >>= fun _ => g)) (atomic (atomic f >>= fun _ => atomic g)) c := by
  rcases hf : f.run c with ⟨_ | a, d, es⟩
  · -- Going back to the start twice is going back once.
    refine ⟨by simp only [run_atomic, run_bind, hf], ?_⟩
    simp only [run_atomic, run_bind, hf]
    rfl
  · rcases hg : g.run d with ⟨_ | b, d', es'⟩
    · -- So is going back to where the second part began, and then to the start.
      refine ⟨by simp only [run_atomic, run_bind, hf, hg], ?_⟩
      simp only [run_atomic, run_bind, hf, hg]
      rfl
    · constructor <;> simp only [run_atomic, run_bind, hf, hg]

/-- **Runs may be counted in two parts.** -/
theorem times_add_readsAlike (f : Recognizer α) (m n : Nat) (c : Cursor) :
    ReadsAlike (times (m + n) f) (atomic (times m f >>= fun _ => times n f)) c := by
  rw [times, inTurn_add]
  exact atomic_andThen_readsAlike (inTurn f m) (inTurn f n) c

/-! ### When counted runs match -/

section Counted

variable {f : Recognizer α} {c : Cursor} {n : Nat}

/-- Runs in turn match if each of them does, from where the one before it
stopped. -/
theorem isSome_value_inTurn_iff :
    ((inTurn f n).run c).value.isSome ↔ ∀ k < n, (f.run (after f c k)).value.isSome := by
  induction n generalizing c with
  | zero => exact iff_of_true rfl fun k hk => absurd hk (Nat.not_lt_zero k)
  | succ n ih =>
    rw [inTurn_succ, run_bind]
    cases hvalue : (f.run c).value with
    | none =>
      refine iff_of_false Bool.false_ne_true fun hall => ?_
      have hfirst := hall 0 (Nat.succ_pos n)
      rw [after_zero, hvalue] at hfirst
      exact Bool.false_ne_true hfirst
    | some a =>
      refine ih.trans ⟨fun hall k hk => ?_, fun hall k hk => ?_⟩
      · cases k with
        | zero => rw [after_zero, hvalue]; rfl
        | succ k =>
          rw [after_succ_left]
          exact hall k (Nat.lt_of_succ_lt_succ hk)
      · rw [← after_succ_left]
        exact hall (k + 1) (Nat.succ_lt_succ hk)

theorem cursor_inTurn (h : ((inTurn f n).run c).value.isSome) :
    ((inTurn f n).run c).cursor = after f c n := by
  induction n generalizing c with
  | zero => rfl
  | succ n ih =>
    rw [inTurn_succ, run_bind] at h ⊢
    cases hvalue : (f.run c).value with
    | none =>
      rw [hvalue] at h
      exact absurd h Bool.false_ne_true
    | some a =>
      rw [hvalue] at h
      rw [after_succ_left]
      exact ih h

/-- **Counted runs match if all of them do**, and find what they read. -/
theorem value_times_eq_some_iff (hf : Forward f) {m : Text} :
    ((times n f).run c).value = some m ↔
      (∀ k < n, (f.run (after f c k)).value.isSome) ∧ m = (pieces f c n).flatten := by
  rw [← isSome_value_inTurn_iff]
  constructor
  · intro hm
    have hsome : ((inTurn f n).run c).value.isSome := by
      rw [← isSome_value_atomic]
      exact Option.isSome_iff_exists.mpr ⟨m, hm⟩
    refine ⟨hsome, ?_⟩
    have hfound := (run_atomic_of_isSome hsome).1
    rw [cursor_inTurn hsome, (hf.reads_pieces c n).textSince_eq] at hfound
    exact Option.some.inj (hm.symm.trans hfound)
  · rintro ⟨hsome, rfl⟩
    have hfound := (run_atomic_of_isSome hsome).1
    rwa [cursor_inTurn hsome, (hf.reads_pieces c n).textSince_eq] at hfound

theorem isSome_value_times_iff :
    ((times n f).run c).value.isSome ↔ ∀ k < n, (f.run (after f c k)).value.isSome := by
  rw [times, isSome_value_atomic]
  exact isSome_value_inTurn_iff

/-- **One run that fails takes the cursor back to the start.** -/
theorem run_times_of_none (hf : Forward f) {k : Nat} (hk : k < n)
    (hnone : (f.run (after f c k)).value = none) :
    ((times n f).run c).value = none ∧ ((times n f).run c).cursor.position = c.position := by
  have hfails : ((times n f).run c).value = none := by
    rw [← Option.not_isSome_iff_eq_none, isSome_value_times_iff]
    intro hall
    exact Option.isSome_iff_ne_none.mp (hall k hk) hnone
  exact ⟨hfails, ((hf.settles_times n).reads_nil hfails).position_eq⟩

end Counted

/-! ### Counting the runs of a loop -/

/-- The runs of a loop that match. -/
def matchingRuns (f : Recognizer α) (c : Cursor) : List (Outcome α) :=
  (runs f c).filter (·.value.isSome)

/-- **Counted runs keep step with the loop.** -/
structure CountsAlong (f : Recognizer α) (c : Cursor) (n : Nat) : Prop where
  /-- The runs of the loop that match are the first there are. -/
  matchingRuns_eq : matchingRuns f c =
    (List.range (matchingRuns f c).length).map fun k => f.run (after f c k)
  /-- A number of runs match if that many runs of the loop do, and they find
  what these read. -/
  value_eq_some_iff : ∀ m, ((times n f).run c).value = some m ↔
    n ≤ (matchingRuns f c).length ∧ m = (pieces f c n).flatten
  /-- The loop begins with what they find. -/
  isPrefix : ∀ m, ((times n f).run c).value = some m →
    ∃ found, ((many f).run c).value = some found ∧ m <+: found

section Loop

variable {f : Recognizer α} {c : Cursor} {n : Nat}

/-- If the body makes progress, it is a failure that ends the loop. -/
theorem FullRuns.value_eq_none (hprogress : Progresses f) (h : FullRuns f c n) :
    (f.run (after f c n)).value = none := by
  refine h.stops.elim id fun hstay => ?_
  rw [← Option.not_isSome_iff_eq_none]
  intro hsome
  have hlt := hprogress (after f c n) hsome
  rw [← after_succ, hstay] at hlt
  exact Nat.lt_irrefl _ hlt

/-- **The runs of the loop that match are its full runs.** -/
theorem FullRuns.matchingRuns_eq (hf : Forward f) (hprogress : Progresses f)
    (h : FullRuns f c n) : matchingRuns f c = (List.range n).map fun k => f.run (after f c k) := by
  rw [matchingRuns, h.runs_eq hf, List.range_succ, List.map_append, List.filter_append,
    List.filter_eq_self.mpr, List.map_singleton, List.filter_singleton,
    h.value_eq_none hprogress]
  · exact List.append_nil _
  · intro outcome hmem
    obtain ⟨k, hk, rfl⟩ := List.mem_map.mp hmem
    exact h.isSome k (List.mem_range.mp hk)

/-- Any number of runs match if the loop has that many full ones. -/
theorem FullRuns.forall_isSome_iff (hprogress : Progresses f) {count : Nat}
    (h : FullRuns f c count) : (∀ k < n, (f.run (after f c k)).value.isSome) ↔ n ≤ count := by
  constructor
  · -- The run that ends the loop fails, so it is not among them.
    intro hall
    by_contra hlt
    have hlast := hall count (Nat.lt_of_not_le hlt)
    rw [h.value_eq_none hprogress] at hlast
    exact Bool.false_ne_true hlast
  · exact fun hle k hk => h.isSome k (Nat.lt_of_lt_of_le hk hle)

/-- Some of the runs come first of more. -/
theorem pieces_prefix (f : Recognizer α) (c : Cursor) {m n : Nat} (h : m ≤ n) :
    (pieces f c m).flatten <+: (pieces f c n).flatten := by
  obtain ⟨k, rfl⟩ := Nat.exists_eq_add_of_le h
  refine List.IsPrefix.flatten ?_
  rw [pieces, pieces, List.range_add, List.map_append]
  exact List.prefix_append _ _

theorem countsAlong (hf : Forward f) (hprogress : Progresses f) (c : Cursor) (n : Nat) :
    CountsAlong f c n := by
  obtain ⟨count, hfull⟩ := exists_fullRuns hf c
  have hmatching := hfull.matchingRuns_eq hf hprogress
  have hlength : (matchingRuns f c).length = count := by
    rw [hmatching, List.length_map, List.length_range]
  have hfound : ∀ m, ((times n f).run c).value = some m ↔
      n ≤ count ∧ m = (pieces f c n).flatten := fun m => by
    rw [value_times_eq_some_iff hf, hfull.forall_isSome_iff hprogress]
  refine ⟨?_, ?_, fun m hm => ?_⟩
  · rw [hlength]
    exact hmatching
  · rw [hlength]
    exact hfound
  · obtain ⟨hle, rfl⟩ := (hfound m).mp hm
    exact ⟨_, value_many_eq_pieces hf (hfull.cursor_many hf),
      pieces_prefix f c (Nat.le_succ_of_le hle)⟩

end Loop

end Recognizer

open Recognizer

/-- **The laws of counted runs**, for every body that never moves back, whatever
it leaves read, and at every place of every text:

* they may be counted in two parts, each of them a unit;
* where any of them fails, the cursor is back at the start;
* if the body reads something wherever it matches, they match where the loop
  makes that many matching runs; they find what the first of these read, and the
  loop begins with it. -/
theorem counted_runs_are_lawful {α : Type} {f : Recognizer α} (hf : Forward f) (c : Cursor) :
    (∀ m n, ReadsAlike (times (m + n) f) (atomic (times m f >>= fun _ => times n f)) c) ∧
    (∀ n k, k < n → (f.run (after f c k)).value = none →
      ((times n f).run c).value = none ∧ ((times n f).run c).cursor.position = c.position) ∧
    (Progresses f → ∀ n, CountsAlong f c n) :=
  ⟨fun m n => times_add_readsAlike f m n c, fun _ _ hk hnone => run_times_of_none hf hk hnone,
    fun hprogress n => countsAlong hf hprogress c n⟩

/-- Three runs of which the third leaves an underscore read before it fails:
they are given back, while two of them match, like the two runs of the loop. -/
theorem counted_runs_are_lawful_leaking :
    let leaking := Pattern.underscoreDigit.recognizer
    let c : Cursor := ⟨['é'], "_1_2_x".toList, {}⟩
    Forward leaking ∧ (leaking.run (after leaking c 2)).value = none ∧
      ((times 3 leaking).run c).cursor.position = c.position ∧
      ReadsAlike (times (2 + 1) leaking)
        (atomic (times 2 leaking >>= fun _ => times 1 leaking)) c ∧
      Progresses leaking ∧ CountsAlong leaking c 2 ∧
      ((times 2 leaking).run c).value = some "_1_2".toList := by
  intro leaking c
  have hforward : Forward leaking := Pattern.underscoreDigit.recipe.forward
  have hnone : (leaking.run (after leaking c 2)).value = none := by decide +kernel
  have hprogress : Progresses leaking := by
    refine progresses_of_decides (fun options => (decides_satisfy (· == '_')).andThen
      (decides_satisfy CharClass.decimalDigit.contains)) ?_
    rintro _ r ⟨m, m', rfl, ⟨ch, -, rfl⟩, -⟩
    exact List.cons_ne_nil ch m'
  obtain ⟨hadd, hfails, hcounts⟩ := counted_runs_are_lawful hforward c
  exact ⟨hforward, hnone, (hfails 3 2 (by decide) hnone).2, hadd 2 1, hprogress,
    hcounts hprogress 2, by decide +kernel⟩

end SolidityTokens
