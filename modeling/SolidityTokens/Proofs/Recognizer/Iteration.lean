import Mathlib.Logic.Function.Iterate
import SolidityTokens.Proofs.Grammar.Restoration
import SolidityTokens.Proofs.Recognizer.Alike

/-!
# The laws of loops

A loop runs its body from where the run before it stopped. Where the `k`-th run
begins is an iterate (`SolidityTokens.Recognizer.after`) that has nothing to do
with the loop: it is there whether the runs match or not. What the loop adds is
the decision when to stop, and **it makes all runs that match and read
something, up to the first that does not**
(`SolidityTokens.Recognizer.FullRuns.runs_eq`).

That run counts too. It is the reason why a loop over a body that leaves input
read ends one run later than a loop over a body that gives it back. If the body
does give it back, the loop ends where another run would change nothing
(`SolidityTokens.Recognizer.not_goesOn_finalCursor`), and all other laws follow
from this one: a second loop finds nothing, a loop of loops is the loop, and
asking for one run first makes no difference but at the beginning.
-/

namespace SolidityTokens

namespace Recognizer

variable {α : Type}

/-! ### Runs in succession -/

/-- Where the cursor stands after `k` runs of `f` from `c` on, be it that they
matched or failed. -/
def after (f : Recognizer α) (c : Cursor) (k : Nat) : Cursor :=
  (fun d => (f.run d).cursor)^[k] c

/-- What the `k`-th run reads, counted from zero. -/
def piece (f : Recognizer α) (c : Cursor) (k : Nat) : Text :=
  (after f c (k + 1)).textSince (after f c k)

/-- What each of the first `n` runs reads. -/
def pieces (f : Recognizer α) (c : Cursor) (n : Nat) : List Text :=
  (List.range n).map (piece f c)

section Runs

variable {f : Recognizer α} {c : Cursor} {n : Nat}

@[simp] theorem after_zero (f : Recognizer α) (c : Cursor) : after f c 0 = c := rfl

theorem after_succ (f : Recognizer α) (c : Cursor) (k : Nat) :
    after f c (k + 1) = (f.run (after f c k)).cursor :=
  Function.iterate_succ_apply' _ k c

/-- The runs after the first are the runs from where it stopped. -/
theorem after_succ_left (f : Recognizer α) (c : Cursor) (k : Nat) :
    after f c (k + 1) = after f (f.run c).cursor k :=
  Function.iterate_succ_apply _ k c

theorem pieces_succ (f : Recognizer α) (c : Cursor) (n : Nat) :
    pieces f c (n + 1) = pieces f c n ++ [piece f c n] := by
  rw [pieces, pieces, List.range_succ, List.map_append]
  rfl

theorem Forward.reads_piece (hf : Forward f) (c : Cursor) (k : Nat) :
    (after f c k).Reads (piece f c k) (after f c (k + 1)) := by
  obtain ⟨m, hm⟩ := forward_iff_exists_reads.mp hf (after f c k)
  rw [← after_succ] at hm
  rw [piece, hm.textSince_eq]
  exact hm

/-- **Runs in succession read their pieces one after the other.** -/
theorem Forward.reads_pieces (hf : Forward f) (c : Cursor) (n : Nat) :
    c.Reads (pieces f c n).flatten (after f c n) := by
  induction n with
  | zero => exact .refl c
  | succ n ih =>
    rw [pieces_succ, List.flatten_append, List.flatten_singleton]
    exact ih.trans (hf.reads_piece c n)

/-! ### The runs of a loop -/

theorem value_many (f : Recognizer α) (c : Cursor) :
    ((many f).run c).value = some (((many f).run c).cursor.textSince c) := rfl

/-- A loop that goes on ends where it would have ended from there. -/
theorem cursor_many_of_goesOn (hgo : goesOn c (f.run c)) :
    ((many f).run c).cursor = ((many f).run (f.run c).cursor).cursor := by
  rw [run_many, runs_of_goesOn hgo]
  rfl

/-- **The first `n` runs are full**, and no more: they match and read something,
and the one after them fails or reads nothing. -/
structure FullRuns (f : Recognizer α) (c : Cursor) (n : Nat) : Prop where
  /-- The runs match. -/
  isSome : ∀ k < n, (f.run (after f c k)).value.isSome
  /-- They read something. -/
  advances : ∀ k < n, (after f c k).position < (after f c (k + 1)).position
  /-- The next one fails, or it stays where it is. -/
  stops : (f.run (after f c n)).value = none ∨
    (after f c (n + 1)).position = (after f c n).position

/-- A loop goes on after a run that matched and moved the cursor. -/
theorem Forward.goesOn_iff_position (hf : Forward f) :
    goesOn c (f.run c) ↔
      (f.run c).value.isSome ∧ c.position < (f.run c).cursor.position := by
  obtain ⟨m, hm⟩ := forward_iff_exists_reads.mp hf c
  rw [goesOn_iff, hm.length_rest_lt_iff, ← hm.position_ne_iff]
  exact and_congr_right fun _ => ⟨fun h => Nat.lt_of_le_of_ne hm.position_le h.symm, Nat.ne_of_gt⟩

/-- It stops after a run that failed or stayed where it was. -/
theorem Forward.stops_of_not_goesOn (hf : Forward f) (hstop : ¬goesOn c (f.run c)) :
    (f.run c).value = none ∨ (f.run c).cursor.position = c.position := by
  rw [hf.goesOn_iff_position, not_and_or, Option.not_isSome_iff_eq_none, Nat.not_lt] at hstop
  exact hstop.imp_right fun hle => Nat.le_antisymm hle (hf c).2

/-- A further run before full runs. -/
theorem FullRuns.cons (hf : Forward f) (hgo : goesOn c (f.run c))
    (h : FullRuns f (f.run c).cursor n) : FullRuns f c (n + 1) where
  isSome k hk := by
    cases k with
    | zero => exact (hf.goesOn_iff_position.mp hgo).1
    | succ k =>
      rw [after_succ_left]
      exact h.isSome k (Nat.lt_of_succ_lt_succ hk)
  advances k hk := by
    cases k with
    | zero => exact (hf.goesOn_iff_position.mp hgo).2
    | succ k =>
      rw [after_succ_left, after_succ_left]
      exact h.advances k (Nat.lt_of_succ_lt_succ hk)
  stops := by
    rw [after_succ_left, after_succ_left]
    exact h.stops

theorem fullRuns_zero (hf : Forward f) (hstop : ¬goesOn c (f.run c)) : FullRuns f c 0 where
  isSome k hk := absurd hk (Nat.not_lt_zero k)
  advances k hk := absurd hk (Nat.not_lt_zero k)
  stops := hf.stops_of_not_goesOn hstop

theorem exists_fullRuns_runs_eq (hf : Forward f) (c : Cursor) :
    ∃ n, FullRuns f c n ∧ runs f c = (List.range (n + 1)).map fun k => f.run (after f c k) := by
  fun_induction runs f c with
  | case1 c outcome hgo ih =>
    obtain ⟨n, hfull, hruns⟩ := ih
    refine ⟨n + 1, hfull.cons hf hgo, ?_⟩
    rw [hruns, List.range_succ_eq_map (n := n + 1), List.map_cons, List.map_map]
    simp only [Function.comp_def, Nat.succ_eq_add_one, after_succ_left, after_zero]
    rfl
  | case2 c outcome hstop => exact ⟨0, fullRuns_zero hf hstop, rfl⟩

theorem exists_fullRuns (hf : Forward f) (c : Cursor) : ∃ n, FullRuns f c n := by
  obtain ⟨n, hfull, -⟩ := exists_fullRuns_runs_eq hf c
  exact ⟨n, hfull⟩

/-- No run is full after one that is not. -/
theorem FullRuns.le (h : FullRuns f c n) {n' : Nat} (h' : FullRuns f c n') : n' ≤ n := by
  by_contra hlt
  rw [Nat.not_le] at hlt
  rcases h.stops with hnone | hstay
  · exact Option.isSome_iff_ne_none.mp (h'.isSome n hlt) hnone
  · exact Nat.ne_of_gt (h'.advances n hlt) hstay

/-- **A loop makes its full runs and one more.** -/
theorem FullRuns.runs_eq (hf : Forward f) (h : FullRuns f c n) :
    runs f c = (List.range (n + 1)).map fun k => f.run (after f c k) := by
  obtain ⟨n', h', hruns⟩ := exists_fullRuns_runs_eq hf c
  obtain rfl : n' = n := Nat.le_antisymm (h.le h') (h'.le h)
  exact hruns

/-- **A loop ends where the run after its full runs leaves the cursor.** -/
theorem FullRuns.cursor_many (hf : Forward f) (h : FullRuns f c n) :
    ((many f).run c).cursor = after f c (n + 1) := by
  change finalCursor c (runs f c) = after f c (n + 1)
  rw [h.runs_eq hf, List.range_succ, List.map_append, finalCursor, List.foldl_append, after_succ]
  rfl

theorem FullRuns.piece_ne_nil (hf : Forward f) (h : FullRuns f c n) :
    ∀ m ∈ pieces f c n, m ≠ [] := by
  intro m hm
  obtain ⟨k, hk, rfl⟩ := List.mem_map.mp hm
  rw [← (hf.reads_piece c k).position_ne_iff]
  exact Nat.ne_of_gt (h.advances k (List.mem_range.mp hk))

end Runs

/-! ### Bodies that give input back -/

/-- **A body only advances** when all it does to the cursor is to move it on by
whole characters. It does not touch the options: a body that did could match at
the end of a loop where it had failed before. -/
def OnlyAdvances (f : Recognizer α) : Prop :=
  ∀ c : Cursor, ∃ n, (f.run c).cursor = c.advance n

/-- **A body restores** when it leaves the cursor where it was if it fails. -/
def Restores (f : Recognizer α) : Prop :=
  ∀ c : Cursor, (f.run c).value = none → (f.run c).cursor.position = c.position

/-- **A body makes progress** when it reads something wherever it matches. -/
def Progresses (f : Recognizer α) : Prop :=
  ∀ c : Cursor, (f.run c).value.isSome → c.position < (f.run c).cursor.position

theorem OnlyAdvances.forward {f : Recognizer α} (hf : OnlyAdvances f) : Forward f := by
  refine forward_iff_exists_reads.mpr fun c => ?_
  obtain ⟨n, hn⟩ := hf c
  rw [hn]
  exact ⟨c.rest.take n, .advance c n⟩

/-- What cuts off no empty text makes progress. -/
theorem progresses_of_decides {f : Recognizer α} {L : Text → Text → Prop}
    (h : ∀ options, Decides f options L) (hL : ∀ {m r}, L m r → m ≠ []) : Progresses f := by
  rintro ⟨read, t, options⟩ hsome
  obtain ⟨m, r, rfl, hcut⟩ := (h options).exists_cut hsome
  have hreads : Cursor.Reads ⟨read, m ++ r, options⟩ m (f.run ⟨read, m ++ r, options⟩).cursor := by
    rw [((h options).takes hcut read).2]
    exact ⟨rfl, rfl⟩
  exact Nat.lt_of_le_of_ne hreads.position_le (hreads.position_ne_iff.mpr (hL hcut)).symm

section Laws

variable {f : Recognizer α} (hf : OnlyAdvances f) (hrestores : Restores f) {c : Cursor}
include hf

theorem OnlyAdvances.cursor_eq (h : (f.run c).cursor.position = c.position) :
    (f.run c).cursor = c := by
  obtain ⟨n, hn⟩ := hf c
  rw [hn, Cursor.position_advance, Nat.add_eq_left, Text.size_eq_zero_iff] at h
  have hdrop := List.take_append_drop n c.rest
  rw [h, List.nil_append] at hdrop
  rw [hn, Cursor.advance, h, hdrop]
  rfl

include hrestores

/-- A run that ends the loop changes nothing. -/
theorem cursor_eq_of_not_goesOn (hstop : ¬goesOn c (f.run c)) : (f.run c).cursor = c := by
  refine hf.cursor_eq ?_
  rcases hf.forward.stops_of_not_goesOn hstop with hnone | hstay
  · exact hrestores c hnone
  · exact hstay

/-- **Where a loop ends, it would not go on.** -/
theorem not_goesOn_finalCursor (c : Cursor) :
    ¬goesOn (finalCursor c (runs f c)) (f.run (finalCursor c (runs f c))) := by
  fun_induction runs f c with
  | case1 c outcome hgo ih => exact ih
  | case2 c outcome hstop =>
    change ¬goesOn (f.run c).cursor (f.run (f.run c).cursor)
    rw [cursor_eq_of_not_goesOn hf hrestores hstop]
    exact hstop

/-- A loop that does not go on finds nothing and stays. -/
theorem run_many_of_not_goesOn (hstop : ¬goesOn c (f.run c)) :
    ((many f).run c).value = some [] ∧ ((many f).run c).cursor = c := by
  have hfinal : finalCursor c (runs f c) = c := by
    rw [runs_of_not_goesOn hstop]
    exact cursor_eq_of_not_goesOn hf hrestores hstop
  rw [run_many, hfinal]
  exact ⟨congrArg some (Cursor.Reads.refl c).textSince_eq, rfl⟩

/-- A loop whose body fails at once finds nothing and stays. -/
theorem run_many_of_none (hnone : (f.run c).value = none) :
    ((many f).run c).value = some [] ∧ ((many f).run c).cursor = c := by
  refine run_many_of_not_goesOn hf hrestores ?_
  rw [goesOn_iff, hnone]
  exact fun h => Bool.false_ne_true h.1

/-- **A second loop finds nothing.** -/
theorem run_many_again (c : Cursor) :
    ((many f).run ((many f).run c).cursor).value = some [] ∧
      ((many f).run ((many f).run c).cursor).cursor = ((many f).run c).cursor :=
  run_many_of_not_goesOn hf hrestores (not_goesOn_finalCursor hf hrestores c)

/-- **A loop of loops is the loop.** -/
theorem many_readsAlike_many_many (c : Cursor) : ReadsAlike (many f) (many (many f)) c := by
  have hcursor : ((many (many f)).run c).cursor = ((many f).run c).cursor := by
    change finalCursor c (runs (many f) c) = _
    by_cases hgo : goesOn c ((many f).run c)
    · -- The second run of the inner loop finds nothing, and so the outer loop stops there.
      obtain ⟨-, hagain⟩ := run_many_again hf hrestores c
      rw [runs_of_goesOn hgo, runs_of_not_goesOn]
      · exact hagain
      · rw [goesOn_iff, hagain]
        exact fun h => Nat.lt_irrefl _ h.2
    · rw [runs_of_not_goesOn hgo]
      rfl
  refine ⟨?_, hcursor.symm⟩
  rw [value_many, value_many, hcursor]

/-- **Asking for one run first makes no difference where that run matches.** -/
theorem many1_readsAlike_many (hsome : (f.run c).value.isSome) :
    ReadsAlike (many1 f) (many f) c := by
  have hlater : ((many f).run (f.run c).cursor).cursor = ((many f).run c).cursor := by
    by_cases hgo : goesOn c (f.run c)
    · exact (cursor_many_of_goesOn hgo).symm
    · rw [cursor_eq_of_not_goesOn hf hrestores hgo]
  obtain ⟨hvalue, hcursor⟩ := run_andThen_of_isSome (g := many f) hsome
  obtain ⟨hunit, hend⟩ := run_atomic_of_isSome (f := f >>= fun _ => many f) (c := c) (by
    rw [hvalue]
    rfl)
  rw [hcursor, hlater] at hunit hend
  exact ⟨hunit, hend⟩

/-- Where the first run fails, nothing is found. -/
theorem run_many1_of_none (hnone : (f.run c).value = none) :
    ((many1 f).run c).value = none ∧ ((many1 f).run c).cursor = c := by
  rw [many1, run_atomic, run_bind, hnone]
  dsimp only
  rw [hf.cursor_eq (hrestores c hnone)]
  exact ⟨rfl, rfl⟩

/-- **A loop is an optional loop of at least one run.** -/
theorem many_readsAlike_optionally_many1 (c : Cursor) :
    ReadsAlike (many f) (optionally (many1 f)) c := by
  have hunit : atomic (many1 f) = many1 f := atomic_atomic _
  cases hvalue : (f.run c).value with
  | none =>
    obtain ⟨hfound, hplace⟩ := run_many1_of_none hf hrestores hvalue
    obtain ⟨hloop, hend⟩ := run_many_of_none hf hrestores hvalue
    constructor
    · rw [run_optionally, hunit, hfound, hloop]
      rfl
    · rw [run_optionally, hunit, hplace, hend]
  | some a =>
    have halike := many1_readsAlike_many hf hrestores (Option.isSome_iff_exists.mpr ⟨a, hvalue⟩)
    constructor
    · rw [run_optionally, hunit, halike.value_eq]
      rfl
    · rw [run_optionally, hunit, halike.cursor_eq]

end Laws

/-! ### The laws together -/

/-- **A loop ends as its last run left it**: it keeps all that was read up to
where the first run that is not full left the cursor, and finds just that. -/
def EndsAsLeft (f : Recognizer α) (c : Cursor) : Prop :=
  ∃ n m, FullRuns f c n ∧ ((many f).run c).cursor = after f c (n + 1) ∧
    ((many f).run c).value = some m ∧
    Span.slice? ⟨c.position, (after f c (n + 1)).position⟩ c.text = some m

theorem value_many_eq_pieces {f : Recognizer α} (hf : Forward f) {c : Cursor} {n : Nat}
    (hend : ((many f).run c).cursor = after f c n) :
    ((many f).run c).value = some (pieces f c n).flatten := by
  rw [value_many, hend, (hf.reads_pieces c n).textSince_eq]

theorem Forward.endsAsLeft {f : Recognizer α} (hf : Forward f) (c : Cursor) :
    EndsAsLeft f c := by
  obtain ⟨n, hfull⟩ := exists_fullRuns hf c
  have hend := hfull.cursor_many hf
  exact ⟨n, (pieces f c (n + 1)).flatten, hfull, hend, value_many_eq_pieces hf hend,
    (hf.reads_pieces c (n + 1)).slice?_eq⟩

/-- **The laws of a loop** over a body that gives input back. -/
structure LoopLaws (f : Recognizer α) (c : Cursor) : Prop where
  /-- What is found is what the full runs read, each of them something, one
  after the other. -/
  concatenates : ∃ n, FullRuns f c n ∧ (∀ m ∈ pieces f c n, m ≠ []) ∧
    ((many f).run c).value = some (pieces f c n).flatten ∧
    ((many f).run c).cursor = after f c n
  /-- At the end the body fails, or it matches without moving. -/
  exhausts : (f.run ((many f).run c).cursor).value = none ∨
    (f.run ((many f).run c).cursor).value.isSome ∧
      (f.run ((many f).run c).cursor).cursor.position = ((many f).run c).cursor.position
  /-- A second loop finds the empty text and stays. -/
  again : ((many f).run ((many f).run c).cursor).value = some [] ∧
    ((many f).run ((many f).run c).cursor).cursor = ((many f).run c).cursor
  /-- A loop is an optional loop of at least one run. -/
  optionally_many1 : ReadsAlike (many f) (optionally (many1 f)) c
  /-- A loop of loops is the loop. -/
  many_many : ReadsAlike (many f) (many (many f)) c
  /-- At least one run matches if the first one does. -/
  isSome_many1_iff : ((many1 f).run c).value.isSome ↔ (f.run c).value.isSome
  /-- It then matches what the loop does. -/
  many1_of_isSome : (f.run c).value.isSome → ReadsAlike (many1 f) (many f) c

theorem isSome_value_many1_iff {f : Recognizer α} {c : Cursor} :
    ((many1 f).run c).value.isSome ↔ (f.run c).value.isSome := by
  rw [many1, isSome_value_atomic, run_bind]
  cases (f.run c).value <;> exact Iff.rfl

theorem OnlyAdvances.loopLaws {f : Recognizer α} (hf : OnlyAdvances f) (hrestores : Restores f)
    (c : Cursor) : LoopLaws f c where
  concatenates := by
    obtain ⟨n, hfull⟩ := exists_fullRuns hf.forward c
    have hend := hfull.cursor_many hf.forward
    -- The run after the full ones changes nothing, so the loop ends where it
    -- began.
    have hlast : after f c (n + 1) = after f c n := by
      have hplace := hfull.stops
      rw [after_succ] at hplace ⊢
      exact hf.cursor_eq (hplace.elim (hrestores _) id)
    rw [hlast] at hend
    exact ⟨n, hfull, hfull.piece_ne_nil hf.forward, value_many_eq_pieces hf.forward hend, hend⟩
  exhausts := by
    have hstop := not_goesOn_finalCursor hf hrestores c
    have hstay := cursor_eq_of_not_goesOn hf hrestores hstop
    cases hvalue : (f.run ((many f).run c).cursor).value with
    | none => exact Or.inl rfl
    | some a => exact Or.inr ⟨rfl, congrArg Cursor.position hstay⟩
  again := run_many_again hf hrestores c
  optionally_many1 := many_readsAlike_optionally_many1 hf hrestores c
  many_many := many_readsAlike_many_many hf hrestores c
  isSome_many1_iff := isSome_value_many1_iff
  many1_of_isSome := many1_readsAlike_many hf hrestores

end Recognizer

open Recognizer

/-- **Whatever is put together from the known parts only advances.** -/
theorem Recipe.onlyAdvances {α : Type} {f : Recognizer α} (recipe : Recipe f) :
    OnlyAdvances f := by
  refine Recipe.run_rel (R := fun c d => ∃ n, d = c.advance n) (fun c => ⟨0, rfl⟩) ?_
    (fun c => ⟨1, rfl⟩) ?_ recipe
  · rintro c _ _ ⟨m, rfl⟩ ⟨n, rfl⟩
    exact ⟨m + n, c.advance_advance m n⟩
  · rintro c _ ⟨n, rfl⟩
    exact ⟨0, rfl⟩

/-- **The laws of loops**, for every body and at every place of every text. If
the body never moves back, the loop ends where the first run that fails or reads
nothing left the cursor, and finds all text up to there. If moreover all it does
is to move on, and it stays where it is when it fails, then the loop finds what
the full runs read, there is nothing left for it to find, and it is the same as
an optional loop of at least one run, as a loop of loops, and, where the first
run matches, as a loop of at least one run. -/
theorem loops_are_lawful {α : Type} (f : Recognizer α) (c : Cursor) :
    (Forward f → EndsAsLeft f c) ∧ (OnlyAdvances f → Restores f → LoopLaws f c) :=
  ⟨fun hf => hf.endsAsLeft c, fun hf hrestores => hf.loopLaws hrestores c⟩

/-- The loop over a body that leaves an underscore read ends after it; the loop
over the same body as a unit ends in front of it. -/
theorem loops_are_lawful_leaking :
    let leaking := Pattern.underscoreDigit.recognizer
    let c : Cursor := ⟨['é'], "_1_2_x".toList, {}⟩
    Forward leaking ∧ EndsAsLeft leaking c ∧ ((many leaking).run c).cursor.position = 7 ∧
      OnlyAdvances (atomic leaking) ∧ Restores (atomic leaking) ∧ LoopLaws (atomic leaking) c ∧
      ((many (atomic leaking)).run c).cursor.position = 6 := by
  intro leaking c
  have hforward : Forward leaking := Pattern.underscoreDigit.recipe.forward
  have hadvances : OnlyAdvances (atomic leaking) :=
    (Recipe.atomic Pattern.underscoreDigit.recipe).onlyAdvances
  have hrestores : Restores (atomic leaking) := fun d hnone =>
    (hforward.settles_atomic.reads_nil hnone).position_eq
  exact ⟨hforward, (loops_are_lawful leaking c).1 hforward, by decide +kernel, hadvances, hrestores,
    (loops_are_lawful (atomic leaking) c).2 hadvances hrestores, by decide +kernel⟩

/-- A body that leaves input read breaks the laws: a second loop goes on behind
it. -/
example : let leaking := Pattern.underscoreDigit.recognizer
    let c := Cursor.atStart "__1".toList {}
    ((many leaking).run c).value = some "_".toList ∧
      ((many (many leaking)).run c).value = some "__1".toList := by
  decide +kernel

end SolidityTokens
