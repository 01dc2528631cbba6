import SolidityTokens.Proofs.Recognizer.Iteration

/-!
# Loops come to an end

No bound is written into a loop. It calls its body, and then again from where
the body stopped, as long as the body matches and the place has changed.
`SolidityTokens.Recognizer.Exits` says no more than this, and there is nothing
in it to make a loop stop: over a body that went back, it could go on forever.

**Over a body that never moves back, it exits**, after at most one call more
than there are bytes left to read (`SolidityTokens.Recognizer.exists_exits`),
since every call but the last leaves fewer of them. Whether the body has loops
in it, matches without reading anything, or leaves input read when it fails
makes no difference; what is needed is that it does not end before the place
where it began, and for patterns this is the induction over the ways of putting
them together (`SolidityTokens.Recipe.forward`).

The body need not do the same at every call. Where it does, the calls are the
runs that `SolidityTokens.Recognizer.many` is made of.
-/

namespace SolidityTokens

namespace Recognizer

variable {α : Type}

/-! ### Leaving a loop -/

/-- **A loop exits.** Having made `k` calls, it stands at `c`; it makes `n`
calls altogether and ends at `d`. The call with number `k` is one of
`body k`. -/
inductive Exits (body : Nat → Recognizer α) : Nat → Cursor → Nat → Cursor → Prop
  /-- The call fails, or it does not change the place. -/
  | stop {k : Nat} {c : Cursor} :
      ((body k).run c).value = none ∨ ((body k).run c).cursor.position = c.position →
      Exits body k c (k + 1) ((body k).run c).cursor
  /-- The call matches and changes the place, and the loop exits from there. -/
  | again {k n : Nat} {c d : Cursor} : ((body k).run c).value.isSome →
      ((body k).run c).cursor.position ≠ c.position →
      Exits body (k + 1) ((body k).run c).cursor n d → Exits body k c n d

section Exits

variable {body : Nat → Recognizer α} {k n n' : Nat} {c d d' : Cursor}

/-- A loop exits in one way only. -/
theorem Exits.unique (h : Exits body k c n d) (h' : Exits body k c n' d') : n' = n ∧ d' = d := by
  induction h with
  | stop hstop =>
    cases h' with
    | stop => exact ⟨rfl, rfl⟩
    | again hsome hmoved =>
      exact absurd hstop (not_or.mpr ⟨Option.isSome_iff_ne_none.mp hsome, hmoved⟩)
  | again hsome hmoved _ ih =>
    cases h' with
    | stop hstop =>
      exact absurd hstop (not_or.mpr ⟨Option.isSome_iff_ne_none.mp hsome, hmoved⟩)
    | again _ _ hlater => exact ih hlater

/-- **A call that changes the place leaves fewer bytes to read.** -/
theorem Forward.size_rest_lt {f : Recognizer α} (hf : Forward f)
    (hmoved : (f.run c).cursor.position ≠ c.position) :
    Text.size (f.run c).cursor.rest < Text.size c.rest := by
  obtain ⟨m, hm⟩ := forward_iff_exists_reads.mp hf c
  have hne : Text.size m ≠ 0 := fun h => hm.position_ne_iff.mp hmoved (Text.size_eq_zero_iff.mp h)
  rw [hm.rest_eq, Text.size_append]
  omega

/-- **A loop over a body that never moves back exits**, after at most one call
more than there are bytes left. -/
theorem exists_exits (hbody : ∀ k, Forward (body k)) (k : Nat) (c : Cursor) :
    ∃ n d, Exits body k c n d ∧ n ≤ k + (Text.size c.rest + 1) := by
  -- On the number of bytes left; the calls that were made play no part in it.
  induction hbytes : Text.size c.rest using Nat.strongRecOn generalizing k c with
  | ind bytes ih =>
    by_cases hstop : ((body k).run c).value = none ∨ ((body k).run c).cursor.position = c.position
    · exact ⟨k + 1, _, .stop hstop, by omega⟩
    · obtain ⟨hsome, hmoved⟩ := not_or.mp hstop
      have hlt := (hbody k).size_rest_lt hmoved
      obtain ⟨n, d, hexits, hle⟩ := ih _ (hbytes ▸ hlt) (k + 1) _ rfl
      exact ⟨n, d, .again (Option.isSome_iff_ne_none.mpr hsome) hmoved hexits, by omega⟩

/-- **The calls of a loop are its runs.** -/
theorem exits_runs {f : Recognizer α} (hf : Forward f) (k : Nat) (c : Cursor) :
    Exits (fun _ => f) k c (k + (runs f c).length) (finalCursor c (runs f c)) := by
  fun_induction runs f c generalizing k with
  | case1 c outcome hgo ih =>
    obtain ⟨hsome, hlt⟩ := hf.goesOn_iff_position.mp hgo
    have hlater := ih (k + 1)
    rw [Nat.add_right_comm] at hlater
    exact .again hsome (Nat.ne_of_gt hlt) hlater
  | case2 c outcome hstop => exact .stop (hf.stops_of_not_goesOn hstop)

/-! ### Termination -/

/-- **A loop from `c` on terminates** at `d`, after `n` calls of its body. -/
structure Terminates (body : Nat → Recognizer α) (c : Cursor) (n : Nat) (d : Cursor) : Prop where
  /-- The loop exits after this number of calls, at this place. -/
  exits : Exits body 0 c n d
  /-- It does so in no other way. -/
  unique : ∀ n' d', Exits body 0 c n' d' → n' = n ∧ d' = d
  /-- There is at most one call more than there are bytes left to read. -/
  calls_le : n ≤ Text.size c.rest + 1

theorem exists_terminates (hbody : ∀ k, Forward (body k)) (c : Cursor) :
    ∃ n d, Terminates body c n d := by
  obtain ⟨n, d, hexits, hle⟩ := exists_exits hbody 0 c
  rw [Nat.zero_add] at hle
  exact ⟨n, d, hexits, fun _ _ => hexits.unique, hle⟩

theorem Forward.terminates {f : Recognizer α} (hf : Forward f) (c : Cursor) :
    Terminates (fun _ => f) c (runs f c).length ((many f).run c).cursor := by
  obtain ⟨n, d, hterminates⟩ := exists_terminates (fun _ => hf) c
  have hexits := exits_runs hf 0 c
  rw [Nat.zero_add] at hexits
  obtain ⟨hlength, hcursor⟩ := hterminates.unique _ _ hexits
  rw [run_many, hlength, hcursor]
  exact hterminates

end Exits

end Recognizer

open Recognizer

/-- **Loops terminate**, at every place of every text, after at most one call of
the body more than there are bytes left to read:

* for every body that never moves back, even if it does something else at every
  call;
* where it does the same at every call, these are the runs of `many`, which ends
  where the loop does;
* and every pattern is such a body, be it with loops of its own, without any
  progress, or with input left read where it fails. -/
theorem loops_terminate :
    (∀ {α : Type} (body : Nat → Recognizer α), (∀ k, Forward (body k)) →
      ∀ c : Cursor, ∃ n d, Terminates body c n d) ∧
    (∀ {α : Type} (f : Recognizer α), Forward f → ∀ c : Cursor,
      Terminates (fun _ => f) c (runs f c).length ((many f).run c).cursor) ∧
    ∀ (body : Pattern) (c : Cursor),
      Terminates (fun _ => body.recognizer) c (runs body.recognizer c).length
        ((Pattern.many body).recognizer.run c).cursor :=
  ⟨fun _ hbody c => exists_terminates hbody c, fun _ hf c => hf.terminates c,
    fun body c => body.recipe.forward.terminates c⟩

/-- A body that leaves an underscore read and fails, one that is an optional
loop of it, and one that takes turns with a rule that matches without reading
anything. -/
theorem loops_terminate_leaking :
    let leaking := Pattern.underscoreDigit.recognizer
    let nested := Pattern.optionally (.many .underscoreDigit)
    let turns : Nat → Recognizer Text := fun k =>
      if k % 2 = 0 then leaking else Grammar.hexStringLiteral
    let c : Cursor := ⟨['é'], "_1_2_x".toList, {}⟩
    Forward leaking ∧ Terminates (fun _ => leaking) c 3 ((many leaking).run c).cursor ∧
      Terminates (fun _ => nested.recognizer) c 2
        ((Pattern.many nested).recognizer.run c).cursor ∧
      (∀ k, Forward (turns k)) ∧ ∃ n d, Terminates turns c n d := by
  intro leaking nested turns c
  have hleaking : Forward leaking := Pattern.underscoreDigit.recipe.forward
  have hturns : ∀ k, Forward (turns k) := by
    intro k
    by_cases hk : k % 2 = 0
    · rw [show turns k = leaking from if_pos hk]
      exact hleaking
    · rw [show turns k = Grammar.hexStringLiteral from if_neg hk]
      exact Rule.hexStringLiteral.recipe.forward
  have hruns : (runs leaking c).length = 3 := by decide +kernel
  have hnested : (runs nested.recognizer c).length = 2 := by decide +kernel
  have hloop := loops_terminate.2.1 leaking hleaking c
  have houter := loops_terminate.2.2 nested c
  rw [hruns] at hloop
  rw [hnested] at houter
  exact ⟨hleaking, hloop, houter, hturns, loops_terminate.1 turns hturns c⟩

/-- The bound is reached where every byte takes a run of its own. -/
example : (runs (charOf .letter) (Cursor.atStart "abc".toList {})).length =
    Text.size "abc".toList + 1 := by
  decide +kernel

end SolidityTokens
