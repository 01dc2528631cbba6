import SolidityTokens.Proofs.Grammar.Restoration
import SolidityTokens.Proofs.Recognizer.Alike

/-!
# Ordered choice

All rules of a choice run on one cursor, one after the other. Yet the choice is
what the first rule does that matches **when it is run alone**, at the place
where the choice began (`SolidityTokens.Recognizer.choice_readsAlike_first`):
each rule is tried as a unit, and a unit that fails leaves nothing behind,
however much its rule had read before it failed.

So a choice depends on nothing but the first rule that matches
(`SolidityTokens.Recognizer.choice_readsAlike_of_find?_eq`). Rules that fail may
be put in or taken out anywhere, rules after the first match may be exchanged
for any others, and a choice from two lists is a choice from the first, or else
from the second.

What a unit gives back is the place and not the options. There is no rule that
sets them, but a function from cursors to outcomes might, so that keeping them
is a condition on the rules here. All that can be written down as patterns meets
it.
-/

namespace SolidityTokens

namespace Recognizer

variable {α : Type}

/-! ### Alternatives in a row -/

theorem failure_orElse (f : Recognizer α) : (failure <|> f) = f := rfl

/-- **It does not matter how alternatives are grouped**: each of them begins
where the one before it stopped, and events add up. -/
theorem orElse_assoc (f g h : Recognizer α) : ((f <|> g) <|> h) = (f <|> (g <|> h)) := by
  ext c
  simp only [run_orElse]
  rcases hf : f.run c with ⟨_ | a, d, es⟩
  · rcases g.run d with ⟨_ | b, d', es'⟩
    · simp only [List.append_assoc]
    · rfl
  · rfl

/-- A choice from two lists is a choice from the first or, where it fails, from
the second. -/
theorem choice_append (fs gs : List (Recognizer α)) :
    choice (fs ++ gs) = (choice fs <|> choice gs) := by
  induction fs with
  | nil => exact (failure_orElse _).symm
  | cons f fs ih => rw [List.cons_append, choice_cons, choice_cons, ih, orElse_assoc]

/-- An alternative is not reached where what comes before it matches. -/
theorem orElse_readsAlike_left {f g : Recognizer α} {c : Cursor} (h : (f.run c).value.isSome) :
    ReadsAlike (f <|> g) f c := by
  obtain ⟨a, ha⟩ := Option.isSome_iff_exists.mp h
  have hrun : (f <|> g).run c = f.run c := by rw [run_orElse, ha]
  exact ⟨congrArg Outcome.value hrun, congrArg Outcome.cursor hrun⟩

/-! ### Rules that fail -/

/-- **A rule keeps the options** when it leaves them as they were, whether it
matches or fails. -/
def KeepsOptions (f : Recognizer α) : Prop :=
  ∀ c : Cursor, (f.run c).cursor.options = c.options

/-- **A unit that fails leaves nothing behind**, if its rule keeps the
options. -/
theorem KeepsOptions.failsInPlace_atomic {f : Recognizer α} (hf : KeepsOptions f) :
    FailsInPlace (atomic f) := by
  intro c hnone
  rw [run_atomic] at hnone ⊢
  cases hvalue : (f.run c).value with
  | some a =>
    rw [hvalue] at hnone
    exact absurd hnone (Option.some_ne_none _)
  | none =>
    change (⟨c.read, c.rest, (f.run c).cursor.options⟩ : Cursor) = c
    rw [hf c]

/-! ### The first rule that matches -/

/-- Whether a rule matches when it is run alone. -/
def matchesAt (c : Cursor) (f : Recognizer α) : Bool := (f.run c).value.isSome

theorem find?_matchesAt_eq_none_iff {fs : List (Recognizer α)} {c : Cursor} :
    fs.find? (matchesAt c) = none ↔ ∀ f ∈ fs, (f.run c).value = none := by
  rw [List.find?_eq_none]
  exact forall₂_congr fun f _ => Option.not_isSome_iff_eq_none

/-- A rule as a unit, if there is one. -/
def attempt : Option (Recognizer α) → Recognizer Text
  | none => failure
  | some f => atomic f

section Choice

variable {fs gs : List (Recognizer α)} {c : Cursor}

/-- **A choice is the first rule that matches when it is run alone**, as a
unit. -/
theorem choice_readsAlike_first (hfs : ∀ f ∈ fs, KeepsOptions f) :
    ReadsAlike (choice fs) (attempt (fs.find? (matchesAt c))) c := by
  induction fs with
  | nil => exact .refl _ c
  | cons f fs ih =>
    obtain ⟨hf, hrest⟩ := List.forall_mem_cons.mp hfs
    rw [choice_cons]
    cases hmatch : matchesAt c f with
    | true =>
      rw [List.find?_cons_of_pos hmatch]
      exact orElse_readsAlike_left ((isSome_value_atomic f c).trans hmatch)
    | false =>
      -- The unit fails in place, so that the other rules run from where it
      -- began.
      have hnone : ((atomic f).run c).value = none := by
        rw [← Option.not_isSome_iff_eq_none, isSome_value_atomic]
        exact Bool.eq_false_iff.mp hmatch
      obtain ⟨hvalue, hcursor⟩ := run_orElse_of_none (g := choice fs) hf.failsInPlace_atomic hnone
      rw [List.find?_cons_of_neg (Bool.eq_false_iff.mp hmatch)]
      exact ⟨hvalue.trans (ih hrest).value_eq, hcursor.trans (ih hrest).cursor_eq⟩

/-- **A choice depends on the first rule that matches, and on nothing else.** -/
theorem choice_readsAlike_of_find?_eq (hfs : ∀ f ∈ fs, KeepsOptions f)
    (hgs : ∀ g ∈ gs, KeepsOptions g)
    (h : fs.find? (matchesAt c) = gs.find? (matchesAt c)) :
    ReadsAlike (choice fs) (choice gs) c := by
  have hfirst := choice_readsAlike_first (c := c) hfs
  rw [h] at hfirst
  exact hfirst.trans (choice_readsAlike_first hgs).symm

/-- A choice from rules that all fail fails in place. -/
theorem run_choice_of_none (hfs : ∀ f ∈ fs, KeepsOptions f)
    (hnone : ∀ f ∈ fs, (f.run c).value = none) :
    ((choice fs).run c).value = none ∧ ((choice fs).run c).cursor = c := by
  have hfirst := choice_readsAlike_first (c := c) hfs
  rw [find?_matchesAt_eq_none_iff.mpr hnone] at hfirst
  exact ⟨hfirst.value_eq, hfirst.cursor_eq⟩

/-- **A choice takes the first rule that matches**, as if it were the only
one. -/
structure TakesFirst (fs : List (Recognizer α)) (c : Cursor) : Prop where
  /-- Nothing is found if and only if every rule fails when it is run alone. -/
  value_eq_none_iff : ((choice fs).run c).value = none ↔ ∀ f ∈ fs, (f.run c).value = none
  /-- The cursor is then where it was. -/
  failsInPlace : ((choice fs).run c).value = none → ((choice fs).run c).cursor = c
  /-- Otherwise there is a first rule that matches when it is run alone, and the
  choice finds what this one finds as a unit, and ends where it ends. -/
  readsAlike_first : ((choice fs).run c).value.isSome → ∃ before f after,
    fs = before ++ f :: after ∧ (∀ g ∈ before, (g.run c).value = none) ∧
      (f.run c).value.isSome ∧ ReadsAlike (choice fs) (atomic f) c

theorem takesFirst (hfs : ∀ f ∈ fs, KeepsOptions f) : TakesFirst fs c := by
  have hfirst := choice_readsAlike_first (c := c) hfs
  cases hfind : fs.find? (matchesAt c) with
  | none =>
    have hnone := find?_matchesAt_eq_none_iff.mp hfind
    obtain ⟨hvalue, hcursor⟩ := run_choice_of_none hfs hnone
    refine ⟨iff_of_true hvalue hnone, fun _ => hcursor, fun hsome => ?_⟩
    rw [hvalue] at hsome
    exact absurd hsome Bool.false_ne_true
  | some f =>
    rw [hfind] at hfirst
    obtain ⟨hmatch, before, after, rfl, hbefore⟩ := List.find?_eq_some_iff_append.mp hfind
    have hsome : ((choice (before ++ f :: after)).run c).value.isSome := by
      rw [hfirst.value_eq]
      exact (isSome_value_atomic f c).trans hmatch
    have hne := Option.isSome_iff_ne_none.mp hsome
    refine ⟨iff_of_false hne fun hall => ?_, fun h => absurd h hne, fun _ =>
      ⟨before, f, after, rfl, fun g hg => ?_, hmatch, hfirst⟩⟩
    · have hf := hall f (List.mem_append_right before List.mem_cons_self)
      exact Option.isSome_iff_ne_none.mp hmatch hf
    · exact Option.not_isSome_iff_eq_none.mp
        (Bool.eq_false_iff.mp ((Bool.not_eq_true' _).mp (hbefore g hg)))

/-! ### Choices from other lists -/

/-- **Rules that fail may be put in or taken out anywhere.** -/
theorem choice_readsAlike_of_idle {before idle after : List (Recognizer α)}
    (hkeep : ∀ f ∈ before ++ idle ++ after, KeepsOptions f)
    (hidle : ∀ f ∈ idle, (f.run c).value = none) :
    ReadsAlike (choice (before ++ idle ++ after)) (choice (before ++ after)) c := by
  refine choice_readsAlike_of_find?_eq hkeep (fun f hf => hkeep f ?_) ?_
  · rw [List.append_assoc]
    exact List.mem_append.mpr
      ((List.mem_append.mp hf).imp_right (List.mem_append_right idle))
  · rw [List.find?_append, List.find?_append, List.find?_append,
      find?_matchesAt_eq_none_iff.mpr hidle, Option.or_none]

/-- **What comes after a rule that matches does not matter.** -/
theorem choice_readsAlike_of_match {before after after' : List (Recognizer α)} {f : Recognizer α}
    (hkeep : ∀ g ∈ before ++ f :: after, KeepsOptions g)
    (hkeep' : ∀ g ∈ before ++ f :: after', KeepsOptions g) (hmatch : (f.run c).value.isSome) :
    ReadsAlike (choice (before ++ f :: after)) (choice (before ++ f :: after')) c := by
  have hfirst : ∀ gs, (f :: gs).find? (matchesAt c) = some f := fun _ =>
    List.find?_cons_of_pos hmatch
  refine choice_readsAlike_of_find?_eq hkeep hkeep' ?_
  rw [List.find?_append, List.find?_append, hfirst, hfirst]

theorem choice_append_readsAlike_left (h : ((choice fs).run c).value.isSome) :
    ReadsAlike (choice (fs ++ gs)) (choice fs) c := by
  rw [choice_append]
  exact orElse_readsAlike_left h

theorem choice_append_readsAlike_right (hfs : ∀ f ∈ fs, KeepsOptions f)
    (h : ((choice fs).run c).value = none) : ReadsAlike (choice (fs ++ gs)) (choice gs) c := by
  rw [choice_append]
  have hcursor := (takesFirst hfs).failsInPlace h
  constructor
  · rw [run_orElse, h, hcursor]
  · rw [run_orElse, h, hcursor]

end Choice

end Recognizer

open Recognizer

/-- **A choice takes the first rule that matches when it is run alone**, at
every place of every text and under any options, for all rules that keep the
options, whatever they leave read when they fail; all patterns are such rules.
Hence

* rules that fail may be put in or taken out anywhere;
* after a rule that matches, any rules may be put in or taken out;
* a choice from two lists is the choice from the first, and the choice from the
  second where the first one fails. -/
theorem ordered_choice_takes_first {α : Type} (c : Cursor) :
    (∀ pattern : Pattern, KeepsOptions pattern.recognizer) ∧
    (∀ fs : List (Recognizer α), (∀ f ∈ fs, KeepsOptions f) → TakesFirst fs c) ∧
    (∀ before idle after : List (Recognizer α),
      (∀ f ∈ before ++ idle ++ after, KeepsOptions f) → (∀ f ∈ idle, (f.run c).value = none) →
      ReadsAlike (choice (before ++ idle ++ after)) (choice (before ++ after)) c) ∧
    (∀ (before : List (Recognizer α)) (f : Recognizer α) (after after' : List (Recognizer α)),
      (∀ g ∈ before ++ f :: after, KeepsOptions g) →
      (∀ g ∈ before ++ f :: after', KeepsOptions g) → (f.run c).value.isSome →
      ReadsAlike (choice (before ++ f :: after)) (choice (before ++ f :: after')) c) ∧
    ∀ fs gs : List (Recognizer α), (∀ f ∈ fs, KeepsOptions f) →
      (((choice fs).run c).value.isSome → ReadsAlike (choice (fs ++ gs)) (choice fs) c) ∧
      (((choice fs).run c).value = none → ReadsAlike (choice (fs ++ gs)) (choice gs) c) :=
  ⟨fun pattern => pattern.recipe.options_run, fun _ hfs => takesFirst hfs,
    fun _ _ _ hkeep hidle => choice_readsAlike_of_idle hkeep hidle,
    fun _ _ _ _ hkeep hkeep' hmatch => choice_readsAlike_of_match hkeep hkeep' hmatch,
    fun _ _ hfs => ⟨choice_append_readsAlike_left, choice_append_readsAlike_right hfs⟩⟩

/-- An underscore and a digit, which fails and leaves the underscore read, in
front of an identifier that begins with this underscore. -/
theorem ordered_choice_takes_first_leaking :
    let leaking := Pattern.underscoreDigit.recognizer
    let name := Rule.identifier.recognizer
    let c : Cursor := ⟨['é'], "_x1".toList, {}⟩
    (leaking.run c).value = none ∧ (leaking.run c).cursor.position = 3 ∧
      (name.run c).value = some "_x1".toList ∧ TakesFirst [leaking, name, leaking] c ∧
      ((choice [leaking, name, leaking]).run c).value = some "_x1".toList ∧
      ReadsAlike (choice ([] ++ [leaking] ++ [name])) (choice ([] ++ [name])) c ∧
      ReadsAlike (choice ([leaking] ++ name :: [])) (choice ([leaking] ++ name :: [leaking])) c ∧
      ReadsAlike (choice ([name] ++ [leaking])) (choice [name]) c ∧
      ReadsAlike (choice ([leaking] ++ [name])) (choice [name]) c := by
  intro leaking name c
  obtain ⟨hpatterns, hfirst, hidle, hmatch, happend⟩ := ordered_choice_takes_first (α := Text) c
  have hleaking : ∀ f ∈ [leaking], KeepsOptions f :=
    List.forall_mem_singleton.mpr (hpatterns .underscoreDigit)
  have hname : ∀ f ∈ [name], KeepsOptions f :=
    List.forall_mem_singleton.mpr (hpatterns (.rule .identifier))
  have htwo : ∀ f ∈ [leaking, name], KeepsOptions f :=
    List.forall_mem_append.mpr ⟨hleaking, hname⟩
  have hthree : ∀ f ∈ [leaking, name, leaking], KeepsOptions f :=
    List.forall_mem_append.mpr ⟨htwo, hleaking⟩
  have hnone : (leaking.run c).value = none := by decide +kernel
  have hfound : (name.run c).value = some "_x1".toList := by decide +kernel
  exact ⟨hnone, by decide +kernel, hfound, hfirst _ hthree, by decide +kernel,
    hidle [] [leaking] [name] htwo (List.forall_mem_singleton.mpr hnone),
    hmatch [leaking] name [] [leaking] htwo hthree (by decide +kernel),
    (happend [name] [leaking] hname).1 (by decide +kernel),
    (happend [leaking] [name] hleaking).2 (by decide +kernel)⟩

/-- A rule that touches the options before it fails is not undone: the word
after it is a boolean for the choice, and none when it is looked for alone. -/
example : let loosening : Recognizer Text := ⟨fun c => ⟨none, { c with options := ⟨false⟩ }, []⟩⟩
    let c := Cursor.atStart "truex".toList {}
    ((choice [loosening, Grammar.booleanLiteral]).run c).value = some "true".toList ∧
      (loosening.run c).value = none ∧ (Grammar.booleanLiteral.run c).value = none := by
  decide +kernel

end SolidityTokens
