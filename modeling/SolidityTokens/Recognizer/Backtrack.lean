import SolidityTokens.Recognizer.Basic

/-!
# Giving input back

`atomic f` turns a recognizer that may stop anywhere into one that is all or
nothing: it answers with the text that `f` read, and when `f` fails it puts the
cursor back to where it started, which is on record if any input was given back.
`optionally`, `times` and `choice` are built from it and inherit that
discipline.
-/

namespace SolidityTokens.Recognizer

variable {α : Type}

/-- The record of going back from one place to an earlier one: nothing, if the
two are the same place. -/
def revertEvents (start position : Nat) : List Event :=
  if position = start then [] else [.reverted start position]

/-- **Runs `f` as an indivisible unit**: finds the text that `f` read, or gives
all of it back. -/
def atomic (f : Recognizer α) : Recognizer Text :=
  ⟨fun c =>
    let attempt := f.run c
    match attempt.value with
    | some _ => ⟨some (attempt.cursor.textSince c), attempt.cursor, attempt.events⟩
    | none =>
      ⟨none, attempt.cursor.rewindTo c,
        attempt.events ++ revertEvents c.position attempt.cursor.position⟩⟩

/-- Runs `f` as a unit, and finds the empty text where it fails. -/
def optionally (f : Recognizer α) : Recognizer Text := atomic f <|> pure []

/-- Runs `f` over and over, `n` times, without giving anything back. -/
def inTurn (f : Recognizer α) : Nat → Recognizer Unit
  | 0 => pure ()
  | n + 1 => do
    let _ ← f
    inTurn f n

/-- Exactly `n` runs of `f`, all or nothing. -/
def times (n : Nat) (f : Recognizer α) : Recognizer Text := atomic (inTurn f n)

/-- The first of the recognizers that matches, each tried as a unit and from the
same place. -/
def choice (fs : List (Recognizer α)) : Recognizer Text := firstOf (fs.map atomic)

/-! ### How the operations run -/

@[simp] theorem revertEvents_self (position : Nat) : revertEvents position position = [] := by
  simp [revertEvents]

theorem run_atomic (f : Recognizer α) (c : Cursor) :
    (atomic f).run c =
      match (f.run c).value with
      | some _ => ⟨some ((f.run c).cursor.textSince c), (f.run c).cursor, (f.run c).events⟩
      | none =>
        ⟨none, (f.run c).cursor.rewindTo c,
          (f.run c).events ++ revertEvents c.position (f.run c).cursor.position⟩ := rfl

@[simp] theorem isSome_value_atomic (f : Recognizer α) (c : Cursor) :
    ((atomic f).run c).value.isSome = (f.run c).value.isSome := by
  rw [run_atomic]
  cases (f.run c).value <;> rfl

/-- An optional part never fails. -/
theorem run_optionally (f : Recognizer α) (c : Cursor) :
    (optionally f).run c =
      ⟨some (((atomic f).run c).value.getD []), ((atomic f).run c).cursor,
        ((atomic f).run c).events⟩ := by
  rw [optionally, run_orElse]
  rcases (atomic f).run c with ⟨_ | m, d, es⟩ <;> simp

@[simp] theorem inTurn_zero (f : Recognizer α) : inTurn f 0 = pure () := rfl

theorem inTurn_succ (f : Recognizer α) (n : Nat) :
    inTurn f (n + 1) = f >>= fun _ => inTurn f n := rfl

@[simp] theorem choice_nil : choice ([] : List (Recognizer α)) = failure := rfl

@[simp] theorem choice_cons (f : Recognizer α) (fs : List (Recognizer α)) :
    choice (f :: fs) = (atomic f <|> choice fs) := rfl

end SolidityTokens.Recognizer
