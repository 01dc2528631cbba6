import SolidityTokens.Recognizer.Backtrack

/-!
# Repetition

`many f` runs `f` again and again until a run fails or reads nothing. The loop
is made visible as data: `runs f c` lists the outcomes of the successive runs,
the last of which is the one that ended the loop. The list is never empty, and
it is finite because every run but the last leaves less text than it found.

`many` keeps whatever the failing last run left read; a body that is to give it
back has to be atomic itself.
-/

namespace SolidityTokens.Recognizer

variable {α : Type}

/-- Whether a run that began at `c` lets the loop go on: it found something and
left less text than before. -/
def goesOn (c : Cursor) (outcome : Outcome α) : Bool :=
  outcome.value.isSome && outcome.cursor.rest.length < c.rest.length

theorem goesOn_iff {c : Cursor} {outcome : Outcome α} :
    goesOn c outcome ↔
      outcome.value.isSome ∧ outcome.cursor.rest.length < c.rest.length := by
  simp [goesOn]

/-- The outcomes of the successive runs of `f` from `c` on, up to and including
the first that fails or reads nothing. -/
def runs (f : Recognizer α) (c : Cursor) : List (Outcome α) :=
  let outcome := f.run c
  if goesOn c outcome then outcome :: runs f outcome.cursor else [outcome]
termination_by c.rest.length
decreasing_by exact (goesOn_iff.1 ‹_›).2

/-- Where the cursor stands after the runs of a loop that began at `c`. -/
def finalCursor (c : Cursor) (outcomes : List (Outcome α)) : Cursor :=
  outcomes.foldl (fun _ outcome => outcome.cursor) c

/-- **As many runs of `f` as possible.** Never fails: finds the text that all of
them read together. -/
def many (f : Recognizer α) : Recognizer Text :=
  ⟨fun c =>
    let outcomes := runs f c
    let stop := finalCursor c outcomes
    ⟨some (stop.textSince c), stop, outcomes.flatMap (·.events)⟩⟩

/-- At least one run of `f`. -/
def many1 (f : Recognizer α) : Recognizer Text :=
  atomic do
    let _ ← f
    many f

/-! ### How the loop unfolds -/

theorem runs_of_goesOn {f : Recognizer α} {c : Cursor} (h : goesOn c (f.run c)) :
    runs f c = f.run c :: runs f (f.run c).cursor := by
  rw [runs]
  simp [h]

theorem runs_of_not_goesOn {f : Recognizer α} {c : Cursor} (h : ¬goesOn c (f.run c)) :
    runs f c = [f.run c] := by
  rw [runs]
  simp [h]

@[simp] theorem finalCursor_cons (c : Cursor) (outcome : Outcome α)
    (outcomes : List (Outcome α)) :
    finalCursor c (outcome :: outcomes) = finalCursor outcome.cursor outcomes := rfl

@[simp] theorem finalCursor_nil (c : Cursor) : finalCursor c ([] : List (Outcome α)) = c := rfl

theorem run_many (f : Recognizer α) (c : Cursor) :
    (many f).run c =
      ⟨some ((finalCursor c (runs f c)).textSince c), finalCursor c (runs f c),
        (runs f c).flatMap (·.events)⟩ := rfl

end SolidityTokens.Recognizer
