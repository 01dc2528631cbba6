import SolidityTokens.Recognizer.Cursor
import SolidityTokens.Recognizer.Event

/-!
# Recognizers

A recognizer runs at a cursor and says whether it found what it looks for, where
it left the cursor, and what happened on the way. Failure is a value like any
other: in particular a recognizer may fail *and* leave the cursor further on,
and `orElse` then tries the alternative from there. Giving the input back is the
business of `Recognizer.atomic`, and of nothing else.

Recognizers form a lawful monad: a sequence fails with its first failing part,
and events add up.
-/

namespace SolidityTokens

/-- What a recognizer leaves behind. -/
structure Outcome (α : Type) where
  /-- What was found; `none` is a failure. -/
  value : Option α
  /-- Where the cursor stands now. -/
  cursor : Cursor
  /-- What happened, in order. -/
  events : List Event

/-- A procedure that looks for something at a cursor. -/
structure Recognizer (α : Type) where
  /-- Runs the recognizer at a cursor. -/
  run : Cursor → Outcome α

namespace Recognizer

variable {α β : Type}

@[ext] theorem ext {f g : Recognizer α} (h : ∀ c, f.run c = g.run c) : f = g := by
  obtain ⟨f⟩ := f
  obtain ⟨g⟩ := g
  exact congrArg _ (funext h)

/-! ### Sequence and alternative -/

/-- Finds `a` without reading anything. -/
protected def pure (a : α) : Recognizer α := ⟨fun c => ⟨some a, c, []⟩⟩

/-- Runs `f`, and, if it finds something, goes on from where it stopped. -/
protected def bind (f : Recognizer α) (g : α → Recognizer β) : Recognizer β :=
  ⟨fun c =>
    let first := f.run c
    match first.value with
    | none => ⟨none, first.cursor, first.events⟩
    | some a =>
      let second := (g a).run first.cursor
      ⟨second.value, second.cursor, first.events ++ second.events⟩⟩

/-- Finds nothing and stays where it is. -/
protected def fail : Recognizer α := ⟨fun c => ⟨none, c, []⟩⟩

/-- Runs `f`, and, if it fails, runs `g` **from where `f` stopped**. -/
protected def orElse (f : Recognizer α) (g : Unit → Recognizer α) : Recognizer α :=
  ⟨fun c =>
    let first := f.run c
    match first.value with
    | some _ => first
    | none =>
      let second := (g ()).run first.cursor
      ⟨second.value, second.cursor, first.events ++ second.events⟩⟩

instance : Monad Recognizer where
  pure := Recognizer.pure
  bind := Recognizer.bind

instance : Alternative Recognizer where
  failure := Recognizer.fail
  orElse := Recognizer.orElse

/-- Tries recognizers one after the other, each from where the one before it
stopped, until one finds something. -/
def firstOf (fs : List (Recognizer α)) : Recognizer α := fs.foldr (· <|> ·) failure

/-! ### Looking at the cursor -/

/-- Finds the cursor itself. -/
def here : Recognizer Cursor := ⟨fun c => ⟨some c, c, []⟩⟩

/-- Records an event. -/
def emit (event : Event) : Recognizer Unit := ⟨fun c => ⟨some (), c, [event]⟩⟩

/-- Fails when the next character has the property `p`. -/
def notFollowedBy (p : Char → Bool) : Recognizer Unit :=
  ⟨fun c => ⟨if c.peek.any p then none else some (), c, []⟩⟩

/-- Runs `mark`; if it matches, `body` has to match after it. -/
def whenMatched (mark : Recognizer α) (body : Recognizer β) : Recognizer Unit :=
  ⟨fun c =>
    let first := mark.run c
    match first.value with
    | none => ⟨some (), first.cursor, first.events⟩
    | some _ =>
      let second := body.run first.cursor
      ⟨second.value.map fun _ => (), second.cursor, first.events ++ second.events⟩⟩

/-! ### How the operations run -/

@[simp] theorem run_pure (a : α) (c : Cursor) :
    (pure a : Recognizer α).run c = ⟨some a, c, []⟩ := rfl

@[simp] theorem run_failure (c : Cursor) : (failure : Recognizer α).run c = ⟨none, c, []⟩ := rfl

theorem run_bind (f : Recognizer α) (g : α → Recognizer β) (c : Cursor) :
    (f >>= g).run c =
      match (f.run c).value with
      | none => ⟨none, (f.run c).cursor, (f.run c).events⟩
      | some a =>
        ⟨((g a).run (f.run c).cursor).value, ((g a).run (f.run c).cursor).cursor,
          (f.run c).events ++ ((g a).run (f.run c).cursor).events⟩ := rfl

theorem run_bind_pure (f : Recognizer α) (g : α → β) (c : Cursor) :
    (f >>= fun a => pure (g a)).run c =
      ⟨(f.run c).value.map g, (f.run c).cursor, (f.run c).events⟩ := by
  rw [run_bind]
  cases (f.run c).value <;> simp

theorem run_orElse (f g : Recognizer α) (c : Cursor) :
    (f <|> g).run c =
      match (f.run c).value with
      | some _ => f.run c
      | none =>
        ⟨(g.run (f.run c).cursor).value, (g.run (f.run c).cursor).cursor,
          (f.run c).events ++ (g.run (f.run c).cursor).events⟩ := rfl

@[simp] theorem run_here (c : Cursor) : here.run c = ⟨some c, c, []⟩ := rfl

@[simp] theorem run_emit (event : Event) (c : Cursor) :
    (emit event).run c = ⟨some (), c, [event]⟩ := rfl

@[simp] theorem run_notFollowedBy (p : Char → Bool) (c : Cursor) :
    (notFollowedBy p).run c = ⟨if c.peek.any p then none else some (), c, []⟩ := rfl

theorem run_whenMatched (mark : Recognizer α) (body : Recognizer β) (c : Cursor) :
    (whenMatched mark body).run c =
      match (mark.run c).value with
      | none => ⟨some (), (mark.run c).cursor, (mark.run c).events⟩
      | some _ =>
        ⟨(body.run (mark.run c).cursor).value.map fun _ => (),
          (body.run (mark.run c).cursor).cursor,
          (mark.run c).events ++ (body.run (mark.run c).cursor).events⟩ := rfl

@[simp] theorem firstOf_nil : firstOf ([] : List (Recognizer α)) = failure := rfl

@[simp] theorem firstOf_cons (f : Recognizer α) (fs : List (Recognizer α)) :
    firstOf (f :: fs) = (f <|> firstOf fs) := rfl

instance : LawfulMonad Recognizer := LawfulMonad.mk' Recognizer
  (by
    intro α f
    ext c
    change (f >>= pure).run c = f.run c
    rcases h : f.run c with ⟨_ | a, d, es⟩ <;> simp [run_bind, h])
  (by intro α β a g; ext c; simp [run_bind])
  (by
    intro α β γ f g h
    ext c
    simp only [run_bind]
    rcases f.run c with ⟨_ | a, d, es⟩
    · rfl
    · rcases hg : (g a).run d with ⟨_ | b, d', es'⟩ <;> simp [hg])

end Recognizer

end SolidityTokens
