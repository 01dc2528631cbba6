import SolidityTokens.Proofs.Recognizer.Recipe

/-!
# Runs at cursors that look alike

All that a recognizer asks of a cursor is what is left to read, and, where a
word has to end, the options. A **relocation** (`SolidityTokens.Relocation`)
puts other cursors in the place of cursors, with the same text left to read at
each; it may change what was read before, and with it the offsets, and it may
change the options. A recognizer **respects** a relocation
(`SolidityTokens.Recognizer.Respects`) if from the other cursor it makes the
same run, relocated.

Every way of putting recognizers together keeps this property, so it is passed
on by instances, one for each combinator. The end of a word is the exception:
its test respects the relocations that keep the options
(`SolidityTokens.Recipe.respects`).
-/

namespace SolidityTokens

open Recognizer Grammar

/-! ### Relocations -/

/-- **A relocation**: cursors in the place of cursors, and offsets in the place
of offsets. -/
structure Relocation where
  /-- The cursor in the place of a cursor. -/
  cursor : Cursor → Cursor
  /-- The offset in the place of an offset. -/
  offset : Nat → Nat
  /-- The same is left to read. -/
  rest_cursor (c : Cursor) : (cursor c).rest = c.rest
  /-- Reading a character is reading it there. -/
  advance_cursor (c : Cursor) : (cursor c).advance 1 = cursor (c.advance 1)
  /-- Going back is going back there. -/
  rewindTo_cursor (c d : Cursor) : (cursor d).rewindTo (cursor c) = cursor (d.rewindTo c)
  /-- The position there is what stands in the place of the position. -/
  position_cursor (c : Cursor) : (cursor c).position = offset c.position
  /-- Different positions stay different. -/
  offset_injective {n n' : Nat} : offset n = offset n' → n = n'

/-- The event with other offsets. -/
def Event.relocate (offset : Nat → Nat) : Event → Event
  | reverted start position => reverted (offset start) (offset position)
  | recognized kind text start => recognized kind text (offset start)

/-- The span with other offsets. -/
def Span.relocate (offset : Nat → Nat) (span : Span) : Span :=
  ⟨offset span.start, offset span.stop⟩

/-- The literal with other offsets. -/
def Literal.relocate (offset : Nat → Nat) (literal : Literal) : Literal :=
  { literal with span := literal.span.relocate offset }

/-- What a run leaves behind, with cursor and record relocated. -/
def Outcome.relocate {α : Type} (m : Relocation) (outcome : Outcome α) : Outcome α :=
  ⟨outcome.value, m.cursor outcome.cursor, outcome.events.map (Event.relocate m.offset)⟩

section Parts

variable {α β : Type} (m : Relocation)

@[simp] theorem Outcome.value_relocate (outcome : Outcome α) :
    (outcome.relocate m).value = outcome.value := rfl

@[simp] theorem Outcome.cursor_relocate (outcome : Outcome α) :
    (outcome.relocate m).cursor = m.cursor outcome.cursor := rfl

theorem Relocation.peek_cursor (c : Cursor) : (m.cursor c).peek = c.peek := by
  rw [Cursor.peek, Cursor.peek, m.rest_cursor]

theorem Relocation.textSince_cursor (c d : Cursor) :
    (m.cursor d).textSince (m.cursor c) = d.textSince c := by
  rw [Cursor.textSince, Cursor.textSince, m.rest_cursor, m.rest_cursor]

/-- Something is given back in one place exactly when it is in the other. -/
theorem Relocation.map_revertEvents (start position : Nat) :
    (revertEvents start position).map (Event.relocate m.offset) =
      revertEvents (m.offset start) (m.offset position) := by
  rw [revertEvents, revertEvents]
  by_cases h : position = start
  · rw [if_pos h, if_pos (congrArg _ h)]
    rfl
  · rw [if_neg h, if_neg fun heq => h (m.offset_injective heq)]
    rfl

/-! ### Runs at a single cursor -/

section Runs

variable {m} {f : Recognizer α} {h : α → Recognizer β} {c : Cursor}

/-- A sequence is relocated with its parts. -/
theorem run_bind_cursor (hf : f.run (m.cursor c) = (f.run c).relocate m)
    (hh : ∀ a, (f.run c).value = some a →
      (h a).run (m.cursor (f.run c).cursor) = ((h a).run (f.run c).cursor).relocate m) :
    (f >>= h).run (m.cursor c) = ((f >>= h).run c).relocate m := by
  rw [run_bind, run_bind, hf, Outcome.value_relocate]
  cases hvalue : (f.run c).value with
  | none => rfl
  | some a =>
    simp only [Outcome.cursor_relocate, hh a hvalue]
    simp only [Outcome.relocate, List.map_append]

/-- An alternative is relocated with its parts. The second one is only run where
the first one fails. -/
theorem run_orElse_cursor {g : Recognizer α} (hf : f.run (m.cursor c) = (f.run c).relocate m)
    (hg : (f.run c).value = none →
      g.run (m.cursor (f.run c).cursor) = (g.run (f.run c).cursor).relocate m) :
    (f <|> g).run (m.cursor c) = ((f <|> g).run c).relocate m := by
  rw [run_orElse, run_orElse, hf, Outcome.value_relocate]
  cases hvalue : (f.run c).value with
  | none =>
    simp only [Outcome.cursor_relocate, hg hvalue]
    simp only [Outcome.relocate, List.map_append]
  | some a => rfl

/-- A unit is relocated with its body. -/
theorem run_atomic_cursor (hf : f.run (m.cursor c) = (f.run c).relocate m) :
    (atomic f).run (m.cursor c) = ((atomic f).run c).relocate m := by
  rw [run_atomic, run_atomic, hf, Outcome.value_relocate]
  cases (f.run c).value with
  | none =>
    simp only [Outcome.relocate, List.map_append, m.rewindTo_cursor, m.position_cursor,
      m.map_revertEvents]
  | some a => simp only [Outcome.relocate, m.textSince_cursor]

/-- A literal is recorded with its offset, and so it is relocated as well. -/
theorem run_recorded_cursor {f : Recognizer (LiteralKind × Text)}
    (hf : f.run (m.cursor c) = (f.run c).relocate m) :
    (recorded f).run (m.cursor c) =
      ⟨((recorded f).run c).value.map (Literal.relocate m.offset),
        m.cursor ((recorded f).run c).cursor,
        ((recorded f).run c).events.map (Event.relocate m.offset)⟩ := by
  rw [run_recorded, run_recorded, hf, Outcome.value_relocate]
  cases (f.run c).value with
  | none => rfl
  | some found =>
    simp only [Outcome.relocate, m.position_cursor, List.map_append]
    rfl

end Runs

/-! ### Recognizers that respect a relocation -/

/-- **A recognizer respects a relocation** when from the cursor in the place of
another it makes the same run, relocated. -/
class Recognizer.Respects (m : Relocation) (f : Recognizer α) : Prop where
  /-- The run is the same, relocated. -/
  run_cursor (c : Cursor) : f.run (m.cursor c) = (f.run c).relocate m

namespace Recognizer

variable {f : Recognizer α} {g : Recognizer β} {h : α → Recognizer β}

instance (a : α) : Respects m (pure a : Recognizer α) := ⟨fun _ => rfl⟩

instance : Respects m (failure : Recognizer α) := ⟨fun _ => rfl⟩

instance (b : Bool) : Respects m (guard b : Recognizer Unit) := by
  cases b
  · exact ⟨fun _ => rfl⟩
  · exact ⟨fun _ => rfl⟩

instance (p : Char → Bool) : Respects m (satisfy p) where
  run_cursor c := by
    have hrest := m.rest_cursor c
    cases hc : c.rest with
    | nil =>
      rw [run_satisfy_nil p c hc, run_satisfy_nil p (m.cursor c) (hrest.trans hc)]
      rfl
    | cons ch rest =>
      rw [run_satisfy_cons p c hc, run_satisfy_cons p (m.cursor c) (hrest.trans hc)]
      by_cases hp : p ch
      · rw [if_pos hp, if_pos hp, m.advance_cursor]
        rfl
      · rw [if_neg hp, if_neg hp]
        rfl

instance (charClass : CharClass) : Respects m (charOf charClass) :=
  inferInstanceAs (Respects m (satisfy charClass.contains))

instance (expected : Char) : Respects m (char expected) :=
  inferInstanceAs (Respects m (satisfy (· == expected)))

instance (set : Text) : Respects m (oneOf set) :=
  inferInstanceAs (Respects m (satisfy set.contains))

instance (set : Text) : Respects m (noneOf set) :=
  inferInstanceAs (Respects m (satisfy fun ch => !set.contains ch))

instance (p : Char → Bool) : Respects m (notFollowedBy p) where
  run_cursor c := by
    rw [run_notFollowedBy, run_notFollowedBy, m.peek_cursor]
    rfl

instance [hf : Respects m f] [hh : ∀ a, Respects m (h a)] : Respects m (f >>= h) :=
  ⟨fun c => run_bind_cursor (hf.run_cursor c) fun a _ => (hh a).run_cursor _⟩

instance {g : Recognizer α} [hf : Respects m f] [hg : Respects m g] : Respects m (f <|> g) :=
  ⟨fun c => run_orElse_cursor (hf.run_cursor c) fun _ => hg.run_cursor _⟩

instance {ι : Type} {f : ι → Recognizer α} [∀ i, Respects m (f i)] (is : List ι) :
    Respects m (firstOf (is.map f)) := by
  induction is with
  | nil => exact inferInstanceAs (Respects m failure)
  | cons i is ih => exact inferInstanceAs (Respects m (f i <|> firstOf (is.map f)))

instance [hf : Respects m f] [hg : Respects m g] : Respects m (whenMatched f g) where
  run_cursor c := by
    rw [run_whenMatched, run_whenMatched, hf.run_cursor, Outcome.value_relocate]
    cases (f.run c).value with
    | none => rfl
    | some a =>
      simp only [Outcome.cursor_relocate, hg.run_cursor]
      simp only [Outcome.relocate, List.map_append]

instance [hf : Respects m f] : Respects m (atomic f) :=
  ⟨fun c => run_atomic_cursor (hf.run_cursor c)⟩

instance [Respects m f] : Respects m (optionally f) :=
  inferInstanceAs (Respects m (atomic f <|> pure []))

instance [Respects m f] (n : Nat) : Respects m (inTurn f n) := by
  induction n with
  | zero => exact inferInstanceAs (Respects m (pure ()))
  | succ n ih => exact inferInstanceAs (Respects m (f >>= fun _ => inTurn f n))

instance [Respects m f] (n : Nat) : Respects m (times n f) :=
  inferInstanceAs (Respects m (atomic (inTurn f n)))

instance (text : Text) : Respects m (spelled text) := by
  induction text with
  | nil => exact inferInstanceAs (Respects m (pure ()))
  | cons ch text ih => exact inferInstanceAs (Respects m (char ch >>= fun _ => spelled text))

instance (expected : Text) : Respects m (word expected) :=
  inferInstanceAs (Respects m (atomic (spelled expected)))

/-- **A loop makes the same runs**: whether it goes on depends on what is
left. -/
theorem runs_cursor [hf : Respects m f] (c : Cursor) :
    runs f (m.cursor c) = (runs f c).map (Outcome.relocate m) := by
  have hgoesOn : ∀ c, goesOn (m.cursor c) (f.run (m.cursor c)) ↔ goesOn c (f.run c) := by
    intro c
    rw [goesOn_iff, goesOn_iff, hf.run_cursor, Outcome.value_relocate, Outcome.cursor_relocate,
      m.rest_cursor, m.rest_cursor]
  fun_induction runs f c with
  | case1 c outcome hgo ih =>
    rw [runs_of_goesOn ((hgoesOn c).mpr hgo), hf.run_cursor, Outcome.cursor_relocate, ih]
    rfl
  | case2 c outcome hstop =>
    rw [runs_of_not_goesOn fun hgo => hstop ((hgoesOn c).mp hgo), hf.run_cursor]
    rfl

theorem finalCursor_map_relocate (c : Cursor) (outcomes : List (Outcome α)) :
    finalCursor (m.cursor c) (outcomes.map (Outcome.relocate m)) =
      m.cursor (finalCursor c outcomes) := by
  induction outcomes generalizing c with
  | nil => rfl
  | cons outcome outcomes ih => exact ih outcome.cursor

instance [Respects m f] : Respects m (many f) where
  run_cursor c := by
    rw [run_many, run_many, runs_cursor, finalCursor_map_relocate, m.textSince_cursor,
      List.flatMap_map]
    simp only [Outcome.relocate, List.map_flatMap]

instance [Respects m f] : Respects m (many1 f) :=
  inferInstanceAs (Respects m (atomic (f >>= fun _ => many f)))

end Recognizer

/-- **What is put together from the known parts respects every relocation that
keeps the options.** -/
theorem Recipe.respects {f : Recognizer α} (recipe : Recipe f)
    (hoptions : ∀ c, (m.cursor c).options = c.options) : Respects m f := by
  induction recipe with
  | wordBoundary =>
    refine ⟨fun c => ?_⟩
    rw [run_wordBoundary, run_wordBoundary, hoptions, m.peek_cursor]
    rfl
  | literalText _ ih =>
    refine ⟨fun c => ?_⟩
    rw [run_bind_pure, run_bind_pure, run_recorded_cursor (ih.run_cursor c), Option.map_map]
    rfl
  -- Everything else is passed on by the instances.
  | _ => infer_instance

end Parts

end SolidityTokens
