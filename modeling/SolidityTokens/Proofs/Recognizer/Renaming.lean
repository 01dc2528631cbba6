import SolidityTokens.Literal.Basic

/-!
# Runs on a renamed text

A **renaming** (`SolidityTokens.Renaming`) puts a character of the same size in
the place of every character of a text. Offsets keep their meaning, so what two
recognizers do on a text and on the renamed one can be compared event by event.
A recognizer `g` **renames** another one `f`
(`SolidityTokens.Recognizer.Renames`) if on the renamed text it makes the run of
`f`, renamed: it fails where `f` fails, it ends where `f` ends, it gives back
what `f` gives back, and what it finds is what `f` finds, renamed.

The two need not be the same recognizer, since a recognizer that looks for one
character has to look for another one in the renamed text. There is one rule for
each way of putting recognizers together. The one that is not plain bookkeeping
is that of the loop (`SolidityTokens.Recognizer.Renames.runs_rename`): the two
loops take their steps together, because whether a run lets its loop go on
depends on the length of what is left.
-/

namespace SolidityTokens

open Recognizer Grammar

/-! ### Renamings -/

/-- **A renaming of characters.** -/
structure Renaming where
  /-- The character in the place of a character. -/
  char : Char → Char
  /-- Different characters stay different. -/
  char_injective {ch ch' : Char} : char ch = char ch' → ch = ch'
  /-- A character takes as many bytes as before. -/
  utf8Size_char (ch : Char) : (char ch).utf8Size = ch.utf8Size

/-- The event with the text of its literal renamed. -/
def Event.rename (σ : Renaming) : Event → Event
  | reverted start position => reverted start position
  | recognized kind text start => recognized kind (text.map σ.char) start

/-- The literal with its text renamed. -/
def Literal.rename (σ : Renaming) (literal : Literal) : Literal :=
  { literal with text := literal.text.map σ.char }

/-- The same place in the renamed text. -/
def Cursor.rename (σ : Renaming) (c : Cursor) : Cursor :=
  { c with read := c.read.map σ.char, rest := c.rest.map σ.char }

/-- What a run leaves behind, renamed; what was found is renamed by `φ`. -/
def Outcome.rename {α β : Type} (σ : Renaming) (φ : α → β) (outcome : Outcome α) : Outcome β :=
  ⟨outcome.value.map φ, outcome.cursor.rename σ, outcome.events.map (Event.rename σ)⟩

section Parts

variable {σ : Renaming}

theorem Renaming.beq_char (σ : Renaming) (ch ch' : Char) :
    (σ.char ch == σ.char ch') = (ch == ch') := by
  rw [Bool.eq_iff_iff, beq_iff_eq, beq_iff_eq]
  exact ⟨σ.char_injective, congrArg σ.char⟩

theorem Renaming.contains_map (σ : Renaming) (set : Text) (ch : Char) :
    (set.map σ.char).contains (σ.char ch) = set.contains ch := by
  induction set with
  | nil => rfl
  | cons ch' set ih => rw [List.map_cons, List.contains_cons, List.contains_cons, σ.beq_char, ih]

@[simp] theorem Renaming.size_map (σ : Renaming) (text : Text) :
    Text.size (text.map σ.char) = Text.size text := by
  induction text with
  | nil => rfl
  | cons ch text ih => rw [List.map_cons, Text.size_cons, Text.size_cons, σ.utf8Size_char, ih]

/-- Going back is on record with the same offsets. -/
theorem Renaming.map_revertEvents (σ : Renaming) (start position : Nat) :
    (revertEvents start position).map (Event.rename σ) = revertEvents start position := by
  rw [revertEvents]
  split <;> rfl

namespace Cursor

variable (c d : Cursor)

@[simp] theorem text_rename : (c.rename σ).text = c.text.map σ.char := by
  simp [rename, Cursor.text]

@[simp] theorem position_rename : (c.rename σ).position = c.position :=
  σ.size_map c.read

@[simp] theorem length_rest_rename : (c.rename σ).rest.length = c.rest.length :=
  List.length_map σ.char

theorem peek_rename : (c.rename σ).peek = c.peek.map σ.char :=
  List.head?_map

theorem any_peek_rename {p q : Char → Bool} (h : ∀ ch, q (σ.char ch) = p ch) :
    (c.rename σ).peek.any q = c.peek.any p := by
  rw [peek_rename]
  cases c.peek with
  | none => rfl
  | some ch => exact h ch

theorem advance_rename (n : Nat) : (c.rename σ).advance n = (c.advance n).rename σ := by
  simp [rename, advance, List.map_take, List.map_drop]

theorem textSince_rename : (d.rename σ).textSince (c.rename σ) = (d.textSince c).map σ.char := by
  rw [textSince, textSince, length_rest_rename, length_rest_rename, List.map_take]
  rfl

end Cursor

end Parts

/-! ### Recognizers of the renamed text -/

section Rules

variable {α α' β β' : Type} {σ : Renaming} {φ : α → α'} {ψ : β → β'}

/-- **A recognizer renames another one** when on the renamed text it makes the
same run, renamed. -/
structure Recognizer.Renames (σ : Renaming) (φ : α → α') (f : Recognizer α) (g : Recognizer α') :
    Prop where
  /-- The run is the same, renamed. -/
  run_rename (c : Cursor) : g.run (c.rename σ) = (f.run c).rename σ φ

namespace Recognizer.Renames

variable {f : Recognizer α} {f' : Recognizer α'} {g : Recognizer β} {g' : Recognizer β'}

theorem pure (a : α) : Renames σ φ (pure a) (pure (φ a)) := ⟨fun _ => rfl⟩

theorem fail : Renames σ φ failure failure := ⟨fun _ => rfl⟩

theorem guard (b : Bool) : Renames σ id (guard b : Recognizer Unit) (guard b) := by
  cases b
  · exact ⟨fun _ => rfl⟩
  · exact ⟨fun _ => rfl⟩

/-! Single characters: the tests have to agree about a character and the one in
its place. -/

theorem satisfy {p q : Char → Bool} (h : ∀ ch, q (σ.char ch) = p ch) :
    Renames σ (List.map σ.char) (satisfy p) (satisfy q) where
  run_rename c := by
    cases hrest : c.rest with
    | nil =>
      have hrest' : (c.rename σ).rest = [] := by rw [Cursor.rename, hrest, List.map_nil]
      rw [run_satisfy_nil p c hrest, run_satisfy_nil q _ hrest']
      rfl
    | cons ch rest =>
      have hrest' : (c.rename σ).rest = σ.char ch :: rest.map σ.char := by
        rw [Cursor.rename, hrest, List.map_cons]
      rw [run_satisfy_cons p c hrest, run_satisfy_cons q _ hrest', h]
      by_cases hp : p ch
      · rw [if_pos hp, if_pos hp, Cursor.advance_rename]
        rfl
      · rw [if_neg hp, if_neg hp]
        rfl

theorem char (ch : Char) : Renames σ (List.map σ.char) (char ch) (char (σ.char ch)) :=
  satisfy fun ch' => σ.beq_char ch' ch

theorem noneOf (set : Text) :
    Renames σ (List.map σ.char) (noneOf set) (noneOf (set.map σ.char)) :=
  satisfy fun ch => congrArg not (σ.contains_map set ch)

theorem notFollowedBy {p q : Char → Bool} (h : ∀ ch, q (σ.char ch) = p ch) :
    Renames σ id (notFollowedBy p) (notFollowedBy q) where
  run_rename c := by
    rw [run_notFollowedBy, run_notFollowedBy, c.any_peek_rename h]
    split <;> rfl

theorem wordBoundary (h : ∀ ch, isIdentifierPart (σ.char ch) = isIdentifierPart ch) :
    Renames σ id wordBoundary wordBoundary where
  run_rename c := by
    rw [run_wordBoundary, run_wordBoundary, c.any_peek_rename h]
    change Outcome.mk (if c.options.wordBoundaries && c.peek.any isIdentifierPart then none
      else some ()) _ _ = _
    split <;> rfl

/-! Sequence, alternative and what gives input back. -/

theorem bind {h : α → Recognizer β} {h' : α' → Recognizer β'} (hf : Renames σ φ f f')
    (hh : ∀ a, Renames σ ψ (h a) (h' (φ a))) : Renames σ ψ (f >>= h) (f' >>= h') where
  run_rename c := by
    rw [run_bind, run_bind, hf.run_rename]
    rcases f.run c with ⟨_ | a, d, events⟩
    · rfl
    · simp only [Outcome.rename, Option.map_some, (hh a).run_rename, List.map_append]

theorem orElse {g : Recognizer α} {g' : Recognizer α'} (hf : Renames σ φ f f')
    (hg : Renames σ φ g g') : Renames σ φ (f <|> g) (f' <|> g') where
  run_rename c := by
    rw [run_orElse, run_orElse, hf.run_rename]
    rcases f.run c with ⟨_ | a, d, events⟩
    · simp only [Outcome.rename, Option.map_none, hg.run_rename, List.map_append]
    · rfl

theorem firstOf {ι : Type} {f : ι → Recognizer α} {f' : ι → Recognizer α'}
    (h : ∀ i, Renames σ φ (f i) (f' i)) (is : List ι) :
    Renames σ φ (firstOf (is.map f)) (firstOf (is.map f')) := by
  induction is with
  | nil => exact fail
  | cons i is ih => exact (h i).orElse ih

theorem whenMatched (hf : Renames σ φ f f') (hg : Renames σ ψ g g') :
    Renames σ id (whenMatched f g) (whenMatched f' g') where
  run_rename c := by
    rw [run_whenMatched, run_whenMatched, hf.run_rename]
    rcases f.run c with ⟨_ | a, d, events⟩
    · rfl
    · simp only [Outcome.rename, Option.map_some, hg.run_rename, List.map_append]
      cases (g.run d).value <;> rfl

theorem atomic (hf : Renames σ φ f f') :
    Renames σ (List.map σ.char) (atomic f) (atomic f') where
  run_rename c := by
    rw [run_atomic, run_atomic, hf.run_rename]
    rcases f.run c with ⟨_ | a, d, events⟩
    · simp only [Outcome.rename, Option.map_none, Cursor.position_rename, List.map_append,
        σ.map_revertEvents]
      rfl
    · simp only [Outcome.rename, Option.map_some, Cursor.textSince_rename]

theorem optionally (hf : Renames σ φ f f') :
    Renames σ (List.map σ.char) (optionally f) (optionally f') :=
  hf.atomic.orElse (pure [])

theorem inTurn (hf : Renames σ φ f f') (n : Nat) : Renames σ id (inTurn f n) (inTurn f' n) := by
  induction n with
  | zero => exact pure ()
  | succ n ih => exact hf.bind fun _ => ih

theorem times (n : Nat) (hf : Renames σ φ f f') :
    Renames σ (List.map σ.char) (times n f) (times n f') :=
  (hf.inTurn n).atomic

theorem spelled (text : Text) : Renames σ id (spelled text) (spelled (text.map σ.char)) := by
  induction text with
  | nil => exact pure ()
  | cons ch text ih => exact (char ch).bind fun _ => ih

theorem word (expected : Text) :
    Renames σ (List.map σ.char) (word expected) (word (expected.map σ.char)) :=
  (spelled expected).atomic

/-! Loops. -/

/-- **The loops make the same runs**: whether they go on depends on how much is
left. -/
theorem runs_rename (hf : Renames σ φ f f') (c : Cursor) :
    runs f' (c.rename σ) = (runs f c).map (Outcome.rename σ φ) := by
  have hgoesOn : ∀ c, goesOn (c.rename σ) (f'.run (c.rename σ)) ↔ goesOn c (f.run c) := by
    intro c
    rw [goesOn_iff, goesOn_iff, hf.run_rename]
    simp only [Outcome.rename, Option.isSome_map, Cursor.length_rest_rename]
  fun_induction runs f c with
  | case1 c outcome hgo ih =>
    have hcursor : (f'.run (c.rename σ)).cursor = outcome.cursor.rename σ :=
      congrArg Outcome.cursor (hf.run_rename c)
    rw [runs_of_goesOn ((hgoesOn c).mpr hgo), hcursor, ih, hf.run_rename]
    rfl
  | case2 c outcome hstop =>
    rw [runs_of_not_goesOn fun hgo => hstop ((hgoesOn c).mp hgo), hf.run_rename]
    rfl

theorem finalCursor_map_rename (c : Cursor) (outcomes : List (Outcome α)) :
    finalCursor (c.rename σ) (outcomes.map (Outcome.rename σ φ)) =
      (finalCursor c outcomes).rename σ := by
  induction outcomes generalizing c with
  | nil => rfl
  | cons outcome outcomes ih => exact ih outcome.cursor

theorem many (hf : Renames σ φ f f') : Renames σ (List.map σ.char) (many f) (many f') where
  run_rename c := by
    rw [run_many, run_many, hf.runs_rename, finalCursor_map_rename, Cursor.textSince_rename,
      List.flatMap_map]
    simp only [Outcome.rename, Option.map_some, List.map_flatMap]

theorem many1 (hf : Renames σ φ f f') : Renames σ (List.map σ.char) (many1 f) (many1 f') :=
  (hf.bind fun _ => hf.many).atomic

/-! What is recorded of a search. -/

theorem recorded {f f' : Recognizer (LiteralKind × Text)}
    (hf : Renames σ (Prod.map id (List.map σ.char)) f f') :
    Renames σ (Literal.rename σ) (recorded f) (recorded f') where
  run_rename c := by
    rw [run_recorded, run_recorded, hf.run_rename]
    rcases f.run c with ⟨_ | found, d, events⟩
    · rfl
    · simp only [Outcome.rename, Option.map_some, Cursor.position_rename, List.map_append]
      rfl

end Recognizer.Renames

/-! ### Two runs on two texts -/

/-- **One outcome is another one renamed**: what was found is renamed by `φ`,
the position where the run ended is the same, and the record is the same, event
by event, with the texts of its literals renamed. -/
structure Outcome.RenamedTo (σ : Renaming) (φ : α → α') (outcome : Outcome α)
    (renamed : Outcome α') : Prop where
  /-- The same was found, renamed. -/
  value_eq : renamed.value = outcome.value.map φ
  /-- The run ended at the same position. -/
  position_eq : renamed.cursor.position = outcome.cursor.position
  /-- The same happened, with the texts of literals renamed. -/
  events_eq : renamed.events = outcome.events.map (Event.rename σ)

theorem Recognizer.Renames.renamedTo {f : Recognizer α} {f' : Recognizer α'}
    (h : Renames σ φ f f') (c : Cursor) :
    (f.run c).RenamedTo σ φ (f'.run (c.rename σ)) := by
  rw [h.run_rename c]
  exact ⟨rfl, Cursor.position_rename _, rfl⟩

end Rules

end SolidityTokens
