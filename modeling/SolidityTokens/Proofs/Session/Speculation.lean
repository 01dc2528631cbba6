import SolidityTokens.Proofs.Machine.Safety

/-!
# What a checkpoint leaves behind

A session may try steps out under a checkpoint and decide afterwards whether
they count. This file says what the decision is worth, for a block at **any**
depth of any session. The session around the block is a context
(`SolidityTokens.Session.Context`), a session with a hole, and the block is
compared with what else could stand in the hole.

* A block that ends by keeping what was read could as well have been written
  without its checkpoint: its steps answer the same, so does all that comes
  later, and the cursor and the record are the same
  (`SolidityTokens.Session.Transparent`).
* A block that ends by giving back what was read could as well not have been
  there at all, as long as it left the options alone
  (`SolidityTokens.Session.Invisible`).

Giving back restores the place and not the options, so the proviso cannot be
dropped. What carries both results from the hole to the whole session is one
relation between transcripts (`SolidityTokens.Transcript.Exchanged`): the
cursors are the same, and the answers and the events are the same but for those
of the block.
-/

namespace SolidityTokens

open Recognizer Grammar

/-! ### The life of a checkpoint -/

/-- A checkpoint: where it was opened, the cursor that is moved under it, and
whether it is settled. -/
structure Checkpoint where
  /-- The place where it was opened. -/
  start : Cursor
  /-- The cursor as it stands. -/
  cursor : Cursor
  /-- Whether it was decided what becomes of the input read since. -/
  settled : Bool

namespace Checkpoint

/-- Goes back to the start, which is on record if it is another place. -/
def rewind (checkpoint : Checkpoint) : Checkpoint × List Event :=
  ({ checkpoint with cursor := checkpoint.cursor.rewindTo checkpoint.start },
    revertEvents checkpoint.start.position checkpoint.cursor.position)

/-- The end of every checkpoint: one that is not settled goes back. -/
def close (checkpoint : Checkpoint) : Cursor × List Event :=
  if checkpoint.settled then (checkpoint.cursor, [])
  else (checkpoint.rewind.1.cursor, checkpoint.rewind.2)

/-- Settles a checkpoint, or does not, and closes it. -/
def finish (checkpoint : Checkpoint) : Ending → Cursor × List Event
  | .commit => close { checkpoint with settled := true }
  | .revert =>
    let (rewound, events) := rewind { checkpoint with settled := true }
    (rewound.close.1, events ++ rewound.close.2)
  | .drop => checkpoint.close

/-- **A checkpoint that is reverted and one that is dropped come to the same
end.** The one goes back when it is settled, and closing it does nothing more;
the other goes back when it is closed. -/
theorem finish_of_ne_commit (start cursor : Cursor) {ending : Ending} (h : ending ≠ .commit) :
    finish ⟨start, cursor, false⟩ ending =
      (cursor.rewindTo start, revertEvents start.position cursor.position) := by
  cases ending with
  | commit => exact absurd rfl h
  | revert => exact Prod.ext rfl (List.append_nil _)
  | drop => rfl

end Checkpoint

/-- Settling is the life of a checkpoint from where its steps end. -/
theorem Ending.settle_eq_finish (ending : Ending) (start : Cursor) (inner : Transcript) :
    (ending.settle start inner).cursor =
        (Checkpoint.finish ⟨start, inner.cursor, false⟩ ending).1 ∧
      (ending.settle start inner).events =
        inner.events ++ (Checkpoint.finish ⟨start, inner.cursor, false⟩ ending).2 := by
  cases ending with
  | commit => exact ⟨rfl, (List.append_nil _).symm⟩
  | revert =>
    rw [Checkpoint.finish_of_ne_commit start inner.cursor (by decide)]
    exact ⟨rfl, rfl⟩
  | drop => exact ⟨rfl, rfl⟩

theorem Ending.settle_of_ne_commit {ending : Ending} (h : ending ≠ .commit) :
    ending.settle = Ending.revert.settle := by
  cases ending with
  | commit => exact absurd rfl h
  | revert => rfl
  | drop => rfl

/-! ### Transcripts that differ in one place -/

/-- The answers of the second list are those of the first, with `old` exchanged
for `new` in one place. The place may be under checkpoints and on copies, and
everything else about those is the same. -/
inductive Answer.Exchanged (old new : List Answer) : List Answer → List Answer → Prop
  /-- This is the place. -/
  | here : Exchanged old new old new
  /-- The place is between other answers. -/
  | among {as bs : List Answer} (before after : List Answer) :
      Exchanged old new as bs → Exchanged old new (before ++ as ++ after) (before ++ bs ++ after)
  /-- The place is on a copy. -/
  | onCopy {as bs : List Answer} (copyPosition position : Nat) :
      Exchanged old new as bs →
        Exchanged old new [.onCopy as copyPosition position] [.onCopy bs copyPosition position]
  /-- The place is under a checkpoint. -/
  | checkpoint {as bs : List Answer} (span : Span) (kept : Option Text) (position : Nat) :
      Exchanged old new as bs →
        Exchanged old new [.checkpoint as span kept position] [.checkpoint bs span kept position]

/-- Exchanging answers for the same answers changes nothing. -/
theorem Answer.Exchanged.eq {old as bs : List Answer} (h : Answer.Exchanged old old as bs) :
    as = bs := by
  induction h with
  | here => rfl
  | among before after _ ih => rw [ih]
  | onCopy copyPosition position _ ih => rw [ih]
  | checkpoint span kept position _ ih => rw [ih]

namespace Transcript

/-- **The second transcript is the first, with answers exchanged in one place
and events left out in one place.** -/
structure Exchanged (old new : List Answer) (lost : List Event) (t t' : Transcript) : Prop where
  /-- Both end at the same cursor. -/
  cursor_eq : t'.cursor = t.cursor
  /-- All answers but those at one place are the same. -/
  answers : Answer.Exchanged old new t.answers t'.answers
  /-- All events but those at one place are the same. -/
  events : ∃ before after, t.events = before ++ lost ++ after ∧ t'.events = before ++ after

theorem Exchanged.of_eq {t t' : Transcript} (h : t' = t) :
    Exchanged t.answers t.answers [] t t' := by
  subst h
  exact ⟨rfl, .here, t'.events, [], by rw [List.append_nil, List.append_nil],
    (List.append_nil _).symm⟩

theorem Exchanged.eq {old : List Answer} {t t' : Transcript} (h : Exchanged old old [] t t') :
    t' = t := by
  obtain ⟨answers, cursor, events⟩ := t
  obtain ⟨answers', cursor', events'⟩ := t'
  obtain ⟨before, after, hevents, hevents'⟩ := h.events
  obtain rfl : cursor' = cursor := h.cursor_eq
  obtain rfl : answers = answers' := h.answers.eq
  rw [List.append_nil] at hevents
  obtain rfl : events' = events := hevents'.trans hevents.symm
  rfl

theorem andThen_assoc (t : Transcript) (f g : Cursor → Transcript) :
    (t.andThen f).andThen g = t.andThen fun c => (f c).andThen g := by
  simp only [andThen, List.append_assoc]

namespace Exchanged

variable {old new : List Answer} {lost : List Event} {t t' : Transcript}

/-- Going on after the place: the cursors are the same, so all that comes later
is. -/
theorem andThen (h : Exchanged old new lost t t') (next : Cursor → Transcript) :
    Exchanged old new lost (t.andThen next) (t'.andThen next) := by
  obtain ⟨before, after, hevents, hevents'⟩ := h.events
  refine ⟨?_, ?_, before, after ++ (next t.cursor).events, ?_, ?_⟩
  · simp only [Transcript.andThen, h.cursor_eq]
  · have hanswers := h.answers.among [] (next t.cursor).answers
    simp only [Transcript.andThen, h.cursor_eq]
    exact hanswers
  · simp only [Transcript.andThen, hevents, List.append_assoc]
  · simp only [Transcript.andThen, h.cursor_eq, hevents', List.append_assoc]

/-- What comes before the place. -/
theorem after (first : Transcript) {next next' : Cursor → Transcript}
    (h : Exchanged old new lost (next first.cursor) (next' first.cursor)) :
    Exchanged old new lost (first.andThen next) (first.andThen next') := by
  obtain ⟨before, after, hevents, hevents'⟩ := h.events
  refine ⟨h.cursor_eq, ?_, first.events ++ before, after, ?_, ?_⟩
  · have hanswers := h.answers.among first.answers []
    rw [List.append_nil, List.append_nil] at hanswers
    exact hanswers
  · simp only [Transcript.andThen, hevents, List.append_assoc]
  · simp only [Transcript.andThen, hevents', List.append_assoc]

/-- A place on a copy; the cursor itself does not move. -/
theorem onCopy (h : Exchanged old new lost t t') (c : Cursor) :
    Exchanged old new lost
      ⟨[.onCopy t.answers t.cursor.position c.position], c, t.events⟩
      ⟨[.onCopy t'.answers t'.cursor.position c.position], c, t'.events⟩ := by
  refine ⟨rfl, ?_, h.events⟩
  rw [h.cursor_eq]
  exact h.answers.onCopy _ _

/-- A place under a checkpoint: both sides settle it from the same cursor. -/
theorem settle (h : Exchanged old new lost t t') (ending : Ending) (start : Cursor) :
    Exchanged old new lost (ending.settle start t) (ending.settle start t') := by
  obtain ⟨before, after, hevents, hevents'⟩ := h.events
  have hback : ∃ before' after',
      t.events ++ revertEvents start.position t.cursor.position = before' ++ lost ++ after' ∧
        t'.events ++ revertEvents start.position t.cursor.position = before' ++ after' := by
    refine ⟨before, after ++ revertEvents start.position t.cursor.position, ?_, ?_⟩
    · rw [hevents, List.append_assoc]
    · rw [hevents', List.append_assoc]
  cases ending with
  | commit =>
    simp only [Ending.settle, h.cursor_eq]
    exact ⟨rfl, h.answers.checkpoint _ _ _, h.events⟩
  | revert =>
    simp only [Ending.settle, h.cursor_eq]
    exact ⟨rfl, h.answers.checkpoint _ _ _, hback⟩
  | drop =>
    simp only [Ending.settle, h.cursor_eq]
    exact ⟨rfl, h.answers.checkpoint _ _ _, hback⟩

end Exchanged

variable {start : Cursor} {inner : Transcript}

/-- Keeping what was read puts the answers of the steps into that of the
checkpoint. -/
theorem exchanged_commit {kept : Text} (h : start.Reads kept inner.cursor) :
    Exchanged
      [.checkpoint inner.answers ⟨start.position, inner.cursor.position⟩ (some kept)
        inner.cursor.position]
      inner.answers [] (Ending.commit.settle start inner) inner := by
  refine ⟨rfl, ?_, inner.events, [], ?_, (List.append_nil _).symm⟩
  · rw [Ending.settle, h.textSince_eq]
    exact .here
  · rw [List.append_nil, List.append_nil]
    rfl

/-- Giving back what was read is doing nothing, if the options are what they
were. -/
theorem exchanged_rewind {ending : Ending} (hending : ending ≠ .commit)
    (hoptions : inner.cursor.options = start.options) :
    Exchanged
      [.checkpoint inner.answers ⟨start.position, inner.cursor.position⟩ none start.position] []
      (inner.events ++ revertEvents start.position inner.cursor.position)
      (ending.settle start inner) ⟨[], start, []⟩ := by
  have hback : inner.cursor.rewindTo start = start := by
    rw [Cursor.rewindTo, hoptions]
  cases ending with
  | commit => exact absurd rfl hending
  | revert => exact ⟨hback.symm, .here, [], [], (List.append_nil _).symm, rfl⟩
  | drop => exact ⟨hback.symm, .here, [], [], (List.append_nil _).symm, rfl⟩

end Transcript

/-! ### Sessions with a hole -/

namespace Session

/-- The steps of one session, and then those of another. -/
def followedBy : Session → Session → Session
  | done, later => later
  | act action next, later => act action (next.followedBy later)
  | onCopy steps next, later => onCopy steps (next.followedBy later)
  | checkpoint steps ending next, later => checkpoint steps ending (next.followedBy later)

theorem perform_followedBy (session later : Session) (c : Cursor) :
    (session.followedBy later).perform c = (session.perform c).andThen later.perform := by
  induction session generalizing c with
  | done => rfl
  | act action next ih =>
    simp only [followedBy, perform, Transcript.andThen_assoc]
    exact congrArg _ (funext ih)
  | onCopy steps next _ ih =>
    simp only [followedBy, perform, Transcript.andThen_assoc]
    exact congrArg _ (funext ih)
  | checkpoint steps ending next _ ih =>
    simp only [followedBy, perform, Transcript.andThen_assoc]
    exact congrArg _ (funext ih)

/-- **A session with a hole**, in which the rest of the session from some point
on is missing, or the rest of what stands under one of its checkpoints or on one
of its copies. -/
inductive Context where
  /-- Everything is missing. -/
  | hole
  /-- A single step comes first. -/
  | act (action : Action) (rest : Context)
  /-- The hole is on a copy. -/
  | inCopy (steps : Context) (next : Session)
  /-- Steps on a copy come first. -/
  | afterCopy (steps : Session) (rest : Context)
  /-- The hole is under a checkpoint. -/
  | inCheckpoint (steps : Context) (ending : Ending) (next : Session)
  /-- A checkpoint comes first. -/
  | afterCheckpoint (steps : Session) (ending : Ending) (rest : Context)

namespace Context

/-- The session with the hole filled. -/
def fill : Context → Session → Session
  | hole, session => session
  | act action rest, session => .act action (rest.fill session)
  | inCopy steps next, session => .onCopy (steps.fill session) next
  | afterCopy steps rest, session => .onCopy steps (rest.fill session)
  | inCheckpoint steps ending next, session => .checkpoint (steps.fill session) ending next
  | afterCheckpoint steps ending rest, session => .checkpoint steps ending (rest.fill session)

/-- The cursor at which the hole is reached. -/
def reached : Context → Cursor → Cursor
  | hole, c => c
  | act action rest, c => rest.reached (action.perform c).cursor
  | inCopy steps _, c => steps.reached c
  | afterCopy _ rest, c => rest.reached c
  | inCheckpoint steps _ _, c => steps.reached c
  | afterCheckpoint steps ending rest, c =>
    rest.reached (ending.settle c (steps.perform c)).cursor

/-- **What differs in the hole differs in the whole session, and nothing else
does.** -/
theorem exchanged_fill {old new : List Answer} {lost : List Event} (context : Context)
    (session session' : Session) (c : Cursor)
    (h : Transcript.Exchanged old new lost (session.perform (context.reached c))
      (session'.perform (context.reached c))) :
    Transcript.Exchanged old new lost ((context.fill session).perform c)
      ((context.fill session').perform c) := by
  induction context generalizing c with
  | hole => exact h
  | act action rest ih => exact .after _ (ih _ h)
  | inCopy steps next ih => exact ((ih c h).onCopy c).andThen _
  | afterCopy steps rest ih => exact .after ⟨_, c, _⟩ (ih c h)
  | inCheckpoint steps ending next ih => exact ((ih c h).settle ending c).andThen _
  | afterCheckpoint steps ending rest ih => exact .after _ (ih _ h)

/-- Sessions that perform alike where the hole is perform alike in it. -/
theorem perform_fill_congr {session session' : Session} (context : Context) (c : Cursor)
    (h : session'.perform (context.reached c) = session.perform (context.reached c)) :
    (context.fill session').perform c = (context.fill session).perform c :=
  (context.exchanged_fill session session' c (.of_eq h)).eq

/-- What stands in the hole respects the checkpoints if the whole session
does. -/
theorem seeksFrom_of_fill {session : Session} (context : Context) {floor : Nat} {c : Cursor}
    (h : (context.fill session).SeeksFrom floor c) :
    ∃ floor', session.SeeksFrom floor' (context.reached c) := by
  induction context generalizing floor c with
  | hole => exact ⟨floor, h⟩
  | act action rest ih => exact ih h.2
  | inCopy steps next ih => exact ih h.1
  | afterCopy steps rest ih => exact ih h.2
  | inCheckpoint steps ending next ih => exact ih h.1
  | afterCheckpoint steps ending rest ih => exact ih h.2

end Context

end Session

/-! ### The text and the options of a session -/

theorem Action.text_perform (action : Action) (c : Cursor) :
    (action.perform c).cursor.text = c.text := by
  have hseek : action.SeeksFrom 0 c := by
    cases action with
    | seek offset wordBoundaries => exact fun _ => Nat.zero_le offset
    | _ => trivial
  exact (Machine.performs_action action [] (Nat.zero_le _) hseek).text_eq

theorem Ending.text_settle (ending : Ending) (start : Cursor) {inner : Transcript}
    (h : inner.cursor.text = start.text) :
    (ending.settle start inner).cursor.text = start.text := by
  cases ending with
  | commit => exact h
  | revert => rfl
  | drop => rfl

namespace Session

/-- A session stays on its text. -/
theorem text_perform (session : Session) (c : Cursor) :
    (session.perform c).cursor.text = c.text := by
  induction session generalizing c with
  | done => rfl
  | act action next ih => exact (ih _).trans (action.text_perform c)
  | onCopy steps next _ ih => exact ih c
  | checkpoint steps ending next ihsteps ihnext =>
    exact (ihnext _).trans (ending.text_settle c (ihsteps c))

theorem Context.text_reached (context : Context) (c : Cursor) :
    (context.reached c).text = c.text := by
  induction context generalizing c with
  | hole => rfl
  | act action rest ih => exact (ih _).trans (action.text_perform c)
  | inCopy steps next ih => exact ih c
  | afterCopy steps rest ih => exact ih c
  | inCheckpoint steps ending next ih => exact ih c
  | afterCheckpoint steps ending rest ih =>
    exact (ih _).trans (ending.text_settle c (steps.text_perform c))

end Session

/-- A step does not change the options. Only a move that is made can do so. -/
def Action.KeepsOptions : Action → Cursor → Prop
  | .seek offset wordBoundaries, c =>
    ∀ moved, c.seek? offset wordBoundaries = some moved → moved.options = c.options
  | _, _ => True

/-- **No step of a session changes the options.** Steps on a copy may do so,
since the options of a copy are its own. -/
def Session.KeepsOptions : Session → Cursor → Prop
  | done, _ => True
  | act action next, c => action.KeepsOptions c ∧ next.KeepsOptions (action.perform c).cursor
  | onCopy _ next, c => next.KeepsOptions c
  | checkpoint steps ending next, c =>
    steps.KeepsOptions c ∧ next.KeepsOptions (ending.settle c (steps.perform c)).cursor

theorem Action.options_perform {action : Action} {c : Cursor} (h : action.KeepsOptions c) :
    (action.perform c).cursor.options = c.options := by
  cases action with
  | run pattern => exact pattern.recipe.options_run c
  | literal =>
    exact ((Recipe.kindAmong LiteralKind.all).exec_follows c []).recorded.options_eq
  | elementaryType => exact (Recipe.keywordAmong Keyword.elementaryTypes).options_run c
  | state => rfl
  | slice span => rfl
  | seek offset wordBoundaries =>
    rw [Action.perform]
    cases hmoved : c.seek? offset wordBoundaries with
    | none => rfl
    | some moved => exact h moved hmoved

theorem Ending.options_settle (ending : Ending) (start : Cursor) (inner : Transcript) :
    (ending.settle start inner).cursor.options = inner.cursor.options := by
  cases ending <;> rfl

theorem Session.options_perform {session : Session} {c : Cursor} (h : session.KeepsOptions c) :
    (session.perform c).cursor.options = c.options := by
  induction session generalizing c with
  | done => rfl
  | act action next ih => exact (ih h.2).trans (Action.options_perform h.1)
  | onCopy steps next _ ih => exact ih h
  | checkpoint steps ending next ihsteps ihnext =>
    exact (ihnext h.2).trans ((ending.options_settle c _).trans (ihsteps h.1))

/-! ### Blocks -/

namespace Session

/-- **A block is transparent**, which was reached at `start` and whose steps are
performed as `inner` says, in a session on a text that is performed as `whole`
says, and as `bare` says without the checkpoint: the cursor at the end and the
record are the same, and so are all answers, but that the answers of the steps
are now part of the answer of the checkpoint, next to the text between the place
where it was opened and the one where it was settled. -/
structure Transparent (text : Text) (start : Cursor) (inner whole bare : Transcript) :
    Prop where
  /-- The cursor at the end is the same. -/
  cursor_eq : whole.cursor = bare.cursor
  /-- The record is the same. -/
  events_eq : whole.events = bare.events
  /-- The answers are the same, and what was read is kept. -/
  exists_kept : ∃ kept,
    Span.slice? ⟨start.position, inner.cursor.position⟩ text = some kept ∧
      Answer.Exchanged
        [.checkpoint inner.answers ⟨start.position, inner.cursor.position⟩ (some kept)
          inner.cursor.position]
        inner.answers whole.answers bare.answers

/-- **A block is invisible**, which was reached at `start` and whose steps are
performed as `inner` says, in a session that is performed as `whole` says, and
as `gone` says without the block: the cursor at the end is the same, and all
answers and events are the same but those of the block itself. -/
structure Invisible (start : Cursor) (inner whole gone : Transcript) : Prop where
  /-- The cursor at the end is the same. -/
  cursor_eq : whole.cursor = gone.cursor
  /-- All answers but that of the block are the same. -/
  answers : Answer.Exchanged
    [.checkpoint inner.answers ⟨start.position, inner.cursor.position⟩ none start.position] []
    whole.answers gone.answers
  /-- All events but those of the block are the same. -/
  events : ∃ before after,
    whole.events =
        before ++ (inner.events ++ revertEvents start.position inner.cursor.position) ++ after ∧
      gone.events = before ++ after

variable (context : Context) (steps next : Session) (c : Cursor)

theorem transparent_of_commit
    (hseek : (context.fill (.checkpoint steps .commit next)).SeeksFrom 0 c) :
    Transparent c.text (context.reached c) (steps.perform (context.reached c))
      ((context.fill (.checkpoint steps .commit next)).perform c)
      ((context.fill (steps.followedBy next)).perform c) := by
  -- The steps do not end before their start, so there is a text in between.
  obtain ⟨floor, hsteps, -⟩ := context.seeksFrom_of_fill hseek
  have hperforms := steps.exec_performs _ [] _ (Nat.le_refl _) hsteps
  obtain ⟨kept, hkept⟩ := Cursor.exists_reads hperforms.text_eq hperforms.floor_le
  have hslice := hkept.slice?_eq
  rw [context.text_reached] at hslice
  have hblock := (Transcript.exchanged_commit hkept).andThen next.perform
  rw [← perform_followedBy] at hblock
  have hwhole := context.exchanged_fill (.checkpoint steps .commit next) _ c hblock
  obtain ⟨before, after, hevents, hevents'⟩ := hwhole.events
  rw [List.append_nil] at hevents
  exact ⟨hwhole.cursor_eq.symm, hevents.trans hevents'.symm, kept, hslice, hwhole.answers⟩

theorem invisible_of_rewind {ending : Ending} (hending : ending ≠ .commit)
    (hkeeps : steps.KeepsOptions (context.reached c)) :
    Invisible (context.reached c) (steps.perform (context.reached c))
      ((context.fill (.checkpoint steps ending next)).perform c)
      ((context.fill next).perform c) := by
  have hblock := (Transcript.exchanged_rewind hending (options_perform hkeeps)).andThen
    next.perform
  have hwhole := context.exchanged_fill (.checkpoint steps ending next) next c hblock
  exact ⟨hwhole.cursor_eq.symm, hwhole.answers, hwhole.events⟩

end Session

/-- **What a checkpoint leaves behind.** Take any block of any session in which
no step under a checkpoint goes before its start. If it ends by keeping what was
read, it is transparent. If it ends by giving it back, it does not matter in
which way; it ends where it was opened, and if it leaves the options alone, it
is invisible. -/
theorem checkpoint_transparent_or_invisible (context : Session.Context) (steps next : Session)
    (ending : Ending) (c : Cursor)
    (hseek : (context.fill (.checkpoint steps ending next)).SeeksFrom 0 c) :
    let start := context.reached c
    let inner := steps.perform start
    let opened : Checkpoint := ⟨start, inner.cursor, false⟩
    let whole := (context.fill (.checkpoint steps ending next)).perform c
    ((ending.settle start inner).cursor = (opened.finish ending).1 ∧
      (ending.settle start inner).events = inner.events ++ (opened.finish ending).2) ∧
    (ending = .commit →
      Session.Transparent c.text start inner whole
        ((context.fill (steps.followedBy next)).perform c)) ∧
    (ending ≠ .commit →
      (∀ ending' ≠ .commit, opened.finish ending' = opened.finish ending ∧
        (context.fill (.checkpoint steps ending' next)).perform c = whole) ∧
      (opened.finish ending).1.position = start.position ∧
      (steps.KeepsOptions start →
        Session.Invisible start inner whole ((context.fill next).perform c))) := by
  intro start inner opened whole
  refine ⟨ending.settle_eq_finish start inner, ?_, fun hending => ⟨?_, ?_, ?_⟩⟩
  · rintro rfl
    exact Session.transparent_of_commit context steps next c hseek
  · intro ending' hending'
    refine ⟨?_, context.perform_fill_congr c ?_⟩
    · rw [Checkpoint.finish_of_ne_commit _ _ hending, Checkpoint.finish_of_ne_commit _ _ hending']
    · rw [Session.perform, Session.perform, Ending.settle_of_ne_commit hending,
        Ending.settle_of_ne_commit hending']
  · rw [Checkpoint.finish_of_ne_commit _ _ hending]
    rfl
  · exact Session.invisible_of_rewind context steps next c hending

/-- A block inside another one, with a committed checkpoint and a move back
inside it, after a character of two bytes: kept, and abandoned. -/
theorem checkpoint_transparent_or_invisible_nested :
    let context : Session.Context :=
      .inCheckpoint (.act (.run (.charOf .decimalDigit)) .hole) .commit (.act .state .done)
    let steps : Session :=
      .checkpoint (.act (.run .underscoreDigit) .done) .commit (.act (.seek 4 none) .done)
    let next : Session := .act .literal .done
    let c : Cursor := ⟨['é'], "1_2 ether".toList, {}⟩
    let start := context.reached c
    (∀ ending, (context.fill (.checkpoint steps ending next)).SeeksFrom 0 c) ∧
      steps.KeepsOptions start ∧
      Session.Transparent c.text start (steps.perform start)
        ((context.fill (.checkpoint steps .commit next)).perform c)
        ((context.fill (steps.followedBy next)).perform c) ∧
      Session.Invisible start (steps.perform start)
        ((context.fill (.checkpoint steps .drop next)).perform c)
        ((context.fill next).perform c) := by
  intro context steps next c start
  have hseek : ∀ ending, (context.fill (.checkpoint steps ending next)).SeeksFrom 0 c := by
    refine fun ending => ⟨⟨trivial, ⟨⟨trivial, trivial⟩, fun _ => ?_, trivial⟩, trivial, trivial⟩,
      trivial, trivial⟩
    decide +kernel
  have hkeeps : steps.KeepsOptions start :=
    ⟨⟨trivial, trivial⟩, fun moved hmoved => (Cursor.atOffset?_eq_some_iff.mp hmoved).2.2, trivial⟩
  have hkept := checkpoint_transparent_or_invisible context steps next .commit c (hseek .commit)
  have hgone := checkpoint_transparent_or_invisible context steps next .drop c (hseek .drop)
  exact ⟨hseek, hkeeps, hkept.2.1 rfl, (hgone.2.2 (by decide)).2.2 hkeeps⟩

/-- The proviso on the options: a block that changes them and is given back lets
a boolean be found that would not be found without the block. -/
example :
    let later : Session := .act (.run (.rule .booleanLiteral)) .done
    let block : Session := .checkpoint (.act (.seek 0 (some false)) .done) .revert later
    let c : Cursor := .atStart "truest".toList {}
    (block.perform c).cursor.position = 4 ∧ (later.perform c).cursor.position = 0 := by
  decide +kernel

end SolidityTokens
