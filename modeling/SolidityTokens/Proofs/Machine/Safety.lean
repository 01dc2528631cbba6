import SolidityTokens.Proofs.Grammar.Restoration
import SolidityTokens.Proofs.Machine.Simulation

/-!
# Sessions never get stuck

A session may do one thing that no recognizer does: it may replace the place by
any other place of the text, also under a checkpoint. A checkpoint whose start
comes to lie after the place cannot be settled by keeping what was read, since
there is no text from its start to the place. So sessions are asked for one
thing in return (`SolidityTokens.Session.SeeksFrom`): under a checkpoint they do
not go before its start.

For all such sessions the machine on byte offsets gives exactly the answers and
the events of `SolidityTokens.Session.perform`, and every state of its log is
sound. This is `SolidityTokens.perform_safe`. The induction carries a floor,
which is the start of the innermost open checkpoint: no state under the
checkpoint is before the floor, and no start on the stack is after it.
-/

namespace SolidityTokens

open Recognizer Grammar

/-- A step does not go before `floor`. Only a move that is made can do so; an
offset that is no boundary of the text moves nothing. -/
def Action.SeeksFrom : Action → Nat → Cursor → Prop
  | .seek offset wordBoundaries, floor, c =>
    (c.seek? offset wordBoundaries).isSome → floor ≤ offset
  | _, _, _ => True

/-- **No step under a checkpoint goes before its start**, in a session that is
performed from a cursor with `floor` as the start of the innermost checkpoint. A
copy of the cursor is under no checkpoint. -/
def Session.SeeksFrom : Session → Nat → Cursor → Prop
  | done, _, _ => True
  | act action next, floor, c =>
    action.SeeksFrom floor c ∧ next.SeeksFrom floor (action.perform c).cursor
  | onCopy steps next, floor, c => steps.SeeksFrom 0 c ∧ next.SeeksFrom floor c
  | checkpoint steps ending next, floor, c =>
    steps.SeeksFrom c.position c ∧
      next.SeeksFrom floor (ending.settle c (steps.perform c)).cursor

namespace Machine

variable {c d : Cursor} {opened : List Nat} {t : Text} {floor : Nat}

theorem span_of (h : c.Reads t d) :
    (of d (c.position :: opened)).span = some ⟨c.position, d.position⟩ :=
  if_pos h.position_le

theorem length_of (h : c.Reads t d) :
    (of d (c.position :: opened)).length = some (d.position - c.position) :=
  if_pos h.position_le

/-- **The machine performs a session like the cursor does**: it does not get
stuck, gives the same answers and events, ends in the same place, and its log is
lawful. -/
structure Performs (floor : Nat) (opened : List Nat) (c : Cursor) (transcript : Transcript)
    (result : Option Report) : Prop where
  /-- The session stays on its text. -/
  text_eq : transcript.cursor.text = c.text
  /-- The session does not end before the floor. -/
  floor_le : floor ≤ transcript.cursor.position
  /-- The machine comes to the same end. -/
  exists_log : ∃ log,
    result = some ⟨transcript.answers, of transcript.cursor opened, transcript.events, log⟩ ∧
      Lawful c.text floor opened c.options transcript.cursor.options log

theorem performs_still (opened : List Nat) (hfloor : floor ≤ c.position)
    (answers : List Answer) (events : List Event) :
    Performs floor opened c ⟨answers, c, events⟩ (some ⟨answers, of c opened, events, []⟩) :=
  ⟨rfl, hfloor, [], rfl, .nil _ _ _ _⟩

theorem Follows.performs {α : Type} {outcome : Outcome α} {result : Option (Reply α)}
    (h : Follows c opened outcome result) (hfloor : floor ≤ c.position)
    (answer : Option α → Nat → Answer) :
    Performs floor opened c (.ofOutcome outcome answer) (result.map (·.report answer)) := by
  obtain ⟨⟨t, ht⟩, hoptions, log, rfl, hlog⟩ := h
  refine ⟨ht.text_eq, Nat.le_trans hfloor ht.position_le, log, rfl, ?_⟩
  change Lawful c.text floor opened c.options outcome.cursor.options log
  rw [hoptions]
  exact hlog.mono hfloor

theorem performs_seek (hfloor : floor ≤ c.position) (offset : Nat)
    (wordBoundaries : Option Bool) (hseek : (Action.seek offset wordBoundaries).SeeksFrom floor c) :
    Performs floor opened c ((Action.seek offset wordBoundaries).perform c)
      (some ((of c opened).seek offset wordBoundaries)) := by
  have hisSome : ((of c opened).text.split? offset).isSome =
      (c.seek? offset wordBoundaries).isSome := Option.isSome_map.symm
  rw [Action.perform, seek, hisSome]
  cases hmoved : c.seek? offset wordBoundaries with
  | none => exact performs_still opened hfloor _ _
  | some moved =>
    obtain ⟨htext, rfl, hoptions⟩ := Cursor.atOffset?_eq_some_iff.mp hmoved
    -- Here the hypothesis on the session is used.
    have hle : floor ≤ moved.position := hseek (by rw [hmoved]; rfl)
    have hwithin : (of moved opened).Within c.text floor opened :=
      ⟨htext, htext ▸ moved.isBoundary_position, hle, [], rfl,
        fun _ hstart => absurd hstart List.not_mem_nil⟩
    have hlog : Lawful c.text floor opened c.options moved.options
        [⟨.replaced, of moved opened⟩] :=
      .singleton ⟨.replaced, of moved opened⟩ hwithin fun hne => absurd rfl hne
    refine ⟨htext, hle, [⟨.replaced, of moved opened⟩], ?_, hlog⟩
    rw [Option.isSome_some, if_pos rfl]
    simp only [of, htext, hoptions]

/-- A single step performs. -/
theorem performs_action (action : Action) (opened : List Nat) (hfloor : floor ≤ c.position)
    (hseek : action.SeeksFrom floor c) :
    Performs floor opened c (action.perform c) (action.exec (of c opened)) := by
  cases action with
  | run pattern => exact (pattern.recipe.exec_follows c opened).performs hfloor _
  | literal =>
    exact ((Recipe.kindAmong LiteralKind.all).exec_follows c opened).recorded.performs hfloor _
  | elementaryType =>
    exact ((Recipe.keywordAmong Keyword.elementaryTypes).exec_follows c opened).performs hfloor _
  | state =>
    have hplace : Cursor.atOffset? c.text c.position c.options = some c :=
      Cursor.atOffset?_eq_some_iff.mpr ⟨rfl, rfl, rfl⟩
    have hexec : Action.state.exec (of c opened) = some ⟨[.state c], of c opened, [], []⟩ := by
      change (Cursor.atOffset? c.text c.position c.options).bind _ = _
      rw [hplace]
      rfl
    rw [hexec]
    exact performs_still opened hfloor _ _
  | slice span => exact performs_still opened hfloor _ _
  | seek offset wordBoundaries => exact performs_seek hfloor offset wordBoundaries hseek

/-- **Settling a checkpoint performs** if what went on under it does, with the
start of the checkpoint as the floor. -/
theorem Performs.settle {inner : Transcript} {result : Option Report} (ending : Ending)
    (hfloor : floor ≤ c.position)
    (h : Performs c.position (c.position :: opened) c inner result) :
    Performs floor opened c (ending.settle c inner)
      (result.bind (ending.exec (of c opened))) := by
  obtain ⟨htext, hle, log, rfl, hlog⟩ := h
  -- The place is not before the start, so some text was read in between.
  obtain ⟨t, ht⟩ := Cursor.exists_reads htext hle
  rw [Option.bind_some, Ending.exec]
  simp only [span_of ht, length_of ht, commit_of ht, rewind_of ht, Option.bind_eq_bind,
    Option.bind_some]
  have hback := (hlog.unit (.rewindTo c inner.cursor) rfl).mono hfloor
  cases ending with
  | commit =>
    refine ⟨htext, Nat.le_trans hfloor hle, _, ?_, (hlog.unit ht rfl).mono hfloor⟩
    rw [Ending.settle, ht.textSince_eq]
    rfl
  | revert => exact ⟨rfl, hfloor, _, rfl, hback⟩
  | drop => exact ⟨rfl, hfloor, _, rfl, hback⟩

/-- **Performing goes on from where the cursor stands.** -/
theorem Performs.andThen {first : Transcript} {result : Option Report}
    {next : Cursor → Transcript} {exec : Machine → Option Report}
    (h : Performs floor opened c first result)
    (hnext : Performs floor opened first.cursor (next first.cursor)
      (exec (of first.cursor opened))) :
    Performs floor opened c (first.andThen next)
      (result.bind (·.andThen exec)) := by
  obtain ⟨htext, -, log, rfl, hlog⟩ := h
  obtain ⟨htext', hle, log', hexec, hlog'⟩ := hnext
  rw [htext] at hlog'
  refine ⟨htext'.trans htext, hle, log ++ log', ?_, hlog.append hlog'⟩
  rw [Option.bind_some, Report.andThen, hexec]
  rfl

end Machine

/-- **The machine performs every session that respects its checkpoints.** -/
theorem Session.exec_performs (session : Session) (floor : Nat) (opened : List Nat) (c : Cursor)
    (hfloor : floor ≤ c.position) (hseek : session.SeeksFrom floor c) :
    Machine.Performs floor opened c (session.perform c) (session.exec (.of c opened)) := by
  induction session generalizing floor opened c with
  | done => exact Machine.performs_still opened hfloor _ _
  | act action next ih =>
    have hfirst := Machine.performs_action action opened hfloor hseek.1
    exact hfirst.andThen (ih floor opened _ hfirst.floor_le hseek.2)
  | onCopy steps next ihsteps ihnext =>
    -- The copy is performed with no checkpoint open; only its answers and
    -- events stay.
    obtain ⟨-, -, log, hcopy, -⟩ := ihsteps 0 [] c (Nat.zero_le _) hseek.1
    have hfirst := Machine.performs_still opened hfloor
      [.onCopy (steps.perform c).answers (steps.perform c).cursor.position c.position]
      (steps.perform c).events
    have hnext := hfirst.andThen (ihnext floor opened c hfloor hseek.2)
    change Machine.Performs _ _ _ _ ((steps.exec (.of c [])).bind _)
    rw [hcopy]
    exact hnext
  | checkpoint steps ending next ihsteps ihnext =>
    -- Under the checkpoint its start is the floor; after it the old floor is
    -- back.
    have hsteps := ihsteps c.position (c.position :: opened) c (Nat.le_refl _) hseek.1
    have hfirst := hsteps.settle ending hfloor
    have hall := hfirst.andThen (ihnext floor opened _ hfirst.floor_le hseek.2)
    rw [Option.bind_assoc] at hall
    exact hall

/-! ### Every state is sound -/

namespace Machine

/-- **A state is sound**: its place is a boundary of the text, and so the text
from there to the end can be cut out; and for every checkpoint that is open, the
place is not before its start, and so what was read since can be cut out and
measured. -/
structure Sound (text : Text) (m : Machine) : Prop where
  /-- The text is the given one. -/
  text_eq : m.text = text
  /-- The place is not past the end. -/
  position_le : m.position ≤ Text.size text
  /-- The place is a boundary. -/
  isBoundary : text.IsBoundary m.position
  /-- What is left can be cut out. -/
  isSome_remaining : m.remaining.isSome
  /-- The place is not before the start of an open checkpoint. -/
  start_le : ∀ start ∈ m.opened, start ≤ m.position
  /-- What was read under an open checkpoint can be cut out. -/
  isSome_slice? : ∀ start ∈ m.opened, (Span.slice? ⟨start, m.position⟩ text).isSome
  /-- There is a span from the start of an open checkpoint to the place. -/
  isSome_ofBounds? : ∀ start ∈ m.opened, (Span.ofBounds? start m.position).isSome
  /-- That span has a length. -/
  isSome_length? : ∀ start ∈ m.opened, (Span.length? ⟨start, m.position⟩).isSome

theorem Within.sound {text : Text} {floor : Nat} {m : Machine} (h : m.Within text floor []) :
    m.Sound text := by
  obtain ⟨starts, hopened, hstarts⟩ := h.exists_starts
  rw [List.append_nil] at hopened
  subst hopened
  refine ⟨h.text_eq, h.isBoundary.le_size, h.isBoundary, ?_, fun s hs => (hstarts s hs).2,
    fun s hs => ?_, fun s hs => ?_, fun s hs => ?_⟩
  · rw [remaining, h.text_eq]
    exact Span.isSome_slice?_of_isBoundary h.isBoundary text.isBoundary_size h.isBoundary.le_size
  · exact Span.isSome_slice?_of_isBoundary (hstarts s hs).1 h.isBoundary (hstarts s hs).2
  · rw [Span.ofBounds?, if_pos (hstarts s hs).2]
    rfl
  · rw [Span.length?, if_pos (hstarts s hs).2]
    rfl

/-- **A report is safe** for a session that was started in the state `start` and
that has the given transcript: it says the same, all states on the way are
sound, and the options only changed where the place was replaced. -/
structure Report.Safe (start : Machine) (transcript : Transcript) (report : Report) : Prop where
  /-- The answers are those of the session. -/
  answers_eq : report.answers = transcript.answers
  /-- The events are those of the session. -/
  events_eq : report.events = transcript.events
  /-- The machine ends where the cursor ends, and no checkpoint is left open. -/
  machine_eq : report.machine = of transcript.cursor []
  /-- The machine started in a sound state. -/
  sound_start : start.Sound start.text
  /-- Every state on the way is sound. -/
  sound : ∀ point ∈ report.log, point.machine.Sound start.text
  /-- The options only changed where the place was replaced. -/
  optionsKept : OptionsKept start.options report.log report.machine.options

end Machine

/-- **No session gets stuck.** Performed on byte offsets, from any boundary of
any text, a session that under a checkpoint does not go before its start comes
to its end: no cut of the text is out of range or splits a character, no length
is negative, and no span has its bounds in the wrong order. -/
theorem perform_safe (text : Text) (offset : Nat) (options : Options) (c : Cursor)
    (hc : Cursor.atOffset? text offset options = some c) (session : Session)
    (hseek : session.SeeksFrom 0 c) :
    ∃ report, session.exec ⟨text, offset, options, []⟩ = some report ∧
      report.Safe ⟨text, offset, options, []⟩ (session.perform c) := by
  obtain ⟨rfl, rfl, rfl⟩ := Cursor.atOffset?_eq_some_iff.mp hc
  obtain ⟨-, -, log, hexec, hlog⟩ := session.exec_performs 0 [] c (Nat.zero_le _) hseek
  have hstart : (Machine.of c []).Sound c.text := (Machine.within_of (.refl c) []).sound
  exact ⟨_, hexec, rfl, rfl, rfl, hstart, fun point hpoint => (hlog.within point hpoint).sound,
    hlog.optionsKept⟩

/-- Nested checkpoints after a character of two bytes, a body that fails and
leaves an underscore read, and a move under other options that is given back. -/
theorem perform_safe_nested :
    let session : Session :=
      .checkpoint (.act (.run (.many .underscoreDigit))
        (.checkpoint (.act (.seek 5 (some false)) .done) .drop .done)) .commit .done
    let c : Cursor := ⟨['é'], "_1_x".toList, {}⟩
    session.SeeksFrom 0 c ∧
      ∃ report, session.exec ⟨"é_1_x".toList, 2, {}, []⟩ = some report ∧
        report.Safe ⟨"é_1_x".toList, 2, {}, []⟩ (session.perform c) := by
  intro session c
  have hseek : session.SeeksFrom 0 c := by
    refine ⟨⟨trivial, ⟨fun _ => ?_, trivial⟩, trivial⟩, trivial⟩
    decide +kernel
  exact ⟨hseek, perform_safe _ _ _ c (by decide +kernel) session hseek⟩

/-- Under a checkpoint, going before its start is what the hypothesis excludes:
the machine is then stuck when it is to keep what was read. -/
example : ((Session.checkpoint (.act (.seek 0 none) .done) .commit .done).exec
    ⟨['a', 'b'], 1, {}, []⟩).isNone := by decide +kernel

end SolidityTokens
