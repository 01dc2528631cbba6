import SolidityTokens.Proofs.Machine.Basic
import SolidityTokens.Proofs.Text.Boundaries

/-!
# The machine never gets stuck in a recipe

Started in the state of a cursor, the machine runs every recipe to its end,
finds what the recognizer finds, and ends in the state of the cursor where the
recognizer ends (`SolidityTokens.Recipe.exec_follows`). The proof is an
induction on the recipe, and what it carries is not only the state at the end
but every state on the way:

* the place is a boundary of the text, which is always the same text;
* the place is never before the one where the recipe was started, and every
  checkpoint that is open on top of those that were open at the start was opened
  between the two (`SolidityTokens.Machine.Within`);
* the options only change where the place is replaced, and no recipe does that
  (`SolidityTokens.Machine.OptionsKept`).

The second point is the one that makes the induction go through. A unit goes
back only to its own start, which is not before the start of anything around it.
-/

namespace SolidityTokens

open Recognizer Grammar

namespace Machine

/-! ### The state of a cursor -/

/-- The state that stands for a cursor, with checkpoints open. -/
def of (c : Cursor) (opened : List Nat) : Machine := ⟨c.text, c.position, c.options, opened⟩

variable {c d : Cursor} {opened : List Nat} {t : Text}

theorem of_of_reads (h : c.Reads t d) (hoptions : d.options = c.options) (opened : List Nat) :
    of d opened = ⟨c.text, d.position, c.options, opened⟩ := by
  rw [of, h.text_eq, hoptions]

theorem remaining_of (c : Cursor) (opened : List Nat) : (of c opened).remaining = some c.rest :=
  c.slice?_position_size

theorem peek_of (c : Cursor) (opened : List Nat) : (of c opened).peek = some c.peek := by
  rw [peek, remaining_of]
  rfl

theorem commit_of (h : c.Reads t d) :
    (of d (c.position :: opened)).commit = some (t, of d opened) := by
  have hslice : Span.slice? ⟨c.position, d.position⟩ d.text = some t := by
    rw [h.text_eq]
    exact h.slice?_eq
  simp only [commit, of, hslice]
  rfl

theorem rewind_of (h : c.Reads t d) :
    (of d (c.position :: opened)).rewind =
      some (revertEvents c.position d.position, of (d.rewindTo c) opened) := by
  simp only [rewind, of, h.text_eq]
  rfl

/-! ### What is true of every state on the way -/

/-- **A state is within bounds**: its place is a boundary of the text and not
before `floor`, and each checkpoint that was opened on top of `opened` has a
boundary as its start, which is not after the place. -/
structure Within (text : Text) (floor : Nat) (opened : List Nat) (m : Machine) : Prop where
  /-- The text is the given one. -/
  text_eq : m.text = text
  /-- The place is a boundary. -/
  isBoundary : text.IsBoundary m.position
  /-- The place is not before `floor`. -/
  floor_le : floor ≤ m.position
  /-- The checkpoints that are open now have starts at or before the place. -/
  exists_starts : ∃ starts, m.opened = starts ++ opened ∧
    ∀ start ∈ starts, text.IsBoundary start ∧ start ≤ m.position

theorem within_of (h : c.Reads t d) (opened : List Nat) :
    (of d opened).Within c.text c.position opened where
  text_eq := h.text_eq
  isBoundary := h.text_eq ▸ d.isBoundary_position
  floor_le := h.position_le
  exists_starts := ⟨[], rfl, fun _ hstart => absurd hstart List.not_mem_nil⟩

theorem Within.mono {text : Text} {floor floor' : Nat} {m : Machine}
    (h : m.Within text floor opened) (hle : floor' ≤ floor) : m.Within text floor' opened :=
  ⟨h.text_eq, h.isBoundary, Nat.le_trans hle h.floor_le, h.exists_starts⟩

/-- What is within bounds under one more checkpoint is within bounds. -/
theorem Within.nest {text : Text} {floor start : Nat} {m : Machine}
    (h : m.Within text floor (start :: opened)) (hstart : text.IsBoundary start)
    (hle : start ≤ floor) : m.Within text floor opened := by
  obtain ⟨starts, hopened, hstarts⟩ := h.exists_starts
  refine ⟨h.text_eq, h.isBoundary, h.floor_le, starts ++ [start], ?_, ?_⟩
  · rw [hopened, List.append_assoc]
    rfl
  · intro s hs
    rcases List.mem_append.mp hs with hs | hs
    · exact hstarts s hs
    · rw [List.mem_singleton.mp hs]
      exact ⟨hstart, Nat.le_trans hle h.floor_le⟩

/-- **The options only change where the place is replaced**, along a log that
leads from the options `before` to the options `after`. -/
def OptionsKept : Options → List Point → Options → Prop
  | before, [], after => before = after
  | before, point :: log, after =>
    (point.cause ≠ .replaced → point.machine.options = before) ∧
      OptionsKept point.machine.options log after

theorem OptionsKept.append {o₁ o₂ o₃ : Options} {log log' : List Point}
    (h : OptionsKept o₁ log o₂) (h' : OptionsKept o₂ log' o₃) :
    OptionsKept o₁ (log ++ log') o₃ := by
  induction log generalizing o₁ with
  | nil =>
    obtain rfl : o₁ = o₂ := h
    exact h'
  | cons point log ih => exact ⟨h.1, ih h.2⟩

/-- **A log is lawful** when its states are within bounds and the options are
kept. -/
structure Lawful (text : Text) (floor : Nat) (opened : List Nat) (before after : Options)
    (log : List Point) : Prop where
  /-- Every state is within bounds. -/
  within : ∀ point ∈ log, point.machine.Within text floor opened
  /-- The options only change where the place is replaced. -/
  optionsKept : OptionsKept before log after

namespace Lawful

variable {text : Text} {floor floor' start : Nat} {o₁ o₂ o₃ : Options} {log log' : List Point}

theorem nil (text : Text) (floor : Nat) (opened : List Nat) (options : Options) :
    Lawful text floor opened options options [] :=
  ⟨fun _ h => absurd h List.not_mem_nil, rfl⟩

theorem singleton (point : Point) (h : point.machine.Within text floor opened)
    (hoptions : point.cause ≠ .replaced → point.machine.options = o₁) :
    Lawful text floor opened o₁ point.machine.options [point] := by
  refine ⟨fun p hp => ?_, hoptions, rfl⟩
  rw [List.mem_singleton.mp hp]
  exact h

theorem append (h : Lawful text floor opened o₁ o₂ log)
    (h' : Lawful text floor opened o₂ o₃ log') : Lawful text floor opened o₁ o₃ (log ++ log') := by
  refine ⟨fun point hpoint => ?_, h.optionsKept.append h'.optionsKept⟩
  rcases List.mem_append.mp hpoint with hpoint | hpoint
  · exact h.within point hpoint
  · exact h'.within point hpoint

theorem mono (h : Lawful text floor opened o₁ o₂ log) (hle : floor' ≤ floor) :
    Lawful text floor' opened o₁ o₂ log :=
  ⟨fun point hpoint => (h.within point hpoint).mono hle, h.optionsKept⟩

/-- The log of what goes on under a checkpoint, with its opening and its
settling. -/
theorem unit {d e : Cursor} (hstart : c.Reads t e) (hend : e.options = d.options)
    (h : Lawful c.text c.position (c.position :: opened) c.options d.options log) :
    Lawful c.text c.position opened c.options d.options
      (⟨.opened, of c (c.position :: opened)⟩ :: log ++ [⟨.settled, of e opened⟩]) := by
  have hnest : ∀ {m : Machine}, m.Within c.text c.position (c.position :: opened) →
      m.Within c.text c.position opened := fun hm => hm.nest c.isBoundary_position (Nat.le_refl _)
  have hopened : Lawful c.text c.position opened c.options c.options
      [⟨.opened, of c (c.position :: opened)⟩] :=
    singleton ⟨.opened, of c (c.position :: opened)⟩ (hnest (within_of (.refl c) _)) fun _ => rfl
  have hinside : Lawful c.text c.position opened c.options d.options log :=
    ⟨fun point hpoint => hnest (h.within point hpoint), h.optionsKept⟩
  have hsettled : Lawful c.text c.position opened d.options d.options
      [⟨.settled, of e opened⟩] := by
    have hsingle := singleton ⟨.settled, of e opened⟩ (within_of hstart opened) fun _ => hend
    change Lawful _ _ _ _ e.options _ at hsingle
    rwa [hend] at hsingle
  exact (hopened.append hinside).append hsettled

end Lawful

/-! ### The machine follows a recognizer -/

variable {α β : Type}

/-- **The machine follows a recognizer** that ran from `c`: it does not get
stuck, finds the same, ends at the same place and under the same options, and
its log is lawful. -/
structure Follows (c : Cursor) (opened : List Nat) (outcome : Outcome α)
    (result : Option (Reply α)) : Prop where
  /-- The recognizer moved forward. -/
  exists_reads : ∃ t, c.Reads t outcome.cursor
  /-- The recognizer did not change the options. -/
  options_eq : outcome.cursor.options = c.options
  /-- The machine comes to the same end. -/
  exists_log : ∃ log, result = some ⟨outcome.value, of outcome.cursor opened, outcome.events, log⟩ ∧
    Lawful c.text c.position opened c.options c.options log

theorem follows_answer (c : Cursor) (opened : List Nat) (value : Option α) :
    Follows c opened ⟨value, c, []⟩ (some ((of c opened).answer value)) :=
  ⟨⟨[], .refl c⟩, rfl, [], rfl, .nil _ _ _ _⟩

/-- Going on from where the cursor is keeps the log lawful. -/
theorem Lawful.goOn {log log' : List Point}
    (hlog : Lawful c.text c.position opened c.options c.options log) (h : c.Reads t d)
    (hoptions : d.options = c.options)
    (hlog' : Lawful d.text d.position opened d.options d.options log') :
    Lawful c.text c.position opened c.options c.options (log ++ log') := by
  rw [h.text_eq, hoptions] at hlog'
  exact hlog.append (hlog'.mono h.position_le)

/-- **Following goes on from where the cursor is.** -/
theorem Follows.goOn {first : Outcome α} {second : Outcome β} {result : Option (Reply α)}
    {result' : Option (Reply β)} (h : Follows c opened first result)
    (h' : Follows first.cursor opened second result') :
    Follows c opened ⟨second.value, second.cursor, first.events ++ second.events⟩
      (result.bind fun reply => result'.bind fun reply' => some (reply.followedBy reply')) := by
  obtain ⟨⟨t, ht⟩, hoptions, log, rfl, hlog⟩ := h
  obtain ⟨⟨u, hu⟩, hoptions', log', rfl, hlog'⟩ := h'
  refine ⟨⟨t ++ u, ht.trans hu⟩, hoptions'.trans hoptions, log ++ log', rfl, ?_⟩
  exact hlog.goOn ht hoptions hlog'

theorem Follows.map {outcome : Outcome α} {result : Option (Reply α)}
    (h : Follows c opened outcome result) (view : α → β) :
    Follows c opened ⟨outcome.value.map view, outcome.cursor, outcome.events⟩
      (result.map (·.map view)) := by
  obtain ⟨hreads, hoptions, log, rfl, hlog⟩ := h
  exact ⟨hreads, hoptions, log, rfl, hlog⟩

theorem follows_satisfy (p : Char → Bool) (c : Cursor) (opened : List Nat) :
    Follows c opened ((Recognizer.satisfy p).run c) ((of c opened).satisfy p) := by
  rw [satisfy, peek_of]
  cases hrest : c.rest with
  | nil =>
    rw [run_satisfy_nil p c hrest, Cursor.peek, hrest]
    exact follows_answer c opened none
  | cons ch rest =>
    rw [run_satisfy_cons p c hrest, Cursor.peek, hrest]
    by_cases hp : p ch
    · have hreads : c.Reads [ch] (c.advance 1) := by
        have hreads := Cursor.Reads.advance c 1
        rwa [hrest] at hreads
      have hposition : (of c opened).position + ch.utf8Size = (c.advance 1).position := by
        rw [hreads.position_eq]
        rfl
      have hslice := hreads.slice?_eq
      have hlog := Lawful.singleton ⟨.moved, of (c.advance 1) opened⟩ (within_of hreads opened)
        fun _ => rfl
      refine ⟨?_, ?_, [⟨.moved, of (c.advance 1) opened⟩], ?_, hlog⟩
      · rw [if_pos hp]
        exact ⟨[ch], hreads⟩
      · rw [if_pos hp]
        rfl
      · rw [if_pos hp]
        simp only [List.head?_cons, Option.bind_eq_bind, Option.bind_some, if_pos hp, hposition]
        change (Span.slice? ⟨c.position, (c.advance 1).position⟩ c.text).bind _ = _
        rw [hslice, of_of_reads hreads rfl]
        rfl
    · rw [if_neg hp]
      simp only [List.head?_cons, Option.bind_eq_bind, Option.bind_some, if_neg hp]
      exact follows_answer c opened none

theorem follows_notFollowedBy (p : Char → Bool) (c : Cursor) (opened : List Nat) :
    Follows c opened ((Recognizer.notFollowedBy p).run c) ((of c opened).notFollowedBy p) := by
  rw [notFollowedBy, peek_of]
  exact follows_answer c opened _

theorem follows_wordBoundary (c : Cursor) (opened : List Nat) :
    Follows c opened (Grammar.wordBoundary.run c) (of c opened).wordBoundary := by
  rw [run_wordBoundary, wordBoundary]
  change Follows c opened _ (if c.options.wordBoundaries then _ else _)
  cases c.options.wordBoundaries with
  | false => exact follows_answer c opened (some ())
  | true => exact follows_notFollowedBy isIdentifierPart c opened

theorem Follows.bind {f : Recognizer α} {g : α → Recognizer β}
    {F : Machine → Option (Reply α)} {G : α → Machine → Option (Reply β)}
    (hf : Follows c opened (f.run c) (F (of c opened)))
    (hg : ∀ a, Follows (f.run c).cursor opened ((g a).run (f.run c).cursor)
      (G a (of (f.run c).cursor opened))) :
    Follows c opened ((f >>= g).run c) (Machine.bind F G (of c opened)) := by
  obtain ⟨log, hexec, hlog⟩ := hf.exists_log
  rw [run_bind, Machine.bind, hexec]
  cases (f.run c).value with
  | none => exact ⟨hf.exists_reads, hf.options_eq, log, rfl, hlog⟩
  | some a =>
    have hboth := hf.goOn (hg a)
    rw [hexec] at hboth
    exact hboth

theorem Follows.orElse {f g : Recognizer α} {F G : Machine → Option (Reply α)}
    (hf : Follows c opened (f.run c) (F (of c opened)))
    (hg : Follows (f.run c).cursor opened (g.run (f.run c).cursor)
      (G (of (f.run c).cursor opened))) :
    Follows c opened ((f <|> g).run c) (Machine.orElse F G (of c opened)) := by
  obtain ⟨log, hexec, hlog⟩ := hf.exists_log
  rw [run_orElse, Machine.orElse, hexec]
  cases hvalue : (f.run c).value with
  | none =>
    have hboth := hf.goOn hg
    rw [hexec] at hboth
    exact hboth
  | some a =>
    refine ⟨hf.exists_reads, hf.options_eq, log, ?_, hlog⟩
    simp only [hvalue]
    rfl

theorem Follows.whenMatched {f : Recognizer α} {g : Recognizer β}
    {F : Machine → Option (Reply α)} {G : Machine → Option (Reply β)}
    (hf : Follows c opened (f.run c) (F (of c opened)))
    (hg : Follows (f.run c).cursor opened (g.run (f.run c).cursor)
      (G (of (f.run c).cursor opened))) :
    Follows c opened ((Recognizer.whenMatched f g).run c)
      (Machine.whenMatched F G (of c opened)) := by
  obtain ⟨log, hexec, hlog⟩ := hf.exists_log
  rw [run_whenMatched, Machine.whenMatched, hexec]
  cases (f.run c).value with
  | none => exact ⟨hf.exists_reads, hf.options_eq, log, rfl, hlog⟩
  | some a =>
    have hboth := (hf.goOn hg).map fun _ => ()
    obtain ⟨log', hexec', -⟩ := hg.exists_log
    rw [hexec, hexec'] at hboth
    simp only [Option.bind_eq_bind, Option.bind_some, hexec']
    exact hboth

/-- **A unit that goes back goes back to its own start**, so nothing that was
open around it is left behind. -/
theorem Follows.atomic {f : Recognizer α} {F : Machine → Option (Reply α)}
    (hf : Follows c (c.position :: opened) (f.run c) (F (of c (c.position :: opened)))) :
    Follows c opened ((Recognizer.atomic f).run c) (Machine.atomic F (of c opened)) := by
  obtain ⟨⟨t, ht⟩, hoptions, log, hexec, hlog⟩ := hf
  change F (of c opened).checkpoint = _ at hexec
  rw [run_atomic, Machine.atomic, hexec]
  cases (f.run c).value with
  | none =>
    refine ⟨⟨[], .rewindTo c _⟩, hoptions, _, ?_, hlog.unit (.rewindTo c (f.run c).cursor) hoptions⟩
    simp only [Option.bind_eq_bind, Option.bind_some, rewind_of ht]
    rfl
  | some a =>
    refine ⟨⟨t, ht⟩, hoptions, _, ?_, hlog.unit ht hoptions⟩
    simp only [Option.bind_eq_bind, Option.bind_some, commit_of ht, ht.textSince_eq]
    rfl

theorem Follows.optionally {f : Recognizer α} {F : Machine → Option (Reply α)}
    (hf : Follows c (c.position :: opened) (f.run c) (F (of c (c.position :: opened)))) :
    Follows c opened ((Recognizer.optionally f).run c) (Machine.optionally F (of c opened)) := by
  obtain ⟨hreads, hoptions, log, hexec, hlog⟩ := hf.atomic
  have hempty : Span.slice? ⟨(of c opened).position, (of c opened).position⟩ (of c opened).text =
      some [] := (Cursor.Reads.refl c).slice?_eq
  rw [run_optionally, Machine.optionally, hempty, hexec]
  exact ⟨hreads, hoptions, log, rfl, hlog⟩

/-- **The loop of the machine goes on exactly as long as the loop of the
recognizer**: the one measures bytes, the other characters. -/
theorem follows_loop {f : Recognizer α} {F : Machine → Option (Reply α)}
    (hf : ∀ c, Follows c opened (f.run c) (F (of c opened))) (c : Cursor) :
    Follows c opened ⟨some (), finalCursor c (runs f c), (runs f c).flatMap (·.events)⟩
      (loop F (of c opened)) := by
  fun_induction runs f c with
  | case1 c outcome hgo ih =>
    -- The run read something, so neither of the two tests of the loop ends it.
    obtain ⟨⟨t, ht⟩, hoptions, log, hexec, hlog⟩ := hf c
    obtain ⟨⟨u, hu⟩, hoptions', log', hexec', hlog'⟩ := ih
    obtain ⟨hsome, hlt⟩ := goesOn_iff.mp hgo
    have hne : (f.run c).cursor.position ≠ c.position :=
      ht.position_ne_iff.mpr (ht.length_rest_lt_iff.mp hlt)
    refine ⟨⟨t ++ u, ht.trans hu⟩, hoptions'.trans hoptions, log ++ log', ?_,
      hlog.goOn ht hoptions hlog'⟩
    rw [loop, hexec]
    dsimp only
    rw [if_neg, if_pos, hexec']
    · rfl
    · refine ⟨ht.text_eq, Nat.lt_of_le_of_ne ht.position_le (Ne.symm hne), ?_⟩
      change _ ≤ Text.size c.text
      rw [← ht.text_eq]
      exact (Cursor.isBoundary_position _).le_size
    · rintro (hnone | heq)
      · rw [Option.isNone_iff_eq_none] at hnone
        rw [hnone] at hsome
        exact absurd hsome Bool.false_ne_true
      · exact hne heq
  | case2 c outcome hstop =>
    obtain ⟨⟨t, ht⟩, hoptions, log, hexec, hlog⟩ := hf c
    refine ⟨⟨t, ht⟩, hoptions, log, ?_, hlog⟩
    rw [loop, hexec]
    dsimp only
    rw [if_pos]
    · simp only [List.flatMap_cons, List.flatMap_nil, List.append_nil]
      rfl
    · -- A loop ends with a failure, or with a run that read nothing.
      by_cases hsome : (f.run c).value.isSome
      · refine Or.inr (Decidable.byContradiction fun hne => hstop ?_)
        exact goesOn_iff.mpr
          ⟨hsome, ht.length_rest_lt_iff.mpr (ht.position_ne_iff.mp hne)⟩
      · refine Or.inl ?_
        rw [Option.isNone_iff_eq_none]
        exact Option.not_isSome_iff_eq_none.mp hsome

theorem follows_many {f : Recognizer α} {F : Machine → Option (Reply α)}
    (hf : ∀ c opened, Follows c opened (f.run c) (F (of c opened))) (c : Cursor)
    (opened : List Nat) :
    Follows c opened ((Recognizer.many f).run c) (Machine.many F (of c opened)) := by
  obtain ⟨⟨t, ht⟩, hoptions, log, hexec, hlog⟩ :=
    follows_loop (fun d => hf d (c.position :: opened)) c
  change loop F (of c opened).checkpoint = _ at hexec
  rw [run_many, Machine.many, hexec]
  refine ⟨⟨t, ht⟩, hoptions, _, ?_, hlog.unit ht hoptions⟩
  simp only [Option.bind_eq_bind, Option.bind_some, commit_of ht, ht.textSince_eq]
  rfl

theorem Follows.recorded {f : Recognizer (LiteralKind × Text)}
    {F : Machine → Option (Reply (LiteralKind × Text))}
    (hf : Follows c opened (f.run c) (F (of c opened))) :
    Follows c opened ((Grammar.recorded f).run c) (Machine.recorded F (of c opened)) := by
  obtain ⟨⟨t, ht⟩, hoptions, log, hexec, hlog⟩ := hf
  rw [run_recorded, Machine.recorded, hexec]
  cases (f.run c).value with
  | none => exact ⟨⟨t, ht⟩, hoptions, log, rfl, hlog⟩
  | some found =>
    have hspan : Span.ofBounds? (of c opened).position (of (f.run c).cursor opened).position =
        some ⟨c.position, (f.run c).cursor.position⟩ := if_pos ht.position_le
    refine ⟨⟨t, ht⟩, hoptions, log, ?_, hlog⟩
    simp only [Option.bind_eq_bind, Option.bind_some, hspan]
    rfl

end Machine

/-- **The machine runs every recipe to its end**, and follows the recognizer. -/
theorem Recipe.exec_follows {α : Type} {f : Recognizer α} (recipe : Recipe f) (c : Cursor)
    (opened : List Nat) :
    Machine.Follows c opened (f.run c) (recipe.exec (.of c opened)) := by
  induction recipe generalizing c opened with
  | pure a => exact Machine.follows_answer c opened (some a)
  | fail => exact Machine.follows_answer c opened none
  | satisfy p => exact Machine.follows_satisfy p c opened
  | notFollowedBy p => exact Machine.follows_notFollowedBy p c opened
  | wordBoundary => exact Machine.follows_wordBoundary c opened
  | bind _ _ ihf ihg => exact (ihf c opened).bind fun a => ihg a _ opened
  | orElse _ _ ihf ihg => exact (ihf c opened).orElse (ihg _ opened)
  | whenMatched _ _ ihf ihg => exact (ihf c opened).whenMatched (ihg _ opened)
  | atomic _ ih => exact (ih c _).atomic
  | optionally _ ih => exact (ih c _).optionally
  | many _ ih => exact Machine.follows_many ih c opened
  | literalText _ ih =>
    rw [run_bind_pure]
    exact (ih c opened).recorded.map Literal.text

end SolidityTokens
