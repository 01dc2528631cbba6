import Mathlib.Data.List.Chain
import SolidityTokens.Proofs.Grammar.Restoration

/-!
# The record accounts for every move back

Between two entries of its record a cursor only moves forward. So the record
tells the whole way: forward from the start to where the first move back began,
back to where it ended, forward again to where the second began, and so on, to
the place where the run ended. `SolidityTokens.Trail` says this, and
`SolidityTokens.Recipe.trail` proves it of everything that has a recipe. No move
back is missing from the record, since a place that lies before the end of the
last recorded move could not be reached; none is out of order; and none is
reported with places other than those that the cursor was at.

The induction is `SolidityTokens.Recipe.run_log`, which carries any relation
between the cursor before, the record and the cursor after through all recipes.
What is recorded of literals depends on the searches that a recipe records, so
the induction takes a property of those (`SolidityTokens.Recipe.Records`). With
the property that a search finds the text it reads, the texts in the record are
texts of the source; with a property that no search has, the record has no
literals at all.
-/

namespace SolidityTokens

open Recognizer Grammar

variable {α : Type}

/-! ### What a record says -/

/-- What an event reports as given back: the span from where the cursor went
back to, up to where it went back from. -/
def Event.givenBack? : Event → Option Span
  | reverted start position => some ⟨start, position⟩
  | recognized .. => none

/-- All that a record reports as given back, in order. -/
def givenBack (events : List Event) : List Span := events.filterMap Event.givenBack?

/-- **A record tells the way from `place` to `last`** in a text, with no move
back before `floor`. -/
inductive Trail (text : Text) (floor : Nat) : Nat → List Event → Nat → Prop
  /-- Moving forward leaves no record. -/
  | forward {place last : Nat} : place ≤ last → Trail text floor place [] last
  /-- Forward to `position`, back from there to `start`, and on. -/
  | back {place start position last : Nat} {events : List Event} : place ≤ position →
      floor ≤ start → start < position → text.IsBoundary start → text.IsBoundary position →
      Trail text floor start events last →
      Trail text floor place (.reverted start position :: events) last
  /-- A literal that stands in the text, and on. -/
  | found {place last : Nat} {kind : LiteralKind} {m : Text} {start : Nat}
      {events : List Event} : Span.slice? ⟨start, start + Text.size m⟩ text = some m →
      Trail text floor place events last →
      Trail text floor place (.recognized kind m start :: events) last

namespace Trail

variable {text : Text} {floor place last : Nat} {events : List Event}

/-- A way from a place is also one from any place before it. -/
theorem of_le {place' : Nat} (h : Trail text floor place events last) (hle : place' ≤ place) :
    Trail text floor place' events last := by
  induction h with
  | forward h => exact .forward (Nat.le_trans hle h)
  | back h hfloor hlt hstart hposition hrest _ =>
    exact .back (Nat.le_trans hle h) hfloor hlt hstart hposition hrest
  | found hslice _ ih => exact .found hslice (ih hle)

theorem mono {floor' : Nat} (h : Trail text floor place events last) (hle : floor' ≤ floor) :
    Trail text floor' place events last := by
  induction h with
  | forward h => exact .forward h
  | back h hfloor hlt hstart hposition _ ih =>
    exact .back h (Nat.le_trans hle hfloor) hlt hstart hposition ih
  | found hslice _ ih => exact .found hslice ih

/-- **Two ways make one**, and their records add up. -/
theorem append {middle : Nat} {events' : List Event} (h : Trail text floor place events middle)
    (h' : Trail text floor middle events' last) :
    Trail text floor place (events ++ events') last := by
  induction h with
  | forward hle => exact h'.of_le hle
  | back h hfloor hlt hstart hposition _ ih =>
    exact .back h hfloor hlt hstart hposition (ih h')
  | found hslice _ ih => exact .found hslice (ih h')

/-- What is given back was read after the floor. -/
theorem within (h : Trail text floor place events last) :
    ∀ span ∈ givenBack events, floor ≤ span.start ∧ span.start < span.stop ∧
      text.IsBoundary span.start ∧ text.IsBoundary span.stop := by
  induction h with
  | forward _ => exact fun span hspan => absurd hspan List.not_mem_nil
  | back _ hfloor hlt hstart hposition _ ih =>
    intro span hspan
    rcases List.mem_cons.mp hspan with rfl | hspan
    · exact ⟨hfloor, hlt, hstart, hposition⟩
    · exact ih span hspan
  | found _ _ ih => exact ih

/-- **Every move back begins after the end of the one before it**, where the
start counts as the end of a first one, and the last place as the beginning of a
last one. -/
theorem isChain (h : Trail text floor place events last) :
    List.IsChain (fun back next : Span => back.start ≤ next.stop)
      (⟨place, place⟩ :: (givenBack events ++ [⟨last, last⟩])) := by
  induction h with
  | forward hle => exact List.isChain_pair.mpr hle
  | back hle _ _ _ _ _ ih =>
    obtain ⟨hhead, htail⟩ := List.isChain_cons.mp ih
    exact List.isChain_cons_cons.mpr ⟨hle, List.isChain_cons.mpr ⟨hhead, htail⟩⟩
  | found _ _ ih => exact ih

/-- The literals of a record stand in the text. -/
theorem slice?_eq (h : Trail text floor place events last) {kind : LiteralKind} {m : Text}
    {start : Nat} (hmem : .recognized kind m start ∈ events) :
    Span.slice? ⟨start, start + Text.size m⟩ text = some m := by
  induction h with
  | forward _ => exact absurd hmem List.not_mem_nil
  | back _ _ _ _ _ _ ih =>
    rcases List.mem_cons.mp hmem with heq | hmem
    · exact absurd heq (by simp)
    · exact ih hmem
  | found hslice _ ih =>
    rcases List.mem_cons.mp hmem with heq | hmem
    · obtain ⟨rfl, rfl, rfl⟩ := Event.recognized.inj heq
      exact hslice
    · exact ih hmem

end Trail

/-! ### The searches that a recipe records -/

namespace Recipe

variable {Q : Recognizer (LiteralKind × Text) → Prop} {f : Recognizer α}

/-- **Every search whose result a recipe records has the property `Q`.** -/
def Records (Q : Recognizer (LiteralKind × Text) → Prop) :
    {α : Type} → {f : Recognizer α} → Recipe f → Prop
  | _, _, pure _ => True
  | _, _, fail => True
  | _, _, satisfy _ => True
  | _, _, notFollowedBy _ => True
  | _, _, wordBoundary => True
  | _, _, bind first second => first.Records Q ∧ ∀ a, (second a).Records Q
  | _, _, orElse first second => first.Records Q ∧ second.Records Q
  | _, _, whenMatched mark body => mark.Records Q ∧ body.Records Q
  | _, _, atomic body => body.Records Q
  | _, _, optionally body => body.Records Q
  | _, _, many body => body.Records Q
  | _, _, @literalText search body => Q search ∧ body.Records Q

theorem records_satisfy (p : Char → Bool) : (satisfy p).Records Q := trivial

theorem records_guard (b : Bool) : (Recipe.guard b).Records Q := by
  cases b <;> trivial

theorem Records.times {body : Recipe f} (h : body.Records Q) (n : Nat) :
    (times n body).Records Q := by
  change (body.inTurn n).Records Q
  induction n with
  | zero => trivial
  | succ n ih => exact ⟨h, fun _ => ih⟩

theorem Records.many1 {body : Recipe f} (h : body.Records Q) : body.many1.Records Q :=
  ⟨h, fun _ => h⟩

theorem records_word (expected : Text) : (word expected).Records Q := by
  change (spelled expected).Records Q
  induction expected with
  | nil => trivial
  | cons ch expected ih => exact ⟨trivial, fun _ => ih⟩

theorem records_firstOfMap {ι : Type} {f : ι → Recognizer α} {body : ∀ i, Recipe (f i)}
    (h : ∀ i, (body i).Records Q) (is : List ι) : (firstOfMap body is).Records Q := by
  induction is with
  | nil => trivial
  | cons i is ih => exact ⟨h i, ih⟩

/-! The rules of the grammar, but for the one of literals, record nothing. -/

theorem records_identifier : identifier.Records Q :=
  ⟨⟨trivial, trivial⟩, fun _ => ⟨trivial, trivial, trivial⟩⟩

theorem records_booleanLiteral : booleanLiteral.Records Q :=
  ⟨⟨records_word _, records_word _⟩, fun _ => trivial⟩

theorem records_keyword (table : Keyword) : (keyword table).Records Q :=
  ⟨records_identifier, fun found => records_guard (table.contains found)⟩

theorem Records.grouped {item : Recognizer Text} {body : Recipe item} (h : body.Records Q) :
    body.grouped.Records Q :=
  ⟨h, trivial, fun _ => h⟩

theorem Records.groupedDigits {digit : Recognizer Text} {body : Recipe digit}
    (h : body.Records Q) : body.groupedDigits.Records Q :=
  ⟨h, fun _ => ⟨h.grouped, fun _ => trivial⟩⟩

theorem records_decimalDigits : decimalDigits.Records Q := (records_satisfy _).groupedDigits

theorem records_hexNumber : hexNumber.Records Q :=
  ⟨records_word _, fun _ => (records_satisfy _).groupedDigits⟩

theorem records_decimalNumber : decimalNumber.Records Q :=
  ⟨records_decimalDigits, fun _ => ⟨⟨trivial, records_decimalDigits⟩,
    fun _ => ⟨trivial, trivial, fun _ => records_decimalDigits⟩⟩⟩

theorem records_numberLiteral : numberLiteral.Records Q :=
  ⟨⟨records_hexNumber, records_decimalNumber⟩, fun _ => ⟨trivial, fun _ => records_keyword _⟩⟩

theorem records_characterCode (announcer : Char) (n : Nat) :
    (characterCode announcer n).Records Q :=
  ⟨trivial, fun _ => (records_satisfy _).times n⟩

theorem records_escapeSequence : escapeSequence.Records Q :=
  ⟨trivial, fun _ => ⟨trivial, records_characterCode _ _, records_characterCode _ _⟩⟩

theorem Records.quoted {g : Quote → Recognizer Text} {body : ∀ quote, Recipe (g quote)}
    (h : ∀ quote, (body quote).Records Q) : (quoted body).Records Q :=
  ⟨⟨⟨trivial, fun _ => trivial⟩, trivial, fun _ => trivial⟩,
    fun quote => ⟨h quote, fun _ => trivial⟩⟩

theorem records_emptyString : emptyString.Records Q :=
  ⟨(records_satisfy _).times 2, (records_satisfy _).times 2⟩

theorem records_quotedString : quotedString.Records Q :=
  Records.quoted fun _ => ⟨trivial, records_escapeSequence⟩

theorem records_nonEmptyString : nonEmptyString.Records Q :=
  have helement : ∀ quote, (plainElement quote).Records Q :=
    fun _ => ⟨trivial, records_escapeSequence⟩
  Records.quoted fun quote => (helement quote).many1

theorem records_stringLiteral : stringLiteral.Records Q :=
  have hpart : (orElse nonEmptyString emptyString).Records Q :=
    ⟨records_nonEmptyString, records_emptyString⟩
  hpart.many1

theorem records_hexString : hexString.Records Q :=
  have hpair : hexPair.Records Q := (records_satisfy _).times 2
  ⟨records_word _, fun _ => Records.many1 (Records.quoted fun _ => ⟨hpair, fun _ => hpair.grouped⟩)⟩

theorem records_unicodeString : unicodeString.Records Q :=
  ⟨records_word _,
    fun _ => Records.many1 (Records.quoted fun _ => ⟨trivial, records_escapeSequence⟩)⟩

theorem records_literalOf (kind : LiteralKind) : (literalOf kind).Records Q := by
  cases kind with
  | string => exact records_stringLiteral
  | number => exact records_numberLiteral
  | boolean => exact records_booleanLiteral
  | hexString => exact records_hexString.many1
  | unicodeString => exact records_unicodeString.many1

/-- The search for a literal records nothing itself. -/
theorem records_kindAmong (kinds : List LiteralKind) : (kindAmong kinds).Records Q :=
  have hkind : ∀ kind, (bind (literalOf kind) fun text => pure (kind, text)).Records Q :=
    fun kind => ⟨records_literalOf kind, fun _ => trivial⟩
  records_firstOfMap hkind kinds

end Recipe

section Searches

variable {Q : Recognizer (LiteralKind × Text) → Prop} (hQ : Q (kindSearch LiteralKind.all))
include hQ

theorem Rule.records (rule : Rule) : rule.recipe.Records Q := by
  cases rule with
  | identifier => exact Recipe.records_identifier
  | booleanLiteral => exact Recipe.records_booleanLiteral
  | decimalDigits => exact Recipe.records_decimalDigits
  | hexNumber => exact Recipe.records_hexNumber
  | decimalNumber => exact Recipe.records_decimalNumber
  | numberLiteral => exact Recipe.records_numberLiteral
  | escapeSequence => exact Recipe.records_escapeSequence
  | emptyString => exact Recipe.records_emptyString
  | quotedString => exact Recipe.records_quotedString
  | nonEmptyString => exact Recipe.records_nonEmptyString
  | stringLiteral => exact Recipe.records_stringLiteral
  | hexString => exact Recipe.records_hexString
  | hexStringLiteral => exact Recipe.records_hexString
  | unicodeString => exact Recipe.records_unicodeString
  | unicodeStringLiteral => exact Recipe.records_unicodeString
  | unsignedIntegerType => exact Recipe.records_keyword _
  | signedIntegerType => exact Recipe.records_keyword _
  | fixedBytes => exact Recipe.records_keyword _
  | numberUnit => exact Recipe.records_keyword _
  | elementaryType =>
    refine ⟨Recipe.records_firstOfMap (fun table => ?_) Keyword.elementaryTypes, fun _ => trivial⟩
    exact ⟨Recipe.records_keyword table, fun _ => trivial⟩
  | literal => exact ⟨hQ, Recipe.records_kindAmong LiteralKind.all⟩

/-- **All that a pattern records is found by the search for a literal.** -/
theorem Pattern.records (pattern : Pattern) : pattern.recipe.Records Q := by
  induction pattern with
  | empty => trivial
  | fail => trivial
  | satisfy p => trivial
  | word expected => exact Recipe.records_word expected
  | rule named => exact named.records hQ
  | keyword table => exact Recipe.records_keyword table
  | literalOf kind => exact Recipe.records_literalOf kind
  | andThen first second ihfirst ihsecond => exact ⟨ihfirst, fun _ => ihsecond⟩
  | orElse first second ihfirst ihsecond => exact ⟨ihfirst, ihsecond⟩
  | atomic body ih => exact ih
  | times n body ih => exact ih.times n
  | many body ih => exact ih
  | many1 body ih => exact ih.many1
  | optionally body ih => exact ih

end Searches

/-! ### Records of runs -/

/-- What every run of the body leaves on record, the loop does as well. -/
theorem log_runs_of_step {R : Cursor → List Event → Cursor → Prop}
    (htrans : ∀ {c d e events events'}, R c events d → R d events' e →
      R c (events ++ events') e)
    {f : Recognizer α} (hstep : ∀ c, R c (f.run c).events (f.run c).cursor) (c : Cursor) :
    R c ((runs f c).flatMap (·.events)) (finalCursor c (runs f c)) := by
  fun_induction runs f c with
  | case1 c outcome hgo ih =>
    rw [List.flatMap_cons]
    exact htrans (hstep c) ih
  | case2 c outcome hstop =>
    rw [List.flatMap_cons, List.flatMap_nil, List.append_nil]
    exact hstep c

/-- **A relation between the cursor before, the record and the cursor after
holds of every run** if it survives reading a character, going on, giving input
back and recording what one of the searches found. -/
theorem Recipe.run_log {R : Cursor → List Event → Cursor → Prop}
    {Q : Recognizer (LiteralKind × Text) → Prop} (hrefl : ∀ c, R c [] c)
    (htrans : ∀ {c d e events events'}, R c events d → R d events' e →
      R c (events ++ events') e)
    (hadvance : ∀ c : Cursor, R c [] (c.advance 1))
    (hrewind : ∀ {c d events}, R c events d →
      R c (events ++ revertEvents c.position d.position) (d.rewindTo c))
    (hrecord : ∀ {search}, Q search → ∀ {c events found}, (search.run c).value = some found →
      R c events (search.run c).cursor →
      R c (events ++ [.recognized found.1 found.2 c.position]) (search.run c).cursor)
    {f : Recognizer α} {recipe : Recipe f} (hrecipe : recipe.Records Q) (c : Cursor) :
    R c (f.run c).events (f.run c).cursor := by
  induction recipe generalizing c with
  | pure a => exact hrefl c
  | fail => exact hrefl c
  | satisfy p =>
    cases hrest : c.rest with
    | nil =>
      rw [run_satisfy_nil p c hrest]
      exact hrefl c
    | cons ch rest =>
      rw [run_satisfy_cons p c hrest]
      by_cases hp : p ch
      · rw [if_pos hp]
        exact hadvance c
      · rw [if_neg hp]
        exact hrefl c
  | notFollowedBy p => exact hrefl c
  | wordBoundary =>
    rw [run_wordBoundary]
    exact hrefl c
  | @bind _ _ f g _ _ ihf ihg =>
    rw [run_bind]
    cases (f.run c).value with
    | none => exact ihf hrecipe.1 c
    | some a => exact htrans (ihf hrecipe.1 c) (ihg a (hrecipe.2 a) _)
  | @orElse _ f g _ _ ihf ihg =>
    rw [run_orElse]
    cases (f.run c).value with
    | none => exact htrans (ihf hrecipe.1 c) (ihg hrecipe.2 _)
    | some a => exact ihf hrecipe.1 c
  | @whenMatched _ _ f g _ _ ihf ihg =>
    rw [run_whenMatched]
    cases (f.run c).value with
    | none => exact ihf hrecipe.1 c
    | some a => exact htrans (ihf hrecipe.1 c) (ihg hrecipe.2 _)
  | @atomic _ f _ ih =>
    rw [run_atomic]
    cases (f.run c).value with
    | none => exact hrewind (ih hrecipe c)
    | some a => exact ih hrecipe c
  | @optionally _ f _ ih =>
    rw [run_optionally, run_atomic]
    cases (f.run c).value with
    | none => exact hrewind (ih hrecipe c)
    | some a => exact ih hrecipe c
  | many _ ih => exact log_runs_of_step htrans (ih hrecipe) c
  | @literalText f _ ih =>
    rw [run_bind_pure, run_recorded]
    cases hvalue : (f.run c).value with
    | none => exact ih hrecipe.2 c
    | some found => exact hrecord hrecipe.1 hvalue (ih hrecipe.2 c)

/-- A search finds the text that it reads. -/
def FindsWhatItReads (search : Recognizer (LiteralKind × Text)) : Prop :=
  ∀ (c : Cursor) (found : LiteralKind × Text), (search.run c).value = some found →
    c.Reads found.2 (search.run c).cursor

/-- What a search among recognizers that settle finds, next to which of them
found it, is the text that it reads. -/
theorem reads_of_firstOf {ι : Type} {f : ι → Recognizer Text} (hf : ∀ i, Settles (f i))
    (is : List ι) {c : Cursor} {found : ι × Text}
    (hfound : ((firstOf (is.map fun i => f i >>= fun text => pure (i, text))).run c).value =
      some found) :
    c.Reads found.2
      ((firstOf (is.map fun i => f i >>= fun text => pure (i, text))).run c).cursor := by
  have hsettles : Settles (firstOf (is.map f)) := by
    refine settles_firstOf fun g hg => ?_
    obtain ⟨i, -, rfl⟩ := List.mem_map.mp hg
    exact hf i
  -- Looking at the texts alone makes it a search of that form.
  have hreads := hsettles c
  rw [← firstOf_map_pair_bind_snd, run_bind_pure, hfound] at hreads
  exact hreads

theorem findsWhatItReads_kindSearch (kinds : List LiteralKind) :
    FindsWhatItReads (kindSearch kinds) :=
  fun _ _ hfound => reads_of_firstOf settles_literalOf kinds hfound

/-- **Every record tells the way of its run.** -/
theorem Recipe.trail {f : Recognizer α} {recipe : Recipe f}
    (hrecipe : recipe.Records FindsWhatItReads) (c : Cursor) :
    Trail c.text c.position c.position (f.run c).events (f.run c).cursor.position := by
  -- The relation says more, so that one run can go on where another one ended.
  have hlog : (∃ m, c.Reads m (f.run c).cursor) ∧
      Trail c.text c.position c.position (f.run c).events (f.run c).cursor.position := by
    refine run_log (R := fun c events d => (∃ m, c.Reads m d) ∧
      Trail c.text c.position c.position events d.position) ?_ ?_ ?_ ?_ ?_ hrecipe c
    · exact fun c => ⟨⟨[], .refl c⟩, .forward (Nat.le_refl _)⟩
    · rintro c d e events events' ⟨⟨m, hm⟩, htrail⟩ ⟨⟨n, hn⟩, htrail'⟩
      rw [hm.text_eq] at htrail'
      exact ⟨⟨m ++ n, hm.trans hn⟩, htrail.append (htrail'.mono hm.position_le)⟩
    · intro c
      have hreads := Cursor.Reads.advance c 1
      exact ⟨⟨_, hreads⟩, .forward hreads.position_le⟩
    · rintro c d events ⟨⟨m, hm⟩, htrail⟩
      refine ⟨⟨[], .rewindTo c d⟩, htrail.append ?_⟩
      rw [revertEvents]
      by_cases h : d.position = c.position
      · rw [if_pos h]
        exact .forward h.le
      · have hboundary : c.text.IsBoundary d.position := hm.text_eq ▸ d.isBoundary_position
        rw [if_neg h]
        exact .back (Nat.le_refl _) (Nat.le_refl _)
          (Nat.lt_of_le_of_ne hm.position_le (Ne.symm h)) c.isBoundary_position hboundary
          (.forward (Nat.le_refl _))
    · rintro search hfinds c events found hfound ⟨hreads, htrail⟩
      refine ⟨hreads, htrail.append (.found ?_ (.forward (Nat.le_refl _)))⟩
      have hm := hfinds c found hfound
      rw [← hm.position_eq]
      exact hm.slice?_eq
  exact hlog.2

/-- A recipe that records nothing leaves no literal on record. -/
theorem Recipe.notMem_events {f : Recognizer α} {recipe : Recipe f}
    (hrecipe : recipe.Records fun _ => False) (c : Cursor) (kind : LiteralKind) (m : Text)
    (start : Nat) : .recognized kind m start ∉ (f.run c).events := by
  refine run_log (R := fun _ events _ => .recognized kind m start ∉ events) ?_ ?_ ?_ ?_ ?_
    hrecipe c
  · exact fun _ => List.not_mem_nil
  · exact fun h h' hmem => (List.mem_append.mp hmem).elim h h'
  · exact fun _ => List.not_mem_nil
  · intro c d events h hmem
    refine (List.mem_append.mp hmem).elim h fun hmem => ?_
    rw [revertEvents] at hmem
    split at hmem
    · exact List.not_mem_nil hmem
    · simp at hmem
  · exact fun hfalse => hfalse.elim

/-! ### The main result -/

/-- **An outcome is on record**, of a run that began at byte `start` of a text:
what it reports as given back, it gave back, in this order, and all of it. -/
structure Outcome.OnRecord (text : Text) (start : Nat) (outcome : Outcome α) : Prop where
  /-- What is given back was read by this run, and is not nothing. -/
  within : ∀ span ∈ givenBack outcome.events,
    start ≤ span.start ∧ span.start < span.stop ∧ span.stop ≤ Text.size text ∧
      text.IsBoundary span.start ∧ text.IsBoundary span.stop
  /-- The first move back begins after the start. -/
  le_first : ∀ span ∈ (givenBack outcome.events).head?, start ≤ span.stop
  /-- Every further move back begins after the end of the one before it. -/
  isChain : List.IsChain (fun back next : Span => back.start ≤ next.stop)
    (givenBack outcome.events)
  /-- The run ends after the end of the last move back. -/
  last_le : ∀ span ∈ (givenBack outcome.events).getLast?,
    span.start ≤ outcome.cursor.position
  /-- The run does not end before its start. -/
  le_position : start ≤ outcome.cursor.position
  /-- The literals on record stand in the text. -/
  slice?_eq : ∀ kind m offset, .recognized kind m offset ∈ outcome.events →
    Span.slice? ⟨offset, offset + Text.size m⟩ text = some m

theorem Recipe.onRecord {f : Recognizer α} {recipe : Recipe f}
    (hrecipe : recipe.Records FindsWhatItReads) (c : Cursor) :
    (f.run c).OnRecord c.text c.position := by
  have htrail := Recipe.trail hrecipe c
  obtain ⟨hfirst, hchain⟩ := List.isChain_cons.mp htrail.isChain
  obtain ⟨hchain, -, hlast⟩ := List.isChain_append.mp hchain
  refine ⟨fun span hspan => ?_, fun span hspan => ?_, hchain, fun span hspan => ?_,
    (recipe.forward c).2, fun kind m offset => htrail.slice?_eq⟩
  · obtain ⟨hle, hlt, hstart, hstop⟩ := htrail.within span hspan
    exact ⟨hle, hlt, hstop.le_size, hstart, hstop⟩
  · refine hfirst span ?_
    rw [List.head?_append, Option.mem_def.mp hspan]
    rfl
  · exact hlast span hspan _ rfl

/-- **The record accounts for every move back.** Of every pattern, from every
boundary of every text: what it gives back lies between boundaries that it
reached, each move back begins no earlier than where the one before it ended,
and the run ends no earlier than where the last one ended; and the literals on
record stand in the text. The search for a literal puts the literal that it
finds on record, last of all and once, and nothing where it finds none. -/
theorem record_accounts_for_moves (text : Text) (start : Nat) (options : Options) (c : Cursor)
    (hc : Cursor.atOffset? text start options = some c) :
    (∀ pattern : Pattern, (pattern.recognizer.run c).OnRecord text start) ∧
    (∀ found, (literal.run c).value = some found →
      ∃ before, (literal.run c).events =
          before ++ [.recognized found.kind found.text start] ∧
        ∀ kind m offset, .recognized kind m offset ∉ before) ∧
    ((literal.run c).value = none →
      ∀ kind m offset, .recognized kind m offset ∉ (literal.run c).events) := by
  obtain ⟨rfl, rfl, rfl⟩ := Cursor.atOffset?_eq_some_iff.mp hc
  -- The search alone leaves no literal on record.
  have hsearch : ∀ kind m offset,
      .recognized kind m offset ∉ ((kindSearch LiteralKind.all).run c).events :=
    Recipe.notMem_events (Recipe.records_kindAmong LiteralKind.all) c
  have hrun : literal.run c = _ := run_recorded (kindSearch LiteralKind.all) c
  refine ⟨fun pattern => ?_, ?_, ?_⟩
  · exact Recipe.onRecord (pattern.records (findsWhatItReads_kindSearch LiteralKind.all)) c
  · intro found hfound
    cases hvalue : ((kindSearch LiteralKind.all).run c).value with
    | none =>
      rw [hrun, hvalue] at hfound
      exact absurd hfound (by simp)
    | some kindText =>
      rw [hvalue] at hrun
      rw [hrun, Option.some.injEq] at hfound
      subst hfound
      rw [hrun]
      exact ⟨_, rfl, hsearch⟩
  · intro hnone
    cases hvalue : ((kindSearch LiteralKind.all).run c).value with
    | none =>
      rw [hrun, hvalue]
      exact hsearch
    | some kindText =>
      rw [hrun, hvalue] at hnone
      exact absurd hnone (by simp)

/-- A hex number that is spoiled and given back, and the word after a digit that
is no unit and is given back too. -/
theorem record_accounts_for_moves_spoiled :
    let c : Cursor := ⟨['é'], "0x_".toList, {}⟩
    let found : Literal := ⟨.number, ['0'], ⟨2, 3⟩⟩
    Cursor.atOffset? "é0x_".toList 2 {} = some c ∧
      ((Pattern.rule .literal).recognizer.run c).OnRecord "é0x_".toList 2 ∧
      (literal.run c).value = some found ∧
      ∃ before, (literal.run c).events = before ++ [.recognized found.kind found.text 2] ∧
        ∀ kind m offset, .recognized kind m offset ∉ before := by
  intro c found
  have hc : Cursor.atOffset? "é0x_".toList 2 {} = some c := by decide
  have hfound : (literal.run c).value = some found := by decide +kernel
  obtain ⟨hpattern, hliteral, -⟩ := record_accounts_for_moves "é0x_".toList 2 {} c hc
  exact ⟨hc, hpattern (.rule .literal), hfound, hliteral found hfound⟩

example : (literal.run ⟨['é'], "0x_".toList, {}⟩).events =
    [.reverted 2 4, .reverted 3 5, .recognized .number ['0'] 2] := by decide +kernel

end SolidityTokens
