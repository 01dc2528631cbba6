import SolidityTokens.Proofs.Recognizer.Recipe

/-!
# All or nothing

No call of the grammar leaves input half read. A call either fails with the
cursor where it was, or it answers with the very text between the old and the
new position. `SolidityTokens.Call` lists the calls for which this holds: the
single characters, the words, the rules, the keyword tables, the kinds of
literals, and the combinators on **any** body that is forward, however much that
body leaves read when it fails.

The main result is `SolidityTokens.calls_restore_or_span`. It says three things
that belong together: every pattern is such a body; every call settles, measured
in bytes of the text; and the answers of calls made one after the other on one
cursor concatenate to the text between the first position and the last.
-/

namespace SolidityTokens

open Recognizer Grammar

/-! ### Recipes of units -/

namespace Recipe

variable {α : Type} {f : Recognizer α}

/-- A unit settles if it is put together from the known parts. -/
theorem settles_atomic (recipe : Recipe (Recognizer.atomic f)) :
    Settles (Recognizer.atomic f) := by
  intro c
  obtain ⟨m, hm⟩ := forward_iff_exists_reads.mp recipe.forward c
  rw [run_atomic] at hm ⊢
  cases hvalue : (f.run c).value with
  | none => exact .rewindTo c _
  | some a =>
    rw [hvalue] at hm
    change c.Reads ((f.run c).cursor.textSince c) (f.run c).cursor
    rw [Cursor.Reads.textSince_eq hm]
    exact hm

end Recipe

/-! ### The rules settle -/

/-- Looking at what a search finds is looking at what each of its attempts
finds. -/
theorem firstOf_map_bind_pure {ι α β : Type} (is : List ι) (f : ι → Recognizer α) (g : α → β) :
    (firstOf (is.map f) >>= fun a => pure (g a)) =
      firstOf (is.map fun i => f i >>= fun a => pure (g a)) := by
  induction is with
  | nil => rfl
  | cons i is ih =>
    rw [List.map_cons, List.map_cons, firstOf_cons, firstOf_cons, ← ih]
    ext c
    simp only [run_bind_pure, run_orElse]
    rcases (f i).run c with ⟨_ | a, d, es⟩ <;> rfl

/-- A search that also tells which attempt found something finds the same. -/
theorem firstOf_map_pair_bind_snd {ι α : Type} (is : List ι) (f : ι → Recognizer α) :
    (firstOf (is.map fun i => f i >>= fun a => pure (i, a)) >>= fun found => pure found.2) =
      firstOf (is.map f) := by
  rw [firstOf_map_bind_pure]
  simp only [bind_assoc, pure_bind, bind_pure]

theorem recognizer_elementaryType :
    Rule.elementaryType.recognizer = firstOf (Keyword.elementaryTypes.map keyword) :=
  firstOf_map_pair_bind_snd Keyword.elementaryTypes keyword

/-- The search for a literal of one of several kinds, of which the result is
recorded. -/
def kindSearch (kinds : List LiteralKind) : Recognizer (LiteralKind × Text) :=
  firstOf (kinds.map fun kind => literalOf kind >>= fun text => pure (kind, text))

theorem literalAmong_eq (kinds : List LiteralKind) :
    literalAmong kinds = recorded (kindSearch kinds) := rfl

/-- A literal reads what the first of its kinds reads, and its text is what that
one finds. -/
theorem run_literal_eq (c : Cursor) :
    (Rule.literal.recognizer.run c).value =
        ((firstOf (LiteralKind.all.map literalOf)).run c).value ∧
      (Rule.literal.recognizer.run c).cursor =
        ((firstOf (LiteralKind.all.map literalOf)).run c).cursor := by
  rw [← firstOf_map_pair_bind_snd, run_bind_pure]
  change ((literal >>= fun found => pure found.text).run c).value = _ ∧
    ((literal >>= fun found => pure found.text).run c).cursor = _
  rw [run_bind_pure, literal, literalAmong_eq, kindSearch, run_recorded]
  split <;> simp_all

theorem settles_keyword (table : Keyword) : Settles (keyword table) :=
  (Recipe.keyword table).settles_atomic

theorem settles_literalOf (kind : LiteralKind) : Settles (literalOf kind) := by
  cases kind with
  | string => exact Recipe.stringLiteral.settles_atomic
  | number => exact Recipe.numberLiteral.settles_atomic
  | boolean => exact Recipe.booleanLiteral.settles_atomic
  | hexString => exact Recipe.hexString.many1.settles_atomic
  | unicodeString => exact Recipe.unicodeString.many1.settles_atomic

/-- **Every rule of the grammar settles.** -/
theorem Rule.settles (rule : Rule) : Settles rule.recognizer := by
  cases rule with
  | identifier => exact Recipe.identifier.settles_atomic
  | booleanLiteral => exact Recipe.booleanLiteral.settles_atomic
  | decimalDigits => exact Recipe.decimalDigits.settles_atomic
  | hexNumber => exact Recipe.hexNumber.settles_atomic
  | decimalNumber => exact Recipe.decimalNumber.settles_atomic
  | numberLiteral => exact Recipe.numberLiteral.settles_atomic
  | escapeSequence => exact Recipe.escapeSequence.settles_atomic
  | emptyString =>
    exact ((settles_satisfy _).forward.settles_times 2).orElse
      ((settles_satisfy _).forward.settles_times 2)
  | quotedString => exact Recipe.quotedString.settles_atomic
  | nonEmptyString => exact Recipe.nonEmptyString.settles_atomic
  | stringLiteral => exact Recipe.stringLiteral.settles_atomic
  | hexString => exact Recipe.hexString.settles_atomic
  | hexStringLiteral => exact Recipe.hexString.forward.settles_many
  | unicodeString => exact Recipe.unicodeString.settles_atomic
  | unicodeStringLiteral => exact Recipe.unicodeString.forward.settles_many
  | unsignedIntegerType => exact settles_keyword _
  | signedIntegerType => exact settles_keyword _
  | fixedBytes => exact settles_keyword _
  | numberUnit => exact settles_keyword _
  | elementaryType =>
    rw [recognizer_elementaryType]
    refine settles_firstOf fun f hf => ?_
    obtain ⟨table, -, rfl⟩ := List.mem_map.mp hf
    exact settles_keyword table
  | literal =>
    intro c
    rw [(run_literal_eq c).1, (run_literal_eq c).2]
    refine settles_firstOf (fun f hf => ?_) c
    obtain ⟨kind, -, rfl⟩ := List.mem_map.mp hf
    exact settles_literalOf kind

/-! ### Calls -/

/-- **The calls that are all or nothing.** A character of a class, a given
character, a character of a set or outside it, and one from a range are
`satisfy` by definition. The combinators take any forward body. -/
inductive Call : Recognizer Text → Prop
  /-- One character with a property. -/
  | satisfy (p : Char → Bool) : Call (satisfy p)
  /-- A fixed word. -/
  | word (expected : Text) : Call (word expected)
  /-- A rule of the grammar. -/
  | rule (named : Rule) : Call named.recognizer
  /-- A word of a keyword table. -/
  | keyword (table : Keyword) : Call (keyword table)
  /-- A literal of a given kind. -/
  | literalOf (kind : LiteralKind) : Call (literalOf kind)
  /-- A body as a unit. -/
  | atomic {α : Type} {f : Recognizer α} : Forward f → Call (atomic f)
  /-- A body a given number of times. -/
  | times {α : Type} {f : Recognizer α} (n : Nat) : Forward f → Call (times n f)
  /-- A body as often as possible. -/
  | many {α : Type} {f : Recognizer α} : Forward f → Call (many f)
  /-- A body as often as possible, at least once. -/
  | many1 {α : Type} {f : Recognizer α} : Forward f → Call (many1 f)
  /-- A body once or not at all. -/
  | optionally {α : Type} {f : Recognizer α} : Forward f → Call (optionally f)
  /-- The first of several bodies that matches. -/
  | choice {α : Type} {fs : List (Recognizer α)} : (∀ f ∈ fs, Forward f) → Call (choice fs)

theorem Call.settles {f : Recognizer Text} (call : Call f) : Settles f := by
  cases call with
  | satisfy p => exact settles_satisfy p
  | word expected => exact (Recipe.word expected).settles_atomic
  | rule named => exact named.settles
  | keyword table => exact settles_keyword table
  | literalOf kind => exact settles_literalOf kind
  | atomic hf => exact hf.settles_atomic
  | times n hf => exact hf.settles_times n
  | many hf => exact hf.settles_many
  | many1 hf => exact hf.settles_many1
  | optionally hf => exact hf.settles_optionally
  | choice hfs => exact settles_choice hfs

/-- **An outcome accounts for its move**, of a run that began at byte `start` of
a text: it is a failure at that very position, or it answers with the text from
there to the position where it ended. -/
def Outcome.Accounts (text : Text) (start : Nat) (outcome : Outcome Text) : Prop :=
  outcome.cursor.text = text ∧
    (outcome.value = none ∧ outcome.cursor.position = start ∨
      ∃ m, outcome.value = some m ∧ start ≤ outcome.cursor.position ∧
        Span.slice? ⟨start, outcome.cursor.position⟩ text = some m)

theorem Recognizer.Settles.accounts {f : Recognizer Text} (hf : Settles f) (c : Cursor) :
    (f.run c).Accounts c.text c.position := by
  refine ⟨(hf c).text_eq, ?_⟩
  cases hvalue : (f.run c).value with
  | none => exact Or.inl ⟨rfl, (hf.reads_nil hvalue).position_eq⟩
  | some m =>
    have hreads := hf.reads hvalue
    exact Or.inr ⟨m, rfl, hreads.position_le, hreads.slice?_eq⟩

/-- What recognizers find that run one after the other on one cursor, each from
where the one before it left the cursor, be it that it matched or failed; and
where the last one leaves it. -/
def Recognizer.inSuccession : List (Recognizer Text) → Cursor → List Text × Cursor
  | [], c => ([], c)
  | f :: fs, c =>
    let (texts, last) := inSuccession fs (f.run c).cursor
    ((f.run c).value.toList ++ texts, last)

theorem reads_inSuccession {fs : List (Recognizer Text)} (hfs : ∀ f ∈ fs, Settles f)
    (c : Cursor) : c.Reads (inSuccession fs c).1.flatten (inSuccession fs c).2 := by
  induction fs generalizing c with
  | nil => exact .refl c
  | cons f fs ih =>
    have hf := hfs f List.mem_cons_self c
    have hrest := ih (fun g hg => hfs g (List.mem_cons_of_mem f hg)) (f.run c).cursor
    have hflatten : (inSuccession (f :: fs) c).1.flatten =
        (f.run c).value.getD [] ++ (inSuccession fs (f.run c).cursor).1.flatten := by
      rw [inSuccession, List.flatten_append]
      cases (f.run c).value <;> simp
    rw [hflatten]
    exact hf.trans hrest

/-- **Calls are all or nothing.** Every pattern is a forward body; every call
fails at its own start or answers with the text between its start and its end;
and the answers of any calls in succession make up the text between the first
position and the last. -/
theorem calls_restore_or_span :
    (∀ pattern : Pattern, Forward pattern.recognizer) ∧
    (∀ f, Call f → ∀ (text : Text) (start : Nat) (options : Options) (c : Cursor),
      Cursor.atOffset? text start options = some c → (f.run c).Accounts text start) ∧
    ∀ fs : List (Recognizer Text), (∀ f ∈ fs, Call f) →
      ∀ (text : Text) (start : Nat) (options : Options) (c : Cursor),
        Cursor.atOffset? text start options = some c →
        start ≤ (inSuccession fs c).2.position ∧
          Span.slice? ⟨start, (inSuccession fs c).2.position⟩ text =
            some (inSuccession fs c).1.flatten := by
  refine ⟨fun pattern => pattern.recipe.forward, ?_, ?_⟩
  · intro f call text start options c hc
    obtain ⟨rfl, rfl, -⟩ := Cursor.atOffset?_eq_some_iff.mp hc
    exact call.settles.accounts c
  · intro fs hfs text start options c hc
    obtain ⟨rfl, rfl, -⟩ := Cursor.atOffset?_eq_some_iff.mp hc
    have hreads := reads_inSuccession (fun f hf => (hfs f hf).settles) c
    exact ⟨hreads.position_le, hreads.slice?_eq⟩

/-- An underscore and a digit. Where the digit is missing, the underscore stays
read. -/
def Pattern.underscoreDigit : Pattern := .andThen (.char '_') (.charOf .decimalDigit)

/-- A body that leaves input read, in a loop that keeps it and in a unit that
gives it back, after a character of two bytes. -/
theorem calls_restore_or_span_leaking :
    let leaking := Pattern.underscoreDigit.recognizer
    let c : Cursor := ⟨['é'], "_1_2_x".toList, {}⟩
    Forward leaking ∧ Cursor.atOffset? "é_1_2_x".toList 2 {} = some c ∧
      ((many leaking).run c).Accounts "é_1_2_x".toList 2 ∧
      Span.slice? ⟨2, (inSuccession [times 3 leaking, many leaking, identifier] c).2.position⟩
        "é_1_2_x".toList =
          some (inSuccession [times 3 leaking, many leaking, identifier] c).1.flatten := by
  intro leaking c
  have hforward : Forward leaking := calls_restore_or_span.1 .underscoreDigit
  have hc : Cursor.atOffset? "é_1_2_x".toList 2 {} = some c := by decide
  refine ⟨hforward, hc, calls_restore_or_span.2.1 _ (.many hforward) _ 2 {} c hc, ?_⟩
  refine (calls_restore_or_span.2.2 _ (fun f hf => ?_) _ 2 {} c hc).2
  simp only [List.mem_cons, List.not_mem_nil, or_false] at hf
  rcases hf with rfl | rfl | rfl
  · exact .times 3 hforward
  · exact .many hforward
  · exact .rule .identifier

end SolidityTokens
