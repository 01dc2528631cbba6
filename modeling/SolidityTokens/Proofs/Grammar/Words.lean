import SolidityTokens.Proofs.Grammar.Restoration
import SolidityTokens.Proofs.Recognizer.Languages

/-!
# The cuts of identifiers, booleans and keywords

An identifier is read to its very end, so it is cut off in front of a character
that cannot continue it, and a keyword is cut off like the identifier that it
is. A boolean is cut off in front of anything, unless the options ask for the
end of a word.
-/

namespace SolidityTokens

open Recognizer Grammar

variable {α : Type} {options : Options}

/-! ### Failing in place -/

theorem Recipe.failsInPlace {f : Recognizer α} (recipe : Recipe (Recognizer.atomic f)) :
    FailsInPlace (Recognizer.atomic f) :=
  failsInPlace_of_settles recipe recipe.settles_atomic

theorem Rule.failsInPlace (rule : Rule) : FailsInPlace rule.recognizer :=
  failsInPlace_of_settles rule.recipe rule.settles

/-! ### Fixed words -/

theorem decides_spelled (w : Text) : Decides (spelled w) options fun m _ => m = w := by
  induction w with
  | nil => exact decides_pure ()
  | cons ch w ih =>
    refine ((decides_satisfy (· == ch)).andThen ih).congr fun m r => ?_
    constructor
    · rintro ⟨_, _, rfl, ⟨ch', hch, rfl⟩, rfl⟩
      rw [beq_iff_eq.mp hch]
      rfl
    · rintro rfl
      exact ⟨[ch], w, rfl, ⟨ch, beq_self_eq_true ch, rfl⟩, rfl⟩

theorem decides_word (w : Text) : Decides (word w) options fun m _ => m = w :=
  (decides_spelled w).atomic

/-! ### Identifiers and keywords -/

/-- Whether a character can begin an identifier. -/
def isIdentifierStart (ch : Char) : Bool := ch.isAlpha || ch == '$' || ch == '_'

/-- Whether a text is an identifier. -/
def isIdentifier : Text → Bool
  | [] => false
  | ch :: t => isIdentifierStart ch && t.all isIdentifierPart

/-- **The cuts of words** with a property: they have to end there. -/
def WordCut (P : Text → Prop) (m r : Text) : Prop := P m ∧ Avoids isIdentifierPart r

/-- **An identifier is cut off where it cannot be continued.** -/
theorem decides_identifier :
    Decides identifier options (WordCut fun m => isIdentifier m = true) := by
  have hset : ∀ ch, ['$', '_'].contains ch = (ch == '$' || ch == '_') := by
    intro ch
    rw [List.contains_cons, List.contains_cons, List.contains_nil, Bool.or_false]
  have hstart : Decides identifierStart options fun m _ => m ∈ oneChar isIdentifierStart := by
    refine (decides_satisfy _).satisfy_orElse.congr fun m r => ?_
    simp only [mem_oneChar, hset, isIdentifierStart, CharClass.contains, Bool.or_assoc]
  have hpart : Decides identifierPart options fun m _ => m ∈ oneChar isIdentifierPart := by
    refine (decides_satisfy _).satisfy_orElse.satisfy_orElse.congr fun m r => ?_
    simp only [mem_oneChar, hset, isIdentifierPart, CharClass.contains, Char.isAlphanum,
      Bool.or_assoc]
  have hplace : FailsInPlace identifierPart :=
    (failsInPlace_satisfy _).orElse ((failsInPlace_satisfy _).orElse (failsInPlace_satisfy _))
  -- The first character and the loop make up the text that is tested as a
  -- whole.
  refine ((hstart.andThen (hpart.many_oneChar hplace)).atomic).congr fun m r => ?_
  constructor
  · rintro ⟨_, t, rfl, ⟨ch, hch, rfl⟩, ht, hr⟩
    refine ⟨?_, hr⟩
    change isIdentifier (ch :: t) = true
    rw [isIdentifier, hch, Bool.true_and, List.all_eq_true]
    exact ht
  · rintro ⟨hm, hr⟩
    cases m with
    | nil => exact absurd hm Bool.false_ne_true
    | cons ch t =>
      change isIdentifier (ch :: t) = true at hm
      rw [isIdentifier, Bool.and_eq_true, List.all_eq_true] at hm
      exact ⟨[ch], t, rfl, ⟨ch, hm.1, rfl⟩, hm.2, hr⟩

theorem isIdentifierPart_of_isIdentifier {m : Text} (h : isIdentifier m = true) :
    ∀ ch ∈ m, isIdentifierPart ch = true := by
  cases m with
  | nil => exact fun ch hch => absurd hch List.not_mem_nil
  | cons ch m =>
    rw [isIdentifier, Bool.and_eq_true, List.all_eq_true] at h
    have hstart : isIdentifierPart ch = true := by
      have hch := h.1
      simp only [isIdentifierStart, Bool.or_eq_true] at hch
      simp only [isIdentifierPart, Char.isAlphanum, Bool.or_eq_true]
      exact hch.imp_left (Or.imp_left Or.inl)
    exact List.forall_mem_cons.mpr ⟨hstart, h.2⟩

/-- The words of every table are identifiers. -/
theorem isIdentifier_of_contains {table : Keyword} {m : Text} (h : table.contains m = true) :
    isIdentifier m = true := by
  have hwords : ∀ table ∈ Keyword.all, ∀ word ∈ table.words.map String.toList,
      isIdentifier word = true := by decide +kernel
  have hmem : m ∈ table.words.map String.toList := by
    rw [Keyword.contains, List.contains_eq_mem, decide_eq_true_eq] at h
    exact h
  refine hwords table ?_ m hmem
  cases table <;> decide

/-- **A word of a table is cut off where the identifier ends.** -/
theorem decides_keyword (table : Keyword) :
    Decides (keyword table) options (WordCut fun m => table.contains m = true) := by
  have hident : Decides identifier options _ := decides_identifier
  refine (hident.guard Rule.identifier.settles table.contains).atomic.congr fun m r => ?_
  constructor
  · rintro ⟨⟨-, hr⟩, hm⟩
    exact ⟨hm, hr⟩
  · rintro ⟨hm, hr⟩
    exact ⟨⟨isIdentifier_of_contains hm, hr⟩, hm⟩

/-- The first of several tables that has a word has it where one of them
does. -/
theorem decides_firstOf_keyword (tables : List Keyword) :
    Decides (firstOf (tables.map keyword)) options
      (WordCut fun m => ∃ table ∈ tables, table.contains m = true) := by
  induction tables with
  | nil =>
    refine ⟨?_, fun _ _ => rfl⟩
    rintro m r ⟨⟨table, hmem, -⟩, -⟩
    exact absurd hmem List.not_mem_nil
  | cons table tables ih =>
    refine ((decides_keyword table).orElse (Recipe.keyword table).failsInPlace ih).congr
      fun m r => ?_
    simp only [WordCut, List.mem_cons, exists_eq_or_imp]
    constructor
    · rintro (⟨hm, hr⟩ | ⟨-, hm, hr⟩)
      · exact ⟨Or.inl hm, hr⟩
      · exact ⟨Or.inr hm, hr⟩
    · rintro ⟨hm, hr⟩
      by_cases hfirst : table.contains m = true
      · exact Or.inl ⟨hfirst, hr⟩
      · -- Both tables would cut the same identifier, so the first admits no other cut.
        refine Or.inr ⟨fun m' r' heq hcut => hfirst ?_, hm.resolve_left hfirst, hr⟩
        obtain ⟨table', -, hm'⟩ := hm.resolve_left hfirst
        have hident : Decides identifier options _ := decides_identifier
        obtain ⟨rfl, -⟩ := hident.unique ⟨isIdentifier_of_contains hm', hr⟩
          ⟨isIdentifier_of_contains hcut.1, hcut.2⟩ heq
        exact hcut.1

/-! ### Booleans -/

theorem decides_wordBoundary :
    Decides wordBoundary options fun m r =>
      m = [] ∧ (options.wordBoundaries = true → Avoids isIdentifierPart r) where
  takes := by
    rintro m r ⟨rfl, hr⟩ read
    rw [run_wordBoundary, List.nil_append]
    refine ⟨?_, rfl⟩
    change (if options.wordBoundaries && r.head?.any isIdentifierPart then none
      else some ()).isSome = true
    cases hoptions : options.wordBoundaries with
    | false => rfl
    | true => rw [show r.head?.any isIdentifierPart = false from hr hoptions]; rfl
  refuses := by
    intro t huncut read
    have ht := huncut [] t rfl
    rw [run_wordBoundary]
    change (if options.wordBoundaries && t.head?.any isIdentifierPart then none
      else some ()) = none
    rw [if_pos]
    rw [Bool.and_eq_true]
    simpa [Avoids] using ht

/-- **The cuts of booleans**: two words, which have to end there if the options
ask for it. -/
def BooleanCut (options : Options) (m r : Text) : Prop :=
  (m = "true".toList ∨ m = "false".toList) ∧
    (options.wordBoundaries = true → Avoids isIdentifierPart r)

theorem decides_trueOrFalse :
    Decides (word "true".toList <|> word "false".toList) options fun m _ =>
      m = "true".toList ∨ m = "false".toList := by
  refine (decides_word _).orElse_of_disjoint (Recipe.word _).failsInPlace (decides_word _) ?_
  rintro m r m' r' heq rfl rfl
  simp at heq

theorem decides_booleanLiteral : Decides booleanLiteral options (BooleanCut options) := by
  refine ((decides_trueOrFalse.andThen decides_wordBoundary).atomic).congr fun m r => ?_
  constructor
  · rintro ⟨m₁, _, rfl, hm₁, rfl, hr⟩
    rw [List.append_nil]
    exact ⟨hm₁, hr⟩
  · rintro ⟨hm, hr⟩
    exact ⟨m, [], (List.append_nil m).symm, hm, rfl, hr⟩

end SolidityTokens
