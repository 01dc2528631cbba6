import SolidityTokens.Proofs.Grammar.StringFamilies
import SolidityTokens.Proofs.Recognizer.Renaming

/-!
# The two quotes are interchangeable

Exchange the two quotes everywhere in a text (`SolidityTokens.swapQuote`), and
every rule makes the same run on it: it matches in the same places, what it
finds is the old match with the quotes exchanged, and it gives back the same
input in the same order (`SolidityTokens.quotes_interchangeable`).

Most rules cannot tell the quotes apart, since every test they make has the same
answer for both (`SolidityTokens.apply_swapQuote`). The rules of strings can,
and there the recognizer of one quote renames that of the other. What remains is
an order: the double quote is tried first, in the exchanged text as well. The
order does not show, not even in the record, because of the two alternatives one
is always **idle** (`SolidityTokens.Recognizer.Idle`): it finds nothing, goes
nowhere and leaves no record.
-/

namespace SolidityTokens

open Recognizer Grammar

variable {α β : Type}

/-! ### Idle alternatives -/

namespace Recognizer

variable {f g : Recognizer α} {c : Cursor}

/-- **A recognizer is idle at a cursor** when it finds nothing, goes nowhere and
leaves no record. -/
def Idle (f : Recognizer α) (c : Cursor) : Prop := f.run c = ⟨none, c, []⟩

theorem idle_satisfy {p : Char → Bool} (h : Avoids p c.rest) : Idle (satisfy p) c := by
  rw [Idle]
  cases hrest : c.rest with
  | nil => exact run_satisfy_nil p c hrest
  | cons ch rest =>
    rw [hrest, avoids_cons] at h
    rw [run_satisfy_cons p c hrest, h]
    rfl

theorem Idle.bind (hf : Idle f c) (h : α → Recognizer β) : Idle (f >>= h) c := by
  rw [Idle, run_bind, hf]

theorem Idle.atomic (hf : Idle f c) : Idle (atomic f) c := by
  rw [Idle, run_atomic, hf]
  simp only [revertEvents_self, List.append_nil, Cursor.rewindTo_self]

/-- Next to an alternative that is idle, the order does not matter. -/
theorem Idle.run_orElse (hf : Idle f c) (hplace : FailsInPlace g) :
    (f <|> g).run c = (g <|> f).run c := by
  have hfirst : (f <|> g).run c = g.run c := by
    rw [Recognizer.run_orElse, hf]
    rfl
  rw [hfirst, Recognizer.run_orElse]
  have hcursor := hplace c
  rcases hrun : g.run c with ⟨_ | a, d, events⟩
  · rw [hrun] at hcursor
    obtain rfl : d = c := hcursor rfl
    simp only [show f.run d = ⟨none, d, []⟩ from hf, List.append_nil]
  · rfl

/-- **Alternatives commute** if one of them is idle wherever they are tried. -/
theorem orElse_comm_of_idle (hf : FailsInPlace f) (hg : FailsInPlace g)
    (h : ∀ c, Idle f c ∨ Idle g c) : (f <|> g) = (g <|> f) := by
  ext c
  rcases h c with hidle | hidle
  · exact hidle.run_orElse hg
  · exact (hidle.run_orElse hf).symm

/-- No text begins with two different characters. -/
theorem idle_char_or {ch ch' : Char} (h : ch ≠ ch') (c : Cursor) :
    Idle (char ch) c ∨ Idle (char ch') c := by
  by_cases havoids : Avoids (· == ch) c.rest
  · exact Or.inl (idle_satisfy havoids)
  · refine Or.inr (idle_satisfy ?_)
    cases hrest : c.rest with
    | nil => exact avoids_nil _
    | cons first rest =>
      rw [hrest, avoids_cons, Bool.not_eq_false, beq_iff_eq] at havoids
      rw [avoids_cons, beq_eq_false_iff_ne, havoids]
      exact h

end Recognizer

/-! ### Exchanging the quotes -/

/-- The other quote in the place of a quote, and every other character in its
own. -/
def swapQuote (ch : Char) : Char :=
  if ch = '"' then '\'' else if ch = '\'' then '"' else ch

theorem swapQuote_swapQuote (ch : Char) : swapQuote (swapQuote ch) = ch := by
  by_cases hdouble : ch = '"'
  · rw [hdouble]
    decide
  · by_cases hsingle : ch = '\''
    · rw [hsingle]
      decide
    · simp [swapQuote, hdouble, hsingle]

/-- What has the same answer for both quotes has it for a character and the one
in its place. -/
theorem apply_swapQuote {γ : Type} {p : Char → γ} (h : p '"' = p '\'') (ch : Char) :
    p (swapQuote ch) = p ch := by
  rw [swapQuote]
  split
  next hch => rw [hch, h]
  next =>
    split
    next hch => rw [hch, h]
    next => rfl

/-- Exchanging the quotes is a renaming. -/
def Renaming.swapQuotes : Renaming where
  char := swapQuote
  char_injective := by
    intro ch ch' h
    rw [← swapQuote_swapQuote ch, h, swapQuote_swapQuote]
  utf8Size_char := apply_swapQuote (by decide)

/-- The other quote. -/
def Quote.other : Quote → Quote
  | double => single
  | single => double

theorem Quote.mark_other (quote : Quote) : quote.other.mark = swapQuote quote.mark := by
  cases quote <;> decide

/-! ### Rules that do not tell the quotes apart -/

/-- A character with a property that both quotes have or neither. -/
theorem renames_satisfy {p : Char → Bool} (h : p '"' = p '\'') :
    Renames .swapQuotes (List.map swapQuote) (satisfy p) (satisfy p) :=
  .satisfy (apply_swapQuote h)

/-- A word without quotes. -/
theorem renames_word {w : Text} (h : w.map swapQuote = w) :
    Renames .swapQuotes (List.map swapQuote) (word w) (word w) := by
  have hword : Renames .swapQuotes _ (word w) (word (w.map swapQuote)) := .word w
  rwa [h] at hword

theorem renames_identifier :
    Renames .swapQuotes (List.map swapQuote) identifier identifier :=
  .atomic (.bind (.orElse (renames_satisfy rfl) (renames_satisfy rfl)) fun _ =>
    .many (.orElse (renames_satisfy rfl) (.orElse (renames_satisfy rfl) (renames_satisfy rfl))))

theorem renames_booleanLiteral :
    Renames .swapQuotes (List.map swapQuote) booleanLiteral booleanLiteral :=
  .atomic (.bind (.orElse (renames_word rfl) (renames_word rfl)) fun _ =>
    .wordBoundary (apply_swapQuote rfl))

/-- The words of a table have no quotes in them. -/
theorem contains_map_swapQuote (table : Keyword) (m : Text) :
    table.contains (m.map swapQuote) = table.contains m := by
  have hfixed : ∀ {m : Text}, table.contains m = true → m.map swapQuote = m := by
    intro m hm
    have hwords : ∀ table ∈ Keyword.all, ∀ word ∈ table.words.map String.toList,
        word.map swapQuote = word := by decide +kernel
    refine hwords table ?_ m (List.contains_iff_mem.mp hm)
    cases table <;> decide
  have htwice : (m.map swapQuote).map swapQuote = m := by
    rw [List.map_map]
    exact List.map_id'' swapQuote_swapQuote m
  rw [Bool.eq_iff_iff]
  constructor
  · intro h
    -- The exchanged text is a word of the table, so it is the text itself.
    rw [← htwice, hfixed h]
    exact h
  · intro h
    rwa [hfixed h]

theorem renames_keyword (table : Keyword) :
    Renames .swapQuotes (List.map swapQuote) (keyword table) (keyword table) := by
  refine .atomic (φ := id) (.bind renames_identifier fun found => ?_)
  rw [contains_map_swapQuote]
  exact .guard _

theorem renames_elementaryType :
    Renames .swapQuotes (Prod.map id (List.map swapQuote)) elementaryType elementaryType := by
  rw [elementaryType, keywordAmong]
  refine .firstOf (fun table => ?_) _
  exact .bind (renames_keyword table) fun found => .pure (table, found)

section Numbers

variable {item item' : Recognizer Text}

theorem renames_grouped (h : Renames .swapQuotes (List.map swapQuote) item item') :
    Renames .swapQuotes (List.map swapQuote) (grouped item) (grouped item') :=
  .orElse h (.atomic (.bind (renames_satisfy rfl) fun _ => h))

theorem renames_groupedDigits (h : Renames .swapQuotes (List.map swapQuote) item item') :
    Renames .swapQuotes (List.map swapQuote) (groupedDigits item) (groupedDigits item') :=
  .atomic (.bind h fun _ => .bind (.many (renames_grouped h)) fun _ =>
    .notFollowedBy (apply_swapQuote (p := (· == '_')) rfl))

theorem renames_decimalDigits :
    Renames .swapQuotes (List.map swapQuote) decimalDigits decimalDigits :=
  renames_groupedDigits (renames_satisfy rfl)

theorem renames_hexNumber : Renames .swapQuotes (List.map swapQuote) hexNumber hexNumber :=
  .atomic (.bind (renames_word rfl) fun _ => renames_groupedDigits (renames_satisfy rfl))

theorem renames_decimalNumber :
    Renames .swapQuotes (List.map swapQuote) decimalNumber decimalNumber :=
  .atomic (.bind renames_decimalDigits fun _ =>
    .bind (.whenMatched (renames_satisfy rfl) renames_decimalDigits) fun _ =>
      .whenMatched (renames_satisfy rfl)
        (.bind (.optionally (renames_satisfy rfl)) fun _ => renames_decimalDigits))

theorem renames_numberLiteral :
    Renames .swapQuotes (List.map swapQuote) numberLiteral numberLiteral :=
  .atomic (.bind (.orElse renames_hexNumber renames_decimalNumber) fun _ =>
    .optionally (.bind (.many (renames_satisfy rfl)) fun _ => renames_keyword _))

end Numbers

/-! ### Rules that tell them apart -/

theorem renames_characterCode (announcer : Char) (n : Nat) (h : swapQuote announcer = announcer) :
    Renames .swapQuotes (List.map swapQuote) (characterCode announcer n)
      (characterCode announcer n) := by
  refine .atomic (.bind (φ := List.map swapQuote) ?_ fun _ => .times n (renames_satisfy rfl))
  have hchar : Renames .swapQuotes _ (char announcer) (char (swapQuote announcer)) :=
    .char announcer
  rwa [h] at hchar

/-- Both quotes can be escaped. -/
theorem renames_escapeSequence :
    Renames .swapQuotes (List.map swapQuote) escapeSequence escapeSequence :=
  .atomic (.bind (renames_satisfy rfl) fun _ => .orElse (renames_satisfy rfl)
    (.orElse (renames_characterCode 'u' 4 rfl) (renames_characterCode 'x' 2 rfl)))

theorem renames_mark (quote : Quote) :
    Renames .swapQuotes (List.map swapQuote) (char quote.mark) (char quote.other.mark) := by
  rw [quote.mark_other]
  exact .char quote.mark

theorem contains_printable_other (quote : Quote) (ch : Char) :
    quote.other.printable.contains (swapQuote ch) = quote.printable.contains ch := by
  have hne : ∀ ch', swapQuote ch ≠ swapQuote ch' ↔ ch ≠ ch' := fun ch' =>
    not_congr ⟨Renaming.swapQuotes.char_injective, congrArg swapQuote⟩
  rw [Bool.eq_iff_iff, contains_printable_iff, contains_printable_iff, quote.mark_other, hne,
    apply_swapQuote (p := CharClass.isPrintable) rfl]
  exact and_congr_right fun _ => and_congr_right fun _ => hne '\\'

/-- What stands for itself between the one quotes does so between the others. -/
theorem renames_plainElement (quote : Quote) :
    Renames .swapQuotes (List.map swapQuote) (plainElement quote) (plainElement quote.other) :=
  .orElse (.satisfy (contains_printable_other quote)) renames_escapeSequence

theorem renames_unicodeElement (quote : Quote) :
    Renames .swapQuotes (List.map swapQuote) (unicodeElement quote)
      (unicodeElement quote.other) := by
  refine .orElse ?_ renames_escapeSequence
  rw [quote.mark_other]
  exact .noneOf [quote.mark, '\r', '\n', '\\']

theorem renames_hexPair : Renames .swapQuotes (List.map swapQuote) hexPair hexPair :=
  .times 2 (renames_satisfy rfl)

theorem renames_hexPairs : Renames .swapQuotes (List.map swapQuote) hexPairs hexPairs :=
  .optionally (.bind renames_hexPair fun _ => .many (renames_grouped renames_hexPair))

/-- **The quote that is tried first does not matter** to alternatives that begin
with a quote. -/
theorem renames_eitherQuote {γ : Type} {φ : γ → γ} (f : Quote → Recognizer γ)
    (hf : ∀ quote, Renames .swapQuotes φ (f quote) (f quote.other))
    (hplace : ∀ quote, FailsInPlace (f quote))
    (hmark : ∀ quote c, Idle (char quote.mark) c → Idle (f quote) c) :
    Renames .swapQuotes φ (f .double <|> f .single) (f .double <|> f .single) := by
  have hswapped : Renames .swapQuotes φ (f .double <|> f .single) (f .single <|> f .double) :=
    (hf .double).orElse (hf .single)
  have hidle : ∀ c, Idle (f .single) c ∨ Idle (f .double) c := fun c =>
    (idle_char_or (show Quote.single.mark ≠ Quote.double.mark by decide) c).imp
      (hmark .single c) (hmark .double c)
  rwa [orElse_comm_of_idle (hplace .single) (hplace .double) hidle] at hswapped

theorem renames_openingQuote : Renames .swapQuotes Quote.other openingQuote openingQuote := by
  refine renames_eitherQuote (fun quote => char quote.mark >>= fun _ => pure quote)
    (fun quote => ?_) (fun quote => ?_) fun quote c hidle => ?_
  · exact .bind (renames_mark quote) fun _ => .pure quote
  · exact (failsInPlace_satisfy _).bind_pure fun _ => quote
  · exact hidle.bind _

theorem renames_emptyString :
    Renames .swapQuotes (List.map swapQuote) emptyString emptyString := by
  refine renames_eitherQuote (fun quote => times 2 (char quote.mark))
    (fun quote => ?_) (fun quote => ?_) fun quote c hidle => ?_
  · exact .times 2 (renames_mark quote)
  · exact (Recipe.times 2 (.satisfy _)).failsInPlace
  · exact (hidle.bind _).atomic

/-- **A quoted string renames the one in the other quotes**, if its body
does. -/
theorem renames_quoted {body : Quote → Recognizer Text}
    (h : ∀ quote, Renames .swapQuotes (List.map swapQuote) (body quote) (body quote.other)) :
    Renames .swapQuotes (List.map swapQuote) (quoted body) (quoted body) :=
  .atomic (.bind renames_openingQuote fun quote => .bind (h quote) fun _ => renames_mark quote)

theorem renames_nonEmptyString :
    Renames .swapQuotes (List.map swapQuote) nonEmptyString nonEmptyString :=
  renames_quoted fun quote => .many1 (renames_plainElement quote)

theorem renames_stringLiteral :
    Renames .swapQuotes (List.map swapQuote) stringLiteral stringLiteral :=
  .many1 (.orElse renames_nonEmptyString renames_emptyString)

theorem renames_hexString : Renames .swapQuotes (List.map swapQuote) hexString hexString :=
  .atomic (.bind (renames_word rfl) fun _ => .many1 (renames_quoted fun _ => renames_hexPairs))

theorem renames_unicodeString :
    Renames .swapQuotes (List.map swapQuote) unicodeString unicodeString :=
  .atomic (.bind (renames_word rfl) fun _ =>
    .many1 (renames_quoted fun quote => .many (renames_unicodeElement quote)))

/-! ### All rules -/

theorem renames_literalOf (kind : LiteralKind) :
    Renames .swapQuotes (List.map swapQuote) (literalOf kind) (literalOf kind) := by
  cases kind with
  | string => exact renames_stringLiteral
  | number => exact renames_numberLiteral
  | boolean => exact renames_booleanLiteral
  | hexString => exact .many1 renames_hexString
  | unicodeString => exact .many1 renames_unicodeString

/-- A literal keeps its kind and its place. -/
theorem renames_literal : Renames .swapQuotes (Literal.rename .swapQuotes) literal literal := by
  refine .recorded (.firstOf (fun kind => ?_) _)
  exact .bind (renames_literalOf kind) fun text => .pure (kind, text)

/-- **Every rule renames itself** when the quotes are exchanged. -/
theorem Rule.renames (rule : Rule) :
    Renames .swapQuotes (List.map swapQuote) rule.recognizer rule.recognizer := by
  cases rule with
  | identifier => exact renames_identifier
  | booleanLiteral => exact renames_booleanLiteral
  | decimalDigits => exact renames_decimalDigits
  | hexNumber => exact renames_hexNumber
  | decimalNumber => exact renames_decimalNumber
  | numberLiteral => exact renames_numberLiteral
  | escapeSequence => exact renames_escapeSequence
  | emptyString => exact renames_emptyString
  | quotedString => exact renames_quoted fun quote => .many (renames_plainElement quote)
  | nonEmptyString => exact renames_nonEmptyString
  | stringLiteral => exact renames_stringLiteral
  | hexString => exact renames_hexString
  | hexStringLiteral => exact .many renames_hexString
  | unicodeString => exact renames_unicodeString
  | unicodeStringLiteral => exact .many renames_unicodeString
  | unsignedIntegerType => exact renames_keyword _
  | signedIntegerType => exact renames_keyword _
  | fixedBytes => exact renames_keyword _
  | numberUnit => exact renames_keyword _
  | elementaryType => exact .bind renames_elementaryType fun found => .pure found.2
  | literal => exact .bind renames_literal fun found => .pure found.text

/-- **The two quotes are interchangeable.** At every boundary of every text: on
the text with the quotes exchanged every rule, and the search for a literal and
for an elementary type with it, finds what it finds on the text itself, with the
quotes exchanged in it, ends at the same position, and leaves the same record,
but for the quotes in the texts of literals. A literal keeps its kind and its
span. -/
theorem quotes_interchangeable (text : Text) (offset : Nat) (options : Options) (c : Cursor)
    (hc : Cursor.atOffset? text offset options = some c) :
    ∃ d, Cursor.atOffset? (text.map swapQuote) offset options = some d ∧
      (∀ rule : Rule, (rule.recognizer.run c).RenamedTo .swapQuotes (List.map swapQuote)
        (rule.recognizer.run d)) ∧
      (literal.run c).RenamedTo .swapQuotes (Literal.rename .swapQuotes) (literal.run d) ∧
      (elementaryType.run c).RenamedTo .swapQuotes (Prod.map id (List.map swapQuote))
        (elementaryType.run d) := by
  obtain ⟨rfl, rfl, rfl⟩ := Cursor.atOffset?_eq_some_iff.mp hc
  have hd : Cursor.atOffset? (c.text.map swapQuote) c.position c.options =
      some (c.rename .swapQuotes) :=
    Cursor.atOffset?_eq_some_iff.mpr ⟨c.text_rename, c.position_rename, rfl⟩
  exact ⟨c.rename .swapQuotes, hd, fun rule => rule.renames.renamedTo c,
    renames_literal.renamedTo c, renames_elementaryType.renamedTo c⟩

/-- A string with the other quote in it, after a character of two bytes, and
another string in the other quotes that is never closed: with the quotes
exchanged the same literal is found, and what was read of the open string is
given back in the same two steps. -/
theorem quotes_interchangeable_unclosed :
    let c : Cursor := ⟨['é'], "\"it's\"'x".toList, {}⟩
    let found : Literal := ⟨.string, "\"it's\"".toList, ⟨2, 8⟩⟩
    Cursor.atOffset? "é\"it's\"'x".toList 2 {} = some c ∧ (literal.run c).value = some found ∧
      ∃ d, Cursor.atOffset? "é'it\"s'\"x".toList 2 {} = some d ∧
        (literal.run d).value = some { found with text := "'it\"s'".toList } ∧
        (literal.run d).events =
          [.reverted 8 10, .reverted 8 9, .recognized .string "'it\"s'".toList 2] := by
  intro c found
  have hc : Cursor.atOffset? "é\"it's\"'x".toList 2 {} = some c := by decide
  have hfound : (literal.run c).value = some found := by decide +kernel
  have hevents : (literal.run c).events =
      [.reverted 8 10, .reverted 8 9, .recognized .string found.text 2] := by
    decide +kernel
  obtain ⟨d, hd, -, hliteral, -⟩ := quotes_interchangeable _ 2 {} c hc
  refine ⟨hc, hfound, d, hd, ?_, ?_⟩
  · rw [hliteral.value_eq, hfound]
    rfl
  · rw [hliteral.events_eq, hevents]
    rfl

end SolidityTokens
