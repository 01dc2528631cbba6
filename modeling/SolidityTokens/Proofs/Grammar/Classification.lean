import Mathlib.Data.List.Perm.Basic
import SolidityTokens.Proofs.Grammar.Cuts

/-!
# Literals are told apart

The search for a literal tries the kinds one after the other and takes the first
that matches. Since no two of them match at the same place, and those that fail
leave the cursor where it was, the search does what the one kind does that
matches, if there is one (`SolidityTokens.run_literalAmong_of_value`), and fails
if there is none (`SolidityTokens.run_literalAmong_of_none`). Neither says
anything about an order, and so **the kinds may be tried in any order**
(`SolidityTokens.run_literalAmong_congr`).

What is found describes itself (`SolidityTokens.Literal.Describes`): it stands
where its span says, and the words `true` and `false` are the literals with a
truth value.
-/

namespace SolidityTokens

open Recognizer Grammar

variable {options : Options} {kinds : List LiteralKind} {c : Cursor}

/-! ### The search and the kinds -/

/-- The search for a literal finds what the kind finds that matches. -/
theorem run_literalAmong_of_value {kind : LiteralKind} (hmem : kind ∈ kinds) {m : Text}
    (hvalue : ((literalOf kind).run c).value = some m) :
    ((literalAmong kinds).run c).value =
        some ⟨kind, m, ⟨c.position, ((literalOf kind).run c).cursor.position⟩⟩ ∧
      ((literalAmong kinds).run c).cursor = ((literalOf kind).run c).cursor := by
  obtain ⟨hfound, hcursor⟩ := run_kindSearch_of_value hmem hvalue
  rw [literalAmong_eq, run_recorded, hfound, hcursor]
  exact ⟨rfl, rfl⟩

/-- It finds nothing where no kind matches. -/
theorem run_literalAmong_of_none
    (hnone : ∀ kind ∈ kinds, ((literalOf kind).run c).value = none) :
    ((literalAmong kinds).run c).value = none ∧ ((literalAmong kinds).run c).cursor = c := by
  obtain ⟨hfound, hcursor⟩ := run_search_of_none failsInPlace_literalOf hnone
  rw [literalAmong_eq, kindSearch, run_recorded, hfound]
  exact ⟨rfl, hcursor⟩

/-- **Only which kinds are tried matters**, and not in which order. -/
theorem run_literalAmong_congr {kinds' : List LiteralKind}
    (h : ∀ kind, kind ∈ kinds ↔ kind ∈ kinds') (c : Cursor) :
    ((literalAmong kinds).run c).value = ((literalAmong kinds').run c).value ∧
      ((literalAmong kinds).run c).cursor = ((literalAmong kinds').run c).cursor := by
  obtain ⟨hvalue, hcursor⟩ := run_search_congr failsInPlace_literalOf h LiteralKind.eq_of_isSome
  rw [literalAmong_eq, literalAmong_eq, kindSearch, kindSearch, run_recorded, run_recorded, hvalue,
    hcursor]
  split
  · exact ⟨rfl, rfl⟩
  · exact ⟨rfl, rfl⟩

theorem value_literal_eq_none_iff :
    (literal.run c).value = none ↔ ∀ kind, ((literalOf kind).run c).value = none := by
  constructor
  · intro hnone kind
    by_contra hsome
    obtain ⟨m, hm⟩ := Option.ne_none_iff_exists'.mp hsome
    have hvalue : (literal.run c).value = _ := (run_literalAmong_of_value kind.mem_all hm).1
    exact Option.some_ne_none _ (hvalue.symm.trans hnone)
  · exact fun hnone => (run_literalAmong_of_none fun kind _ => hnone kind).1

/-- What is found is what its kind reads at this place. -/
theorem value_literalOf_of_value_literal {found : Literal}
    (h : (literal.run c).value = some found) :
    ((literalOf found.kind).run c).value = some found.text ∧
      (literal.run c).cursor = ((literalOf found.kind).run c).cursor ∧
      found.span = ⟨c.position, (literal.run c).cursor.position⟩ := by
  obtain ⟨kind, hkind⟩ : ∃ kind, ((literalOf kind).run c).value ≠ none := by
    by_contra hnone
    have hall : ∀ kind, ((literalOf kind).run c).value = none := by
      simpa only [not_exists, not_not] using hnone
    exact Option.some_ne_none found (h.symm.trans (value_literal_eq_none_iff.mpr hall))
  obtain ⟨m, hm⟩ := Option.ne_none_iff_exists'.mp hkind
  obtain ⟨hvalue, hcursor⟩ := run_literalAmong_of_value kind.mem_all hm
  obtain rfl := Option.some.inj (h.symm.trans hvalue)
  refine ⟨hm, hcursor, ?_⟩
  rw [literal, hcursor]

/-! ### Truth values -/

/-- **The booleans are the literals that are written as such.** -/
theorem LiteralKind.Cuts.eq_boolean_iff {kind : LiteralKind} {m r : Text}
    (h : kind.Cuts options m r) :
    kind = .boolean ↔ m = "true".toList ∨ m = "false".toList := by
  constructor
  · rintro rfl
    exact h.1
  · -- Their first characters belong to no other kind.
    obtain ⟨ch, t, hm, hkind⟩ := h.ofFirst?
    rintro (rfl | rfl)
    · obtain ⟨rfl, -⟩ := List.cons.inj hm
      exact Option.some.inj (hkind.symm.trans (by decide))
    · obtain ⟨rfl, -⟩ := List.cons.inj hm
      exact Option.some.inj (hkind.symm.trans (by decide))

/-- **A literal has the truth value that it is the word for.** -/
theorem Literal.asBool_eq_some_iff {found : Literal} {r : Text}
    (h : found.kind.Cuts options found.text r) (b : Bool) :
    found.asBool = some b ↔ found.text = (bif b then "true" else "false").toList := by
  by_cases hkind : found.kind = .boolean
  · rw [Literal.asBool, hkind]
    rcases h.eq_boolean_iff.mp hkind with htext | htext
    · rw [htext]
      revert b
      decide
    · rw [htext]
      revert b
      decide
  · have hnone : found.asBool = none := by
      rw [Literal.asBool]
      split
      · next heq => exact absurd heq hkind
      · rfl
    rw [hnone]
    refine iff_of_false (Option.some_ne_none b).symm fun htext => hkind (h.eq_boolean_iff.mpr ?_)
    cases b with
    | false => exact Or.inr htext
    | true => exact Or.inl htext

/-- **What a literal says about itself**, of one that was found in a text
between the byte offsets `start` and `stop`. -/
structure Literal.Describes (found : Literal) (text : Text) (start stop : Nat) : Prop where
  /-- Something was read. -/
  text_ne_nil : found.text ≠ []
  /-- The span reaches from where the search began to where it ended. -/
  span_eq : found.span = ⟨start, stop⟩
  /-- The text of the literal is what the source has there. -/
  slice?_eq : found.span.slice? text = some found.text
  /-- One literal is true. -/
  asBool_eq_true_iff : found.asBool = some true ↔ found.text = "true".toList
  /-- One literal is false. -/
  asBool_eq_false_iff : found.asBool = some false ↔ found.text = "false".toList
  /-- No other has a truth value. -/
  asBool_eq_none_iff :
    found.asBool = none ↔ found.text ≠ "true".toList ∧ found.text ≠ "false".toList

theorem describes_of_value_literal {found : Literal} (h : (literal.run c).value = some found) :
    found.Describes c.text c.position (literal.run c).cursor.position := by
  obtain ⟨hvalue, hcursor, hspan⟩ := value_literalOf_of_value_literal h
  obtain ⟨r, -, hcut⟩ := LiteralKind.cuts_of_value h
  have hslice : found.span.slice? c.text = some found.text := by
    rw [hspan, hcursor]
    exact ((settles_literalOf found.kind).reads hvalue).slice?_eq
  have hne : found.text ≠ [] := by
    obtain ⟨ch, t, hm, -⟩ := hcut.ofFirst?
    exact hm ▸ List.cons_ne_nil ch t
  have hbool := Literal.asBool_eq_some_iff hcut
  refine ⟨hne, hspan, hslice, hbool true, hbool false, ?_⟩
  rw [Option.eq_none_iff_forall_ne_some, Bool.forall_bool, and_comm]
  exact and_congr (not_congr (hbool true)) (not_congr (hbool false))

/-! ### The main result -/

/-- **Literals are classified without regard to order.** At every boundary of
every text: no two kinds match; the kinds may be tried in any order; nothing is
found only where all of them fail; and what is found describes itself. -/
theorem literal_classification_unambiguous (text : Text) (start : Nat) (options : Options)
    (c : Cursor) (hc : Cursor.atOffset? text start options = some c) :
    (∀ kind kind', ((literalOf kind).run c).value.isSome →
      ((literalOf kind').run c).value.isSome → kind = kind') ∧
    (∀ kinds : List LiteralKind, kinds.Perm LiteralKind.all →
      ((literalAmong kinds).run c).value = (literal.run c).value ∧
        ((literalAmong kinds).run c).cursor = (literal.run c).cursor) ∧
    ((literal.run c).value = none ↔ ∀ kind, ((literalOf kind).run c).value = none) ∧
    ∀ found, (literal.run c).value = some found →
      found.Describes text start (literal.run c).cursor.position := by
  obtain ⟨rfl, rfl, rfl⟩ := Cursor.atOffset?_eq_some_iff.mp hc
  exact ⟨fun _ _ => LiteralKind.eq_of_isSome,
    fun _ hperm => run_literalAmong_congr (fun _ => hperm.mem_iff) c,
    value_literal_eq_none_iff, fun _ => describes_of_value_literal⟩

/-- A boolean that goes on as an identifier, with the boundaries of words off,
after a character of two bytes and with the kinds in the opposite order. -/
theorem literal_classification_unambiguous_loose :
    let text := "étrueish".toList
    let options : Options := { wordBoundaries := false }
    let c : Cursor := ⟨['é'], "trueish".toList, options⟩
    let found : Literal := ⟨.boolean, "true".toList, ⟨2, 6⟩⟩
    Cursor.atOffset? text 2 options = some c ∧
      LiteralKind.all.reverse.Perm LiteralKind.all ∧
      (literal.run c).value = some found ∧
      ((literalAmong LiteralKind.all.reverse).run c).value = some found ∧
      found.Describes text 2 (literal.run c).cursor.position := by
  intro text options c found
  have hc : Cursor.atOffset? text 2 options = some c := by decide
  have hperm : LiteralKind.all.reverse.Perm LiteralKind.all := List.reverse_perm _
  have hfound : (literal.run c).value = some found := by decide +kernel
  obtain ⟨-, hsame, -, hdescribes⟩ := literal_classification_unambiguous text 2 options c hc
  exact ⟨hc, hperm, hfound, (hsame _ hperm).1.trans hfound, hdescribes found hfound⟩

end SolidityTokens
