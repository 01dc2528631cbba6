/-!
# Texts and byte offsets

A source text is a list of characters, and every offset into it counts the bytes
of its UTF-8 form. The two only meet on a **boundary**: an offset that is the
size of some prefix of the text. `Text.split?` is the one place where an offset
is turned into a cut of the text, and `Text.split?_eq_some_iff` says that it
cuts at every boundary and nowhere else.
-/

namespace SolidityTokens

/-- A source text, as the list of its characters. -/
abbrev Text := List Char

namespace Text

/-! ### The size of a text -/

/-- The number of bytes of the UTF-8 form of a text. -/
def size : Text → Nat
  | [] => 0
  | ch :: text => ch.utf8Size + size text

@[simp] theorem size_nil : size [] = 0 := rfl

@[simp] theorem size_cons (ch : Char) (text : Text) :
    size (ch :: text) = ch.utf8Size + size text := rfl

@[simp] theorem size_append (front back : Text) :
    size (front ++ back) = size front + size back := by
  induction front with
  | nil => simp
  | cons ch front ih => simp [ih, Nat.add_assoc]

@[simp] theorem size_reverse (text : Text) : size text.reverse = size text := by
  induction text with
  | nil => rfl
  | cons ch text ih => simp [ih, Nat.add_comm]

/-- Every character takes at least one byte, so only the empty text has size
zero. -/
@[simp] theorem size_eq_zero_iff {text : Text} : size text = 0 ↔ text = [] := by
  cases text with
  | nil => simp
  | cons ch text =>
    have := ch.utf8Size_pos
    simp only [size_cons, reduceCtorEq, iff_false]
    omega

/-- Two prefixes of one text that have the same size are the same prefix. -/
theorem append_inj_of_size_eq {front front' back back' : Text}
    (happend : front ++ back = front' ++ back') (hsize : size front = size front') :
    front = front' ∧ back = back' := by
  induction front generalizing front' with
  | nil =>
    obtain rfl : front' = [] := size_eq_zero_iff.1 (by simpa using hsize.symm)
    exact ⟨rfl, by simpa using happend⟩
  | cons ch front ih =>
    cases front' with
    | nil =>
      have := ch.utf8Size_pos
      simp only [size_cons, size_nil] at hsize
      omega
    | cons ch' front' =>
      simp only [List.cons_append, List.cons.injEq] at happend
      obtain ⟨rfl, happend⟩ := happend
      obtain ⟨rfl, rfl⟩ := ih happend (by simpa using hsize)
      exact ⟨rfl, rfl⟩

/-! ### Cutting a text at a byte offset -/

/-- Cuts a text after exactly `offset` bytes. There is no such cut when the
offset lies past the end of the text or inside a character. -/
def split? : Text → Nat → Option (Text × Text)
  | text, 0 => some ([], text)
  | [], _ + 1 => none
  | ch :: text, n + 1 =>
    if ch.utf8Size ≤ n + 1 then
      (split? text (n + 1 - ch.utf8Size)).map fun (front, back) => (ch :: front, back)
    else none

/-- An offset is a boundary of a text when it is the size of one of its
prefixes. -/
def IsBoundary (text : Text) (offset : Nat) : Prop :=
  ∃ front back, text = front ++ back ∧ size front = offset

theorem IsBoundary.le_size {text : Text} {offset : Nat} (h : text.IsBoundary offset) :
    offset ≤ size text := by
  obtain ⟨front, back, rfl, rfl⟩ := h
  rw [size_append]
  exact Nat.le_add_right _ _

/-- **A cut at an offset is the decomposition of the text whose first part has
that size.** -/
theorem split?_eq_some_iff {text front back : Text} {offset : Nat} :
    text.split? offset = some (front, back) ↔ text = front ++ back ∧ size front = offset := by
  fun_induction split? text offset generalizing front back with
  | case1 text =>
    simp only [Option.some.injEq, Prod.mk.injEq, size_eq_zero_iff]
    constructor
    · rintro ⟨rfl, rfl⟩; simp
    · rintro ⟨rfl, rfl⟩; simp
  | case2 n => simp; rintro rfl; simp
  | case3 ch text n hle ih =>
    simp only [Option.map_eq_some_iff, Prod.mk.injEq, Prod.exists]
    constructor
    · rintro ⟨front, back, hsplit, rfl, rfl⟩
      obtain ⟨rfl, hsize⟩ := ih.1 hsplit
      exact ⟨rfl, by simp only [size_cons]; omega⟩
    · rintro ⟨happend, hsize⟩
      cases front with
      | nil => simp at hsize
      | cons ch' front =>
        simp only [List.cons_append, List.cons.injEq] at happend
        obtain ⟨rfl, rfl⟩ := happend
        refine ⟨front, back, ih.2 ⟨rfl, ?_⟩, rfl, rfl⟩
        simp only [size_cons] at hsize
        omega
  | case4 ch text n hlt =>
    simp only [reduceCtorEq, false_iff]
    rintro ⟨happend, hsize⟩
    cases front with
    | nil => simp at hsize
    | cons ch' front =>
      simp only [List.cons_append, List.cons.injEq] at happend
      obtain ⟨rfl, rfl⟩ := happend
      simp only [size_cons] at hsize
      omega

theorem split?_isSome_iff {text : Text} {offset : Nat} :
    (text.split? offset).isSome ↔ IsBoundary text offset := by
  simp only [Option.isSome_iff_exists, Prod.exists, split?_eq_some_iff, IsBoundary]

end Text

end SolidityTokens
