import SolidityTokens.Recognizer.Character
import SolidityTokens.Recognizer.Repetition

/-!
# How recognizers move the cursor

Two properties of a recognizer, and how the combinators turn the weaker one into
the stronger.

* A recognizer is **forward** (`SolidityTokens.Recognizer.Forward`) when it
  stays on its text and never moves the cursor back. It may fail after reading
  something, and then it leaves that read.
* A recognizer **settles** (`SolidityTokens.Recognizer.Settles`) when its answer
  accounts for the move: it answers with the text between the old and the new
  place, and where it fails the two places are the same.

Everything that gives input back settles as soon as its body is forward,
whatever the body leaves behind when it fails. For `many` the reason is a
different one: it keeps what the last run left, but it also answers with it.

Both are statements about places, made by `SolidityTokens.Cursor.Reads`, which
says that reading a text leads from one cursor to another. Options play no part
in it: giving input back restores the place and not the options.
-/

namespace SolidityTokens

namespace Cursor

/-! ### Reading a text leads from one place to another -/

/-- **Reading `m` leads from the place of `c` to that of `d`.** -/
structure Reads (c : Cursor) (m : Text) (d : Cursor) : Prop where
  /-- The text `m` comes next at `c`, and what is left at `d` comes after it. -/
  rest_eq : c.rest = m ++ d.rest
  /-- At `d` the text `m` has been read. -/
  read_eq : d.read = m.reverse ++ c.read

namespace Reads

variable {c d e : Cursor} {m n : Text}

theorem refl (c : Cursor) : c.Reads [] c := ⟨rfl, rfl⟩

theorem trans (h : c.Reads m d) (h' : d.Reads n e) : c.Reads (m ++ n) e where
  rest_eq := by rw [h.rest_eq, h'.rest_eq, List.append_assoc]
  read_eq := by rw [h'.read_eq, h.read_eq, List.reverse_append, List.append_assoc]

theorem advance (c : Cursor) (n : Nat) : c.Reads (c.rest.take n) (c.advance n) :=
  ⟨(List.take_append_drop n c.rest).symm, rfl⟩

/-- Going back to a place is reading nothing from there. -/
theorem rewindTo (c d : Cursor) : c.Reads [] (d.rewindTo c) := ⟨rfl, rfl⟩

theorem text_eq (h : c.Reads m d) : d.text = c.text := by
  rw [Cursor.text, Cursor.text, h.read_eq, h.rest_eq]
  simp

theorem position_eq (h : c.Reads m d) : d.position = c.position + Text.size m := by
  rw [position, position, h.read_eq, Text.size_append, Text.size_reverse, Nat.add_comm]

theorem position_le (h : c.Reads m d) : c.position ≤ d.position := by
  rw [h.position_eq]
  exact Nat.le_add_right _ _

theorem textSince_eq (h : c.Reads m d) : d.textSince c = m := by
  rw [textSince, h.rest_eq, List.length_append, Nat.add_sub_cancel, List.take_left]

/-- The bytes between the two places are those of the text that was read. -/
theorem slice?_eq (h : c.Reads m d) : Span.slice? ⟨c.position, d.position⟩ c.text = some m := by
  refine Span.slice?_eq_some_iff.mpr ⟨c.read.reverse, d.rest, ?_, ?_, ?_⟩
  · rw [Cursor.text, h.rest_eq, List.append_assoc]
  · exact Text.size_reverse c.read
  · rw [Text.size_append, Text.size_reverse, h.position_eq, position]

/-- Less text is left exactly when something was read. -/
theorem length_rest_lt_iff (h : c.Reads m d) : d.rest.length < c.rest.length ↔ m ≠ [] := by
  rw [h.rest_eq, List.length_append, ← List.length_pos_iff]
  omega

/-- The place moved exactly when something was read. -/
theorem position_ne_iff (h : c.Reads m d) : d.position ≠ c.position ↔ m ≠ [] := by
  rw [h.position_eq, Ne, Nat.add_eq_left, Text.size_eq_zero_iff]

end Reads

/-- **Two places of one text are connected by reading**, from the one with the
smaller byte offset. -/
theorem exists_reads {c d : Cursor} (htext : d.text = c.text) (hle : c.position ≤ d.position) :
    ∃ m, c.Reads m d := by
  -- The shorter of the two parts already read is a prefix of the longer one.
  rcases List.append_eq_append_iff.mp htext with ⟨m, hread, hrest⟩ | ⟨m, hread, hrest⟩
  · have hsize := congrArg Text.size hread
    rw [Text.size_append, Text.size_reverse, Text.size_reverse] at hsize
    have hm : m = [] := by
      rw [← Text.size_eq_zero_iff]
      rw [position, position] at hle
      omega
    subst hm
    refine ⟨[], hrest.symm, ?_⟩
    simpa using hread.symm
  · refine ⟨m, hrest, ?_⟩
    rw [← List.reverse_reverse d.read, hread, List.reverse_append, List.reverse_reverse]

end Cursor

namespace Recognizer

variable {α β : Type}

/-! ### Forward recognizers -/

/-- **A recognizer is forward** when it stays on its text and never moves
back. -/
def Forward (f : Recognizer α) : Prop :=
  ∀ c, (f.run c).cursor.text = c.text ∧ c.position ≤ (f.run c).cursor.position

theorem forward_iff_exists_reads {f : Recognizer α} :
    Forward f ↔ ∀ c : Cursor, ∃ m, c.Reads m (f.run c).cursor := by
  refine forall_congr' fun c => ⟨fun h => Cursor.exists_reads h.1 h.2, ?_⟩
  rintro ⟨m, hm⟩
  exact ⟨hm.text_eq, hm.position_le⟩

theorem Forward.bind {f : Recognizer α} {g : α → Recognizer β} (hf : Forward f)
    (hg : ∀ a, Forward (g a)) : Forward (f >>= g) := by
  rw [forward_iff_exists_reads] at hf ⊢
  intro c
  obtain ⟨m, hm⟩ := hf c
  rw [run_bind]
  cases (f.run c).value with
  | none => exact ⟨m, hm⟩
  | some a =>
    obtain ⟨n, hn⟩ := forward_iff_exists_reads.mp (hg a) (f.run c).cursor
    exact ⟨m ++ n, hm.trans hn⟩

theorem forward_pure (a : α) : Forward (pure a : Recognizer α) := fun _ => ⟨rfl, Nat.le_refl _⟩

theorem Forward.inTurn {f : Recognizer α} (hf : Forward f) (n : Nat) : Forward (inTurn f n) := by
  induction n with
  | zero => exact forward_pure ()
  | succ n ih => exact hf.bind fun _ => ih

/-- **What every run of the body does to the cursor, the loop does as well**, if
doing it twice is a way of doing it. -/
theorem finalCursor_runs_of_step {R : Cursor → Cursor → Prop}
    (htrans : ∀ {c d e}, R c d → R d e → R c e) {f : Recognizer α}
    (hstep : ∀ c, R c (f.run c).cursor) (c : Cursor) :
    R c (finalCursor c (runs f c)) := by
  fun_induction runs f c with
  | case1 c outcome hgo ih => exact htrans (hstep c) ih
  | case2 c outcome hstop => exact hstep c

/-! ### Recognizers that account for their moves -/

/-- **A recognizer settles** when it reads exactly the text it answers with,
which is no text at all when it fails. -/
def Settles (f : Recognizer Text) : Prop :=
  ∀ c : Cursor, c.Reads ((f.run c).value.getD []) (f.run c).cursor

theorem Settles.forward {f : Recognizer Text} (hf : Settles f) : Forward f :=
  forward_iff_exists_reads.mpr fun c => ⟨_, hf c⟩

theorem Settles.reads {f : Recognizer Text} (hf : Settles f) {c : Cursor} {m : Text}
    (h : (f.run c).value = some m) : c.Reads m (f.run c).cursor := by
  have hreads := hf c
  rwa [h] at hreads

theorem Settles.reads_nil {f : Recognizer Text} (hf : Settles f) {c : Cursor}
    (h : (f.run c).value = none) : c.Reads [] (f.run c).cursor := by
  have hreads := hf c
  rwa [h] at hreads

theorem settles_satisfy (p : Char → Bool) : Settles (satisfy p) := by
  intro c
  cases hrest : c.rest with
  | nil =>
    rw [run_satisfy_nil p c hrest]
    exact .refl c
  | cons ch rest =>
    rw [run_satisfy_cons p c hrest]
    by_cases hp : p ch
    · have hreads := Cursor.Reads.advance c 1
      rw [hrest] at hreads
      rw [if_pos hp]
      exact hreads
    · rw [if_neg hp]
      exact .refl c

theorem settles_pure_nil : Settles (pure []) := fun c => .refl c

theorem settles_failure : Settles failure := fun c => .refl c

/-- **A body run as a unit settles**, whatever it leaves read when it fails. -/
theorem Forward.settles_atomic {f : Recognizer α} (hf : Forward f) : Settles (atomic f) := by
  intro c
  obtain ⟨m, hm⟩ := forward_iff_exists_reads.mp hf c
  rw [run_atomic]
  cases (f.run c).value with
  | none => exact .rewindTo c _
  | some a =>
    change c.Reads ((f.run c).cursor.textSince c) (f.run c).cursor
    rw [hm.textSince_eq]
    exact hm

theorem Settles.orElse {f g : Recognizer Text} (hf : Settles f) (hg : Settles g) :
    Settles (f <|> g) := by
  intro c
  rw [run_orElse]
  cases hvalue : (f.run c).value with
  | none => exact (hf.reads_nil hvalue).trans (hg (f.run c).cursor)
  | some m =>
    change c.Reads ((f.run c).value.getD []) (f.run c).cursor
    exact hf c

theorem Forward.settles_optionally {f : Recognizer α} (hf : Forward f) :
    Settles (optionally f) :=
  hf.settles_atomic.orElse settles_pure_nil

theorem Forward.settles_times {f : Recognizer α} (hf : Forward f) (n : Nat) :
    Settles (times n f) :=
  (hf.inTurn n).settles_atomic

/-- **A loop settles too**: what its last run left read is part of its
answer. -/
theorem Forward.settles_many {f : Recognizer α} (hf : Forward f) : Settles (many f) := by
  intro c
  rw [forward_iff_exists_reads] at hf
  -- The last run counts too: what it left read is read.
  obtain ⟨m, hm⟩ : ∃ m, c.Reads m (finalCursor c (runs f c)) := by
    refine finalCursor_runs_of_step (R := fun c d => ∃ m, c.Reads m d) ?_ hf c
    rintro c d e ⟨m, hm⟩ ⟨n, hn⟩
    exact ⟨m ++ n, hm.trans hn⟩
  rw [run_many]
  change c.Reads ((finalCursor c (runs f c)).textSince c) (finalCursor c (runs f c))
  rw [hm.textSince_eq]
  exact hm

theorem Forward.settles_many1 {f : Recognizer α} (hf : Forward f) : Settles (many1 f) :=
  (hf.bind fun _ => hf.settles_many.forward).settles_atomic

theorem settles_firstOf {fs : List (Recognizer Text)} (hfs : ∀ f ∈ fs, Settles f) :
    Settles (firstOf fs) := by
  induction fs with
  | nil => exact settles_failure
  | cons f fs ih =>
    have hf : Settles f := hfs f List.mem_cons_self
    exact hf.orElse (ih fun g hg => hfs g (List.mem_cons_of_mem f hg))

theorem settles_choice {fs : List (Recognizer α)} (hfs : ∀ f ∈ fs, Forward f) :
    Settles (choice fs) := by
  refine settles_firstOf fun g hg => ?_
  obtain ⟨f, hf, rfl⟩ := List.mem_map.mp hg
  exact (hfs f hf).settles_atomic

end Recognizer

end SolidityTokens
