import NeoSfp.LineEditing

/-!
# What the user sees

A terminal is a row of cells with a cursor, without an end in either direction. A
character overwrites the cell under the cursor and moves it on; a backspace moves it
back and erases nothing. While a line is typed with echo, the row shows the line.
-/

namespace NeoSfp

/-! ## The terminal -/

/-- The row of cells and the place of the cursor. -/
structure Terminal where
  cells : Int → UInt8
  cursor : Int

/-- An empty cell. -/
def blankCell : UInt8 := ' '

/-- The printable characters, the blank among them. -/
def isPrintable (c : UInt8) : Bool := 0x20 ≤ c && c ≤ 0x7E

/-- The terminal behind one more character. -/
def Terminal.show (t : Terminal) (c : UInt8) : Terminal :=
  if c = 0x08 then { t with cursor := t.cursor - 1 }
  else if isPrintable c then { cells := Function.update t.cells t.cursor c, cursor := t.cursor + 1 }
  else t

/-- The terminal behind characters shown one after the other. -/
def Terminal.shows (t : Terminal) (chars : List UInt8) : Terminal := chars.foldl Terminal.show t

/-- A terminal whose cursor stands at `start`, behind a prompt and in front of
nothing. -/
def Terminal.prompt (cells : Int → UInt8) (start : Int) : Terminal where
  cells := fun x => if x < start then cells x else blankCell
  cursor := start

/-- Characters shown in two parts are shown one after the other. -/
theorem shows_append (t : Terminal) (first second : List UInt8) :
    t.shows (first ++ second) = (t.shows first).shows second := by
  rw [Terminal.shows, List.foldl_append]
  rfl

/-- A character the user may type: a printable one, or one that erases. -/
def Typeable (c : UInt8) : Prop := isPrintable c = true ∨ erases c = true

/-- The terminal shows these characters from `start` on and nothing behind them; in
front of them it is unchanged. -/
structure Displays (t : Terminal) (cells : Int → UInt8) (start : Int) (n : Nat) (buf : Memory) : Prop
    where
  cursor : t.cursor = start + n
  line : ∀ i < n, t.cells (start + i) = buf i
  behind : ∀ x, start + n ≤ x → t.cells x = blankCell
  before : ∀ x < start, t.cells x = cells x

section

variable {t : Terminal} {cells : Int → UInt8} {start : Int} {n : Nat} {buf : Memory}

/-- Behind its prompt the terminal shows an empty line. -/
theorem displays_prompt (cells : Int → UInt8) (start : Int) (buf : Memory) :
    Displays (.prompt cells start) cells start 0 buf where
  cursor := by simp [Terminal.prompt]
  line := fun i inside => absurd inside (Nat.not_lt_zero i)
  behind := by
    intro x right
    have outside : ¬ x < start := by omega
    simp [Terminal.prompt, outside]
  before := by
    intro x left
    simp [Terminal.prompt, left]

/-- A printable character is shown behind the line, where the cursor stands, and moves
the cursor on. -/
theorem displays_char (displays : Displays t cells start n buf) (c : UInt8) (other : c ≠ 0x08)
    (printable : isPrintable c = true) : Displays (t.show c) cells start (n + 1) (Function.update buf n c) := by
  have place := displays.cursor
  have shown : t.show c = ⟨Function.update t.cells t.cursor c, t.cursor + 1⟩ := by
    rw [Terminal.show, if_neg other, if_pos printable]
  rw [shown]
  refine
    { cursor := ?_
      line := ?_
      behind := ?_
      before := ?_ }
  · simp only
    omega
  · intro i inside
    by_cases last : i = n
    · simp only [last, ← place, Function.update_self]
    · have here : start + (i : Int) ≠ t.cursor := by omega
      simp only [Function.update_of_ne here, Function.update_of_ne last]
      exact displays.line i (by omega)
  · intro x right
    have here : x ≠ t.cursor := by omega
    simp only [Function.update_of_ne here]
    exact displays.behind x (by omega)
  · intro x left
    have here : x ≠ t.cursor := by omega
    simp only [Function.update_of_ne here]
    exact displays.before x left

/-- A backspace, a blank and a backspace take the last character off the line. -/
theorem displays_erase (displays : Displays t cells start (n + 1) buf) :
    Displays (t.shows [0x08, blankCell, 0x08]) cells start n buf := by
  have place := displays.cursor
  have blank : blankCell ≠ 0x08 ∧ isPrintable blankCell = true := by decide
  have erased : t.shows [0x08, blankCell, 0x08] =
      ⟨Function.update t.cells (t.cursor - 1) blankCell, t.cursor - 1⟩ := by
    simp [Terminal.shows, Terminal.show, blank]
  rw [erased]
  refine
    { cursor := ?_
      line := ?_
      behind := ?_
      before := ?_ }
  · simp only
    omega
  · intro i inside
    have here : start + (i : Int) ≠ t.cursor - 1 := by omega
    simp only [Function.update_of_ne here]
    exact displays.line i (by omega)
  · intro x right
    by_cases last : x = t.cursor - 1
    · simp only [last, Function.update_self]
    · simp only [Function.update_of_ne last]
      exact displays.behind x (by omega)
  · intro x left
    have here : x ≠ t.cursor - 1 := by omega
    simp only [Function.update_of_ne here]
    exact displays.before x left

end

/-! ## Typing -/

/-- The terminal behind what the loop has echoed so far. -/
def LineState.screen (s : LineState) (cells : Int → UInt8) (start : Int) : Terminal :=
  (Terminal.prompt cells start).shows s.echoed

/-- One character, stored or erased, keeps the display, because its echo does to the row
what it does to the buffer. -/
theorem lineChar_displays {s : LineState} {cells : Int → UInt8} {start : Int} (c : UInt8)
    (typeable : Typeable c) (displays : Displays (s.screen cells start) cells start s.n s.buf) :
    Displays ((lineChar true c s).screen cells start) cells start (lineChar true c s).n
      (lineChar true c s).buf := by
  unfold lineChar
  cases kind : erases c with
  | true =>
    by_cases some : s.n > 0
    · obtain ⟨m, size⟩ : ∃ m, s.n = m + 1 := ⟨s.n - 1, by omega⟩
      simp only [if_true, some, LineState.put, LineState.screen, shows_append]
      rw [size] at displays ⊢
      exact displays_erase displays
    · simp only [if_true, some, if_false]
      exact displays
  | false =>
    have other : c ≠ 0x08 := by
      rintro rfl
      exact absurd kind (by decide)
    have printable : isPrintable c = true := by
      rcases typeable with printable | erasing
      · exact printable
      · rw [kind] at erasing
        simp at erasing
    simp only [Bool.false_eq_true, if_false, LineState.put, if_true, LineState.screen, shows_append]
    exact displays_char displays c other printable

/-- Characters processed with echo keep the display. By induction on them. -/
theorem typed_displays {max : Nat} {memory : Memory} {p : List UInt8} {s : LineState}
    (typed : Typed max true { buf := memory } p s) (typeable : ∀ c ∈ p, Typeable c)
    (cells : Int → UInt8) (start : Int) :
    Displays (s.screen cells start) cells start s.n s.buf := by
  induction typed with
  | none => exact displays_prompt cells start memory
  | char c typed room continues ih =>
    have before := ih fun d member => typeable d (List.mem_append_left _ member)
    exact lineChar_displays c (typeable c (by simp)) before

/-- Nothing that may be typed here ends the line. -/
theorem typeable_continues {c : UInt8} (typeable : Typeable c) : endsLine c = false := by
  rw [← Bool.not_eq_true]
  intro ends
  simp only [endsLine, Bool.or_eq_true, beq_iff_eq] at ends
  rcases ends with rfl | rfl
  · simp [Typeable, isPrintable, erases, byte] at typeable
  · simp [Typeable, isPrintable, erases, byte] at typeable

/-- Of what the user types, a call processes the part in front of what it leaves. -/
theorem neoReadLine_typed (max : Nat) (memory : Memory) (input : List UInt8)
    (typeable : ∀ c ∈ input, Typeable c) :
    ∃ taken s, input = taken ++ (neoReadLine (some memory) max true input).rest ∧
      Typed max true { buf := memory } taken s := by
  by_cases zero : max = 0
  · exact ⟨[], _, by simp [neoReadLine, zero], .none⟩
  · obtain ⟨p, s, left, split, typed, ended⟩ :=
      lineLoop_typed (.none : Typed max true { buf := memory } [] _) input
    rw [List.nil_append] at typed
    refine ⟨p, s, ?_, typed⟩
    simp only [neoReadLine, if_neg zero]
    generalize lineLoop max true input { buf := memory } = out at ended
    cases ended with
    | eof => exact split
    | full _ full => exact split
    | line c rest room ends =>
      have member : c ∈ input := by simp [split]
      rw [typeable_continues (typeable c member)] at ends
      simp at ends

/-- While the user types characters and erases them, the terminal shows after every
character processed what is stored in front of `n`, and nothing behind it. Each
character's echo does to the row of the terminal what the character does to the
buffer. -/
theorem neoReadLine_screen (max : Nat) (memory : Memory) (cells : Int → UInt8) (start : Int)
    (input : List UInt8) (typeable : ∀ c ∈ input, Typeable c) :
    ∃ taken, input = taken ++ (neoReadLine (some memory) max true input).rest ∧
      ∀ p, p <+: taken → ∃ s,
        (∀ rest, lineLoop max true (p ++ rest) { buf := memory } = lineLoop max true rest s) ∧
        Displays (s.screen cells start) cells start s.n s.buf := by
  obtain ⟨taken, last, split, typed⟩ := neoReadLine_typed max memory input typeable
  refine ⟨taken, split, ?_⟩
  intro p part
  obtain ⟨s, typed⟩ := typed_prefix typed p part
  refine ⟨s, typed_loop typed, typed_displays typed ?_ cells start⟩
  intro c member
  apply typeable
  rw [split]
  exact List.mem_append_left _ (part.subset member)

/-- Two characters typed, and the second one erased. -/
theorem neoReadLine_screen_erased : ∃ taken,
    [byte 'a', byte 'b', 0x7F] =
        taken ++ (neoReadLine (some fun _ => 0) 8 true [byte 'a', byte 'b', 0x7F]).rest ∧
      ∀ p, p <+: taken → ∃ s,
        (∀ rest, lineLoop 8 true (p ++ rest) { buf := fun _ => 0 } = lineLoop 8 true rest s) ∧
        Displays (s.screen (fun _ => '>') 2) (fun _ => '>') 2 s.n s.buf :=
  neoReadLine_screen 8 _ (fun _ => '>') 2 [byte 'a', byte 'b', 0x7F]
    (by simp [Typeable, isPrintable, erases, byte])

end NeoSfp
