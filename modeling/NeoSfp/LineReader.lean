import NeoSfp.Bytes

/-!
# The line reader

`neo_read_line` takes characters from the backend until a line ends, the buffer is
full or the backend has none left. What it leaves in the stream is what its next
call begins with, so a call returns the rest of its input. On the UART backend
there is no end of the stream: a call that asks for more than has been received
blocks, which is the case reported here as `eof`.
-/

namespace NeoSfp

/-- The locals of the loop: `n`, the buffer, and what has been echoed. -/
structure LineState where
  n : Nat := 0
  buf : Memory
  echoed : List UInt8 := []

/-- What one call leaves behind. -/
structure LineRead where
  n : Nat
  buf : Option Memory
  rest : List UInt8
  echoed : List UInt8
  eof : Bool

/-- Echo some characters, if there is an echo. -/
def LineState.put (echo : Bool) (chars : List UInt8) (s : LineState) : LineState :=
  if echo then { s with echoed := s.echoed ++ chars } else s

/-- CR and LF end a line. -/
def endsLine (c : UInt8) : Bool := c == '\r' || c == '\n'

/-- A newline ends a line. -/
theorem endsLine_lf : endsLine '\n' = true := rfl

/-- A carriage return ends a line as well. -/
theorem endsLine_cr : endsLine '\r' = true := rfl

/-- Backspace and DEL. -/
def erases (c : UInt8) : Bool := c == 0x08 || c == 0x7F

/-- The body of the loop for a character that does not end the line. -/
def lineChar (echo : Bool) (c : UInt8) (s : LineState) : LineState :=
  if erases c then
    if s.n > 0 then
      { s with n := s.n - 1 }.put echo [0x08, ' ', 0x08]
    else s
  else
    { s with
      n := s.n + 1
      buf := Function.update s.buf s.n c }.put echo [c]

/-- The loop: its final state, what is left of the input, and whether it met the
end of it. -/
def lineLoop (max : Nat) (echo : Bool) : List UInt8 → LineState → LineState × List UInt8 × Bool
  | [], s => (s, [], s.n + 1 < max)
  | c :: input, s =>
    if s.n + 1 < max then
      if endsLine c then
        (s.put echo ['\n'], input, false)
      else
        lineLoop max echo input (lineChar echo c s)
    else
      (s, c :: input, false)

/-- A call of the line reader: the loop, and a NUL behind what it holds. Without a
buffer or without room for the NUL nothing is read. -/
def neoReadLine (buf : Option Memory) (max : Nat) (echo : Bool) (input : List UInt8) : LineRead :=
  match buf with
  | none => { n := 0, buf := none, rest := input, echoed := [], eof := false }
  | some memory =>
    if max = 0 then
      { n := 0, buf := some memory, rest := input, echoed := [], eof := false }
    else
      let (s, rest, eof) := lineLoop max echo input { buf := memory }
      { n := s.n
        buf := some (Function.update s.buf s.n 0)
        rest := rest
        echoed := s.echoed
        eof := eof }

/-- The UART's line reader, which is the line reader with echo. -/
def neoUartReadLine (buf : Option Memory) (max : Nat) (input : List UInt8) : LineRead :=
  neoReadLine buf max true input

/-- The characters returned, without the NUL. -/
def LineRead.text (r : LineRead) : List UInt8 :=
  match r.buf with
  | some memory => (List.range r.n).map memory
  | none => []

/-- The results of successive calls with one buffer. -/
def readLines (max : Nat) (echo : Bool) : Nat → Option Memory → List UInt8 → List (List UInt8)
  | 0, _, _ => []
  | calls + 1, buf, input =>
    let r := neoReadLine buf max echo input
    r.text :: readLines max echo calls r.buf r.rest

/-! ## Steps of the loop -/

/-- The characters of the line so far. -/
def LineState.held (s : LineState) : List UInt8 := (List.range s.n).map s.buf

/-- An echo does not change the count. -/
@[simp] theorem put_n (echo : Bool) (chars : List UInt8) (s : LineState) :
    (s.put echo chars).n = s.n := by
  unfold LineState.put
  split <;> rfl

/-- An echo does not change the buffer. -/
@[simp] theorem put_buf (echo : Bool) (chars : List UInt8) (s : LineState) :
    (s.put echo chars).buf = s.buf := by
  unfold LineState.put
  split <;> rfl

/-- An echo does not change the line. -/
@[simp] theorem put_held (echo : Bool) (chars : List UInt8) (s : LineState) :
    (s.put echo chars).held = s.held := by
  simp [LineState.held]

/-- The line is as long as the count says. -/
@[simp] theorem held_length (s : LineState) : s.held.length = s.n := by
  simp [LineState.held]

/-- Storing at `i` leaves the places in front of it as they were. -/
theorem range_update (memory : Memory) (i : Nat) (c : UInt8) :
    (List.range i).map (Function.update memory i c) = (List.range i).map memory := by
  apply List.map_congr_left
  intro k inside
  have before : k < i := List.mem_range.mp inside
  exact Function.update_of_ne (Nat.ne_of_lt before) c memory

/-- A stored character is appended to those held, and counted. -/
theorem lineChar_stores (echo : Bool) (c : UInt8) (s : LineState) (stores : erases c = false) :
    (lineChar echo c s).held = s.held ++ [c] := by
  have stored : lineChar echo c s =
      LineState.put echo [c] { s with n := s.n + 1, buf := Function.update s.buf s.n c } := by
    simp [lineChar, stores]
  rw [stored, put_held]
  simp only [LineState.held, List.range_succ, List.map_append, List.map_singleton,
    Function.update_self, range_update]

/-- An erasing character drops the last of those held, if there is one. -/
theorem lineChar_erases (echo : Bool) (c : UInt8) (s : LineState) (drops : erases c = true) :
    (lineChar echo c s).held = s.held.dropLast := by
  simp only [lineChar, drops, if_true]
  split
  next positive =>
    rw [put_held]
    simp only [LineState.held]
    obtain ⟨m, size⟩ : ∃ m, s.n = m + 1 := ⟨s.n - 1, by omega⟩
    rw [size, Nat.add_sub_cancel, List.range_succ, List.map_append, List.map_singleton,
      List.dropLast_concat]
  next empty =>
    have zero : s.n = 0 := by omega
    simp [LineState.held, zero]

/-- The text of a call is what its loop holds at the end. -/
theorem neoReadLine_text (memory : Memory) (max : Nat) (echo : Bool) (input : List UInt8)
    (positive : 0 < max) :
    (neoReadLine (some memory) max echo input).text =
      (lineLoop max echo input { buf := memory }).1.held := by
  simp only [neoReadLine, if_neg (Nat.ne_of_gt positive), LineRead.text, LineState.held,
    range_update]

/-- A backspace takes back one character. -/
example : (neoReadLine (some fun _ => 0) 8 false (bytes "ac" ++ 0x08 :: bytes "b\n")).text =
    bytes "ab" := by
  decide

end NeoSfp
