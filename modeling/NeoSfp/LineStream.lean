import NeoSfp.LineReader

/-!
# Successive lines of a stream

A call that finds room for a whole line takes it with its terminator. One that
fills its buffer first stops there and looks no further, so whatever it has not
taken begins the next call's line. No character is lost in either case: the calls
return, one after the other, every character of the stream that ends no line.
-/

namespace NeoSfp

/-- A line of a stream without editing characters, and the character that ends it. -/
structure InputLine where
  text : List UInt8
  ending : UInt8
  plain : ∀ c ∈ text, endsLine c = false ∧ erases c = false
  ends : endsLine ending = true

/-- The stream made of lines. -/
def stream (lines : List InputLine) : List UInt8 :=
  lines.flatMap fun line => line.text ++ [line.ending]

/-- No lines make an empty stream. -/
@[simp] theorem stream_nil : stream [] = [] := rfl

/-- A line stands in front of the stream of the others, with its terminator. -/
@[simp] theorem stream_cons (line : InputLine) (lines : List InputLine) :
    stream (line :: lines) = line.text ++ line.ending :: stream lines := by
  simp [stream]

/-! ## Runs of the loop -/

section

variable (max : Nat) (echo : Bool)

/-- Characters that neither end nor edit the line are stored while there is room. -/
theorem lineLoop_plain (text rest : List UInt8) (s : LineState)
    (plain : ∀ c ∈ text, endsLine c = false ∧ erases c = false) (room : s.n + text.length < max) :
    ∃ s', s'.held = s.held ++ text ∧
      lineLoop max echo (text ++ rest) s = lineLoop max echo rest s' := by
  induction text generalizing s with
  | nil => exact ⟨s, by simp, rfl⟩
  | cons c text ih =>
    obtain ⟨continues, stores⟩ := plain c List.mem_cons_self
    have held := lineChar_stores echo c s stores
    have count : (lineChar echo c s).n = s.n + 1 := by
      rw [← held_length, held, List.length_append, held_length, List.length_singleton]
    rw [List.length_cons] at room
    obtain ⟨s', held', same⟩ := ih (lineChar echo c s)
      (fun d member => plain d (List.mem_cons_of_mem c member)) (by omega)
    refine ⟨s', ?_, ?_⟩
    · rw [held', held, List.append_assoc, List.singleton_append]
    · have free : s.n + 1 < max := by omega
      rw [List.cons_append, lineLoop, if_pos free, continues]
      exact same

/-- A terminator ends the loop where there is room, and only its echo is left behind. -/
theorem lineLoop_ends (c : UInt8) (rest : List UInt8) (s : LineState) (ends : endsLine c = true)
    (room : s.n + 1 < max) :
    lineLoop max echo (c :: rest) s = (s.put echo ['\n'], rest, false) := by
  rw [lineLoop, if_pos room, if_pos ends]

/-- A full buffer ends the loop before it asks for a character, so the stream keeps
it. -/
theorem lineLoop_full (input : List UInt8) (s : LineState) (full : ¬ s.n + 1 < max) :
    lineLoop max echo input s = (s, input, false) := by
  cases input with
  | nil => simp [lineLoop, full]
  | cons c input => rw [lineLoop, if_neg full]

end

/-! ## Single calls -/

/-- A call that returned these characters, terminated them in the buffer, and left
this rest of the stream. -/
structure Returns (r : LineRead) (text rest : List UInt8) : Prop where
  n : r.n = text.length
  result : r.text = text
  left : r.rest = rest
  buf : ∃ memory, r.buf = some memory ∧ (List.range text.length).map memory = text ∧
    memory text.length = 0
  received : r.eof = false

section

variable (max : Nat) (echo : Bool) (memory : Memory)

/-- A call returns what its loop holds, terminated by a NUL behind it. -/
theorem neoReadLine_returns {input text rest : List UInt8} {s : LineState} (positive : 0 < max)
    (loop : lineLoop max echo input { buf := memory } = (s, rest, false)) (held : s.held = text) :
    Returns (neoReadLine (some memory) max echo input) text rest := by
  have nonzero : max ≠ 0 := Nat.ne_of_gt positive
  have count : s.n = text.length := by rw [← held, held_length]
  refine
    { n := ?_
      result := ?_
      left := ?_
      buf := ?_
      received := ?_ }
  · simp [neoReadLine, nonzero, loop, count]
  · rw [neoReadLine_text memory max echo input positive, loop, held]
  · simp [neoReadLine, nonzero, loop]
  · refine ⟨Function.update s.buf s.n 0, by simp [neoReadLine, nonzero, loop], ?_, ?_⟩
    · rw [← count, range_update]
      exact held
    · rw [← count, Function.update_self]
  · simp [neoReadLine, nonzero, loop]

/-- A line that leaves a place free is taken with its terminator, and the rest of the
stream is left. -/
theorem neoReadLine_line (line : InputLine) (rest : List UInt8) (fits : line.text.length + 1 < max) :
    Returns (neoReadLine (some memory) max echo (line.text ++ line.ending :: rest)) line.text rest := by
  have start : ({ buf := memory } : LineState).held = [] := rfl
  obtain ⟨s, held, loop⟩ := lineLoop_plain max echo line.text
    (line.ending :: rest) { buf := memory } line.plain (by simp only [Nat.zero_add]; omega)
  rw [start, List.nil_append] at held
  have count : s.n = line.text.length := by rw [← held_length, held]
  rw [lineLoop_ends max echo line.ending rest s line.ends (by omega)] at loop
  apply neoReadLine_returns max echo memory (by omega) loop
  rw [put_held, held]

/-- Characters that fill the buffer are taken, and nothing behind them, not even a
terminator that follows. -/
theorem neoReadLine_full (text rest : List UInt8)
    (plain : ∀ c ∈ text, endsLine c = false ∧ erases c = false) (fills : text.length + 1 = max) :
    Returns (neoReadLine (some memory) max echo (text ++ rest)) text rest := by
  have start : ({ buf := memory } : LineState).held = [] := rfl
  obtain ⟨s, held, loop⟩ := lineLoop_plain max echo text rest { buf := memory }
    plain (by simp only [Nat.zero_add]; omega)
  rw [start, List.nil_append] at held
  have count : s.n = text.length := by rw [← held_length, held]
  rw [lineLoop_full max echo rest s (by omega)] at loop
  exact neoReadLine_returns max echo memory (by omega) loop held

end

/-! ## Nothing is lost -/

/-- The characters of a stream that end no line. -/
def contents (input : List UInt8) : List UInt8 := input.filter fun c => !endsLine c

/-- The contents of a stream of lines are the texts of the lines. By induction on the
lines. -/
theorem contents_stream (lines : List InputLine) :
    contents (stream lines) = lines.flatMap InputLine.text := by
  induction lines with
  | nil => rfl
  | cons line lines ih =>
    have whole : contents line.text = line.text := by
      apply List.filter_eq_self.mpr
      intro c member
      simp [(line.plain c member).1]
    have dropped : contents (line.ending :: stream lines) = contents (stream lines) := by
      simp [contents, line.ends]
    rw [stream_cons, contents, List.filter_append, ← contents, ← contents, whole, dropped, ih,
      List.flatMap_cons]

/-- No character of the stream edits a line. -/
def Unedited (input : List UInt8) : Prop := ∀ c ∈ input, endsLine c = false → erases c = false

/-- A stream made of such lines holds no editing characters. -/
theorem stream_unedited (lines : List InputLine) : Unedited (stream lines) := by
  intro c member continues
  obtain ⟨line, -, inside⟩ := List.mem_flatMap.mp member
  rcases List.mem_append.mp inside with text | ending
  · exact (line.plain c text).2
  · rw [List.mem_singleton.mp ending, line.ends] at continues
    simp at continues

/-- What the loop leaves is the end of what it was given. By induction on the stream. -/
theorem lineLoop_suffix (max : Nat) (echo : Bool) (input : List UInt8) (s : LineState) :
    (lineLoop max echo input s).2.1 <:+ input := by
  induction input generalizing s with
  | nil => exact List.suffix_rfl
  | cons c input ih =>
    rw [lineLoop]
    split
    · split
      · exact List.suffix_cons c input
      · exact (ih _).trans (List.suffix_cons c input)
    · exact List.suffix_rfl

/-- With room for a character, a call takes one of a stream that has any. -/
theorem lineLoop_progress (max : Nat) (echo : Bool) (c : UInt8) (input : List UInt8)
    (s : LineState) (room : s.n + 1 < max) :
    (lineLoop max echo (c :: input) s).2.1 <:+ input := by
  rw [lineLoop, if_pos room]
  split
  · exact List.suffix_rfl
  · exact lineLoop_suffix max echo input _

/-- What the loop takes and what it leaves make up what it was given. -/
theorem lineLoop_contents (max : Nat) (echo : Bool) (input : List UInt8) (s : LineState)
    (unedited : Unedited input) :
    (lineLoop max echo input s).1.held ++ contents (lineLoop max echo input s).2.1 =
      s.held ++ contents input := by
  induction input generalizing s with
  | nil => rfl
  | cons c input ih =>
    by_cases room : s.n + 1 < max
    · cases ending : endsLine c with
      | true =>
        rw [lineLoop_ends max echo c input s ending room, put_held]
        simp [contents, ending]
      | false =>
        have stores := unedited c List.mem_cons_self ending
        have kept := ih (lineChar echo c s)
          (fun d member => unedited d (List.mem_cons_of_mem c member))
        rw [lineChar_stores echo c s stores, List.append_assoc] at kept
        rw [lineLoop, if_pos room, ending]
        simpa [contents, ending] using kept
    · rw [lineLoop_full max echo (c :: input) s room]

/-- The calls return all of a stream's contents, in order. By induction on the calls:
each takes a character at least. -/
theorem readLines_contents (max : Nat) (echo : Bool) (two : 2 ≤ max) (calls : Nat)
    (memory : Memory) (input : List UInt8) (unedited : Unedited input)
    (enough : input.length ≤ calls) :
    (readLines max echo calls (some memory) input).flatten = contents input := by
  induction calls generalizing memory input with
  | zero =>
    have empty : input = [] := List.length_eq_zero_iff.mp (by omega)
    rw [empty]
    rfl
  | succ calls ih =>
    have positive : 0 < max := by omega
    have split := lineLoop_contents max echo input { buf := memory } unedited
    have suffix := lineLoop_suffix max echo input { buf := memory }
    have shorter : (lineLoop max echo input { buf := memory }).2.1.length ≤ calls := by
      cases input with
      | nil => exact Nat.zero_le calls
      | cons c input =>
        have progress := (lineLoop_progress max echo c input { buf := memory } two).length_le
        rw [List.length_cons] at enough
        omega
    have next := ih (Function.update (lineLoop max echo input { buf := memory }).1.buf
      (lineLoop max echo input { buf := memory }).1.n 0) _
      (fun c member => unedited c (suffix.subset member)) shorter
    have start : ({ buf := memory } : LineState).held = [] := rfl
    rw [start, List.nil_append] at split
    rw [readLines, List.flatten_cons, neoReadLine_text memory max echo input positive]
    simp only [neoReadLine, if_neg (Nat.ne_of_gt positive)]
    rw [next, split]

/-! ## Overlong lines -/

/-- The lines of a stream that are not empty, each cut to its first `size` characters. -/
def cutLines (size : Nat) (lines : List InputLine) : List (List UInt8) :=
  (lines.map fun line => line.text.take size).filter (· ≠ [])

/-- The results of the calls that are not empty. -/
def nonemptyLines (max : Nat) (echo : Bool) (calls : Nat) (buf : Option Memory)
    (input : List UInt8) : List (List UInt8) :=
  (readLines max echo calls buf input).filter (· ≠ [])

/-- Empty results add nothing to what the calls return together. -/
theorem flatten_nonempty (results : List (List UInt8)) :
    (results.filter (· ≠ [])).flatten = results.flatten := by
  induction results with
  | nil => rfl
  | cons result results ih =>
    cases result with
    | nil => simpa using ih
    | cons c result => simpa using ih

section

variable {max : Nat} (echo : Bool) (two : 2 ≤ max)
include two

/-- On an empty stream no call returns a line. -/
theorem nonemptyLines_nil (calls : Nat) (memory : Memory) :
    nonemptyLines max echo calls (some memory) [] = [] := by
  have none_left := readLines_contents max echo two calls memory [] (by simp [Unedited])
    (Nat.zero_le calls)
  have empty := List.flatten_eq_nil_iff.mp none_left
  apply List.filter_eq_nil_iff.mpr
  intro result member
  simp [empty result member]

omit two in
/-- One call, and those that follow it: its result counts if it is not empty, and the
others see the rest of the stream. -/
theorem nonemptyLines_call {input text rest : List UInt8} {buf : Option Memory} (calls : Nat)
    (returns : Returns (neoReadLine buf max echo input) text rest) :
    ∃ memory, nonemptyLines max echo (calls + 1) buf input =
      [text].filter (· ≠ []) ++ nonemptyLines max echo calls (some memory) rest := by
  obtain ⟨memory, kept, -⟩ := returns.buf
  refine ⟨memory, ?_⟩
  simp only [nonemptyLines, readLines, returns.result, returns.left, kept]
  exact List.filter_append [text] _

/-- Lines that fit are returned one by one. By induction on the lines, each of which
takes one call. -/
theorem nonemptyLines_fit (lines : List InputLine)
    (fits : ∀ line ∈ lines, line.text.length ≤ max - 1) (calls : Nat) (memory : Memory)
    (enough : (stream lines).length ≤ calls) :
    nonemptyLines max echo calls (some memory) (stream lines) = cutLines (max - 1) lines := by
  induction lines generalizing calls memory with
  | nil => exact nonemptyLines_nil echo two calls memory
  | cons line lines ih =>
    have short : line.text.length ≤ max - 1 := fits line List.mem_cons_self
    have later := ih fun line member => fits line (List.mem_cons_of_mem _ member)
    have whole : line.text.take (max - 1) = line.text := List.take_of_length_le short
    have cut : cutLines (max - 1) (line :: lines) =
        [line.text].filter (· ≠ []) ++ cutLines (max - 1) lines := by
      rw [cutLines, List.map_cons, whole]
      exact List.filter_append [line.text] _
    rw [stream_cons] at enough ⊢
    rw [List.length_append, List.length_cons] at enough
    by_cases free : line.text.length + 1 < max
    · -- the terminator is taken with the line
      obtain ⟨left, size⟩ : ∃ left, calls = left + 1 := ⟨calls - 1, by omega⟩
      have first := neoReadLine_line max echo memory line (stream lines) free
      obtain ⟨memory', results⟩ := nonemptyLines_call echo left first
      rw [size, results, later left memory' (by omega), cut]
    · -- the buffer is full in front of the terminator, which the next call takes
      obtain ⟨left, size⟩ : ∃ left, calls = left + 1 + 1 := ⟨calls - 2, by omega⟩
      have first := neoReadLine_full max echo memory line.text (line.ending :: stream lines) line.plain
        (by omega)
      obtain ⟨memory', results⟩ := nonemptyLines_call echo (left + 1) first
      have second := neoReadLine_line max echo memory' { line with text := [], plain := by simp }
        (stream lines) (by rw [List.length_nil]; omega)
      obtain ⟨memory'', results'⟩ := nonemptyLines_call echo left second
      rw [List.nil_append] at results'
      rw [size, results, results', later left memory'' (by omega), cut]
      rfl

end

/-- Cutting loses a character of every line it shortens, so lines that keep their length
together are cut nowhere. -/
theorem cut_whole (size : Nat) (lines : List InputLine)
    (same : (lines.map fun line => line.text.take size).flatten.length =
      (lines.flatMap InputLine.text).length) :
    ∀ line ∈ lines, line.text.length ≤ size := by
  have total : ∀ lines : List InputLine,
      (lines.map fun line => line.text.take size).flatten.length ≤
        (lines.flatMap InputLine.text).length := by
    intro lines
    induction lines with
    | nil => exact Nat.le_refl 0
    | cons line lines ih =>
      simp only [List.map_cons, List.flatten_cons, List.flatMap_cons, List.length_append,
        List.length_take]
      omega
  induction lines with
  | nil => simp
  | cons line lines ih =>
    have others := total lines
    simp only [List.map_cons, List.flatten_cons, List.flatMap_cons, List.length_append,
      List.length_take] at same
    intro other member
    rcases List.mem_cons.mp member with first | later
    · rw [first]
      omega
    · exact ih (by omega) other later

/-- Successive calls return the nonempty lines of a stream, each cut to the capacity,
if and only if no line is longer than the capacity: what a call leaves of a longer line
is the beginning of the next result. With echo these are the calls of the UART reader.
No character is lost, so the pieces of a line that was cut come back as lines of their
own. -/
theorem neoReadLine_lines (max : Nat) (echo : Bool) (two : 2 ≤ max) (lines : List InputLine)
    (calls : Nat) (memory : Memory) (enough : (stream lines).length ≤ calls) :
    nonemptyLines max echo calls (some memory) (stream lines) = cutLines (max - 1) lines ↔
      ∀ line ∈ lines, line.text.length ≤ max - 1 := by
  constructor
  · intro same
    apply cut_whole
    have returned := readLines_contents max echo two calls memory (stream lines)
      (stream_unedited lines) enough
    rw [contents_stream, ← flatten_nonempty, ← nonemptyLines, same, cutLines,
      flatten_nonempty] at returned
    rw [returned]
  · intro fits
    exact nonemptyLines_fit echo two lines fits calls memory enough

/-- The line `ab`. -/
def letters : InputLine where
  text := bytes "ab"
  ending := '\n'
  plain := by simp [bytes, endsLine, erases, byte]
  ends := endsLine_lf

/-- Two lines of two letters, read into a buffer with just room for them. -/
theorem neoReadLine_lines_letters :
    nonemptyLines 3 true 6 (some fun _ => 0) (stream [letters, letters]) =
        cutLines (3 - 1) [letters, letters] ↔
      ∀ line ∈ [letters, letters], line.text.length ≤ 3 - 1 :=
  neoReadLine_lines 3 true (by decide) [letters, letters] 6 _ (Nat.le_refl _)

/-- With room for one character the second letter becomes a line of its own. -/
theorem letters_leak :
    nonemptyLines 2 true 3 (some fun _ => 0) (stream [letters]) = [[byte 'a'], [byte 'b']] ∧
      cutLines (2 - 1) [letters] = [[byte 'a']] ∧
      nonemptyLines 2 true 3 (some fun _ => 0) (stream [letters]) ≠ cutLines (2 - 1) [letters] := by
  have results : nonemptyLines 2 true 3 (some fun _ => 0) (stream [letters]) =
      [[byte 'a'], [byte 'b']] := rfl
  have cut : cutLines (2 - 1) [letters] = [[byte 'a']] := rfl
  refine ⟨results, cut, ?_⟩
  rw [results, cut]
  simp

end NeoSfp
