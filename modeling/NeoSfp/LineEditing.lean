import NeoSfp.LineStream

/-!
# The line editor

What a line is can be said without a buffer: characters are pushed on a stack, and
an erasing character pops one if there is any. A call of the line reader takes the
shortest prefix of the stream behind which it has nothing more to decide, and
returns the stack of that prefix.
-/

namespace NeoSfp

/-! ## The reference -/

/-- The stack behind one more character. -/
def editChar (stack : List UInt8) (c : UInt8) : List UInt8 :=
  if endsLine c then stack else if erases c then stack.dropLast else stack ++ [c]

/-- The stack behind some characters. -/
def edit (p : List UInt8) : List UInt8 := p.foldl editChar []

/-- A prefix of the stream that ends a line, fills the buffer, or is all there is. -/
structure Stops (max : Nat) (input p : List UInt8) : Prop where
  part : p <+: input
  reason : (∃ q c, p = q ++ [c] ∧ endsLine c = true) ∨ (edit p).length = max - 1 ∨ p = input

/-- The shortest of these prefixes. -/
structure Taken (max : Nat) (input p : List UInt8) : Prop where
  stops : Stops max input p
  shortest : ∀ q, Stops max input q → p.length ≤ q.length

/-- The last character typed edits the stack of those before it. -/
theorem edit_concat (p : List UInt8) (c : UInt8) : edit (p ++ [c]) = editChar (edit p) c := by
  rw [edit, List.foldl_append, ← edit, List.foldl_cons, List.foldl_nil]

example : edit (bytes "abc" ++ 0x08 :: bytes "d") = bytes "abd" := by decide

/-! ## Characters processed -/

/-- The loop has processed these characters, one by one, from its first state to
this one. -/
inductive Typed (max : Nat) (echo : Bool) (first : LineState) : List UInt8 → LineState → Prop where
  | none : Typed max echo first [] first
  | char {p : List UInt8} {s : LineState} (c : UInt8) (typed : Typed max echo first p s)
      (room : s.n + 1 < max) (continues : endsLine c = false) :
      Typed max echo first (p ++ [c]) (lineChar echo c s)

section

variable {max : Nat} {echo : Bool} {first s : LineState} {p : List UInt8}

/-- Behind the characters processed, the loop goes on with what is left. By induction on
the characters processed. -/
theorem typed_loop (typed : Typed max echo first p s) (rest : List UInt8) :
    lineLoop max echo (p ++ rest) first = lineLoop max echo rest s := by
  induction typed generalizing rest with
  | none => rfl
  | char c typed room continues ih =>
    rw [List.append_assoc, List.singleton_append, ih, lineLoop, if_pos room, continues]
    rfl

/-- No character that the loop has processed ends a line. -/
theorem typed_continues (typed : Typed max echo first p s) : ∀ c ∈ p, endsLine c = false := by
  induction typed with
  | none => simp
  | char c typed room continues ih =>
    intro d member
    rcases List.mem_append.mp member with before | last
    · exact ih d before
    · rwa [List.mem_singleton.mp last]

/-- What has been processed has been processed part by part, so every prefix was a state
of the loop. -/
theorem typed_prefix (typed : Typed max echo first p s) (q : List UInt8) (part : q <+: p) :
    ∃ t, Typed max echo first q t := by
  induction typed with
  | none => exact ⟨first, by rw [List.prefix_nil.mp part]; exact .none⟩
  | char c typed room continues ih =>
    rcases List.prefix_concat_iff.mp part with rfl | inside
    · exact ⟨_, .char c typed room continues⟩
    · exact ih inside

/-- The buffer holds the stack of the characters processed. By induction on them: each
is stored or erases one. -/
theorem typed_held (typed : Typed max echo first p s) (empty : first.held = []) :
    s.held = edit p := by
  induction typed with
  | none => exact empty
  | char c typed room continues ih =>
    rw [edit_concat, editChar, continues, ← ih]
    cases kind : erases c with
    | true => exact lineChar_erases echo c _ kind
    | false => exact lineChar_stores echo c _ kind

/-- The count is the height of the stack. -/
theorem typed_count (typed : Typed max echo first p s) (empty : first.held = []) :
    s.n = (edit p).length := by
  rw [← typed_held typed empty, held_length]

/-- In front of the last character processed there was room, or the loop would have
stopped. -/
theorem typed_room (typed : Typed max echo first p s) (empty : first.held = []) (q : List UInt8)
    (part : q <+: p) (proper : q ≠ p) : (edit q).length + 1 < max := by
  induction typed with
  | none => exact absurd (List.prefix_nil.mp part) proper
  | @char p s c typed room continues ih =>
    rcases List.prefix_concat_iff.mp part with whole | inside
    · exact absurd whole proper
    · by_cases same : q = p
      · rwa [same, ← typed_count typed empty]
      · exact ih inside same

/-- The count stays in front of the buffer's last place. -/
theorem typed_fits (typed : Typed max echo first p s) (fits : first.n + 1 ≤ max) :
    s.n + 1 ≤ max := by
  induction typed with
  | none => exact fits
  | char c typed room continues ih =>
    unfold lineChar
    split
    · split
      · simp only [put_n]
        omega
      · exact ih
    · simp only [put_n]
      omega

/-- Nothing is written from the buffer's last place on, because a character is stored
only where there is room. -/
theorem typed_frame (typed : Typed max echo first p s) (i : Nat) (outside : max ≤ i + 1) :
    s.buf i = first.buf i := by
  induction typed with
  | none => rfl
  | @char p s c typed room continues ih =>
    rw [← ih]
    unfold lineChar
    split
    · split
      · rw [put_buf]
      · rfl
    · rw [put_buf]
      have apart : i ≠ s.n := by omega
      change Function.update s.buf s.n c i = s.buf i
      rw [Function.update_of_ne apart]

/-- A prefix of what is processed, with room behind it and not all of the stream, is
no reason to stop. -/
theorem typed_open (typed : Typed max echo first p s) {q input : List UInt8} (part : q <+: p)
    (room : (edit q).length + 1 < max) (more : q.length < input.length) : ¬ Stops max input q := by
  rintro ⟨-, ⟨before, c, rfl, ends⟩ | full | whole⟩
  · have continues := typed_continues typed c (part.subset (by simp))
    rw [continues] at ends
    simp at ends
  · omega
  · rw [whole] at more
    exact Nat.lt_irrefl _ more

end

/-! ## Where a call stops -/

/-- How the loop may end, behind the characters it has processed. -/
inductive Ending (max : Nat) (echo : Bool) (s : LineState) :
    List UInt8 → LineState × List UInt8 × Bool → Prop where
  | eof : Ending max echo s [] (s, [], s.n + 1 < max)
  | line (c : UInt8) (rest : List UInt8) (room : s.n + 1 < max) (ends : endsLine c = true) :
      Ending max echo s (c :: rest) (s.put echo ['\n'], rest, false)
  | full (rest : List UInt8) (full : ¬ s.n + 1 < max) : Ending max echo s rest (s, rest, false)

/-- The loop processes characters for as long as it has room and no line ends. -/
theorem lineLoop_typed {max : Nat} {echo : Bool} {first s : LineState} {p : List UInt8}
    (typed : Typed max echo first p s) (rest : List UInt8) :
    ∃ q t left, rest = q ++ left ∧ Typed max echo first (p ++ q) t ∧
      Ending max echo t left (lineLoop max echo rest s) := by
  induction rest generalizing p s with
  | nil => exact ⟨[], s, [], rfl, by rwa [List.append_nil], .eof⟩
  | cons c rest ih =>
    by_cases room : s.n + 1 < max
    · cases ending : endsLine c with
      | true =>
        rw [lineLoop_ends max echo c rest s ending room]
        exact ⟨[], s, c :: rest, rfl, by rwa [List.append_nil], .line c rest room ending⟩
      | false =>
        obtain ⟨q, t, left, rfl, onward, ended⟩ := ih (.char c typed room ending)
        refine ⟨c :: q, t, left, rfl, ?_, ?_⟩
        · rwa [List.append_assoc] at onward
        · rw [lineLoop, if_pos room, ending]
          exact ended
    · rw [lineLoop_full max echo (c :: rest) s room]
      exact ⟨[], s, c :: rest, rfl, by rwa [List.append_nil], .full _ room⟩

/-- No prefix in front of the last one is a reason to stop. -/
theorem typed_shortest {max : Nat} {echo : Bool} {first s : LineState} {p : List UInt8}
    (typed : Typed max echo first p s) (empty : first.held = []) (left q : List UInt8)
    (stops : Stops max (p ++ left) q) : p.length ≤ q.length := by
  by_contra shorter
  have part : q <+: p :=
    List.prefix_of_prefix_length_le stops.part (List.prefix_append p left) (by omega)
  have proper : q ≠ p := by
    rintro rfl
    exact shorter (Nat.le_refl _)
  refine typed_open typed part (typed_room typed empty q part proper) ?_ stops
  rw [List.length_append]
  omega

/-- The loop takes the shortest prefix behind which it stops, and holds its stack. -/
theorem lineLoop_takes {max : Nat} {first : LineState} (empty : first.held = [])
    (positive : 0 < max) (echo : Bool) (input : List UInt8) :
    ∃ p s rest eof, lineLoop max echo input first = (s, rest, eof) ∧ input = p ++ rest ∧
      Taken max input p ∧ s.held = edit p ∧ s.n + 1 ≤ max ∧
      ∀ i, max ≤ i → s.buf i = first.buf i := by
  have none : first.n = 0 := by rw [← held_length, empty, List.length_nil]
  obtain ⟨p, s, left, rfl, typed, ended⟩ := lineLoop_typed (.none : Typed max echo first [] first) input
  rw [List.nil_append] at typed
  have held := typed_held typed empty
  have count := typed_count typed empty
  have fits := typed_fits typed (by omega)
  have shortest := typed_shortest typed empty left
  have frame : ∀ i, max ≤ i → s.buf i = first.buf i := by
    intro i outside
    exact typed_frame typed i (by omega)
  generalize loop : lineLoop max echo (p ++ left) first = out at ended
  cases ended with
  | eof =>
    have stops : Stops max (p ++ []) p := ⟨by simp, Or.inr (Or.inr (by simp))⟩
    exact ⟨p, s, [], _, rfl, rfl, ⟨stops, shortest⟩, held, fits, frame⟩
  | full _ full =>
    have stops : Stops max (p ++ left) p := ⟨List.prefix_append p left, Or.inr (Or.inl (by omega))⟩
    exact ⟨p, s, left, _, rfl, rfl, ⟨stops, shortest⟩, held, fits, frame⟩
  | line c rest room ends =>
    have stops : Stops max (p ++ c :: rest) (p ++ [c]) :=
      ⟨⟨rest, by simp⟩, Or.inl ⟨p, c, rfl, ends⟩⟩
    have same : edit (p ++ [c]) = edit p := by rw [edit_concat, editChar, if_pos ends]
    refine ⟨p ++ [c], s.put echo ['\n'], rest, _, rfl, by simp, ⟨stops, ?_⟩, ?_, ?_, ?_⟩
    · intro q stopped
      have longer := shortest q stopped
      by_contra shorter
      rw [List.length_append, List.length_singleton] at shorter
      have whole : q = p := by
        have part := List.prefix_of_prefix_length_le stopped.part (List.prefix_append p _) (by omega)
        exact part.eq_of_length (by omega)
      rw [whole] at stopped
      refine typed_open typed List.prefix_rfl (by omega) ?_ stopped
      simp
    · rw [put_held, held, same]
    · rwa [put_n]
    · rwa [put_buf]

/-- The value returned: the number of characters, as an `int`. -/
def LineRead.ret (r : LineRead) : Int := wrapInt r.n

/-- A call that took these characters of the stream. -/
structure Edits (r : LineRead) (max : Nat) (memory : Memory) (input p : List UInt8) : Prop where
  taken : Taken max input p
  left : input = p ++ r.rest
  fits : (edit p).length ≤ max - 1
  returned : r.ret = wrapInt (edit p).length
  buf : ∃ after, r.buf = some after ∧
    (∀ i (inside : i < (edit p).length), after i = (edit p)[i]) ∧
    after (edit p).length = 0 ∧ ∀ i, max ≤ i → after i = memory i

/-- A call takes the shortest prefix of the stream that ends a line, fills the buffer or
is all there is, and leaves the rest for the next call. It stores the stack of that
prefix and a NUL, writes nothing from `max` on, and returns the number of characters as
an `int`. The loop processes characters for as long as no prefix of them is a reason to
stop. -/
theorem neoReadLine_edits (memory : Memory) (max : Nat) (positive : 0 < max) (echo : Bool)
    (input : List UInt8) :
    ∃ p, Edits (neoReadLine (some memory) max echo input) max memory input p := by
  have start : ({ buf := memory } : LineState).held = [] := rfl
  obtain ⟨p, s, rest, eof, loop, split, taken, held, fits, frame⟩ :=
    lineLoop_takes start positive echo input
  have count : s.n = (edit p).length := by rw [← held_length, held]
  have read : neoReadLine (some memory) max echo input =
      { n := s.n, buf := some (Function.update s.buf s.n 0), rest := rest, echoed := s.echoed,
        eof := eof } := by
    simp [neoReadLine, Nat.ne_of_gt positive, loop]
  rw [read]
  refine ⟨p, ?_⟩
  refine
    { taken := taken
      left := split
      fits := by omega
      returned := by rw [LineRead.ret, count]
      buf := ?_ }
  refine ⟨Function.update s.buf s.n 0, rfl, ?_, ?_, ?_⟩
  · intro i inside
    have before : i ≠ s.n := by omega
    have stored : s.held[i]? = some (s.buf i) := by
      rw [LineState.held, List.getElem?_map, List.getElem?_range (by omega), Option.map_some]
    rw [Function.update_of_ne before, ← Option.some_inj, ← stored, held,
      List.getElem?_eq_getElem inside]
  · rw [← count, Function.update_self]
  · intro i outside
    have behind : i ≠ s.n := by omega
    rw [Function.update_of_ne behind, frame i outside]

/-- A line in which one character is taken back, in a buffer that it does not fill. -/
theorem neoReadLine_edits_backspace : ∃ p,
    Edits (neoReadLine (some fun _ => 0) 8 true (bytes "ac" ++ 0x08 :: bytes "b\n")) 8 (fun _ => 0)
      (bytes "ac" ++ 0x08 :: bytes "b\n") p :=
  neoReadLine_edits (fun _ => 0) 8 (by decide) true _

/-- A stream of so many letters, in a buffer that they fill: the call takes them all. -/
theorem letters_taken (n : Nat) (p : List UInt8) (taken : Taken (n + 1) (List.replicate n (byte 'a')) p) :
    (edit p).length = n := by
  have same : ∀ k, edit (List.replicate k (byte 'a')) = List.replicate k (byte 'a') := by
    intro k
    induction k with
    | zero => rfl
    | succ k ih =>
      have letter : endsLine (byte 'a') = false ∧ erases (byte 'a') = false := by decide
      rw [List.replicate_succ', edit_concat, ih, editChar, letter.1, letter.2]
      rfl
  rcases taken.stops.reason with ⟨q, c, rfl, ends⟩ | full | whole
  · have member : c ∈ List.replicate n (byte 'a') := taken.stops.part.subset (by simp)
    rw [List.eq_of_mem_replicate member] at ends
    exact absurd ends (by decide)
  · exact full
  · rw [whole, same, List.length_replicate]

/-- The count of the call is their number, as a mathematical number. -/
theorem letters_read (n : Nat) (memory : Memory) :
    (neoReadLine (some memory) (n + 1) false (List.replicate n (byte 'a'))).n = n := by
  have plain : ∀ c ∈ List.replicate n (byte 'a'), endsLine c = false ∧ erases c = false := by
    intro c member
    rw [List.eq_of_mem_replicate member]
    decide
  have whole := neoReadLine_full (n + 1) false memory (List.replicate n (byte 'a')) [] plain
    (by rw [List.length_replicate])
  rw [List.append_nil] at whole
  rw [whole.n, List.length_replicate]

/-- A line of 2^31 characters is returned as a negative number: the count does not fit
the `int` that is returned. -/
theorem longLine_negative :
    (neoReadLine (some fun _ => 0) (2 ^ 31 + 1) false (List.replicate (2 ^ 31) (byte 'a'))).ret =
        -2 ^ 31 ∧
      ¬ ∃ p, Taken (2 ^ 31 + 1) (List.replicate (2 ^ 31) (byte 'a')) p ∧
        (neoReadLine (some fun _ => 0) (2 ^ 31 + 1) false (List.replicate (2 ^ 31) (byte 'a'))).ret =
          (edit p).length := by
  have negative : (neoReadLine (some fun _ => 0) (2 ^ 31 + 1) false
      (List.replicate (2 ^ 31) (byte 'a'))).ret = -2 ^ 31 := by
    rw [LineRead.ret, letters_read]
    decide
  refine ⟨negative, ?_⟩
  rintro ⟨p, taken, returned⟩
  rw [negative, letters_taken _ p taken] at returned
  exact absurd returned (by decide)

end NeoSfp
