import NeoSfp.FormatterSafety
import NeoSfp.FormatterSinks

/-!
# The text of a number with a precision

What an integer conversion should print is a sign, digits and padding. With a
precision the formatter takes the sign for a digit: a negative number of fewer
digits than the precision asks for gets its zeros in front of the sign, and one
too few of them. What a format of one directive sends is here as well.
-/

namespace NeoSfp

open Checked

variable {abi : Abi}

/-! ## Texts -/

/-- The sign of a number, if it has one. -/
def signText (n : Int) : List UInt8 := if n < 0 then [byte '-'] else []

/-- A text brought to a width by blanks. -/
def blankPadded (left : Bool) (width : Nat) (text : List UInt8) : List UInt8 :=
  if left then text ++ List.replicate (width - text.length) (byte ' ')
  else List.replicate (width - text.length) (byte ' ') ++ text

/-- The digits of a number with a precision; a zero of precision zero has none. -/
def preciseDigits (conv : IntegerConversion) (prec : Nat) (n : Int) : List UInt8 :=
  if prec = 0 ∧ n = 0 then [] else numberChars n.natAbs conv.base conv.upper

/-- The text of a number with a precision: zeros fill the digits up to it, and blanks
fill the width. -/
def preciseText (conv : IntegerConversion) (n : Int) (left : Bool) (width prec : Nat) : List UInt8 :=
  blankPadded left width (signText n ++
    (List.replicate (prec - (preciseDigits conv prec n).length) (byte '0') ++ preciseDigits conv prec n))

/-- A format of one directive, and what it becomes with its arguments. -/
def Single (fmt : CString) (args : List (VArg abi)) (c : Conversion abi) : Prop :=
  ∃ d behind, (∀ digits, d.width ≠ .literal (0 :: digits)) ∧ fmt.chars = byte '%' :: d.text ∧
    fillDirective d args = some (c, behind)

/-- The formatter produces a text: it returns its length, and leaves it in every
buffer that has room for it and its NUL. -/
def Produces (fmt : CString) (args : List (VArg abi)) (text : List UInt8) : Prop :=
  ∀ (memory : Memory) (size : Nat), text.length < size →
    ∃ after, neoVsnprintf (some memory) size fmt args = .ok ((text.length : Int), some after) ∧
      (∀ i < text.length, some (after i) = text[i]?) ∧ after text.length = 0

/-! ## What a buffer holds -/

/-- The law of truncation holds behind any number of characters. By induction on
them. -/
theorem truncates_foldl {original : Option Memory} {cap : Nat} {left right : Sink}
    (law : Truncates original cap left right) (chars : List UInt8) :
    Truncates original cap (chars.foldl emitOut left) (chars.foldl emitBuf right) := by
  induction chars generalizing left right with
  | nil => exact law
  | cons c chars ih => exact ih (truncates_kept original cap left right c law)

/-- Characters sent to a buffer with room for them stand in it, followed by a NUL. -/
theorem neoVsnprintf_sent {fmt : CString} {args : List (VArg abi)} {chars : List UInt8}
    (runs : ∀ sink, runFormat emitBuf sink fmt args = .ok (chars.foldl emitBuf sink))
    (short : chars.length < 2 ^ 31) (memory : Memory) (size : Nat) (room : chars.length < size) :
    ∃ after, neoVsnprintf (some memory) size fmt args = .ok ((chars.length : Int), some after) ∧
      (∀ i < chars.length, some (after i) = chars[i]?) ∧ after chars.length = 0 := by
  have law := truncates_foldl (truncates_start (some memory) size) chars
  have sent := (emitOut_sent chars { out := true } rfl).2
  rw [List.nil_append] at sent
  obtain ⟨after, ran, holds, ends, -⟩ := neoVsnprintf_kept (runs _) law (by omega)
  have all : min chars.length (size - 1) = chars.length := by omega
  rw [sent, all] at holds ends
  refine ⟨after, ?_, holds, ends⟩
  rw [ran, law.count, sent, wrapInt_small _ short]

/-- A format whose characters do not depend on the sink produces them and nothing else. -/
theorem produces_iff {fmt : CString} {args : List (VArg abi)} {chars : List UInt8}
    (runs : ∀ sink, runFormat emitBuf sink fmt args = .ok (chars.foldl emitBuf sink))
    (short : chars.length < 2 ^ 31) (text : List UInt8) : Produces fmt args text ↔ chars = text := by
  constructor
  · intro produces
    obtain ⟨after, ran, holds, -⟩ := produces (fun _ => 0) (max text.length chars.length + 1) (by omega)
    obtain ⟨after', ran', holds', -⟩ := neoVsnprintf_sent runs short (fun _ => 0)
      (max text.length chars.length + 1) (by omega)
    rw [ran] at ran'
    simp only [Except.ok.injEq, Prod.mk.injEq, Option.some.injEq, Int.natCast_inj] at ran'
    obtain ⟨length, rfl⟩ := ran'
    apply List.ext_getElem?
    intro i
    by_cases inside : i < text.length
    · rw [← holds i inside, holds' i (by omega)]
    · rw [List.getElem?_eq_none (by omega), List.getElem?_eq_none (by omega)]
  · rintro rfl memory size room
    exact neoVsnprintf_sent runs short memory size room

/-- A format that faults on every sink produces no text. -/
theorem not_produces_fault {fmt : CString} {args : List (VArg abi)} {reason : FormatFault}
    (faults : ∀ sink, runFormat emitBuf sink fmt args = .error reason) (text : List UInt8) :
    ¬ Produces fmt args text := by
  intro produces
  obtain ⟨after, ran, -⟩ := produces (fun _ => 0) (text.length + 1) (by omega)
  simp [neoVsnprintf, faults, bind, Except.bind] at ran

/-! ## A format of one directive -/

/-- The character of an integer conversion is a letter, so nothing in front of it is
taken for part of it. -/
theorem conversion_letter (conv : IntegerConversion) : IsLetter conv.char := by
  cases conv <;> simp [IsLetter, IntegerConversion.char, byte]

/-- Only its letter asks for a number. There is one case for each kind of item. -/
theorem fillItem_integer {spec : UInt8} {length : LengthModifier} {args behind : List (VArg abi)}
    {conv : IntegerConversion} {v : BitVec 64}
    (filled : fillItem spec length args = some (.integer conv v, behind)) : spec = conv.char := by
  unfold fillItem at filled
  split_ifs at filled
  · obtain ⟨_, -, same⟩ := Option.map_eq_some_iff.mp filled
    cases same
  · obtain ⟨_, -, same⟩ := Option.map_eq_some_iff.mp filled
    cases same
  · cases filled
  · obtain ⟨_, -, same⟩ := Option.map_eq_some_iff.mp filled
    cases same
  · split at filled
    · rename_i known found
      obtain ⟨_, -, same⟩ := Option.map_eq_some_iff.mp filled
      cases same
      exact ofChar_some found
    · cases filled

/-- A single number overruns the number buffer, or its characters are sent, on every
sink. -/
theorem runFormat_single {fmt : CString} {args : List (VArg abi)} {c : Conversion abi}
    (single : Single fmt args c) {conv : IntegerConversion} {v : BitVec 64}
    (integer : c.item = .integer conv v) (emit : Emit) (sink : Sink) :
    runFormat emit sink fmt args =
      if Overruns (wrapInt c.width) (c.flags.signed (conv.number v)) (precInt c.prec) then
        .error .numbuf2
      else
        .ok ((integerChars (conv.digits (precInt c.prec) v) (wrapInt c.width)
          (c.flags.signed (conv.number v)) (precInt c.prec)).foldl emit sink) := by
  obtain ⟨d, behind, proper, written, filled⟩ := single
  have letter : IsLetter d.spec := by
    obtain ⟨width, args₁, prec, args₂, item, -, -, third, same⟩ := fillDirective_some filled
    rw [same] at integer
    have number : item = .integer conv v := integer
    rw [number] at third
    rw [fillItem_integer third]
    exact conversion_letter conv
  have nulFree : 0 ∉ d.text := by
    have whole := fmt.nulFree
    rw [written] at whole
    exact fun member => whole (List.mem_cons_of_mem _ member)
  have scanned := scanDirective_text d ⟨proper, letter⟩ []
  rw [List.append_nil] at scanned
  have core : (formatCore emit : Formatter abi PUnit) { sink := sink, fmt := fmt.chars, args := args } =
      (emitItem emit (wrapInt c.width) c.flags (precInt c.prec) c.item
        ⟨sink, [], behind, c.wide⟩).andThen fun _ => formatLoop emit (d.text.length + 1) := by
    rw [formatCore, Run.bind_apply, fmtLeft, Run.read, Run.andThen_ok, written, List.length_cons,
      formatLoop_round, formatDirective_reads emit nulFree scanned filled, Bool.false_or]
  have item := emitItem_integer conv v (wrapInt_lt c.width) c.flags (precInt_lt c.prec) emit
    ⟨sink, [], behind, c.wide⟩
  rw [runFormat, core, integer, item]
  by_cases beyond : Overruns (wrapInt c.width) (c.flags.signed (conv.number v)) (precInt c.prec)
  · rw [if_pos beyond, if_pos beyond, Run.andThen_fault]
  · rw [if_neg beyond, if_neg beyond, Run.andThen_ok, FormatState.sent, formatLoop_end]

/-! ## Lengths -/

/-- A padded text is as long as its width asks, or as it was if it is longer. -/
theorem blankPadded_length (left : Bool) (width : Nat) (text : List UInt8) :
    (blankPadded left width text).length = max width text.length := by
  unfold blankPadded
  split
  · rw [List.length_append, List.length_replicate]
    omega
  · rw [List.length_append, List.length_replicate]
    omega

/-- A text with a precision is at least as long as the precision and the width. -/
theorem preciseText_length (conv : IntegerConversion) (n : Int) (left : Bool) (width prec : Nat) :
    width ≤ (preciseText conv n left width prec).length ∧
      prec ≤ (preciseText conv n left width prec).length := by
  rw [preciseText, blankPadded_length, List.length_append, List.length_append, List.length_replicate]
  omega

/-- Whatever is sent for a number is shorter than 2^31, because its width and its
precision are. -/
theorem integerChars_length {digits : List UInt8} (room : digits.length ≤ 64) {width : Int}
    (narrow : width < 2 ^ 31) (flags : Flags) {prec : Int} (precise : prec < 2 ^ 31) :
    (integerChars digits width flags prec).length < 2 ^ 31 := by
  have small := signed_room flags room
  unfold integerChars
  simp only
  split
  · rename_i inject
    rw [if_pos inject.1, List.length_cons, List.length_append, List.length_replicate,
      List.length_cons]
    omega
  · generalize (if flags.neg then byte '-' :: digits else digits) = body at small
    unfold paddedChars
    simp only
    split_ifs
    · simp only [List.length_append, List.length_replicate]
      omega
    · simp only [List.length_append, List.length_replicate]
      omega
    · simp only [List.length_append, List.length_replicate]
      omega

/-- The digits of a 64-bit number fit the digit buffer, also where there are none. -/
theorem digits_room (conv : IntegerConversion) (prec : Int) (v : BitVec 64) :
    (conv.digits prec v).length ≤ 64 := by
  unfold IntegerConversion.digits
  split
  · simp
  · exact numberChars_length conv.isBase (conv.magnitude_lt v) conv.upper

/-- A format of one number produces what its conversion sends, and nothing else; one
that overruns the number buffer produces nothing. -/
theorem produces_single {fmt : CString} {args : List (VArg abi)} {c : Conversion abi}
    (single : Single fmt args c) {conv : IntegerConversion} {v : BitVec 64}
    (integer : c.item = .integer conv v) (text : List UInt8) :
    Produces fmt args text ↔
      ¬ Overruns (wrapInt c.width) (c.flags.signed (conv.number v)) (precInt c.prec) ∧
        integerChars (conv.digits (precInt c.prec) v) (wrapInt c.width)
          (c.flags.signed (conv.number v)) (precInt c.prec) = text := by
  have runs := runFormat_single single integer emitBuf
  have short := integerChars_length (digits_room conv (precInt c.prec) v) (wrapInt_lt c.width)
    (c.flags.signed (conv.number v)) (precInt_lt c.prec)
  by_cases beyond : Overruns (wrapInt c.width) (c.flags.signed (conv.number v)) (precInt c.prec)
  · simp only [if_pos beyond] at runs
    exact iff_of_false (not_produces_fault runs text) fun both => both.1 beyond
  · simp only [if_neg beyond] at runs
    rw [produces_iff runs short, and_iff_right beyond]

/-- A text of 2^31 characters is out of reach, since the returned count would have to be
its length. -/
theorem not_produces_long {fmt : CString} {args : List (VArg abi)} {c : Conversion abi}
    (single : Single fmt args c) {conv : IntegerConversion} {v : BitVec 64}
    (integer : c.item = .integer conv v) {text : List UInt8} (long : 2 ^ 31 ≤ text.length) :
    ¬ Produces fmt args text := by
  rw [produces_single single integer]
  rintro ⟨-, rfl⟩
  have short := integerChars_length (digits_room conv (precInt c.prec) v) (wrapInt_lt c.width)
    (c.flags.signed (conv.number v)) (precInt_lt c.prec)
  omega

/-! ## With a precision -/

/-- With a precision the code fills the sign and the digits up to it with zeros. -/
theorem integerChars_precise (digits : List UInt8) (width prec : Nat) (flags : Flags) :
    integerChars digits width flags prec = blankPadded flags.left width
      (List.replicate (prec - (if flags.neg then byte '-' :: digits else digits).length) (byte '0') ++
        (if flags.neg then byte '-' :: digits else digits)) := by
  have given : ¬ ((prec : Int) < 0) := by omega
  rw [integerChars, if_neg (by tauto)]
  generalize (if flags.neg then byte '-' :: digits else digits) = body
  have zeros : ((prec : Int) - body.length).toNat = prec - body.length := by omega
  have room : ((width : Int) - (body.length + (prec - body.length : Nat))).toNat =
      width - (prec - body.length + body.length) := by omega
  cases left : flags.left with
  | true => simp [paddedChars, blankPadded, left, zeros, room]
  | false => simp [paddedChars, blankPadded, left, zeros, room, given]

/-- The digits that the code prints are those wanted under a precision, none for a zero
of precision zero. -/
theorem digits_precise (conv : IntegerConversion) (prec : Nat) (v : BitVec 64) :
    conv.digits prec v = preciseDigits conv prec (conv.number v) := by
  simp [IntegerConversion.digits, preciseDigits, IntegerConversion.magnitude]

/-- Only digits and zeros count as zeros of a text, so blanks change nothing. -/
theorem count_blankPadded (left : Bool) (width : Nat) (text : List UInt8) :
    (blankPadded left width text).count (byte '0') = text.count (byte '0') := by
  have blank : byte '0' ≠ byte ' ' := by decide
  unfold blankPadded
  split
  · simp [List.count_append, List.count_replicate, blank.symm]
  · simp [List.count_append, List.count_replicate, blank.symm]

/-- The sign in front of the zeros: right for a number that is not negative or has
the digits asked for, and one zero short for any other. -/
theorem precise_iff (conv : IntegerConversion) (n : Int) (flags : Flags) (width prec : Nat) :
    integerChars (preciseDigits conv prec n) width (flags.signed n) prec =
        preciseText conv n flags.left width prec ↔
      0 ≤ n ∨ prec ≤ (preciseDigits conv prec n).length := by
  rw [integerChars_precise, preciseText]
  by_cases negative : n < 0
  · have sign : (flags.signed n).neg = true := decide_eq_true negative
    rw [if_pos sign, signText, if_pos negative]
    constructor
    · intro same
      right
      by_contra short
      have zeros := congrArg (List.count (byte '0')) same
      have minus : byte '-' ≠ byte '0' := by decide
      rw [count_blankPadded, count_blankPadded] at zeros
      simp [List.count_append, minus] at zeros
      omega
    · intro enough
      have none_left : prec - (preciseDigits conv prec n).length = 0 := by omega
      have none_left' : prec - (byte '-' :: preciseDigits conv prec n).length = 0 := by
        rw [List.length_cons]
        omega
      rw [none_left, none_left']
      rfl
  · have sign : (flags.signed n).neg = false := decide_eq_false negative
    rw [sign, if_neg Bool.false_ne_true, signText, if_neg negative, List.nil_append]
    exact iff_of_true rfl (Or.inl (by omega))

/-- With counters in range the sign alone decides, which the code counts as a digit. -/
theorem produces_precise {fmt : CString} {args : List (VArg abi)} {c : Conversion abi}
    (single : Single fmt args c) {conv : IntegerConversion} {v : BitVec 64}
    (integer : c.item = .integer conv v) {prec : Nat} (given : c.prec = some prec)
    (narrow : c.width < 2 ^ 31) (small : prec < 2 ^ 31) :
    Produces fmt args (preciseText conv (conv.number v) c.left c.width prec) ↔
      0 ≤ conv.number v ∨ prec ≤ (preciseDigits conv prec (conv.number v)).length := by
  have counter : precInt c.prec = prec := by
    rw [given]
    exact wrapInt_small prec small
  have inside : ¬ Overruns c.width (c.flags.signed (conv.number v)) (prec : Int) := by
    rintro ⟨-, -, -, absent, -⟩
    omega
  rw [produces_single single integer, counter, wrapInt_small c.width narrow, and_iff_right inside,
    digits_precise]
  exact precise_iff conv (conv.number v) c.flags c.width prec

/-- Integer conversions with a precision: the text produced is the one wanted exactly
when the width and the precision are below 2^31 and the number is not negative or has
the digits that the precision asks for. Outside the ranges the text is longer than any
count that can be returned. -/
theorem neoVsnprintf_precision (fmt : CString) (args : List (VArg abi)) (c : Conversion abi)
    (single : Single fmt args c) (conv : IntegerConversion) (v : BitVec 64)
    (integer : c.item = .integer conv v) (prec : Nat) (given : c.prec = some prec) :
    Produces fmt args (preciseText conv (conv.number v) c.left c.width prec) ↔
      c.width < 2 ^ 31 ∧ prec < 2 ^ 31 ∧
        (0 ≤ conv.number v ∨ prec ≤ (preciseDigits conv prec (conv.number v)).length) := by
  by_cases fits : c.width < 2 ^ 31 ∧ prec < 2 ^ 31
  · obtain ⟨narrow, small⟩ := fits
    rw [produces_precise single integer given narrow small, and_iff_right narrow,
      and_iff_right small]
  · obtain ⟨wide, precise⟩ := preciseText_length conv (conv.number v) c.left c.width prec
    have long : 2 ^ 31 ≤ (preciseText conv (conv.number v) c.left c.width prec).length := by
      omega
    exact iff_of_false (not_produces_long single integer long) fun all => fits ⟨all.1, all.2.1⟩

/-- `%.5d`. -/
def fiveDigits : CString := { chars := bytes "%.5d", nulFree := by simp [bytes] }

/-- A number of at least five digits. -/
def fiveDigitsOf (v : BitVec 32) : Conversion .ilp32 where
  left := false
  zero := false
  width := 0
  prec := some 5
  item := .integer .d (IntegerConversion.d.extend v)

/-- The format is one directive, with a precision of five and an `int`. -/
theorem fiveDigits_single (v : BitVec 32) : Single fiveDigits [.int v] (fiveDigitsOf v) :=
  ⟨⟨[], .literal [], some (.literal [5]), .none, 'd'⟩, [], by simp, rfl, rfl⟩

/-- A number that is not negative, under `%.5d`. -/
theorem neoVsnprintf_precision_fiveDigits :
    Produces fiveDigits [(.int 42 : VArg .ilp32)]
        (preciseText .d (IntegerConversion.d.number (IntegerConversion.d.extend (42 : BitVec 32)))
          false 0 5) ↔
      0 < 2 ^ 31 ∧ 5 < 2 ^ 31 ∧
        (0 ≤ IntegerConversion.d.number (IntegerConversion.d.extend (42 : BitVec 32)) ∨
          5 ≤ (preciseDigits .d 5
            (IntegerConversion.d.number (IntegerConversion.d.extend (42 : BitVec 32)))).length) :=
  neoVsnprintf_precision fiveDigits [.int 42] (fiveDigitsOf 42) (fiveDigits_single 42) .d _ rfl 5 rfl

/-- The zeros of a negative number stand in front of its sign, and there is one too few
of them. -/
theorem fiveDigits_signed :
    ¬ Produces fiveDigits [(.int (-42) : VArg .ilp32)] (preciseText .d (-42) false 0 5) := by
  have decides := produces_precise (fiveDigits_single (-42)) rfl rfl (by decide) (by decide)
  have number : IntegerConversion.d.number (IntegerConversion.d.extend (-42 : BitVec 32)) = -42 := rfl
  have short : (preciseDigits .d 5 (-42)).length = 2 := by
    simp [preciseDigits, numberChars, IntegerConversion.base]
  rw [number, short] at decides
  intro produces
  have enough : (0 : Int) ≤ -42 ∨ 5 ≤ 2 := decides.mp produces
  revert enough
  decide

end NeoSfp
