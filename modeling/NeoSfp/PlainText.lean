import NeoSfp.IntegerText
import Mathlib.Data.List.DropRight

/-!
# The text of a number without a precision

Without a precision an integer conversion prints a sign, the digits and the padding
of its flags, for every number and every width that fits an `int`; and whoever reads
the text back gets the number.
-/

namespace NeoSfp

variable {abi : Abi}

/-- The text of a number without a precision: zeros behind the sign fill the width,
or blanks do. -/
def plainText (conv : IntegerConversion) (n : Int) (left zero : Bool) (width : Nat) : List UInt8 :=
  let digits := numberChars n.natAbs conv.base conv.upper
  if zero ∧ ¬ left then
    signText n ++ (List.replicate (width - (signText n ++ digits).length) (byte '0') ++ digits)
  else
    blankPadded left width (signText n ++ digits)

/-- The text is as long as its width asks, or as the number needs. -/
theorem plainText_length (conv : IntegerConversion) (n : Int) (left zero : Bool) (width : Nat) :
    (plainText conv n left zero width).length =
      max width (signText n ++ numberChars n.natAbs conv.base conv.upper).length := by
  unfold plainText
  simp only
  split
  · rw [List.length_append, List.length_append, List.length_append, List.length_replicate]
    omega
  · exact blankPadded_length _ _ _

/-! ## Reading a number -/

/-- The value of a digit of a base, in either case. -/
def readDigit (base : Nat) (c : UInt8) : Option Nat :=
  ((bytes "0123456789ABCDEF").idxOf? c <|> (bytes "0123456789abcdef").idxOf? c).filter (· < base)

/-- Digits from the left, behind those that gave `n`. -/
def readDigits (base n : Nat) (text : List UInt8) : Option Nat :=
  text.foldlM (fun n c => (readDigit base c).map (base * n + ·)) n

/-- A text without the blanks on either side. -/
def trimmed (text : List UInt8) : List UInt8 :=
  (text.dropWhile (· == byte ' ')).rdropWhile (· == byte ' ')

/-- The number that a text denotes: an optional minus sign and at least one digit,
with blanks on either side. -/
def readNumber (base : Nat) (text : List UInt8) : Option Int :=
  match trimmed text with
  | [] => none
  | c :: rest =>
    if c = byte '-' then
      if rest = [] then none else (readDigits base 0 rest).map fun n => -(n : Int)
    else
      (readDigits base 0 (c :: rest)).map fun n => (n : Int)

/-- A digit that was printed is read with its value, in either case. -/
theorem readDigit_char {base : Nat} (isBase : IsBase base) (upper : Bool) {digit : Nat}
    (inside : digit < base) : readDigit base (digitChar upper digit) = some digit := by
  have small : digit < 16 := by
    unfold IsBase at isBase
    omega
  have found : ∀ upper, ∀ digit < 16, ((bytes "0123456789ABCDEF").idxOf? (digitChar upper digit) <|>
      (bytes "0123456789abcdef").idxOf? (digitChar upper digit)) = some digit := by
    decide
  rw [readDigit, found upper digit small, Option.filter_some, if_pos (decide_eq_true inside)]

/-- Neither a blank nor a minus is read as a digit. -/
theorem readDigit_none (base : Nat) : readDigit base (byte ' ') = none ∧ readDigit base (byte '-') = none :=
  ⟨rfl, rfl⟩

/-- Digits are read from the left, so the front gives the number that the back goes on
with. -/
theorem readDigits_append (base n : Nat) (front back : List UInt8) :
    readDigits base n (front ++ back) = (readDigits base n front).bind fun n => readDigits base n back :=
  List.foldlM_append

/-- The digits of a number from the left are its value. By induction on the digits, the
last one first. -/
theorem readDigits_digits {base : Nat} (isBase : IsBase base) (upper : Bool) (digits : List Nat)
    (inside : ∀ digit ∈ digits, digit < base) :
    readDigits base 0 (digits.reverse.map (digitChar upper)) = some (Nat.ofDigits base digits) := by
  induction digits with
  | nil => rfl
  | cons digit digits ih =>
    have front := ih fun other member => inside other (List.mem_cons_of_mem _ member)
    have back := readDigit_char isBase upper (inside digit List.mem_cons_self)
    rw [List.reverse_cons, List.map_append, readDigits_append, front, Option.bind_some,
      List.map_singleton, Nat.ofDigits_cons]
    simp [readDigits, back, Nat.add_comm]

/-- The characters of a number are read as the number. -/
theorem numberChars_read {base : Nat} (isBase : IsBase base) (v : Nat) (upper : Bool) :
    readDigits base 0 (numberChars v base upper) = some v := by
  have two := isBase_two_le isBase
  unfold numberChars
  split
  · rename_i zero
    subst zero
    have digit := readDigit_char isBase upper (show 0 < base by omega)
    have char : digitChar upper 0 = byte '0' := by cases upper <;> rfl
    rw [char] at digit
    simp [readDigits, digit]
  · rw [readDigits_digits isBase upper _ fun digit member => Nat.digits_lt_base two member,
      Nat.ofDigits_digits]

/-- Zeros in front of a number do not count. By induction on how many there are. -/
theorem readDigits_zeros {base : Nat} (isBase : IsBase base) (zeros : Nat) (text : List UInt8) :
    readDigits base 0 (List.replicate zeros (byte '0') ++ text) = readDigits base 0 text := by
  have two := isBase_two_le isBase
  have digit : readDigit base (digitChar true 0) = some 0 := readDigit_char isBase true (by omega)
  have char : digitChar true 0 = byte '0' := rfl
  rw [char] at digit
  induction zeros with
  | zero => rfl
  | succ zeros ih =>
    rw [List.replicate_succ, List.cons_append]
    simpa [readDigits, digit] using ih

/-- What reads as a number has digits only. By induction on the text. -/
theorem readDigits_some {base n v : Nat} {text : List UInt8} (reads : readDigits base n text = some v) :
    ∀ c ∈ text, readDigit base c ≠ none := by
  induction text generalizing n with
  | nil => simp
  | cons first text ih =>
    intro c member
    cases digit : readDigit base first with
    | none => simp [readDigits, digit] at reads
    | some d =>
      simp only [readDigits, List.foldlM_cons, digit, Option.map_some, Option.bind_eq_bind,
        Option.bind_some] at reads
      cases member with
      | head => simp [digit]
      | tail _ later => exact ih reads c later

/-- A text without blanks has none in front to drop. -/
theorem dropWhile_solid {text : List UInt8} (solid : ∀ c ∈ text, c ≠ byte ' ') :
    text.dropWhile (· == byte ' ') = text := by
  cases text with
  | nil => rfl
  | cons c rest =>
    have first : c ≠ byte ' ' := solid c List.mem_cons_self
    exact List.dropWhile_cons_of_neg (by simpa using first)

/-- Blanks on either side of a text without blanks are all that is trimmed. -/
theorem trimmed_padded (before behind : Nat) (core : List UInt8) (solid : ∀ c ∈ core, c ≠ byte ' ') :
    trimmed (List.replicate before (byte ' ') ++ (core ++ List.replicate behind (byte ' '))) = core := by
  have blanks (count : Nat) : ∀ c ∈ List.replicate count (byte ' '), (c == byte ' ') = true := by
    intro c member
    rw [List.eq_of_mem_replicate member, beq_self_eq_true]
  have backwards : ∀ c ∈ core.reverse, c ≠ byte ' ' := fun c member => solid c (List.mem_reverse.mp member)
  rw [trimmed, List.dropWhile_append_of_pos (blanks before), List.dropWhile_append,
    dropWhile_solid solid]
  cases core with
  | nil => simp
  | cons c rest =>
    rw [List.isEmpty_cons, if_neg Bool.false_ne_true, List.rdropWhile, List.reverse_append,
      List.reverse_replicate, List.dropWhile_append_of_pos (blanks behind),
      dropWhile_solid backwards, List.reverse_reverse]

/-- A signed number reads back, whatever blanks stand around it. -/
theorem readNumber_padded {base : Nat} {n : Int} {digits : List UInt8} (given : digits ≠ [])
    (reads : readDigits base 0 digits = some n.natAbs) (before behind : Nat) :
    readNumber base (List.replicate before (byte ' ') ++
      ((signText n ++ digits) ++ List.replicate behind (byte ' '))) = some n := by
  obtain ⟨blank, minus⟩ := readDigit_none base
  have solid : ∀ c ∈ digits, c ≠ byte ' ' ∧ c ≠ byte '-' := by
    intro c member
    have digit := readDigits_some reads c member
    constructor
    · rintro rfl
      exact digit blank
    · rintro rfl
      exact digit minus
  by_cases negative : n < 0
  · have value : -|n| = n := by rw [abs_of_neg negative, neg_neg]
    have core := trimmed_padded before behind (byte '-' :: digits) (by
      intro c member
      cases member with
      | head => decide
      | tail _ later => exact (solid c later).1)
    rw [signText, if_pos negative, List.singleton_append, readNumber, core]
    simp [given, reads, value]
  · have value : |n| = n := abs_of_nonneg (not_lt.mp negative)
    have core := trimmed_padded before behind digits fun c member => (solid c member).1
    rw [signText, if_neg negative, List.nil_append, readNumber, core]
    cases digits with
    | nil => exact absurd rfl given
    | cons c rest =>
      have digit : c ≠ byte '-' := (solid c List.mem_cons_self).2
      simp [digit, reads, value]

example : readNumber 16 (bytes "  -00ff ") = some (-255) := by decide

/-- A number is printed with one digit at least. -/
theorem numberChars_ne_nil (v base : Nat) (upper : Bool) : numberChars v base upper ≠ [] := by
  unfold numberChars
  split
  · exact List.cons_ne_nil _ _
  · rename_i positive
    simpa using Nat.digits_ne_nil_iff_ne_zero.mpr positive

/-- Reading a text without a precision gives its number, whichever way the width was
filled. -/
theorem readNumber_plainText (conv : IntegerConversion) (n : Int) (left zero : Bool) (width : Nat) :
    readNumber conv.base (plainText conv n left zero width) = some n := by
  have reads := numberChars_read conv.isBase n.natAbs conv.upper
  have given := numberChars_ne_nil n.natAbs conv.base conv.upper
  unfold plainText blankPadded
  simp only
  generalize numberChars n.natAbs conv.base conv.upper = digits at reads given
  split
  · have zeros := readDigits_zeros conv.isBase (width - (signText n ++ digits).length) digits
    have read := readNumber_padded (List.append_ne_nil_of_right_ne_nil _ given) (zeros.trans reads) 0 0
    simpa using read
  · split
    · have read := readNumber_padded given reads 0 (width - (signText n ++ digits).length)
      simpa using read
    · have read := readNumber_padded given reads (width - (signText n ++ digits).length) 0
      simpa using read

/-! ## Without a precision -/

/-- Without a precision the code sends the text wanted. The cases are those of the
flags, and of a sign with zeros behind it. -/
theorem integerChars_plainText (conv : IntegerConversion) (n : Int) (flags : Flags) (width : Nat) :
    integerChars (numberChars n.natAbs conv.base conv.upper) width (flags.signed n) (-1) =
      plainText conv n flags.left flags.zero width := by
  generalize digitsAre : numberChars n.natAbs conv.base conv.upper = digits
  have body : (if (flags.signed n).neg then byte '-' :: digits else digits) = signText n ++ digits := by
    by_cases negative : n < 0
    · simp [Flags.signed, signText, negative]
    · simp [Flags.signed, signText, negative]
  have room : ((width : Int) - (signText n ++ digits).length).toNat =
      width - (signText n ++ digits).length := by omega
  have no_zeros : ((-1 : Int) - (signText n ++ digits).length).toNat = 0 := by omega
  unfold integerChars plainText
  rw [body, digitsAre]
  simp only [paddedChars, no_zeros, Nat.cast_zero, Int.add_zero, room]
  cases left : flags.left with
  | true => simp [Flags.signed, blankPadded, left]
  | false =>
    cases zero : flags.zero with
    | true =>
      by_cases negative : n < 0
      · simp [Flags.signed, signText, left, zero, negative]
      · simp [Flags.signed, signText, left, zero, negative]
    | false => simp [Flags.signed, blankPadded, left, zero]

/-- With a width in range the text is produced, as long as zeros behind a sign stay
inside the number buffer. -/
theorem produces_plain {fmt : CString} {args : List (VArg abi)} {c : Conversion abi}
    (single : Single fmt args c) {conv : IntegerConversion} {v : BitVec 64}
    (integer : c.item = .integer conv v) (absent : c.prec = none) (narrow : c.width < 2 ^ 31)
    (bounded : conv.number v < 0 → c.zero = true → c.left = false → c.width ≤ 70) :
    Produces fmt args (plainText conv (conv.number v) c.left c.zero c.width) := by
  have digits : conv.digits (-1) v = numberChars (conv.number v).natAbs conv.base conv.upper := by
    rw [IntegerConversion.digits, if_neg (by simp), IntegerConversion.magnitude]
  rw [produces_single single integer, absent, precInt, wrapInt_small c.width narrow, digits]
  constructor
  · rintro ⟨negative, zero, right, -, wide⟩
    have fits := bounded (of_decide_eq_true negative) zero (Bool.eq_false_iff.mpr right)
    omega
  · exact integerChars_plainText conv (conv.number v) c.flags c.width

/-- Integer conversions without a precision: every number is printed as it should be,
and reads back, exactly when the width is below 2^31. The zeros behind a sign are those
that fit the number buffer. From 2^31 on the text is longer than any count that can be
returned. -/
theorem neoVsnprintf_plain (fmt : CString) (args : List (VArg abi)) (c : Conversion abi)
    (single : Single fmt args c) (conv : IntegerConversion) (v : BitVec 64)
    (integer : c.item = .integer conv v) (absent : c.prec = none)
    (bounded : conv.number v < 0 → c.zero = true → c.left = false → c.width ≤ 70) :
    (Produces fmt args (plainText conv (conv.number v) c.left c.zero c.width) ∧
        readNumber conv.base (plainText conv (conv.number v) c.left c.zero c.width) =
          some (conv.number v)) ↔
      c.width < 2 ^ 31 := by
  rw [and_iff_left (readNumber_plainText conv (conv.number v) c.left c.zero c.width)]
  constructor
  · intro produces
    by_contra wide
    have length := plainText_length conv (conv.number v) c.left c.zero c.width
    exact not_produces_long single integer (by omega) produces
  · intro narrow
    exact produces_plain single integer absent narrow bounded

/-- The format is one directive, with a width of eight, zeros and an `int`. -/
theorem eightZeros_single (v : BitVec 32) : Single eightZeros [.int v] (paddedNumber true 8 v) :=
  ⟨⟨[.zero], .literal [8], none, .none, 'd'⟩, [], by simp, rfl, rfl⟩

/-- A negative number under `%08d`, which is printed as it should be and read back. -/
theorem neoVsnprintf_plain_eightZeros :
    (Produces eightZeros [(.int (-42) : VArg .ilp32)]
          (plainText .d (IntegerConversion.d.number (IntegerConversion.d.extend (-42 : BitVec 32)))
            false true 8) ∧
        readNumber 10 (plainText .d
            (IntegerConversion.d.number (IntegerConversion.d.extend (-42 : BitVec 32))) false true 8) =
          some (IntegerConversion.d.number (IntegerConversion.d.extend (-42 : BitVec 32)))) ↔
      8 < 2 ^ 31 :=
  neoVsnprintf_plain eightZeros [.int (-42)] (paddedNumber true 8 (-42)) (eightZeros_single (-42)) .d
    _ rfl rfl fun _ _ _ => by decide

/-- `%2147483648d`. -/
def wideNumber : CString := { chars := bytes "%2147483648d", nulFree := by simp [bytes] }

/-- The format is one directive, with a width of 2^31 and an `int`. -/
theorem wideNumber_single (v : BitVec 32) :
    Single wideNumber [.int v] (paddedNumber false 2147483648 v) :=
  ⟨⟨[], .literal [2, 1, 4, 7, 4, 8, 3, 6, 4, 8], none, .none, 'd'⟩, [], by simp, rfl, rfl⟩

/-- A width of 2^31 is not reached: the counter of the width wraps to a negative one,
and nothing is padded. -/
theorem wideNumber_short :
    ¬ Produces wideNumber [(.int 1 : VArg .ilp32)] (plainText .d 1 false false 2147483648) := by
  have length := plainText_length .d 1 false false 2147483648
  exact not_produces_long (wideNumber_single 1) rfl (by omega)

end NeoSfp
