import NeoSfp.Formatter

/-!
# What directives print

Ordinary characters of a format go to the sink as they are, and a directive without
flags, width and precision puts the characters of its argument there. Whatever the
sink does with them, a run of the formatter is the fold of its `emit` over the
characters of the whole text.
-/

namespace NeoSfp

open Checked

variable {abi : Abi}

/-! ## Sinks -/

/-- Characters passed to an output function are recorded in order. By induction on
them. -/
theorem emitOut_sent (chars : List UInt8) (s : Sink) (out : s.out = true) :
    (chars.foldl emitOut s).out = true ∧ (chars.foldl emitOut s).sent = s.sent ++ chars := by
  induction chars generalizing s with
  | nil => exact ⟨out, by simp⟩
  | cons c chars ih =>
    obtain ⟨stays, sent⟩ := ih (emitOut s c) out
    refine ⟨stays, ?_⟩
    rw [List.foldl_cons, sent]
    simp [emitOut, out]

/-! ## Digits -/

/-- The digits of a number, most significant first. -/
def numberChars (v base : Nat) (upper : Bool) : List UInt8 :=
  if v = 0 then [byte '0'] else (Nat.digits base v).reverse.map (digitChar upper)

/-- The bases of the conversions. -/
def IsBase (base : Nat) : Prop := base = 2 ∨ base = 8 ∨ base = 10 ∨ base = 16

/-- The masks and shifts compute remainders and quotients. There is one case for each
base. -/
theorem digitStep_divides {base : Nat} (isBase : IsBase base) (v : Nat) :
    digitStep base v = (v % base, v / base) := by
  rcases isBase with rfl | rfl | rfl | rfl
  · simp [digitStep, Nat.and_one_is_mod, Nat.shiftRight_eq_div_pow]
  · have mask : v &&& 7 = v % 8 := Nat.and_two_pow_sub_one_eq_mod v 3
    simp [digitStep, mask, Nat.shiftRight_eq_div_pow]
  · simp [digitStep]
  · have mask : v &&& 15 = v % 16 := Nat.and_two_pow_sub_one_eq_mod v 4
    simp [digitStep, mask, Nat.shiftRight_eq_div_pow]

/-- Every base is at least two, so the digits of a number come to an end. -/
theorem isBase_two_le {base : Nat} (isBase : IsBase base) : 2 ≤ base := by
  unfold IsBase at isBase
  omega

/-- The loop puts the digits in front of those it has, the last digit first. By
induction on the room left in the buffer. -/
theorem digitLoop_digits {base : Nat} (isBase : IsBase base) (upper : Bool) (places v : Nat)
    (tmp : List UInt8) (room : (Nat.digits base v).length ≤ places) :
    digitLoop base upper places v tmp =
      some ((Nat.digits base v).reverse.map (digitChar upper) ++ tmp) := by
  induction places generalizing v tmp with
  | zero =>
    have none_left : Nat.digits base v = [] := List.length_eq_zero_iff.mp (by omega)
    have zero : v = 0 := Nat.digits_eq_nil_iff_eq_zero.mp none_left
    subst zero
    simp [digitLoop]
  | succ places ih =>
    rw [digitLoop]
    by_cases zero : v = 0
    · subst zero
      simp
    · have unfolded := Nat.digits_def' (isBase_two_le isBase) (Nat.pos_of_ne_zero zero)
      rw [unfolded, List.length_cons] at room
      have next := ih (v / base) (digitChar upper (v % base) :: tmp) (by omega)
      rw [if_neg zero, digitStep_divides isBase]
      simp only [next, unfolded, List.reverse_cons, List.map_append, List.map_singleton,
        List.append_assoc, List.singleton_append]

/-- A number of 64 bits has at most 64 digits, as many as it has in base two. -/
theorem digits_length {base : Nat} (isBase : IsBase base) {v : Nat} (fits : v < 2 ^ 64) :
    (Nat.digits base v).length ≤ 64 := by
  have two := isBase_two_le isBase
  apply (Nat.digits_length_le_iff (by omega) v).mpr
  calc v < 2 ^ 64 := fits
    _ ≤ base ^ 64 := Nat.pow_le_pow_left two 64

/-- The digits of a 64-bit number fit the buffer and are those of the number in its
base, with a zero for zero. -/
theorem u64ToStr_chars {base : Nat} (isBase : IsBase base) {v : Nat} (fits : v < 2 ^ 64)
    (upper : Bool) : u64ToStr v base upper = some (numberChars v base upper) := by
  have room := digits_length isBase fits
  unfold u64ToStr numberChars
  split
  · rfl
  · rw [digitLoop_digits isBase upper 65 v [] (by omega), List.append_nil]

/-- The characters of a 64-bit number fit the buffer of 64 digits. -/
theorem numberChars_length {base : Nat} (isBase : IsBase base) {v : Nat} (fits : v < 2 ^ 64)
    (upper : Bool) : (numberChars v base upper).length ≤ 64 := by
  have room := digits_length isBase fits
  unfold numberChars
  split
  · simp
  · simpa using room

/-- Writing out a 64-bit number never leaves the digit buffer. -/
theorem numberText_apply {base : Nat} (isBase : IsBase base) {v : Nat} (fits : v < 2 ^ 64)
    (upper : Bool) (s : FormatState abi) :
    numberText v base upper s = .ok (numberChars v base upper) s := by
  have room : (numberChars v base upper).length ≤ 68 :=
    (numberChars_length isBase fits upper).trans (by omega)
  simp [numberText, Run.read, u64ToStr_chars isBase fits, stored, room]

/-! ## Emission -/

section

variable (emit : Emit)

/-- A state whose sink has taken these characters. -/
def FormatState.sent (s : FormatState abi) (chars : List UInt8) : FormatState abi :=
  { s with sink := chars.foldl emit s.sink }

/-- Sending nothing changes nothing. -/
@[simp] theorem sent_nil (s : FormatState abi) : s.sent emit [] = s := rfl

/-- The characters of a body are sent in order. By induction on them. -/
@[simp] theorem emitChars_apply (body : List UInt8) (s : FormatState abi) :
    emitChars emit body s = .ok ⟨⟩ (s.sent emit body) := by
  induction body generalizing s with
  | nil => rfl
  | cons c body ih => simp [emitChars, sinkPutc, ih, FormatState.sent]

/-- Characters sent in two parts are sent one part behind the other. -/
@[simp] theorem sent_append (s : FormatState abi) (first second : List UInt8) :
    (s.sent emit first).sent emit second = s.sent emit (first ++ second) := by
  simp [FormatState.sent]

/-- A repeated character is sent as often as it is repeated. By induction on the
count. -/
@[simp] theorem emitTimes_apply (n : Nat) (c : UInt8) (s : FormatState abi) :
    emitTimes emit n c s = .ok ⟨⟩ (s.sent emit (List.replicate n c)) := by
  induction n generalizing s with
  | zero => rfl
  | succ n ih => simp [emitTimes, sinkPutc, ih, FormatState.sent, List.replicate_succ]

/-- A padding is sent if its test holds, and otherwise nothing. -/
@[simp] theorem emitWhen_apply (test : Bool) (n : Nat) (c : UInt8) (s : FormatState abi) :
    emitWhen emit test n c s = .ok ⟨⟩ (s.sent emit (if test then List.replicate n c else [])) := by
  cases test with
  | false => rfl
  | true => exact emitTimes_apply emit n c s

/-- A computation that stays in the range of `int` gives its exact result, and nothing
is noted. -/
theorem intOp_inside {exact : Int} (fits : IsInt exact) (s : FormatState abi) :
    intOp exact s = .ok exact s := by
  have same := (wrapInt_eq_iff exact).mpr fits
  simp [intOp, same]

/-- What is missing is never more than the larger number, so it stays in range, and it
is zero where nothing is missing. -/
theorem excess_inside {high low : Int} (positive : 0 ≤ low) (fits : high < 2 ^ 31)
    (s : FormatState abi) : excess high low s = .ok ((high - low).toNat : Int) s := by
  unfold excess
  split
  · have same : ((high - low).toNat : Int) = high - low := by omega
    rw [same]
    exact intOp_inside ⟨by omega, by omega⟩ s
  · have same : ((high - low).toNat : Int) = 0 := by omega
    rw [same, Run.pure_apply]

/-- A body brought to a width, with zeros in front for a precision. -/
def paddedChars (body : List UInt8) (width : Int) (flags : Flags) (precDigits : Int) : List UInt8 :=
  let zeros := (precDigits - body.length).toNat
  let room := (width - (body.length + zeros)).toNat
  if flags.left then
    List.replicate zeros (byte '0') ++ body ++ List.replicate room (byte ' ')
  else if flags.zero ∧ precDigits < 0 then
    List.replicate room (byte '0') ++ body
  else
    List.replicate room (byte ' ') ++ List.replicate zeros (byte '0') ++ body

/-- A padded body is sent as `paddedChars` says, if its length, the width and the
precision are in range: then none of the sums overflows. -/
theorem emitPadded_apply (body : List UInt8) (short : body.length < 2 ^ 31) {width : Int}
    (fits : width < 2 ^ 31) (flags : Flags) {precDigits : Int} (fits' : precDigits < 2 ^ 31)
    (s : FormatState abi) :
    emitPadded emit body body.length width flags precDigits s =
      .ok ⟨⟩ (s.sent emit (paddedChars body width flags precDigits)) := by
  have total : IsInt (body.length + ((precDigits - body.length).toNat : Int)) :=
    ⟨by omega, by omega⟩
  rw [emitPadded, Run.bind_apply, excess_inside (by omega) fits', Run.andThen_ok, Run.bind_apply,
    intOp_inside total, Run.andThen_ok, Run.bind_apply, excess_inside (by omega) fits,
    Run.andThen_ok]
  simp only [Run.bind_apply, emitWhen_apply, emitTimes_apply, emitChars_apply, Run.andThen_ok,
    sent_append, Int.toNat_natCast, List.take_length]
  congr 2
  simp only [paddedChars]
  by_cases viaWidth : flags.zero = true ∧ precDigits < 0
  · have no_zeros : (precDigits - body.length).toNat = 0 := by omega
    rw [no_zeros]
    cases left : flags.left with
    | true => simp
    | false => simp [viaWidth]
  · generalize (precDigits - body.length).toNat = zeros
    generalize (width - (body.length + zeros)).toNat = room
    cases left : flags.left with
    | true => simp
    | false => simp [viaWidth]

/-- The characters of an integer conversion, from its digits. -/
def integerChars (digits : List UInt8) (width : Int) (flags : Flags) (precDigits : Int) :
    List UInt8 :=
  let body := if flags.neg then byte '-' :: digits else digits
  if flags.neg ∧ flags.zero ∧ ¬ flags.left ∧ precDigits < 0 then
    byte '-' :: (List.replicate (width - body.length).toNat (byte '0') ++ digits)
  else
    paddedChars body width flags precDigits

/-- The zeros injected behind a sign run over the end of `numbuf2`. -/
def Overruns (width : Int) (flags : Flags) (precDigits : Int) : Prop :=
  flags.neg ∧ flags.zero ∧ ¬ flags.left ∧ precDigits < 0 ∧ 70 < width

instance (width : Int) (flags : Flags) (precDigits : Int) :
    Decidable (Overruns width flags precDigits) := inferInstanceAs (Decidable (_ ∧ _))

section

variable {digits : List UInt8} {width : Int} {flags : Flags} {precDigits : Int}

/-- A body with its sign fits the number buffer. -/
theorem signed_room (flags : Flags) (room : digits.length ≤ 64) :
    (if flags.neg then byte '-' :: digits else digits).length ≤ 70 := by
  split
  · rw [List.length_cons]
    omega
  · omega

/-- A body without injected zeros is its digits, behind the sign if there is one. -/
theorem signedBody_plain (room : digits.length ≤ 64)
    (plain : ¬ (flags.neg ∧ flags.zero ∧ ¬ flags.left ∧ precDigits < 0 ∧
      width > ((if flags.neg then byte '-' :: digits else digits).length : Int)))
    (s : FormatState abi) :
    signedBody digits width flags precDigits s =
      .ok (if flags.neg then byte '-' :: digits else digits, flags) s := by
  rw [signedBody, stored, if_pos (signed_room flags room), Run.bind_apply, Run.pure_apply,
    Run.andThen_ok, Run.ite_apply, if_neg plain, Run.pure_apply]

/-- The zeros injected behind the sign, as far as `numbuf2` goes. Up to 70 characters
they fill the width; a larger width runs over the buffer. -/
theorem signedBody_injected (room : digits.length ≤ 64) (neg : flags.neg = true)
    (zero : flags.zero = true) (right : ¬ flags.left) (absent : precDigits < 0)
    (wider : width > (digits.length + 1 : Nat)) (fits : width < 2 ^ 31) (s : FormatState abi) :
    signedBody digits width flags precDigits s =
      if 70 < width then .fault .numbuf2
      else .ok (byte '-' :: (List.replicate (width - (digits.length + 1 : Nat)).toNat (byte '0') ++
        digits), { flags with zero := false }) s := by
  have extra : IsInt (width - (digits.length + 1 : Nat)) := ⟨by omega, by omega⟩
  have moved : IsInt ((digits.length + 1 : Nat) + (width - (digits.length + 1 : Nat))) :=
    ⟨by omega, by omega⟩
  have small : (byte '-' :: digits).length ≤ 70 := by
    rw [List.length_cons]
    omega
  have total : (byte '-' :: (List.replicate (width - (digits.length + 1 : Nat)).toNat (byte '0') ++
      digits)).length = width.toNat := by
    rw [List.length_cons, List.length_append, List.length_replicate]
    omega
  rw [signedBody, if_pos neg, stored, if_pos small, Run.bind_apply, Run.pure_apply, Run.andThen_ok,
    List.length_cons, Run.ite_apply, if_pos ⟨neg, zero, right, absent, wider⟩, Run.bind_apply,
    intOp_inside extra, Run.andThen_ok, stored, total]
  by_cases long : 70 < width
  · rw [if_pos long, if_neg (by omega), Run.bind_apply, Run.fault_apply, Run.andThen_fault]
  · rw [if_neg long, if_pos (by omega), Run.bind_apply, Run.pure_apply, Run.andThen_ok,
      Run.bind_apply, intOp_inside moved, Run.andThen_ok, Run.pure_apply]

end

/-- Only a precision that is not negative counts, so the two spellings of an absent
precision agree. -/
theorem integerChars_sign (digits : List UInt8) (width : Int) (flags : Flags) (prec : Int) :
    integerChars digits width flags (if prec ≥ 0 then prec else -1) =
      integerChars digits width flags prec := by
  split
  · rfl
  · have absent : prec < 0 := by omega
    have no_zeros (body : List UInt8) : (prec - body.length).toNat = 0 := by omega
    have no_zeros' (body : List UInt8) : ((-1 : Int) - body.length).toNat = 0 := by omega
    simp only [integerChars, paddedChars, absent, no_zeros, no_zeros',
      show (-1 : Int) < 0 by decide]

/-- A body of at least the width is not padded, whichever flags are set. -/
theorem paddedChars_full {body : List UInt8} {width : Int} (full : width ≤ body.length)
    (flags : Flags) {precDigits : Int} (absent : precDigits < 0) :
    paddedChars body width flags precDigits = body := by
  have no_zeros : (precDigits - body.length).toNat = 0 := by omega
  have no_room : width.toNat - body.length = 0 := by omega
  simp [paddedChars, no_zeros, no_room]

/-- Where no zeros are injected, the body is padded as any other, its sign being part of
it. -/
theorem integerChars_plain {digits : List UInt8} {width : Int} {flags : Flags} {precDigits : Int}
    (plain : ¬ (flags.neg ∧ flags.zero ∧ ¬ flags.left ∧ precDigits < 0 ∧
      width > ((if flags.neg then byte '-' :: digits else digits).length : Int))) :
    integerChars digits width flags precDigits =
      paddedChars (if flags.neg then byte '-' :: digits else digits) width flags precDigits := by
  by_cases inject : flags.neg ∧ flags.zero ∧ ¬ flags.left ∧ precDigits < 0
  · obtain ⟨neg, zero, right, absent⟩ := inject
    have full : width ≤ ((if flags.neg then byte '-' :: digits else digits).length : Int) := by
      by_contra wider
      exact plain ⟨neg, zero, right, absent, by omega⟩
    rw [paddedChars_full full flags absent, integerChars, if_pos ⟨neg, zero, right, absent⟩]
    have none_left : (width - ((if flags.neg then byte '-' :: digits else digits).length : Int)).toNat =
        0 := by omega
    rw [none_left, if_pos neg]
    rfl
  · rw [integerChars, if_neg inject]

/-- A number's body, and what is sent of it: whether zeros were injected behind the sign
or are padded in front, the characters are the same. -/
theorem signedBody_padded (digits : List UInt8) (room : digits.length ≤ 64) {width : Int}
    (narrow : width < 2 ^ 31) (flags : Flags) {precDigits : Int} (precise : precDigits < 2 ^ 31)
    (s : FormatState abi) :
    (Overruns width flags precDigits →
      signedBody digits width flags precDigits s = .fault .numbuf2) ∧
    (¬ Overruns width flags precDigits → ∃ body flags',
      signedBody digits width flags precDigits s = .ok (body, flags') s ∧
      emitPadded emit body body.length width flags' precDigits s =
        .ok ⟨⟩ (s.sent emit (integerChars digits width flags precDigits))) := by
  have small := signed_room flags room
  by_cases inject : flags.neg ∧ flags.zero ∧ ¬ flags.left ∧ precDigits < 0 ∧
      width > ((if flags.neg then byte '-' :: digits else digits).length : Int)
  · obtain ⟨neg, zero, right, absent, wider⟩ := inject
    have chars : integerChars digits width flags precDigits = byte '-' ::
        (List.replicate (width - (digits.length + 1 : Nat)).toNat (byte '0') ++ digits) := by
      rw [integerChars, if_pos ⟨neg, zero, right, absent⟩, if_pos neg, List.length_cons]
    rw [if_pos neg, List.length_cons] at wider
    have injected := signedBody_injected room neg zero right absent wider narrow s
    constructor
    · rintro ⟨-, -, -, -, long⟩
      rw [injected, if_pos long]
    · intro inside
      have short : ¬ 70 < width := fun long => inside ⟨neg, zero, right, absent, long⟩
      rw [if_neg short, ← chars] at injected
      have total : (integerChars digits width flags precDigits).length = width.toNat := by
        rw [chars, List.length_cons, List.length_append, List.length_replicate]
        omega
      refine ⟨_, _, injected, ?_⟩
      rw [emitPadded_apply emit _ (by omega) narrow _ precise,
        paddedChars_full (by omega) _ absent]
  · constructor
    · rintro ⟨neg, zero, right, absent, long⟩
      exact absurd ⟨neg, zero, right, absent, by omega⟩ inject
    · intro _
      refine ⟨_, _, signedBody_plain room inject s, ?_⟩
      rw [emitPadded_apply emit _ (by omega) narrow _ precise, integerChars_plain inject]

/-- The integer path runs over `numbuf2`, or sends the characters of the number. -/
theorem emitInteger_apply {base : Nat} (isBase : IsBase base) {v : Nat} (fits : v < 2 ^ 64)
    (upper : Bool) {width : Int} (narrow : width < 2 ^ 31) (flags : Flags) {prec : Int}
    (precise : prec < 2 ^ 31) (s : FormatState abi) :
    (Overruns width flags prec → emitInteger emit v base upper width flags prec s = .fault .numbuf2) ∧
      (¬ Overruns width flags prec → emitInteger emit v base upper width flags prec s =
        .ok ⟨⟩ (s.sent emit (integerChars
          (if prec = 0 ∧ v = 0 then [] else numberChars v base upper) width flags prec))) := by
  have room : (if prec = 0 ∧ v = 0 then [] else numberChars v base upper).length ≤ 64 := by
    split
    · simp
    · exact numberChars_length isBase fits upper
  have sign : (if prec ≥ 0 then prec else -1) < 0 ↔ prec < 0 := by
    split <;> omega
  have same : Overruns width flags (if prec ≥ 0 then prec else -1) ↔ Overruns width flags prec := by
    rw [Overruns, Overruns, sign]
  obtain ⟨faults, inside⟩ := signedBody_padded emit _ room narrow flags
    (show (if prec ≥ 0 then prec else -1) < 2 ^ 31 by split <;> omega) s
  rw [emitInteger, Run.bind_apply, numberText_apply isBase fits, Run.andThen_ok, Run.bind_apply]
  constructor
  · intro overruns
    rw [faults (same.mpr overruns), Run.andThen_fault]
  · intro fine
    obtain ⟨body, flags', composed, padded⟩ := inside fun overruns => fine (same.mp overruns)
    rw [composed, Run.andThen_ok, ← integerChars_sign]
    exact padded

/-- Without width and precision only the body is sent, and nothing overflows. -/
theorem emitPadded_bare (body : List UInt8) (short : body.length < 2 ^ 31) (flags : Flags)
    (s : FormatState abi) :
    emitPadded emit body body.length 0 flags (-1) s = .ok ⟨⟩ (s.sent emit body) := by
  rw [emitPadded_apply emit body short (by decide) flags (by decide),
    paddedChars_full (by omega) flags (by decide)]

/-- The characters of a signed number. -/
def signedChars (v : Int) : List UInt8 :=
  if v < 0 then byte '-' :: numberChars v.natAbs 10 false else numberChars v.natAbs 10 false

/-- Without width and precision a decimal number is sent as its digits behind its
sign. -/
theorem emitInteger_bare {v : Nat} (fits : v < 2 ^ 64) (flags : Flags) (plain : flags.zero = false)
    (s : FormatState abi) :
    emitInteger emit v 10 false 0 flags (-1) s = .ok ⟨⟩
      (s.sent emit (if flags.neg then byte '-' :: numberChars v 10 false
        else numberChars v 10 false)) := by
  have isBase : IsBase 10 := by simp [IsBase]
  have inside : ¬ Overruns 0 flags (-1) := by simp [Overruns, plain]
  have given : ¬ ((-1 : Int) = 0 ∧ v = 0) := by omega
  rw [(emitInteger_apply emit isBase fits false (by decide) flags (by decide) s).2 inside,
    if_neg given, integerChars_plain (by simp [plain]), paddedChars_full (by omega) flags (by decide)]

/-- `%d` of an `int` sends the characters of the number, whatever the format goes on
with. -/
theorem emitSigned_bare (v : BitVec 32) (sink : Sink) (fmt : Text) (args : List (VArg abi))
    (overflow : Bool) :
    emitSigned emit 0 {} (-1) 0 ⟨sink, fmt, .int v :: args, overflow⟩ = .ok ⟨⟩
      ⟨(signedChars v.toInt).foldl emit sink, fmt, args, overflow⟩ := by
  have low := v.le_toInt
  have high := v.toInt_lt
  have taken : vaSigned 0 (⟨sink, fmt, .int v :: args, overflow⟩ : FormatState abi) =
      .ok v.toInt ⟨sink, fmt, args, overflow⟩ := by
    simp [vaSigned, vaArg, Run.read, asInt]
  rw [emitSigned, Run.bind_apply, taken, Run.andThen_ok]
  by_cases negative : v.toInt < 0
  · have magnitude : ((-(v.toInt + 1)).toNat + 1) % 2 ^ 64 = v.toInt.natAbs := by omega
    rw [if_pos negative, magnitude, emitInteger_bare emit (by omega) _ rfl]
    simp [signedChars, negative, FormatState.sent]
  · have magnitude : v.toInt.toNat = v.toInt.natAbs := by omega
    rw [if_neg negative, magnitude, emitInteger_bare emit (by omega) _ rfl]
    simp [signedChars, negative, FormatState.sent]

example : signedChars (-42) = bytes "-42" := by decide

/-- `%s` sends the characters of the string in front of its NUL. -/
theorem emitString_bare (text : CString) (short : text.chars.length < 2 ^ 31) (sink : Sink)
    (fmt : Text) (args : List (VArg abi)) (overflow : Bool) :
    emitConversion emit 's' 0 {} (-1) 0 ⟨sink, fmt, .str (some text) :: args, overflow⟩ =
      .ok ⟨⟩ ⟨text.chars.foldl emit sink, fmt, args, overflow⟩ := by
  have taken : vaArg asStr (⟨sink, fmt, .str (some text) :: args, overflow⟩ : FormatState abi) =
      .ok (some text) ⟨sink, fmt, args, overflow⟩ := by
    simp [vaArg, Run.read, asStr]
  have all : shown (some text) (-1) = text.chars := by simp [shown]
  rw [emitConversion, if_neg (by decide), if_pos rfl, emitString, Run.bind_apply, taken, Run.andThen_ok, all,
    emitText, Run.bind_apply, intOp_inside ⟨by omega, by omega⟩, Run.andThen_ok,
    emitPadded_bare emit _ short]
  rfl

/-! ## Formats -/

/-- A conversion letter that is neither a flag nor part of a width, a precision or
a length. -/
def IsLetter (c : UInt8) : Prop :=
  c ≠ 0 ∧ c ≠ '-' ∧ ¬ (c ≥ '0' ∧ c ≤ '9') ∧ c ≠ '*' ∧ c ≠ '.' ∧ c ≠ 'l' ∧ c ≠ 'h' ∧ c ≠ 'z'

/-- A directive that consists of its letter has no flags, no width and no precision:
each of the reading routines meets the letter and stops. -/
theorem formatDirective_bare (c : UInt8) (letter : IsLetter c) (sink : Sink) (rest : Text)
    (args : List (VArg abi)) (overflow : Bool) :
    formatDirective emit ⟨sink, c :: rest, args, overflow⟩ =
      emitConversion emit c 0 {} (-1) 0 ⟨sink, rest, args, overflow⟩ := by
  obtain ⟨nul, left, digit, star, dot, long, half, size⟩ := letter
  have zero : c ≠ '0' := by
    intro same
    rw [same] at digit
    exact digit (by simp [byte])
  simp [formatDirective, readFlags, flagLoop, fmtPeek, fmtLeft, Run.read, left, zero, readWidth,
    star, parseUint, parseUintLoop, digit, readPrec, dot, readLength, skipChar, long, half, size,
    readSpec, nul, fmtAdvance, Run.update]

/-- Ordinary characters are sent as they are, one for each round of the loop. -/
theorem formatLoop_text (text rest : Text) (ordinary : ∀ c ∈ text, c ≠ 0 ∧ c ≠ '%') (fuel : Nat)
    (sink : Sink) (args : List (VArg abi)) (overflow : Bool) :
    formatLoop emit (text.length + fuel) ⟨sink, text ++ rest, args, overflow⟩ =
      formatLoop emit fuel ⟨text.foldl emit sink, rest, args, overflow⟩ := by
  induction text generalizing sink with
  | nil => rw [List.length_nil, Nat.zero_add, List.nil_append, List.foldl_nil]
  | cons c text ih =>
    obtain ⟨nul, directive⟩ := ordinary c List.mem_cons_self
    have others := fun d member => ordinary d (List.mem_cons_of_mem c member)
    rw [List.length_cons, Nat.add_right_comm, formatLoop, List.foldl_cons, ← ih others]
    simp [fmtPeek, fmtAdvance, Run.read, Run.update, nul, directive, sinkPutc]

/-- A directive that consists of its letter is one round of the loop. -/
theorem formatLoop_directive (c : UInt8) (letter : IsLetter c) (rest : Text) (fuel : Nat)
    (sink : Sink) (args : List (VArg abi)) (overflow : Bool) :
    formatLoop emit (fuel + 1) ⟨sink, byte '%' :: c :: rest, args, overflow⟩ =
      (emitConversion emit c 0 {} (-1) 0 ⟨sink, rest, args, overflow⟩).andThen
        fun _ => formatLoop emit fuel := by
  have directive := formatDirective_bare emit c letter sink rest args overflow
  rw [formatLoop]
  simp [fmtPeek, fmtAdvance, Run.read, Run.update, directive]

/-- At the end of the format the loop stops and changes nothing. -/
theorem formatLoop_end (fuel : Nat) (sink : Sink) (args : List (VArg abi)) (overflow : Bool) :
    formatLoop emit (fuel + 1) ⟨sink, [], args, overflow⟩ =
      .ok ⟨⟩ ⟨sink, [], args, overflow⟩ := by
  rw [formatLoop]
  simp [fmtPeek, Run.read]

end

end NeoSfp
