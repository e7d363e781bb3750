import NeoSfp.Directives

/-!
# What conversions print

Once a directive is read and its arguments are taken, its item is emitted. The
characters sent depend on the item, the counters of width and precision and the
flags, and not on the sink. A conversion faults only when the zeros injected behind
a sign run over the number buffer, and notes an overflow only when an amount or the
length of a string is 2^31 or more. A whole format is the sequence of its
characters and conversions.
-/

namespace NeoSfp

open Checked

variable {abi : Abi}

/-! ## Items -/

/-- Flags with the sign of a number. -/
def Flags.signed (flags : Flags) (n : Int) : Flags := { flags with neg := n < 0 }

/-- The absolute value of a number. -/
def IntegerConversion.magnitude (conv : IntegerConversion) (v : BitVec 64) : Nat :=
  (conv.number v).natAbs

section

variable (emit : Emit)

/-- An item whose argument has been taken. -/
def emitItem (width : Int) (flags : Flags) (prec : Int) : Item abi → Formatter abi PUnit
  | .char c => emitPadded emit [c] 1 width flags (-1)
  | .string s => emitText emit (shown s prec) width flags
  | .percent => sinkPutc emit '%'
  | .integer conv v =>
    emitInteger emit (conv.magnitude v) conv.base conv.upper width
      (flags.signed (conv.number v)) prec
  | .pointer v => emitAddress emit v width flags
  | .unknown spec => emitUnknown emit spec

variable {sink : Sink} {t : Text} {args args' : List (VArg abi)} {o : Bool}

/-- An argument that is wanted in another form is taken just the same; only its value is
converted. -/
theorem takeArg_map {α β : Type} {want : VArg abi → Option α} {f : α → β} {b : β}
    (taken : takeArg (fun v => (want v).map f) args = some (b, args')) :
    ∃ a, takeArg want args = some (a, args') ∧ b = f a := by
  cases args with
  | nil => simp [takeArg] at taken
  | cons v args =>
    simp only [takeArg, Option.map_map, Option.map_eq_some_iff, Function.comp_apply,
      Prod.mk.injEq] at taken
    obtain ⟨a, wanted, rfl, rfl⟩ := taken
    exact ⟨a, by simp [takeArg, wanted], rfl⟩

/-- No target has words of more than 64 bits, so every argument fits the formatter's
widest number. -/
theorem word_le (abi : Abi) : abi.word ≤ 64 := by
  cases abi <;> decide

/-- An argument read at its own width gives the number of its extension. -/
theorem vaArg_extended {β : Type} {w : Nat} (conv : IntegerConversion) (read : BitVec w → β)
    (read' : BitVec 64 → β) (same : ∀ a, read' (conv.extend a) = read a)
    {want : VArg abi → Option (BitVec w)} {v : BitVec 64}
    (taken : takeArg (fun v => (want v).map conv.extend) args = some (v, args')) :
    (do
      let a ← vaArg want
      pure (read a) : Formatter abi β) ⟨sink, t, args, o⟩ = .ok (read' v) ⟨sink, t, args', o⟩ := by
  obtain ⟨a, taken', rfl⟩ := takeArg_map taken
  rw [Run.bind_apply, vaArg_apply sink t args o want taken', Run.andThen_ok, Run.pure_apply, same]

/-- The extension of a signed argument keeps its number. -/
theorem extend_toInt {conv : IntegerConversion} (signed : conv.signed = true) {w : Nat}
    (fits : w ≤ 64) (a : BitVec w) : (conv.extend a).toInt = a.toInt := by
  rw [IntegerConversion.extend, if_pos signed, BitVec.toInt_signExtend_of_le fits]

/-- The extension of an unsigned argument keeps its number. -/
theorem extend_toNat {conv : IntegerConversion} (unsigned : conv.signed = false) {w : Nat}
    (fits : w ≤ 64) (a : BitVec w) : (conv.extend a).toNat = a.toNat := by
  rw [IntegerConversion.extend, unsigned, if_neg Bool.false_ne_true, BitVec.toNat_setWidth_of_le fits]

/-- A signed argument is read as the number of its extension, at the width that the
length modifier asks for. -/
theorem vaSigned_apply {conv : IntegerConversion} (signed : conv.signed = true)
    (length : LengthModifier) {v : BitVec 64}
    (taken : takeArg (conv.argument length) args = some (v, args')) :
    vaSigned length.count ⟨sink, t, args, o⟩ =
      .ok v.toInt (⟨sink, t, args', o⟩ : FormatState abi) := by
  cases length with
  | ll => exact vaArg_extended conv _ _ (extend_toInt signed (by decide)) taken
  | l => exact vaArg_extended conv _ _ (extend_toInt signed (word_le abi)) taken
  | none => exact vaArg_extended conv _ _ (extend_toInt signed (by decide)) taken
  | h => exact vaArg_extended conv _ _ (extend_toInt signed (by decide)) taken
  | hh => exact vaArg_extended conv _ _ (extend_toInt signed (by decide)) taken
  | z => exact vaArg_extended conv _ _ (extend_toInt signed (by decide)) taken

/-- An unsigned argument is read as the number of its extension, at the width that the
length modifier asks for. -/
theorem vaUnsigned_apply {conv : IntegerConversion} (unsigned : conv.signed = false)
    (length : LengthModifier) {v : BitVec 64}
    (taken : takeArg (conv.argument length) args = some (v, args')) :
    vaUnsigned length.count ⟨sink, t, args, o⟩ =
      .ok v.toNat (⟨sink, t, args', o⟩ : FormatState abi) := by
  cases length with
  | ll => exact vaArg_extended conv _ _ (extend_toNat unsigned (by decide)) taken
  | l => exact vaArg_extended conv _ _ (extend_toNat unsigned (word_le abi)) taken
  | none => exact vaArg_extended conv _ _ (extend_toNat unsigned (by decide)) taken
  | h => exact vaArg_extended conv _ _ (extend_toNat unsigned (by decide)) taken
  | hh => exact vaArg_extended conv _ _ (extend_toNat unsigned (by decide)) taken
  | z => exact vaArg_extended conv _ _ (extend_toNat unsigned (by decide)) taken

/-- A signed conversion takes its argument, and emits its item: the sign is split off,
and the rest is the absolute value. -/
theorem emitSigned_item {conv : IntegerConversion} (signed : conv.signed = true) (width : Int)
    (flags : Flags) (plain : flags.neg = false) (prec : Int) (length : LengthModifier)
    {v : BitVec 64} (taken : takeArg (conv.argument length) args = some (v, args')) :
    emitSigned emit width flags prec length.count ⟨sink, t, args, o⟩ =
      emitItem emit width flags prec (.integer conv v) (⟨sink, t, args', o⟩ : FormatState abi) := by
  have low := v.le_toInt
  have high := v.toInt_lt
  have number : conv.number v = v.toInt := if_pos signed
  have base : conv.base = 10 := by cases conv <;> first | rfl | exact absurd signed (by decide)
  have upper : conv.upper = false := by cases conv <;> first | rfl | exact absurd signed (by decide)
  rw [emitSigned, Run.bind_apply, vaSigned_apply signed length taken, Run.andThen_ok, emitItem, base,
    upper, IntegerConversion.magnitude, number]
  by_cases negative : v.toInt < 0
  · have magnitude : ((-(v.toInt + 1)).toNat + 1) % 2 ^ 64 = v.toInt.natAbs := by omega
    rw [if_pos negative, magnitude, Flags.signed, decide_eq_true negative]
  · have magnitude : v.toInt.toNat = v.toInt.natAbs := by omega
    rw [if_neg negative, magnitude, Flags.signed, decide_eq_false negative, ← plain]

/-- An unsigned conversion takes its argument, and emits its item in its base. -/
theorem emitUnsigned_item {conv : IntegerConversion} (unsigned : conv.signed = false) (width : Int)
    (flags : Flags) (plain : flags.neg = false) (prec : Int) (length : LengthModifier)
    {v : BitVec 64} (taken : takeArg (conv.argument length) args = some (v, args')) :
    emitUnsigned emit conv.base conv.upper width flags prec length.count ⟨sink, t, args, o⟩ =
      emitItem emit width flags prec (.integer conv v) (⟨sink, t, args', o⟩ : FormatState abi) := by
  have number : conv.number v = v.toNat := by
    rw [IntegerConversion.number, unsigned, if_neg Bool.false_ne_true]
  have positive : ¬ ((v.toNat : Int) < 0) := by omega
  rw [emitUnsigned, Run.bind_apply, vaUnsigned_apply unsigned length taken, Run.andThen_ok, emitItem,
    IntegerConversion.magnitude, number, Int.natAbs_natCast, Flags.signed, decide_eq_false positive,
    ← plain]

/-- A conversion found for a character is the one with that character. -/
theorem ofChar_some {spec : UInt8} {conv : IntegerConversion}
    (found : IntegerConversion.ofChar spec = some conv) : spec = conv.char := by
  have matched := List.find?_some found
  exact (of_decide_eq_true matched).symm

/-- A character without a conversion is the character of none. -/
theorem ofChar_none {spec : UInt8} (missing : IntegerConversion.ofChar spec = none)
    (conv : IntegerConversion) : spec ≠ conv.char := by
  rintro rfl
  revert missing
  cases conv <;> decide

/-- The character of an integer conversion selects its routine and nothing else does. -/
theorem emitConversion_char (conv : IntegerConversion) (width : Int) (flags : Flags) (prec : Int)
    (lenL : Nat) :
    (emitConversion emit conv.char width flags prec lenL : Formatter abi PUnit) =
      if conv.signed then emitSigned emit width flags prec lenL
      else emitUnsigned emit conv.base conv.upper width flags prec lenL := by
  cases conv <;> rfl

/-- The character `p` selects the routine for pointers. -/
theorem emitConversion_pointer (width : Int) (flags : Flags) (prec : Int) (lenL : Nat) :
    (emitConversion emit 'p' width flags prec lenL : Formatter abi PUnit) =
      emitPointer emit width flags := rfl

/-- Every conversion character leads to the item of its arguments. There is one case for
each kind of item, and an unknown character prints itself. -/
theorem emitConversion_item (spec : UInt8) (width : Int) (flags : Flags) (plain : flags.neg = false)
    (prec : Int) (length : LengthModifier) {item : Item abi}
    (filled : fillItem spec length args = some (item, args')) :
    emitConversion emit spec width flags prec length.count ⟨sink, t, args, o⟩ =
      emitItem emit width flags prec item (⟨sink, t, args', o⟩ : FormatState abi) := by
  unfold fillItem at filled
  split at filled
  · rename_i character
    obtain ⟨⟨v, behind⟩, taken, same⟩ := Option.map_eq_some_iff.mp filled
    cases same
    rw [emitConversion, if_pos character, Run.bind_apply, vaArg_apply sink t args o asInt taken,
      Run.andThen_ok, emitItem]
  split at filled
  · rename_i character string
    obtain ⟨⟨v, behind⟩, taken, same⟩ := Option.map_eq_some_iff.mp filled
    cases same
    rw [emitConversion, if_neg character, if_pos string, emitString, Run.bind_apply,
      vaArg_apply sink t args o asStr taken, Run.andThen_ok, emitItem]
  split at filled
  · rename_i character string percent
    cases filled
    rw [emitConversion, if_neg character, if_neg string, if_pos percent, emitItem]
  split at filled
  · rename_i character string percent pointer
    obtain ⟨⟨v, behind⟩, taken, same⟩ := Option.map_eq_some_iff.mp filled
    cases same
    subst pointer
    rw [emitConversion_pointer, emitPointer, Run.bind_apply, vaArg_apply sink t args o asPtr taken,
      Run.andThen_ok, emitItem]
  rename_i character string percent pointer
  cases known : IntegerConversion.ofChar spec with
  | some conv =>
    simp only [known] at filled
    obtain ⟨⟨v, behind⟩, taken, same⟩ := Option.map_eq_some_iff.mp filled
    cases same
    have letter := ofChar_some known
    subst letter
    rw [emitConversion_char]
    cases signed : conv.signed with
    | true => exact emitSigned_item emit signed width flags plain prec length taken
    | false => exact emitUnsigned_item emit signed width flags plain prec length taken
  | none =>
    simp only [known] at filled
    cases filled
    have signed : ¬ (spec = 'd' ∨ spec = 'i') :=
      not_or.mpr ⟨ofChar_none known .d, ofChar_none known .i⟩
    have decimal : ¬ spec = 'u' := ofChar_none known .u
    have octal : ¬ spec = 'o' := ofChar_none known .o
    have hex : ¬ spec = 'x' := ofChar_none known .x
    have upper : ¬ spec = 'X' := ofChar_none known .X
    have binary : ¬ spec = 'b' := ofChar_none known .b
    rw [emitConversion, if_neg character, if_neg string, if_neg percent, if_neg signed,
      if_neg decimal, if_neg octal, if_neg hex, if_neg upper, if_neg binary, if_neg pointer, emitItem]

/-! ## Directives -/

namespace Conversion

variable (c : Conversion abi)

def flags : Flags := { left := c.left, zero := c.zero }

/-- An amount has left the range of its counter. -/
def wide : Bool := 2 ^ 31 ≤ c.width || c.prec.any (2 ^ 31 ≤ ·)

end Conversion

/-- A directive that is filled has taken its width, its precision and its item in this
order. -/
theorem fillDirective_some {d : Directive} {c : Conversion abi}
    (filled : fillDirective d args = some (c, args')) :
    ∃ width args₁ prec args₂ item, fillAmount d.width args = some (width, args₁) ∧
      fillPrec d.prec args₁ = some (prec, args₂) ∧
      fillItem d.spec d.length args₂ = some (item, args') ∧
      c = ⟨Flag.left ∈ d.flags ∨ width < 0, Flag.zero ∈ d.flags, width.natAbs, prec, item⟩ := by
  simp only [fillDirective, bind, Option.bind_eq_some_iff, Option.some.injEq, Prod.mk.injEq] at filled
  obtain ⟨⟨width, args₁⟩, first, ⟨prec, args₂⟩, second, ⟨item, args₃⟩, third, rfl, rfl⟩ := filled
  exact ⟨width, args₁, prec, args₂, item, first, second, third, rfl⟩

/-- A directive is read, and its item is emitted: the reading routines in a row consume
what `scanDirective` consumes, and note an amount that wraps. -/
theorem formatDirective_reads (nulFree : 0 ∉ t) {d : Directive} {rest : Text}
    (scanned : scanDirective t = (d, rest)) {c : Conversion abi}
    (filled : fillDirective d args = some (c, args')) :
    formatDirective emit ⟨sink, t, args, o⟩ =
      emitItem emit (wrapInt c.width) c.flags (precInt c.prec) c.item
        ⟨sink, rest, args', o || c.wide⟩ := by
  obtain ⟨width, args₁, prec, args₂, item, first, second, third, rfl⟩ := fillDirective_some filled
  have behind := scanLength_suffix (scanPrec (scanAmount (scanMany flagOf t).2).2).2
  have behind' := (scanPrec_suffix (scanAmount (scanMany flagOf t).2).2).trans
    ((scanAmount_suffix (scanMany flagOf t).2).trans (scanMany_suffix flagOf t))
  have nulFree' : 0 ∉ (scanLength (scanPrec (scanAmount (scanMany flagOf t).2).2).2).2 :=
    fun member => nulFree ((behind.trans behind').subset member)
  simp only [scanDirective, Prod.mk.injEq] at scanned
  obtain ⟨rfl, rfl⟩ := scanned
  rw [formatDirective, Run.bind_apply, readFlags_apply, Run.andThen_ok, Run.bind_apply,
    readWidth_apply _ _ _ _ _ first, Run.andThen_ok]
  simp only
  rw [Run.bind_apply, readPrec_apply _ _ _ _ second, Run.andThen_ok, Run.bind_apply,
    readLength_apply, Run.andThen_ok, Run.bind_apply, readSpec_apply _ _ _ _ nulFree',
    Run.andThen_ok, emitConversion_item emit _ _ _ rfl _ _ third]
  simp only [Conversion.flags, Conversion.wide, Bool.or_assoc, Bool.decide_or]

end

/-! ## Outcomes -/

section

/-- The zeros injected behind the sign run over the end of `numbuf2`. -/
def Item.overruns (width : Int) (flags : Flags) (prec : Int) : Item abi → Bool
  | .integer conv v => Overruns width (flags.signed (conv.number v)) prec
  | _ => false

/-- The characters of a string do not fit `slen`. -/
def Item.long (prec : Int) : Item abi → Bool
  | .string s => 2 ^ 31 ≤ (shown s prec).length
  | _ => false

/-- A state whose sink has taken characters, with an overflow or without. -/
def FormatState.left (s : FormatState abi) (emit : Emit) (chars : List UInt8) (noted : Bool) :
    FormatState abi :=
  { s.sent emit chars with overflow := s.overflow || noted }

/-- Characters sent without an overflow are characters sent. -/
theorem sent_left (s : FormatState abi) (emit : Emit) (chars : List UInt8) :
    s.sent emit chars = s.left emit chars false := by
  simp [FormatState.left, FormatState.sent]

/-- Behind an overflow there is nothing left to note, so a further operation only
computes. -/
theorem intOp_noted (exact : Int) (s : FormatState abi) (noted : s.overflow = true) :
    intOp exact s = .ok (wrapInt exact) s := by
  obtain ⟨sink, t, args, o⟩ := s
  cases noted
  rw [intOp_apply, Bool.true_or]

/-- Behind an overflow the padding is only computed, and the same in every state. -/
theorem excess_noted (abi : Abi) (high low : Int) :
    ∃ v, ∀ s : FormatState abi, s.overflow = true → excess high low s = .ok v s := by
  unfold excess
  split
  · exact ⟨_, fun s noted => intOp_noted _ s noted⟩
  · exact ⟨0, fun s _ => rfl⟩

/-- Behind an overflow padded text is still sent, and which characters these are does
not depend on the state. -/
theorem emitPadded_noted (abi : Abi) (body : List UInt8) (blen width : Int) (flags : Flags)
    (precDigits : Int) :
    ∃ chars, ∀ (emit : Emit) (s : FormatState abi), s.overflow = true →
      emitPadded emit body blen width flags precDigits s = .ok ⟨⟩ (s.sent emit chars) := by
  obtain ⟨padZero, zeros⟩ := excess_noted abi precDigits blen
  obtain ⟨room, spaces⟩ := excess_noted abi width (wrapInt (blen + padZero))
  apply Exists.intro
  intro emit s noted
  rw [emitPadded, Run.bind_apply, zeros s noted, Run.andThen_ok, Run.bind_apply,
    intOp_noted _ s noted, Run.andThen_ok, Run.bind_apply, spaces s noted, Run.andThen_ok]
  simp only [Run.bind_apply, emitWhen_apply, emitTimes_apply, emitChars_apply, Run.andThen_ok,
    sent_append]
  rfl

/-- A string is sent padded, or it is too long and this is noted. -/
theorem emitText_outcome (str : List UInt8) {width : Int} (narrow : width < 2 ^ 31) (flags : Flags) :
    ∃ chars, ∀ (emit : Emit) (s : FormatState abi), emitText emit str width flags s =
      .ok ⟨⟩ (s.left emit chars (2 ^ 31 ≤ str.length)) := by
  by_cases long : 2 ^ 31 ≤ str.length
  · obtain ⟨chars, runs⟩ := emitPadded_noted abi str (wrapInt str.length) width flags (-1)
    refine ⟨chars, ?_⟩
    intro emit s
    obtain ⟨sink, t, args, o⟩ := s
    have differs : wrapInt str.length ≠ str.length := (wrapInt_natCast_ne _).mpr long
    have noted : (o || wrapInt str.length ≠ str.length) = true := by
      rw [decide_eq_true differs, Bool.or_true]
    rw [emitText, Run.bind_apply, intOp_apply, Run.andThen_ok, runs emit _ noted, noted,
      decide_eq_true long]
    simp [FormatState.left, FormatState.sent]
  · refine ⟨paddedChars str width flags (-1), ?_⟩
    intro emit s
    rw [emitText, Run.bind_apply, intOp_inside ⟨by omega, by omega⟩, Run.andThen_ok,
      emitPadded_apply emit str (by omega) narrow flags (by decide), sent_left, decide_eq_false long]

/-- An address is only sent: its digits and its padding fit the counters. -/
theorem emitAddress_outcome (v : BitVec abi.word) {width : Int} (narrow : width < 2 ^ 31)
    (flags : Flags) :
    ∃ chars, ∀ (emit : Emit) (s : FormatState abi), emitAddress emit v width flags s =
      .ok ⟨⟩ (s.sent emit chars) := by
  have isBase : IsBase 16 := by simp [IsBase]
  have fits : v.toNat < 2 ^ 64 :=
    Nat.lt_of_lt_of_le v.isLt (Nat.pow_le_pow_right (by decide) (word_le abi))
  have digits := numberChars_length isBase fits false
  have width_le : (if abi.word = 32 then 8 else 16) ≤ 16 := by split <;> decide
  have room : (byte '0' :: byte 'x' :: (List.replicate ((if abi.word = 32 then 8 else 16) -
      (numberChars v.toNat 16 false).length) (byte '0') ++ numberChars v.toNat 16 false)).length ≤
      68 := by
    rw [List.length_cons, List.length_cons, List.length_append, List.length_replicate]
    omega
  apply Exists.intro
  intro emit s
  rw [emitAddress, Run.bind_apply, numberText_apply isBase fits, Run.andThen_ok, stored,
    if_pos room, Run.bind_apply, Run.pure_apply, Run.andThen_ok,
    emitPadded_apply emit _ (by omega) narrow flags (by decide)]

/-- An item that is only sent meets the general description, with nothing overrun and
nothing to note. -/
theorem outcome_sent {item : Item abi} {width : Int} {flags : Flags} {prec : Int}
    (inside : item.overruns width flags prec = false) (short : item.long prec = false)
    (chars : List UInt8) (runs : ∀ (emit : Emit) (s : FormatState abi),
      emitItem emit width flags prec item s = .ok ⟨⟩ (s.sent emit chars)) :
    ∃ chars, ∀ (emit : Emit) (s : FormatState abi), emitItem emit width flags prec item s =
      if item.overruns width flags prec then .fault .numbuf2
      else .ok ⟨⟩ (s.left emit chars (item.long prec)) := by
  refine ⟨chars, fun emit s => ?_⟩
  rw [inside, if_neg Bool.false_ne_true, short, ← sent_left, runs emit s]

namespace IntegerConversion

/-- The bases of the integer conversions are those for which the digit buffer
suffices. -/
theorem isBase (conv : IntegerConversion) : IsBase conv.base := by
  unfold IsBase
  cases conv <;> decide

/-- An absolute value fits 64 bits, also that of the least negative number. -/
theorem magnitude_lt (conv : IntegerConversion) (v : BitVec 64) : conv.magnitude v < 2 ^ 64 := by
  have low := v.le_toInt
  have high := v.toInt_lt
  have whole := v.isLt
  unfold magnitude number
  split <;> omega

/-- The digits of a number; none for a zero of precision zero. -/
def digits (conv : IntegerConversion) (prec : Int) (v : BitVec 64) : List UInt8 :=
  if prec = 0 ∧ conv.magnitude v = 0 then [] else numberChars (conv.magnitude v) conv.base conv.upper

end IntegerConversion

/-- A number overruns the number buffer, or is sent. The sign decides how many zeros are
injected, and these are what can overrun. -/
theorem emitItem_integer (conv : IntegerConversion) (v : BitVec 64) {width : Int}
    (narrow : width < 2 ^ 31) (flags : Flags) {prec : Int} (precise : prec < 2 ^ 31) (emit : Emit)
    (s : FormatState abi) :
    emitItem emit width flags prec (.integer conv v) s =
      if Overruns width (flags.signed (conv.number v)) prec then .fault .numbuf2
      else .ok ⟨⟩ (s.sent emit (integerChars (conv.digits prec v) width
        (flags.signed (conv.number v)) prec)) := by
  have outcome := emitInteger_apply emit conv.isBase (conv.magnitude_lt v) conv.upper narrow
    (flags.signed (conv.number v)) precise s
  rw [emitItem]
  split
  · rename_i overruns
    exact outcome.1 overruns
  · rename_i inside
    exact outcome.2 inside

/-- What an item does: it overruns the number buffer, or sends its characters. -/
theorem emitItem_outcome (item : Item abi) {width : Int} (narrow : width < 2 ^ 31) (flags : Flags)
    {prec : Int} (precise : prec < 2 ^ 31) :
    ∃ chars, ∀ (emit : Emit) (s : FormatState abi), emitItem emit width flags prec item s =
      if item.overruns width flags prec then .fault .numbuf2
      else .ok ⟨⟩ (s.left emit chars (item.long prec)) := by
  cases item with
  | char c =>
    exact outcome_sent rfl rfl (paddedChars [c] width flags (-1)) fun emit s =>
      emitPadded_apply emit [c] (by simp) narrow flags (by decide) s
  | string str => exact emitText_outcome (shown str prec) narrow flags
  | percent => exact outcome_sent rfl rfl [byte '%'] fun emit s => rfl
  | integer conv v =>
    refine ⟨integerChars (conv.digits prec v) width (flags.signed (conv.number v)) prec,
      fun emit s => ?_⟩
    rw [emitItem_integer conv v narrow flags precise emit s, sent_left]
    simp only [Item.overruns, decide_eq_true_eq]
    rfl
  | pointer v =>
    obtain ⟨chars, runs⟩ := emitAddress_outcome v narrow flags
    exact outcome_sent rfl rfl chars runs
  | unknown spec =>
    refine outcome_sent rfl rfl (if spec = 0 then [byte '%'] else [byte '%', spec]) fun emit s => ?_
    rw [emitItem, emitUnknown]
    split
    · rfl
    · rfl

end

/-! ## Formats -/

/-- The conversions of a format with its arguments, in order. Arguments behind those
asked for are ignored. -/
inductive FilledBy : Text → List (VArg abi) → List (Conversion abi) → Prop where
  | done (args : List (VArg abi)) : FilledBy [] args []
  | ordinary {c : UInt8} {rest : Text} {args : List (VArg abi)} {cs : List (Conversion abi)}
      (plain : c ≠ '%') (fills : FilledBy rest args cs) : FilledBy (c :: rest) args cs
  | directive {t rest : Text} {d : Directive} {args args' : List (VArg abi)} {c : Conversion abi}
      {cs : List (Conversion abi)} (scanned : scanDirective t = (d, rest))
      (filled : fillDirective d args = some (c, args')) (fills : FilledBy rest args' cs) :
      FilledBy (byte '%' :: t) args (c :: cs)

namespace Conversion

/-- The code runs over the number buffer. -/
def overruns (c : Conversion abi) : Bool := c.item.overruns (wrapInt c.width) c.flags (precInt c.prec)

/-- A signed computation leaves the range of `int`. -/
def overflows (c : Conversion abi) : Bool := c.wide || c.item.long (precInt c.prec)

end Conversion

/-- A wrapped counter is below 2^31, as every `int` is. -/
theorem wrapInt_lt (exact : Int) : wrapInt exact < 2 ^ 31 := (wrapInt_isInt exact).2

/-- The precision in the formatter's counter is below 2^31, whether it was given or
not. -/
theorem precInt_lt (prec : Option Nat) : precInt prec < 2 ^ 31 := by
  cases prec with
  | none => decide
  | some prec => exact wrapInt_lt prec

/-- One directive: it overruns the number buffer, or sends its characters, and it notes
an overflow if one of its amounts or its string is too long. -/
theorem formatDirective_outcome {t : Text} (nulFree : 0 ∉ t) {d : Directive} {rest : Text}
    (scanned : scanDirective t = (d, rest)) {c : Conversion abi} {args args' : List (VArg abi)}
    (filled : fillDirective d args = some (c, args')) :
    ∃ chars : List UInt8, ∀ (emit : Emit) (sink : Sink) (o : Bool),
      formatDirective emit ⟨sink, t, args, o⟩ =
        if c.overruns then .fault .numbuf2
        else .ok ⟨⟩ (⟨chars.foldl emit sink, rest, args', o || c.overflows⟩ : FormatState abi) := by
  obtain ⟨chars, runs⟩ := emitItem_outcome c.item (wrapInt_lt c.width) c.flags (precInt_lt c.prec)
  refine ⟨chars, fun emit sink o => ?_⟩
  rw [formatDirective_reads emit nulFree scanned filled, runs emit]
  rw [Conversion.overflows, ← Bool.or_assoc]
  rfl

/-- A round of the loop that meets a `%` reads and emits one directive and goes on
behind it. -/
theorem formatLoop_round (emit : Emit) (fuel : Nat) (sink : Sink) (t : Text) (args : List (VArg abi))
    (o : Bool) :
    formatLoop emit (fuel + 1) ⟨sink, byte '%' :: t, args, o⟩ =
      (formatDirective emit ⟨sink, t, args, o⟩).andThen fun _ => formatLoop emit fuel := by
  rw [formatLoop, Run.bind_apply, fmtPeek_apply, Run.andThen_ok, List.headD_cons,
    if_neg (by decide), Run.bind_apply, fmtAdvance_apply sink (byte '%' :: t) args o (by simp [byte]),
    Run.andThen_ok, List.tail_cons, if_pos rfl, Run.bind_apply]

/-- A whole format: some conversion overruns the number buffer, or all are sent, and
an overflow of any is noted. -/
theorem formatLoop_outcome {t : Text} (nulFree : 0 ∉ t) {args : List (VArg abi)}
    {cs : List (Conversion abi)} (fills : FilledBy t args cs) :
    ∃ (chars : List UInt8) (args' : List (VArg abi)),
      ∀ (emit : Emit) (fuel : Nat), t.length < fuel → ∀ (sink : Sink) (o : Bool),
      formatLoop emit fuel ⟨sink, t, args, o⟩ =
        if cs.any Conversion.overruns then .fault .numbuf2
        else .ok ⟨⟩ (⟨chars.foldl emit sink, [], args', o || cs.any Conversion.overflows⟩ :
          FormatState abi) := by
  induction fills with
  | done args =>
    refine ⟨[], args, fun emit fuel enough sink o => ?_⟩
    obtain ⟨fuel, rfl⟩ : ∃ fuel', fuel = fuel' + 1 := ⟨fuel - 1, by rw [List.length_nil] at enough; omega⟩
    rw [formatLoop_end]
    simp
  | @ordinary c rest args cs plain fills ih =>
    obtain ⟨some_char, behind⟩ := not_or.mp (mt List.mem_cons.mpr nulFree)
    obtain ⟨chars, args', runs⟩ := ih behind
    refine ⟨c :: chars, args', fun emit fuel enough sink o => ?_⟩
    rw [List.length_cons] at enough
    obtain ⟨fuel, rfl⟩ : ∃ fuel', fuel = [c].length + fuel' :=
      ⟨fuel - 1, by rw [List.length_singleton]; omega⟩
    have text := formatLoop_text emit [c] rest (by simpa using ⟨Ne.symm some_char, plain⟩) fuel sink args o
    rw [List.singleton_append] at text
    rw [text, runs emit fuel (by rw [List.length_singleton] at enough; omega)]
    rfl
  | @directive t rest d args args' c cs scanned filled fills ih =>
    obtain ⟨-, nulFree'⟩ := not_or.mp (mt List.mem_cons.mpr nulFree)
    have suffix : rest <:+ t := by
      have forward := scanDirective_suffix t
      rwa [scanned] at forward
    obtain ⟨sent, first⟩ := formatDirective_outcome nulFree' scanned filled
    obtain ⟨chars, args'', runs⟩ := ih fun member => nulFree' (suffix.subset member)
    refine ⟨sent ++ chars, args'', fun emit fuel enough sink o => ?_⟩
    have shorter := suffix.length_le
    rw [List.length_cons] at enough
    obtain ⟨fuel, rfl⟩ : ∃ fuel', fuel = fuel' + 1 := ⟨fuel - 1, by omega⟩
    rw [formatLoop_round, first emit]
    cases beyond : c.overruns with
    | true => simp [beyond]
    | false =>
      rw [if_neg Bool.false_ne_true, Run.andThen_ok, runs emit fuel (by omega)]
      simp [beyond, List.foldl_append, Bool.or_assoc]

end NeoSfp
