import NeoSfp.Bytes
import NeoSfp.Checked

/-!
# The formatter

`format_core` walks a format string, takes its arguments from a `va_list` and
pumps characters into a sink through the sink's `emit` function. A step past the
format's NUL, an argument of another type than the directive asks for, and a
store outside one of the number buffers are faults. A signed computation that
leaves the range of `int` wraps around and is noted in the state.
-/

namespace NeoSfp

open Checked

/-! ## Sinks -/

/-- A sink writes into a buffer or to an output function, whose calls are
recorded; a null pointer is `none`, or `false` for the function. -/
structure Sink where
  produced : Int := 0
  buf : Option Memory := none
  cap : Nat := 0
  pos : Nat := 0
  out : Bool := false
  sent : List UInt8 := []

/-- What a sink does with one character. -/
abbrev Emit := Sink → UInt8 → Sink

/-- The buffer sink: it keeps a character if one more place is left behind it for the
NUL, and counts it in any case. -/
def emitBuf : Emit := fun s c =>
  match s.buf with
  | some memory =>
    if s.pos + 1 < s.cap then
      { s with
        buf := some (Function.update memory s.pos c)
        pos := s.pos + 1
        produced := wrapInt (s.produced + 1) }
    else { s with produced := wrapInt (s.produced + 1) }
  | none => { s with produced := wrapInt (s.produced + 1) }

/-- The character sink: every character is passed on and counted. -/
def emitOut : Emit := fun s c =>
  { s with
    sent := if s.out then s.sent ++ [c] else s.sent
    produced := wrapInt (s.produced + 1) }

/-! ## Arguments -/

/-- The two data models of the code: the target's and the test host's. -/
inductive Abi where
  | ilp32
  | lp64
deriving DecidableEq, Repr

/-- Bits of a `long` and of a pointer. -/
def Abi.word : Abi → Nat
  | .ilp32 => 32
  | .lp64 => 64

/-- One argument of a `va_list`, after the default promotions. -/
inductive VArg (abi : Abi) where
  | int (v : BitVec 32)
  | long (v : BitVec abi.word)
  | longLong (v : BitVec 64)
  | str (s : Option CString)
  | ptr (v : BitVec abi.word)

/-- What no format may do: pass its NUL, ask for an argument that is not there, overrun
one of the local buffers, or loop longer than it is. -/
inductive FormatFault where
  | pastNul
  | badArg
  | tmp
  | numbuf
  | numbuf2
  | fuel
deriving DecidableEq, Repr

/-- The sink, what is left of the format and of the arguments, and whether a signed
computation has left its range. -/
structure FormatState (abi : Abi) where
  sink : Sink
  fmt : Text
  args : List (VArg abi)
  overflow : Bool := false

/-- A routine of the formatter for one data model. -/
abbrev Formatter (abi : Abi) := Run FormatFault (FormatState abi)

variable {abi : Abi}

/-- `*fmt`, the NUL at the end. -/
def fmtPeek : Formatter abi UInt8 := Run.read .pastNul fun s => rd s.fmt 0

/-- `++fmt`. -/
def fmtAdvance : Formatter abi PUnit := Run.update .pastNul fun s =>
  match s.fmt with
  | [] => none
  | _ :: rest => some { s with fmt := rest }

/-- The characters of the format that are left. -/
def fmtLeft : Formatter abi Nat := Run.read .fuel fun s => some s.fmt.length

/-- A signed result: it wraps, and leaving the range of `int` is noted. -/
def intOp (exact : Int) : Formatter abi Int := do
  Run.modify fun s => { s with overflow := s.overflow || wrapInt exact ≠ exact }
  pure (wrapInt exact)

/-- Take the next argument, if it is one of those wanted. -/
def vaArg {α : Type} (want : VArg abi → Option α) : Formatter abi α := do
  let v ← Run.read .badArg fun s => s.args.head?.bind want
  Run.modify fun s => { s with args := s.args.tail }
  pure v

/-- The argument is an `int`. -/
def asInt : VArg abi → Option (BitVec 32)
  | .int v => some v
  | _ => none

/-- The argument is a `long`, as wide as a word of the data model. -/
def asLong : VArg abi → Option (BitVec abi.word)
  | .long v => some v
  | _ => none

/-- The argument is a `long long`. -/
def asLongLong : VArg abi → Option (BitVec 64)
  | .longLong v => some v
  | _ => none

/-- The argument is a string, or the null pointer. -/
def asStr : VArg abi → Option (Option CString)
  | .str s => some s
  | _ => none

/-- The argument is a pointer, as wide as a word of the data model. -/
def asPtr : VArg abi → Option (BitVec abi.word)
  | .ptr v => some v
  | _ => none

/-! ## Numbers -/

/-- One digit off a number. The bases that are powers of two use masks and shifts. -/
def digitStep (base v : Nat) : Nat × Nat :=
  if base = 10 then (v % 10, v / 10)
  else if base = 16 then (v &&& 0xF, v >>> 4)
  else if base = 8 then (v &&& 0x7, v >>> 3)
  else if base = 2 then (v &&& 0x1, v >>> 1)
  else (v % base, v / base)

/-- The character of a digit, from the table for its case. -/
def digitChar (upper : Bool) (digit : Nat) : UInt8 :=
  (if upper then bytes "0123456789ABCDEF" else bytes "0123456789abcdef").getD digit 0

/-- The digits of `v` in front of those already in `tmp`, which has 65 places. -/
def digitLoop (base : Nat) (upper : Bool) : Nat → Nat → List UInt8 → Option (List UInt8)
  | 0, v, tmp => if v = 0 then some tmp else none
  | places + 1, v, tmp =>
    if v = 0 then some tmp
    else
      let (digit, v) := digitStep base v
      digitLoop base upper places v (digitChar upper digit :: tmp)

/-- The digits most significant first; none if they do not fit `tmp`. -/
def u64ToStr (v base : Nat) (upper : Bool) : Option (List UInt8) :=
  if v = 0 then some [byte '0'] else digitLoop base upper 65 v []

/-- Characters written into an array of `size` bytes. -/
def stored (fault : FormatFault) (size : Nat) (chars : List UInt8) :
    Formatter abi (List UInt8) :=
  if chars.length ≤ size then pure chars else Run.fault fault

/-- The digits as they stand in `numbuf` behind `lead` characters. -/
def numberText (v base : Nat) (upper : Bool) : Formatter abi (List UInt8) := do
  let digits ← Run.read .tmp fun _ => u64ToStr v base upper
  stored .numbuf 68 digits

/-- The flags of a directive, and whether the number is negative. -/
structure Flags where
  left : Bool := false
  zero : Bool := false
  neg : Bool := false
deriving DecidableEq, Repr

/-- The digits at the place in the format, behind those that gave `v`; the sum is an
`int` and wraps. -/
def parseUintLoop : Nat → Int → Formatter abi Int
  | 0, _ => Run.fault .fuel
  | fuel + 1, v => do
    let ch ← fmtPeek
    if ch ≥ '0' ∧ ch ≤ '9' then do
      let v ← intOp (v * 10 + (ch.toNat - 48))
      fmtAdvance
      parseUintLoop fuel v
    else
      pure v

/-- A numeral at the place in the format, and zero if there is none. -/
def parseUint : Formatter abi Int := do
  let left ← fmtLeft
  parseUintLoop (left + 1) 0

/-! ## Directives -/

/-- The flags at the place in the format, in any order and any number. -/
def flagLoop : Nat → Flags → Formatter abi Flags
  | 0, _ => Run.fault .fuel
  | fuel + 1, flags => do
    let ch ← fmtPeek
    if ch = '-' then do
      fmtAdvance
      flagLoop fuel { flags with left := true }
    else if ch = '0' then do
      fmtAdvance
      flagLoop fuel { flags with zero := true }
    else
      pure flags

/-- The flags of a directive. -/
def readFlags : Formatter abi Flags := do
  let left ← fmtLeft
  flagLoop (left + 1) {}

/-- The width; a negative `*` sets the `-` flag. -/
def readWidth (flags : Flags) : Formatter abi (Int × Flags) := do
  let ch ← fmtPeek
  if ch = '*' then do
    let v ← vaArg asInt
    fmtAdvance
    if v.toInt < 0 then do
      let width ← intOp (-v.toInt)
      pure (width, { flags with left := true })
    else
      pure (v.toInt, flags)
  else do
    let width ← parseUint
    pure (width, flags)

/-- The precision, -1 when there is none. -/
def readPrec : Formatter abi Int := do
  let ch ← fmtPeek
  if ch = '.' then do
    fmtAdvance
    let ch ← fmtPeek
    if ch = '*' then do
      let v ← vaArg asInt
      fmtAdvance
      pure (if v.toInt < 0 then -1 else v.toInt)
    else
      parseUint
  else
    pure (-1)

/-- Skip `ch` if it comes next. -/
def skipChar (ch : UInt8) : Formatter abi Bool := do
  let next ← fmtPeek
  if next = ch then do
    fmtAdvance
    pure true
  else
    pure false

/-- The length modifier: 1 for `l`, 2 for `ll`; `h`, `hh` and `z` count as none. -/
def readLength : Formatter abi Nat := do
  let long ← skipChar 'l'
  if long then do
    let longLong ← skipChar 'l'
    pure (if longLong then 2 else 1)
  else do
    let half ← skipChar 'h'
    if half then do
      let _ ← skipChar 'h'
      pure 0
    else do
      let _ ← skipChar 'z'
      pure 0

/-- The conversion character, NUL at the end of the format. -/
def readSpec : Formatter abi UInt8 := do
  let ch ← fmtPeek
  if ch = 0 then
    pure 0
  else do
    fmtAdvance
    pure ch

/-- A signed argument of the type that the number of `l` asks for. -/
def vaSigned (lenL : Nat) : Formatter abi Int :=
  if lenL = 2 then do
    let v ← vaArg asLongLong
    pure v.toInt
  else if lenL = 1 then do
    let v ← vaArg asLong
    pure v.toInt
  else do
    let v ← vaArg asInt
    pure v.toInt

/-- An unsigned argument of the type that the number of `l` asks for. -/
def vaUnsigned (lenL : Nat) : Formatter abi Nat :=
  if lenL = 2 then do
    let v ← vaArg asLongLong
    pure v.toNat
  else if lenL = 1 then do
    let v ← vaArg asLong
    pure v.toNat
  else do
    let v ← vaArg asInt
    pure v.toNat

/-! ## Emission -/

section

variable (emit : Emit)

/-- One character for the sink. -/
def sinkPutc (c : UInt8) : Formatter abi PUnit := Run.modify fun s => { s with sink := emit s.sink c }

/-- `while(n-- > 0) sink_putc(s, c);`. -/
def emitTimes : Nat → UInt8 → Formatter abi PUnit
  | 0, _ => pure ⟨⟩
  | n + 1, c => do
    sinkPutc emit c
    emitTimes n c

/-- A padding loop behind a test. -/
def emitWhen (test : Bool) (n : Nat) (c : UInt8) : Formatter abi PUnit :=
  if test then emitTimes emit n c else pure ⟨⟩

/-- The characters of a body, one by one. -/
def emitChars : List UInt8 → Formatter abi PUnit
  | [] => pure ⟨⟩
  | c :: body => do
    sinkPutc emit c
    emitChars body

/-- `(high > low) ? high - low : 0`. -/
def excess (high low : Int) : Formatter abi Int :=
  if high > low then intOp (high - low) else pure 0

/-- The first `blen` characters of the body, padded. -/
def emitPadded (body : List UInt8) (blen width : Int) (flags : Flags) (precDigits : Int) :
    Formatter abi PUnit := do
  let padZero ← excess precDigits blen
  let total ← intOp (blen + padZero)
  let room ← excess width total
  -- when a precision is given, the '0' flag is ignored
  let viaWidth := flags.zero && !flags.left && precDigits < 0
  let padSpace := if viaWidth then 0 else room
  emitWhen emit (!flags.left) padSpace.toNat ' '
  emitTimes emit (if viaWidth then room else 0).toNat '0'
  emitTimes emit padZero.toNat '0'
  emitChars emit (body.take blen.toNat)
  emitWhen emit flags.left padSpace.toNat ' '

/-- The sign and digits in `numbuf2`: for a negative number padded with zeros to
the width, the zeros are injected behind the sign. -/
def signedBody (digits : List UInt8) (width : Int) (flags : Flags) (precDigits : Int) :
    Formatter abi (List UInt8 × Flags) := do
  let body ← stored .numbuf2 70 (if flags.neg then byte '-' :: digits else digits)
  let pos : Int := body.length
  if flags.neg ∧ flags.zero ∧ ¬ flags.left ∧ precDigits < 0 ∧ width > pos then do
    let extra ← intOp (width - pos)
    let body ← stored .numbuf2 70
      (byte '-' :: (List.replicate extra.toNat (byte '0') ++ digits))
    let _ ← intOp (pos + extra)
    pure (body, { flags with zero := false })
  else
    pure (body, flags)

/-- The integer path: magnitude `uv`, sign in the flags. -/
def emitInteger (uv base : Nat) (upper : Bool) (width : Int) (flags : Flags) (prec : Int) :
    Formatter abi PUnit := do
  let digits ← numberText uv base upper
  -- C99: precision 0 with value 0 renders no digit
  let digits := if prec = 0 ∧ uv = 0 then [] else digits
  let precDigits := if prec ≥ 0 then prec else -1
  let (body, flags) ← signedBody digits width flags precDigits
  emitPadded emit body body.length width flags precDigits

/-- A signed conversion: the absolute value is computed without an overflow, also for
the least number. -/
def emitSigned (width : Int) (flags : Flags) (prec : Int) (lenL : Nat) : Formatter abi PUnit := do
  let sv ← vaSigned lenL
  if sv < 0 then
    emitInteger emit (((-(sv + 1)).toNat + 1) % 2 ^ 64) 10 false width { flags with neg := true } prec
  else
    emitInteger emit sv.toNat 10 false width flags prec

/-- An unsigned conversion in its base. -/
def emitUnsigned (base : Nat) (upper : Bool) (width : Int) (flags : Flags) (prec : Int)
    (lenL : Nat) : Formatter abi PUnit := do
  let uv ← vaUnsigned lenL
  emitInteger emit uv base upper width flags prec

/-- The characters `%s` shows of a string: at most `prec`, unless that is negative. -/
def shown (s : Option CString) (prec : Int) : List UInt8 :=
  let str := match s with
    | some s => s.chars
    | none => bytes "(null)"
  if prec < 0 then str else str.take prec.toNat

/-- `slen` counts the characters one by one. -/
def emitText (str : List UInt8) (width : Int) (flags : Flags) : Formatter abi PUnit := do
  let slen ← intOp str.length
  emitPadded emit str slen width flags (-1)

/-- A string conversion, with `(null)` for the null pointer. -/
def emitString (width : Int) (flags : Flags) (prec : Int) : Formatter abi PUnit := do
  let s ← vaArg asStr
  emitText emit (shown s prec) width flags

/-- `0x` and the digits, with zeros up to the width of a pointer. -/
def emitAddress (v : BitVec abi.word) (width : Int) (flags : Flags) : Formatter abi PUnit := do
  let digits ← numberText v.toNat 16 false
  let ptrW := if abi.word = 32 then 8 else 16
  let body ← stored .numbuf 68 (byte '0' :: byte 'x' ::
    (List.replicate (ptrW - digits.length) (byte '0') ++ digits))
  emitPadded emit body body.length width flags (-1)

/-- A pointer conversion. -/
def emitPointer (width : Int) (flags : Flags) : Formatter abi PUnit := do
  let v ← vaArg asPtr
  emitAddress emit v width flags

/-- An unknown conversion is printed as it stands. -/
def emitUnknown (spec : UInt8) : Formatter abi PUnit := do
  sinkPutc emit '%'
  if spec = 0 then pure ⟨⟩ else sinkPutc emit spec

/-- The conversions, by their character. -/
def emitConversion (spec : UInt8) (width : Int) (flags : Flags) (prec : Int) (lenL : Nat) :
    Formatter abi PUnit :=
  if spec = 'c' then do
    let v ← vaArg asInt
    emitPadded emit [UInt8.ofNat v.toNat] 1 width flags (-1)
  else if spec = 's' then
    emitString emit width flags prec
  else if spec = '%' then
    sinkPutc emit '%'
  else if spec = 'd' ∨ spec = 'i' then
    emitSigned emit width flags prec lenL
  else if spec = 'u' then
    emitUnsigned emit 10 false width flags prec lenL
  else if spec = 'o' then
    emitUnsigned emit 8 false width flags prec lenL
  else if spec = 'x' then
    emitUnsigned emit 16 false width flags prec lenL
  else if spec = 'X' then
    emitUnsigned emit 16 true width flags prec lenL
  else if spec = 'b' then
    emitUnsigned emit 2 false width flags prec lenL
  else if spec = 'p' then
    emitPointer emit width flags
  else
    emitUnknown emit spec

/-- A directive behind its `%`. -/
def formatDirective : Formatter abi PUnit := do
  let flags ← readFlags
  let (width, flags) ← readWidth flags
  let prec ← readPrec
  let lenL ← readLength
  let spec ← readSpec
  emitConversion emit spec width flags prec lenL

/-- The loop over the format: a `%` begins a directive, and everything else is sent as
it is. -/
def formatLoop : Nat → Formatter abi PUnit
  | 0 => Run.fault .fuel
  | fuel + 1 => do
    let c ← fmtPeek
    if c = 0 then
      pure ⟨⟩
    else do
      fmtAdvance
      if c = '%' then
        formatDirective emit
      else
        sinkPutc emit c
      formatLoop fuel

/-- The formatter, whose loop has as much fuel as the format has characters. -/
def formatCore : Formatter abi PUnit := do
  let left ← fmtLeft
  formatLoop emit (left + 1)

end

/-! ## Entry points -/

/-- A run of the formatter on a sink: the final sink, or the fault. -/
def runFormat (emit : Emit) (sink : Sink) (fmt : CString) (args : List (VArg abi)) :
    Except FormatFault Sink :=
  match (formatCore emit : Formatter abi PUnit) { sink := sink, fmt := fmt.chars, args := args } with
  | .ok _ s => .ok s.sink
  | .err s => .ok s.sink
  | .fault reason => .error reason

/-- The return value and the characters passed to the output function. -/
def neoVfprintf (fmt : CString) (args : List (VArg abi)) : Except FormatFault (Int × List UInt8) := do
  let s ← runFormat emitOut { out := true } fmt args
  pure (s.produced, s.sent)

/-- The return value and the buffer left behind. -/
def neoVsnprintf (buf : Option Memory) (size : Nat) (fmt : CString) (args : List (VArg abi)) :
    Except FormatFault (Int × Option Memory) := do
  let s ← runFormat emitBuf { buf := buf, cap := size } fmt args
  match s.buf with
  | some memory =>
    if size > 0 then
      let last := if s.pos < size then s.pos else size - 1
      pure (s.produced, some (Function.update memory last 0))
    else
      pure (s.produced, some memory)
  | none => pure (s.produced, none)

end NeoSfp
