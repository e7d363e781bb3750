import NeoSfp.Formatter
import NeoSfp.Simulation

/-!
# The two sinks agree

The formatter decides what to emit from its format and arguments alone, so two
instances of it on different sinks run in step, whatever each emitted character
keeps about the two sinks. Between the character sink and a buffer, what is kept
is the law of truncation.
-/

namespace NeoSfp

open Checked

/-! ## Instances in step -/

section

variable {abi : Abi} {α : Type}

/-- The same place in the format, the same arguments left, and related sinks. -/
structure SameWalk (related : Sink → Sink → Prop) (left right : FormatState abi) : Prop where
  fmt : left.fmt = right.fmt
  args : left.args = right.args
  overflow : left.overflow = right.overflow
  sink : related left.sink right.sink

variable (related : Sink → Sink → Prop)

/-- A part of the formatter that does not look at the sink. -/
def Blind (run : Formatter abi α) : Prop := InStep (SameWalk related) run run

/-- Looking at the format does not look at the sink. -/
theorem fmtPeek_blind : Blind related (fmtPeek : Formatter abi UInt8) := by
  apply inStep_read
  intro left right walk
  rw [walk.fmt]

/-- Counting the characters left of the format does not look at the sink. -/
theorem fmtLeft_blind : Blind related (fmtLeft : Formatter abi Nat) := by
  apply inStep_read
  intro left right walk
  rw [walk.fmt]

/-- Advancing in the format does not look at the sink, and faults alike behind the
NUL. -/
theorem fmtAdvance_blind : Blind related (fmtAdvance : Formatter abi PUnit) := by
  apply inStep_update
  intro left right walk
  have place := walk.fmt
  cases remaining : right.fmt with
  | nil =>
    left
    rw [remaining] at place
    simp [place]
  | cons ch rest =>
    right
    rw [remaining] at place
    refine ⟨{ left with fmt := rest }, { right with fmt := rest }, by simp [place], rfl, ?_⟩
    exact ⟨rfl, walk.args, walk.overflow, walk.sink⟩

/-- An operation on the counters does not look at the sink; whether it overflowed is
noted in both runs. -/
theorem intOp_blind (exact : Int) : Blind related (intOp exact : Formatter abi Int) := by
  apply inStep_bind
  · apply inStep_modify
    intro left right walk
    exact ⟨walk.fmt, walk.args, by simp [walk.overflow], walk.sink⟩
  · intro _
    exact inStep_pure _

/-- Taking an argument does not look at the sink, and faults alike where it is
missing. -/
theorem vaArg_blind (want : VArg abi → Option α) : Blind related (vaArg want) := by
  apply inStep_bind
  · apply inStep_read
    intro left right walk
    rw [walk.args]
  · intro v
    apply inStep_bind
    · apply inStep_modify
      intro left right walk
      exact ⟨walk.fmt, by simp [walk.args], walk.overflow, walk.sink⟩
    · intro _
      exact inStep_pure _

/-- Filling a local buffer does not look at the sink. -/
theorem stored_blind (fault : FormatFault) (size : Nat) (chars : List UInt8) :
    Blind related (stored fault size chars : Formatter abi (List UInt8)) :=
  inStep_ite (inStep_pure _) (inStep_fault _)

/-- Writing out a number does not look at the sink. -/
theorem numberText_blind (v base : Nat) (upper : Bool) :
    Blind related (numberText v base upper : Formatter abi (List UInt8)) := by
  apply inStep_bind
  · apply inStep_read
    intro left right _
    rfl
  · intro digits
    exact stored_blind related _ _ _

/-- Reading digits does not look at the sink. By induction on the fuel. -/
theorem parseUintLoop_blind (fuel : Nat) (v : Int) :
    Blind related (parseUintLoop fuel v : Formatter abi Int) := by
  induction fuel generalizing v with
  | zero => exact inStep_fault _
  | succ fuel ih =>
    apply inStep_bind (fmtPeek_blind related)
    intro ch
    apply inStep_ite
    · apply inStep_bind (intOp_blind related _)
      intro v
      apply inStep_bind (fmtAdvance_blind related)
      intro _
      exact ih v
    · exact inStep_pure _

/-- Reading a numeral does not look at the sink. -/
theorem parseUint_blind : Blind related (parseUint : Formatter abi Int) := by
  apply inStep_bind (fmtLeft_blind related)
  intro left
  exact parseUintLoop_blind related _ _

/-- Reading flags one by one does not look at the sink. By induction on the fuel. -/
theorem flagLoop_blind (fuel : Nat) (flags : Flags) :
    Blind related (flagLoop fuel flags : Formatter abi Flags) := by
  induction fuel generalizing flags with
  | zero => exact inStep_fault _
  | succ fuel ih =>
    apply inStep_bind (fmtPeek_blind related)
    intro ch
    apply inStep_ite
    · apply inStep_bind (fmtAdvance_blind related)
      intro _
      exact ih _
    · apply inStep_ite
      · apply inStep_bind (fmtAdvance_blind related)
        intro _
        exact ih _
      · exact inStep_pure _

/-- Reading the flags does not look at the sink. -/
theorem readFlags_blind : Blind related (readFlags : Formatter abi Flags) := by
  apply inStep_bind (fmtLeft_blind related)
  intro left
  exact flagLoop_blind related _ _

/-- Reading the width does not look at the sink, whether it is written or an
argument. -/
theorem readWidth_blind (flags : Flags) :
    Blind related (readWidth flags : Formatter abi (Int × Flags)) := by
  apply inStep_bind (fmtPeek_blind related)
  intro ch
  apply inStep_ite
  · apply inStep_bind (vaArg_blind related _)
    intro v
    apply inStep_bind (fmtAdvance_blind related)
    intro _
    apply inStep_ite
    · apply inStep_bind (intOp_blind related _)
      intro width
      exact inStep_pure _
    · exact inStep_pure _
  · apply inStep_bind (parseUint_blind related)
    intro width
    exact inStep_pure _

/-- Reading the precision does not look at the sink. -/
theorem readPrec_blind : Blind related (readPrec : Formatter abi Int) := by
  apply inStep_bind (fmtPeek_blind related)
  intro ch
  apply inStep_ite
  · apply inStep_bind (fmtAdvance_blind related)
    intro _
    apply inStep_bind (fmtPeek_blind related)
    intro next
    apply inStep_ite
    · apply inStep_bind (vaArg_blind related _)
      intro v
      apply inStep_bind (fmtAdvance_blind related)
      intro _
      exact inStep_pure _
    · exact parseUint_blind related
  · exact inStep_pure _

/-- Passing an expected character does not look at the sink. -/
theorem skipChar_blind (ch : UInt8) : Blind related (skipChar ch : Formatter abi Bool) := by
  apply inStep_bind (fmtPeek_blind related)
  intro next
  apply inStep_ite
  · apply inStep_bind (fmtAdvance_blind related)
    intro _
    exact inStep_pure _
  · exact inStep_pure _

/-- Reading the length modifier does not look at the sink. -/
theorem readLength_blind : Blind related (readLength : Formatter abi Nat) := by
  apply inStep_bind (skipChar_blind related _)
  intro long
  apply inStep_ite
  · apply inStep_bind (skipChar_blind related _)
    intro longLong
    exact inStep_pure _
  · apply inStep_bind (skipChar_blind related _)
    intro half
    apply inStep_ite
    · apply inStep_bind (skipChar_blind related _)
      intro _
      exact inStep_pure _
    · apply inStep_bind (skipChar_blind related _)
      intro _
      exact inStep_pure _

/-- Reading the conversion character does not look at the sink. -/
theorem readSpec_blind : Blind related (readSpec : Formatter abi UInt8) := by
  apply inStep_bind (fmtPeek_blind related)
  intro ch
  apply inStep_ite
  · exact inStep_pure _
  · apply inStep_bind (fmtAdvance_blind related)
    intro _
    exact inStep_pure _

/-- Taking a signed argument does not look at the sink. -/
theorem vaSigned_blind (lenL : Nat) : Blind related (vaSigned lenL : Formatter abi Int) := by
  apply inStep_ite
  · apply inStep_bind (vaArg_blind related _)
    intro v
    exact inStep_pure _
  · apply inStep_ite
    · apply inStep_bind (vaArg_blind related _)
      intro v
      exact inStep_pure _
    · apply inStep_bind (vaArg_blind related _)
      intro v
      exact inStep_pure _

/-- Taking an unsigned argument does not look at the sink. -/
theorem vaUnsigned_blind (lenL : Nat) : Blind related (vaUnsigned lenL : Formatter abi Nat) := by
  apply inStep_ite
  · apply inStep_bind (vaArg_blind related _)
    intro v
    exact inStep_pure _
  · apply inStep_ite
    · apply inStep_bind (vaArg_blind related _)
      intro v
      exact inStep_pure _
    · apply inStep_bind (vaArg_blind related _)
      intro v
      exact inStep_pure _

/-- Putting the sign and the zeros in front of the digits does not look at the sink. -/
theorem signedBody_blind (digits : List UInt8) (width : Int) (flags : Flags) (precDigits : Int) :
    Blind related (signedBody digits width flags precDigits :
      Formatter abi (List UInt8 × Flags)) := by
  apply inStep_bind (stored_blind related _ _ _)
  intro body
  apply inStep_ite
  · apply inStep_bind (intOp_blind related _)
    intro extra
    apply inStep_bind (stored_blind related _ _ _)
    intro padded
    apply inStep_bind (intOp_blind related _)
    intro _
    exact inStep_pure _
  · exact inStep_pure _

/-- Computing what is missing to a width does not look at the sink. -/
theorem excess_blind (high low : Int) :
    Blind related (excess high low : Formatter abi Int) :=
  inStep_ite (intOp_blind related _) (inStep_pure _)

end

/-! ## Emission in step -/

section

-- the counters stay opaque here: unfolded, they are remainders of unknown numbers
attribute [local irreducible] wrapInt

variable {abi : Abi} {related : Sink → Sink → Prop} {emit emit' : Emit}

/-- Each emitted character keeps the relation. -/
def KeptBy (related : Sink → Sink → Prop) (emit emit' : Emit) : Prop :=
  ∀ left right c, related left right → related (emit left c) (emit' right c)

variable (kept : KeptBy related emit emit')

include kept

/-- One character keeps related sinks related. This is the only place where the two
sinks differ. -/
theorem sinkPutc_inStep (c : UInt8) :
    InStep (SameWalk related) (sinkPutc emit c : Formatter abi PUnit) (sinkPutc emit' c) := by
  apply inStep_modify
  intro left right walk
  exact ⟨walk.fmt, walk.args, walk.overflow, kept _ _ c walk.sink⟩

/-- A repeated character keeps the sinks in step. By induction on how often it is
repeated. -/
theorem emitTimes_inStep (n : Nat) (c : UInt8) :
    InStep (SameWalk related) (emitTimes emit n c : Formatter abi PUnit) (emitTimes emit' n c) := by
  induction n with
  | zero => exact inStep_pure _
  | succ n ih =>
    apply inStep_bind (sinkPutc_inStep kept c)
    intro _
    exact ih

/-- A padding that is made or not keeps the sinks in step. -/
theorem emitWhen_inStep (test : Bool) (n : Nat) (c : UInt8) :
    InStep (SameWalk related) (emitWhen emit test n c : Formatter abi PUnit)
      (emitWhen emit' test n c) :=
  inStep_ite (emitTimes_inStep kept n c) (inStep_pure _)

/-- The characters of a body keep the sinks in step. By induction on them. -/
theorem emitChars_inStep (body : List UInt8) :
    InStep (SameWalk related) (emitChars emit body : Formatter abi PUnit)
      (emitChars emit' body) := by
  induction body with
  | nil => exact inStep_pure _
  | cons c body ih =>
    apply inStep_bind (sinkPutc_inStep kept c)
    intro _
    exact ih

/-- A padded body keeps the sinks in step: padding, zeros, body and padding, one behind
the other. -/
theorem emitPadded_inStep (body : List UInt8) (blen width : Int) (flags : Flags)
    (precDigits : Int) :
    InStep (SameWalk related)
      (emitPadded emit body blen width flags precDigits : Formatter abi PUnit)
      (emitPadded emit' body blen width flags precDigits) := by
  apply inStep_bind (excess_blind related _ _)
  intro padZero
  apply inStep_bind (intOp_blind related _)
  intro total
  apply inStep_bind (excess_blind related _ _)
  intro room
  apply inStep_bind (emitWhen_inStep kept _ _ _)
  intro _
  apply inStep_bind (emitTimes_inStep kept _ _)
  intro _
  apply inStep_bind (emitTimes_inStep kept _ _)
  intro _
  apply inStep_bind (emitChars_inStep kept _)
  intro _
  exact emitWhen_inStep kept _ _ _

/-- A number keeps the sinks in step, its digits being computed without them. -/
theorem emitInteger_inStep (uv base : Nat) (upper : Bool) (width : Int) (flags : Flags)
    (prec : Int) :
    InStep (SameWalk related) (emitInteger emit uv base upper width flags prec : Formatter abi PUnit)
      (emitInteger emit' uv base upper width flags prec) := by
  apply inStep_bind (numberText_blind related _ _ _)
  intro digits
  apply inStep_bind (signedBody_blind related _ _ _ _)
  intro composed
  exact emitPadded_inStep kept _ _ _ _ _

/-- A signed conversion keeps the sinks in step. -/
theorem emitSigned_inStep (width : Int) (flags : Flags) (prec : Int) (lenL : Nat) :
    InStep (SameWalk related) (emitSigned emit width flags prec lenL : Formatter abi PUnit)
      (emitSigned emit' width flags prec lenL) := by
  apply inStep_bind (vaSigned_blind related _)
  intro sv
  exact inStep_ite (emitInteger_inStep kept _ _ _ _ _ _) (emitInteger_inStep kept _ _ _ _ _ _)

/-- An unsigned conversion keeps the sinks in step. -/
theorem emitUnsigned_inStep (base : Nat) (upper : Bool) (width : Int) (flags : Flags)
    (prec : Int) (lenL : Nat) :
    InStep (SameWalk related)
      (emitUnsigned emit base upper width flags prec lenL : Formatter abi PUnit)
      (emitUnsigned emit' base upper width flags prec lenL) := by
  apply inStep_bind (vaUnsigned_blind related _)
  intro uv
  exact emitInteger_inStep kept _ _ _ _ _ _

/-- A text keeps the sinks in step. -/
theorem emitText_inStep (str : List UInt8) (width : Int) (flags : Flags) :
    InStep (SameWalk related) (emitText emit str width flags : Formatter abi PUnit)
      (emitText emit' str width flags) := by
  apply inStep_bind (intOp_blind related _)
  intro slen
  exact emitPadded_inStep kept _ _ _ _ _

/-- A string conversion keeps the sinks in step, also for the null pointer. -/
theorem emitString_inStep (width : Int) (flags : Flags) (prec : Int) :
    InStep (SameWalk related) (emitString emit width flags prec : Formatter abi PUnit)
      (emitString emit' width flags prec) := by
  apply inStep_bind (vaArg_blind related _)
  intro s
  exact emitText_inStep kept _ _ _

/-- A pointer conversion keeps the sinks in step, also for the null pointer. -/
theorem emitPointer_inStep (width : Int) (flags : Flags) :
    InStep (SameWalk related) (emitPointer emit width flags : Formatter abi PUnit)
      (emitPointer emit' width flags) := by
  apply inStep_bind (vaArg_blind related _)
  intro v
  apply inStep_bind (numberText_blind related _ _ _)
  intro digits
  apply inStep_bind (stored_blind related _ _ _)
  intro body
  exact emitPadded_inStep kept _ _ _ _ _

/-- Every conversion keeps the sinks in step. There is one case for each conversion
character. -/
theorem emitConversion_inStep (spec : UInt8) (width : Int) (flags : Flags) (prec : Int)
    (lenL : Nat) :
    InStep (SameWalk related) (emitConversion emit spec width flags prec lenL : Formatter abi PUnit)
      (emitConversion emit' spec width flags prec lenL) := by
  apply inStep_ite
  · apply inStep_bind (vaArg_blind related _)
    intro v
    exact emitPadded_inStep kept _ _ _ _ _
  apply inStep_ite
  · exact emitString_inStep kept _ _ _
  apply inStep_ite
  · exact sinkPutc_inStep kept _
  apply inStep_ite
  · exact emitSigned_inStep kept _ _ _ _
  apply inStep_ite
  · exact emitUnsigned_inStep kept _ _ _ _ _ _
  apply inStep_ite
  · exact emitUnsigned_inStep kept _ _ _ _ _ _
  apply inStep_ite
  · exact emitUnsigned_inStep kept _ _ _ _ _ _
  apply inStep_ite
  · exact emitUnsigned_inStep kept _ _ _ _ _ _
  apply inStep_ite
  · exact emitUnsigned_inStep kept _ _ _ _ _ _
  apply inStep_ite
  · exact emitPointer_inStep kept _ _
  apply inStep_bind (sinkPutc_inStep kept _)
  intro _
  exact inStep_ite (inStep_pure _) (sinkPutc_inStep kept _)

/-- A directive keeps the sinks in step: it is read blindly, and then its item is
emitted. -/
theorem formatDirective_inStep :
    InStep (SameWalk related) (formatDirective emit : Formatter abi PUnit)
      (formatDirective emit') := by
  apply inStep_bind (readFlags_blind related)
  intro flags
  apply inStep_bind (readWidth_blind related flags)
  intro widened
  apply inStep_bind (readPrec_blind related)
  intro prec
  apply inStep_bind (readLength_blind related)
  intro lenL
  apply inStep_bind (readSpec_blind related)
  intro spec
  exact emitConversion_inStep kept _ _ _ _ _

/-- The loop over the format keeps the sinks in step. By induction on the fuel, since
both runs are at the same place of the format. -/
theorem formatLoop_inStep (fuel : Nat) :
    InStep (SameWalk related) (formatLoop emit fuel : Formatter abi PUnit)
      (formatLoop emit' fuel) := by
  induction fuel with
  | zero => exact inStep_fault _
  | succ fuel ih =>
    apply inStep_bind (fmtPeek_blind related)
    intro c
    apply inStep_ite
    · exact inStep_pure _
    · apply inStep_bind (fmtAdvance_blind related)
      intro _
      apply inStep_ite
      · apply inStep_bind (formatDirective_inStep kept)
        intro _
        exact ih
      · apply inStep_bind (sinkPutc_inStep kept c)
        intro _
        exact ih

/-- The formatter keeps the sinks in step, with the fuel that the length of the format
gives it. -/
theorem formatCore_inStep :
    InStep (SameWalk related) (formatCore emit : Formatter abi PUnit) (formatCore emit') := by
  apply inStep_bind (fmtLeft_blind related)
  intro left
  exact formatLoop_inStep kept _

/-- Related sinks stay related over a whole format, or both runs fault for the same
reason. -/
theorem runFormat_inStep (left right : Sink) (start : related left right) (fmt : CString)
    (args : List (VArg abi)) :
    (∃ left' right', runFormat emit left fmt args = .ok left' ∧
        runFormat emit' right fmt args = .ok right' ∧ related left' right') ∨
      ∃ reason, runFormat emit left fmt args = .error reason ∧
        runFormat emit' right fmt args = .error reason := by
  have walk : SameWalk related
      { sink := left, fmt := fmt.chars, args := args : FormatState abi }
      { sink := right, fmt := fmt.chars, args := args } := ⟨rfl, rfl, rfl, start⟩
  have ends := formatCore_inStep kept _ _ walk
  unfold runFormat
  generalize (formatCore emit : Formatter abi PUnit) _ = leftEnd at ends ⊢
  generalize (formatCore emit' : Formatter abi PUnit) _ = rightEnd at ends ⊢
  cases leftEnd with
  | ok value state =>
    cases rightEnd with
    | ok value' state' => exact Or.inl ⟨_, _, rfl, rfl, ends.2.sink⟩
    | err state' => exact ends.elim
    | fault reason => exact ends.elim
  | err state =>
    cases rightEnd with
    | ok value' state' => exact ends.elim
    | err state' => exact Or.inl ⟨_, _, rfl, rfl, SameWalk.sink ends⟩
    | fault reason => exact ends.elim
  | fault reason =>
    cases rightEnd with
    | ok value' state' => exact ends.elim
    | err state' => exact ends.elim
    | fault reason' => exact Or.inr ⟨reason, rfl, by rw [show reason = reason' from ends]⟩

end

/-! ## Truncation -/

/-- What the buffer sink keeps of the characters sent so far. Behind the null
pointer there is nothing; a buffer holds as many of them as fit in front of its
last place, and is unchanged behind them. -/
def Kept (original : Option Memory) (sent : List UInt8) (s : Sink) : Prop :=
  match original with
  | none => s.buf = none
  | some before => ∃ memory, s.buf = some memory ∧ s.pos = min sent.length (s.cap - 1) ∧
      (∀ i < s.pos, some (memory i) = sent[i]?) ∧ ∀ i, s.pos ≤ i → memory i = before i

/-- The law between a character sink and a buffer sink of capacity `cap`. -/
structure Truncates (original : Option Memory) (cap : Nat) (left right : Sink) : Prop where
  out : left.out = true
  count : left.produced = wrapInt left.sent.length
  produced : right.produced = left.produced
  cap : right.cap = cap
  kept : Kept original left.sent right

/-- The wrapped count of one character more is the wrapped sum. -/
theorem wrapInt_next (n : Nat) : wrapInt (wrapInt n + 1) = wrapInt ((n + 1 : Nat) : Int) := by
  simp [wrapInt]

/-- A character that finds the last place free is stored at the position. -/
theorem kept_stored {before memory : Memory} {sent : List UInt8} {s : Sink} (c : UInt8)
    (room : s.pos + 1 < s.cap) (place : s.pos = min sent.length (s.cap - 1))
    (holds : ∀ i < s.pos, some (memory i) = sent[i]?)
    (behind : ∀ i, s.pos ≤ i → memory i = before i) (produced : Int) :
    Kept (some before) (sent ++ [c])
      { s with buf := some (Function.update memory s.pos c), pos := s.pos + 1, produced := produced } := by
  have all : s.pos = sent.length := by omega
  refine ⟨Function.update memory s.pos c, rfl, ?_, ?_, ?_⟩
  · simp only [List.length_append, List.length_singleton]
    omega
  · intro i inside
    simp only at inside
    by_cases here : i = s.pos
    · rw [here, Function.update_self, all, List.getElem?_append_right (Nat.le_refl _),
        Nat.sub_self, List.getElem?_cons_zero]
    · have earlier : i < s.pos := by omega
      rw [Function.update_of_ne here, holds i earlier, List.getElem?_append_left (by omega)]
  · intro i further
    simp only at further
    rw [Function.update_of_ne (by omega), behind i (by omega)]

/-- A character that finds the buffer full is dropped: the position stays in front of
the last place, which is kept for the NUL. -/
theorem kept_dropped {before memory : Memory} {sent : List UInt8} {s : Sink} (c : UInt8)
    (full : ¬ s.pos + 1 < s.cap) (stands : s.buf = some memory)
    (place : s.pos = min sent.length (s.cap - 1))
    (holds : ∀ i < s.pos, some (memory i) = sent[i]?)
    (behind : ∀ i, s.pos ≤ i → memory i = before i) (produced : Int) :
    Kept (some before) (sent ++ [c]) { s with produced := produced } := by
  refine ⟨memory, stands, ?_, ?_, behind⟩
  · simp only [List.length_append, List.length_singleton]
    omega
  · intro i inside
    simp only at inside
    rw [holds i inside, List.getElem?_append_left (by omega)]

/-- The buffer sink counts every character, whether it keeps it or not. -/
@[simp] theorem emitBuf_produced (s : Sink) (c : UInt8) :
    (emitBuf s c).produced = wrapInt (s.produced + 1) := by
  unfold emitBuf
  split
  · split <;> rfl
  · rfl

/-- The buffer's capacity never changes. -/
@[simp] theorem emitBuf_cap (s : Sink) (c : UInt8) : (emitBuf s c).cap = s.cap := by
  unfold emitBuf
  split
  · split <;> rfl
  · rfl

/-- The buffer sink keeps one more character, if it has room for it. -/
theorem emitBuf_kept {original : Option Memory} {sent : List UInt8} {s : Sink}
    (kept : Kept original sent s) (c : UInt8) : Kept original (sent ++ [c]) (emitBuf s c) := by
  cases original with
  | none =>
    have null : s.buf = none := kept
    simp [emitBuf, Kept, null]
  | some before =>
    obtain ⟨memory, stands, place, holds, behind⟩ := kept
    by_cases room : s.pos + 1 < s.cap
    · simpa [emitBuf, stands, room] using kept_stored c room place holds behind _
    · simpa [emitBuf, stands, room] using kept_dropped c room stands place holds behind _

/-- The law of truncation is kept by each character, sent on the one side and stored or
dropped on the other. -/
theorem truncates_kept (original : Option Memory) (cap : Nat) :
    KeptBy (Truncates original cap) emitOut emitBuf := by
  intro left right c law
  have sent : (emitOut left c).sent = left.sent ++ [c] := by
    simp [emitOut, law.out]
  have counted : (emitOut left c).produced = wrapInt (left.produced + 1) := rfl
  refine
    { out := law.out
      count := ?_
      produced := ?_
      cap := ?_
      kept := ?_ }
  · rw [counted, law.count, wrapInt_next, sent, List.length_append, List.length_singleton]
  · rw [emitBuf_produced, law.produced, counted]
  · rw [emitBuf_cap, law.cap]
  · rw [sent]
    exact emitBuf_kept law.kept c

/-- Before the first character the law holds: nothing is sent, nothing is kept, and
nothing is counted. -/
theorem truncates_start (original : Option Memory) (cap : Nat) :
    Truncates original cap { out := true } { buf := original, cap := cap } where
  out := rfl
  count := rfl
  produced := rfl
  cap := rfl
  kept := by
    cases original with
    | none => exact rfl
    | some before => exact ⟨before, rfl, by simp, by simp, fun _ _ => rfl⟩

/-- With a NUL at its position the buffer holds what was kept as a string. -/
theorem kept_terminated {before memory : Memory} {sent : List UInt8} {s : Sink} {size : Nat}
    (place : s.pos = min sent.length (size - 1))
    (holds : ∀ i < s.pos, some (memory i) = sent[i]?)
    (behind : ∀ i, s.pos ≤ i → memory i = before i) :
    (∀ i < min sent.length (size - 1), some (Function.update memory s.pos 0 i) = sent[i]?) ∧
      Function.update memory s.pos 0 (min sent.length (size - 1)) = 0 ∧
      ∀ i, min sent.length (size - 1) < i → Function.update memory s.pos 0 i = before i := by
  rw [← place]
  refine ⟨?_, ?_, ?_⟩
  · intro i inside
    rw [Function.update_of_ne (by omega), holds i inside]
  · rw [Function.update_self]
  · intro i further
    rw [Function.update_of_ne (by omega), behind i (by omega)]

/-- What a run on a buffer leaves in it, against the characters kept. -/
theorem neoVsnprintf_kept {abi : Abi} {fmt : CString} {args : List (VArg abi)} {before : Memory}
    {size : Nat} {left right : Sink}
    (ran : runFormat emitBuf { buf := some before, cap := size } fmt args = .ok right)
    (law : Truncates (some before) size left right) (room : 0 < size) :
    ∃ after, neoVsnprintf (some before) size fmt args = .ok (left.produced, some after) ∧
      (∀ i < min left.sent.length (size - 1), some (after i) = left.sent[i]?) ∧
      after (min left.sent.length (size - 1)) = 0 ∧
      ∀ i, min left.sent.length (size - 1) < i → after i = before i := by
  obtain ⟨memory, stands, place, holds, behind⟩ := law.kept
  rw [law.cap] at place
  have last : (if right.pos < size then right.pos else size - 1) = right.pos := by
    rw [if_pos (by omega)]
  refine ⟨Function.update memory right.pos 0, ?_, kept_terminated place holds behind⟩
  simp [neoVsnprintf, ran, stands, law.produced, room, last, bind, Except.bind, pure, Except.pure]

/-- Let `T` be the characters that the formatter passes to an output function, fewer
than 2^31. For every size it returns their number, and leaves in the buffer those that
fit in front of a NUL, with every other byte unchanged; with size 0 or the null pointer
it writes nothing. The run on the buffer and the run on the output function are in step,
and each character keeps the law between the two sinks. -/
theorem neoVsnprintf_truncates {abi : Abi} (fmt : CString) (args : List (VArg abi)) (ret : Int)
    (T : List UInt8) (printed : neoVfprintf fmt args = .ok (ret, T)) (short : T.length < 2 ^ 31)
    (buf : Option Memory) (size : Nat) :
    ret = T.length ∧ ∃ after, neoVsnprintf buf size fmt args = .ok ((T.length : Int), after) ∧
      (∀ memory, buf = some memory → 0 < size → ∃ memory', after = some memory' ∧
        (∀ i < min T.length (size - 1), some (memory' i) = T[i]?) ∧
        memory' (min T.length (size - 1)) = 0 ∧
        ∀ i, min T.length (size - 1) < i → memory' i = memory i) ∧
      (size = 0 ∨ buf = none → after = buf) := by
  rcases runFormat_inStep (truncates_kept buf size) _ _ (truncates_start buf size) fmt args with
    ⟨left, right, ranLeft, ranRight, law⟩ | ⟨reason, faults, -⟩
  · have both : neoVfprintf fmt args = .ok (left.produced, left.sent) := by
      simp [neoVfprintf, ranLeft, bind, Except.bind, pure, Except.pure]
    rw [both] at printed
    cases printed
    have returned : left.produced = left.sent.length := by
      rw [law.count, wrapInt_small _ short]
    have kept := law.kept
    refine ⟨returned, ?_⟩
    cases buf with
    | none =>
      have null : right.buf = none := kept
      refine ⟨none, ?_, by simp, by simp⟩
      simp [neoVsnprintf, ranRight, null, law.produced, returned, bind, Except.bind, pure,
        Except.pure]
    | some before =>
      obtain ⟨memory, stands, place, holds, behind⟩ := kept
      rw [law.cap] at place
      by_cases room : 0 < size
      · obtain ⟨after, ran, stored⟩ := neoVsnprintf_kept ranRight law room
        refine ⟨some after, ?_, ?_, ?_⟩
        · rw [ran, returned]
        · intro original same _
          cases same
          exact ⟨_, rfl, stored⟩
        · intro absent
          rcases absent with zero | null
          · omega
          · simp at null
      · refine ⟨some memory, ?_, ?_, ?_⟩
        · simp [neoVsnprintf, ranRight, stands, law.produced, returned, room, bind, Except.bind,
            pure, Except.pure]
        · intro original _ positive
          omega
        · intro _
          have untouched : memory = before := by
            funext i
            exact behind i (by omega)
          rw [untouched]
  · have faulty : neoVfprintf fmt args = .error reason := by
      simp [neoVfprintf, faults, bind, Except.bind]
    rw [faulty] at printed
    simp at printed

/-- `<%s>` of a string of five characters is seven, of which five fit six bytes. -/
theorem neoVsnprintf_truncates_quoted :
    (7 : Int) = (bytes "<abcde>").length ∧
      ∃ after, neoVsnprintf (some fun _ => 0xFF) 6 { chars := bytes "<%s>", nulFree := by simp [bytes] }
          [(.str (some { chars := bytes "abcde", nulFree := by simp [bytes] }) : VArg .ilp32)] =
          .ok (((bytes "<abcde>").length : Int), after) ∧
        (∀ memory, some (fun _ => 0xFF) = some memory → 0 < 6 → ∃ memory', after = some memory' ∧
          (∀ i < min (bytes "<abcde>").length (6 - 1), some (memory' i) = (bytes "<abcde>")[i]?) ∧
          memory' (min (bytes "<abcde>").length (6 - 1)) = 0 ∧
          ∀ i, min (bytes "<abcde>").length (6 - 1) < i → memory' i = memory i) ∧
        (6 = 0 ∨ (some fun _ => 0xFF) = (none : Option Memory) → after = some fun _ => 0xFF) :=
  neoVsnprintf_truncates _ _ 7 (bytes "<abcde>") rfl (by simp [bytes]) _ 6

end NeoSfp
