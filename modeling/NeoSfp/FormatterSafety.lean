import NeoSfp.Conversions

/-!
# Which formats are safe

A format with arguments of the types it asks for never reads past its NUL and
never leaves the digit buffer. What can go wrong is an amount that does not fit an
`int`, a string whose length does not, and the zeros injected behind the sign of a
negative number, which the code stores in a buffer of 70 bytes whatever the width.
-/

namespace NeoSfp

open Checked

variable {abi : Abi}

/-- Conversions within the means of the formatter: amounts and lengths are `int`s,
and a negative number padded with zeros fits its buffer. -/
structure Conversion.Modest (c : Conversion abi) : Prop where
  width : c.width < 2 ^ 31
  prec : ∀ prec, c.prec = some prec → prec < 2 ^ 31
  string : ∀ s, c.item = .string (some s) → c.prec = none → s.chars.length < 2 ^ 31
  number : ∀ conv v, c.item = .integer conv v → conv.number v < 0 → c.zero = true →
    c.left = false → c.prec = none → c.width ≤ 70

/-- A run of a format that neither faults nor leaves the range of `int`. -/
def Safe (emit : Emit) (sink : Sink) (fmt : CString) (args : List (VArg abi)) : Prop :=
  ∃ s, (formatCore emit : Formatter abi PUnit) { sink := sink, fmt := fmt.chars, args := args } =
    .ok ⟨⟩ s ∧ s.overflow = false

/-! ## Counters -/

/-- A precision inside the range of `int` is negative in its counter exactly if it was
not given. -/
theorem precInt_small {prec : Option Nat} (small : ∀ p, prec = some p → p < 2 ^ 31) :
    precInt prec < 0 ↔ prec = none := by
  cases prec with
  | none => simp [precInt]
  | some p =>
    have fits := small p rfl
    rw [precInt, wrapInt_small p fits]
    simp

/-- The amounts stay inside their counters exactly if both are below 2^31. -/
theorem not_wide_iff (c : Conversion abi) :
    c.wide = false ↔ c.width < 2 ^ 31 ∧ ∀ prec, c.prec = some prec → prec < 2 ^ 31 := by
  cases given : c.prec with
  | none => simp [Conversion.wide, given]
  | some prec => simp [Conversion.wide, given]

/-- With counters in range only a string without a precision can be too long. -/
theorem not_long_iff (item : Item abi) {prec : Option Nat}
    (small : ∀ p, prec = some p → p < 2 ^ 31) :
    item.long (precInt prec) = false ↔
      ∀ s, item = .string (some s) → prec = none → s.chars.length < 2 ^ 31 := by
  cases item with
  | string str =>
    cases prec with
    | some p =>
      have fits := small p rfl
      have given : ¬ (precInt (some p) < 0) := by simp [precInt_small small]
      have short : (shown str (precInt (some p))).length < 2 ^ 31 := by
        unfold shown
        rw [if_neg given, precInt, wrapInt_small p fits, Int.toNat_natCast, List.length_take]
        omega
      have fine : (Item.string str : Item abi).long (precInt (some p)) = false := by
        simp only [Item.long, decide_eq_false_iff_not, not_le]
        exact short
      simp [fine]
    | none =>
      cases str with
      | none => simp [Item.long, shown, precInt, bytes]
      | some s => simp [Item.long, shown, precInt]
  | char c => simp [Item.long]
  | percent => simp [Item.long]
  | integer conv v => simp [Item.long]
  | pointer v => simp [Item.long]
  | unknown spec => simp [Item.long]

/-- With counters in range only wide zeros behind a sign overrun the buffer. -/
theorem not_overruns_iff (c : Conversion abi) (wide : c.wide = false) :
    c.overruns = false ↔ ∀ conv v, c.item = .integer conv v → conv.number v < 0 → c.zero = true →
      c.left = false → c.prec = none → c.width ≤ 70 := by
  obtain ⟨narrow, small⟩ := (not_wide_iff c).mp wide
  unfold Conversion.overruns
  rw [wrapInt_small c.width narrow]
  cases item : c.item with
  | integer conv v =>
    simp only [Item.overruns, decide_eq_false_iff_not, Overruns, Conversion.flags,
      Flags.signed, precInt_small small, decide_eq_true_eq]
    constructor
    · rintro inside _ _ ⟨⟩ negative zero right absent
      by_contra wider
      exact inside ⟨negative, zero, by simp [right], absent, by omega⟩
    · rintro bound ⟨negative, zero, right, absent, long⟩
      have fits := bound conv v rfl negative zero (by simpa using right) absent
      omega
  | char ch => simp [Item.overruns]
  | string s => simp [Item.overruns]
  | percent => simp [Item.overruns]
  | pointer v => simp [Item.overruns]
  | unknown spec => simp [Item.overruns]

/-- A conversion is modest exactly if it neither overruns the number buffer nor
overflows a counter; each of its conditions excludes one of the two. -/
theorem modest_iff (c : Conversion abi) :
    c.Modest ↔ c.overruns = false ∧ c.overflows = false := by
  rw [Conversion.overflows, Bool.or_eq_false_iff]
  constructor
  · intro modest
    have wide := (not_wide_iff c).mpr ⟨modest.width, modest.prec⟩
    exact ⟨(not_overruns_iff c wide).mpr modest.number, wide,
      (not_long_iff c.item modest.prec).mpr modest.string⟩
  · rintro ⟨inside, wide, short⟩
    obtain ⟨width, prec⟩ := (not_wide_iff c).mp wide
    exact ⟨width, prec, (not_long_iff c.item prec).mp short, (not_overruns_iff c wide).mp inside⟩

/-! ## Formats -/

/-- A run of a format that its arguments fill ends in the fault of the first conversion
that overruns, or with everything sent and each overflow noted. -/
theorem formatCore_outcome {fmt : CString} {args : List (VArg abi)} {cs : List (Conversion abi)}
    (fills : FilledBy fmt.chars args cs) :
    ∃ (chars : List UInt8) (args' : List (VArg abi)), ∀ (emit : Emit) (sink : Sink),
      formatCore emit { sink := sink, fmt := fmt.chars, args := args } =
        if cs.any Conversion.overruns then .fault .numbuf2
        else .ok ⟨⟩ (⟨chars.foldl emit sink, [], args', cs.any Conversion.overflows⟩ :
          FormatState abi) := by
  obtain ⟨chars, args', runs⟩ := formatLoop_outcome fmt.nulFree fills
  refine ⟨chars, args', fun emit sink => ?_⟩
  rw [formatCore, Run.bind_apply, fmtLeft, Run.read, Run.andThen_ok,
    runs emit _ (Nat.lt_succ_self _), Bool.false_or]

/-- A filled format is safe exactly if every conversion is modest, on every sink. -/
theorem safe_iff {fmt : CString} {args : List (VArg abi)} {cs : List (Conversion abi)}
    (fills : FilledBy fmt.chars args cs) (emit : Emit) (sink : Sink) :
    Safe emit sink fmt args ↔ ∀ c ∈ cs, c.Modest := by
  obtain ⟨chars, args', runs⟩ := formatCore_outcome fills
  simp only [Safe, runs emit sink, modest_iff]
  constructor
  · rintro ⟨s, ran, clean⟩ c member
    split at ran
    · cases ran
    · rename_i inside
      cases ran
      rw [Bool.not_eq_true] at inside
      constructor
      · simpa using List.any_eq_false.mp inside c member
      · simpa using List.any_eq_false.mp clean c member
  · intro modest
    have inside : cs.any Conversion.overruns = false := by
      simpa using fun c member => (modest c member).1
    have clean : cs.any Conversion.overflows = false := by
      simpa using fun c member => (modest c member).2
    rw [inside, if_neg Bool.false_ne_true]
    exact ⟨_, rfl, clean⟩

/-- A format with arguments that fill it is safe exactly when all its conversions are
modest; and the only fault that it can meet is a store behind the number buffer. The run
of a filled format is known as a whole: it sends everything or stops at the first
conversion that overruns. -/
theorem formatCore_safe (fmt : CString) (args : List (VArg abi)) (cs : List (Conversion abi))
    (fills : FilledBy fmt.chars args cs) (emit : Emit) (sink : Sink) :
    (Safe emit sink fmt args ↔ ∀ c ∈ cs, c.Modest) ∧
      ∀ reason, (formatCore emit : Formatter abi PUnit)
        { sink := sink, fmt := fmt.chars, args := args } = .fault reason → reason = .numbuf2 := by
  refine ⟨safe_iff fills emit sink, ?_⟩
  obtain ⟨chars, args', runs⟩ := formatCore_outcome fills
  intro reason faults
  rw [runs emit sink] at faults
  split at faults
  · cases faults
    rfl
  · cases faults

/-- `%08d`. -/
def eightZeros : CString := { chars := bytes "%08d", nulFree := by simp [bytes] }

/-- `%080d`. -/
def eightyZeros : CString := { chars := bytes "%080d", nulFree := by simp [bytes] }

/-- A number to be padded to some width, with zeros or blanks in front. -/
def paddedNumber (zero : Bool) (width : Nat) (v : BitVec 32) : Conversion .ilp32 where
  left := false
  zero := zero
  width := width
  prec := none
  item := .integer .d (IntegerConversion.d.extend v)

/-- The format asks for one `int`, wide eight and padded with zeros. -/
theorem eightZeros_fills (v : BitVec 32) : FilledBy eightZeros.chars [.int v] [paddedNumber true 8 v] :=
  .directive rfl rfl (.done [])

/-- The format asks for one `int`, wide eighty and padded with zeros. -/
theorem eightyZeros_fills (v : BitVec 32) : FilledBy eightyZeros.chars [.int v] [paddedNumber true 80 v] :=
  .directive rfl rfl (.done [])

/-- A negative number under `%08d`, whose zeros fit the number buffer. -/
theorem formatCore_safe_eightZeros :
    (Safe emitOut { out := true } eightZeros [(.int (-42) : VArg .ilp32)] ↔
        ∀ c ∈ [paddedNumber true 8 (-42)], c.Modest) ∧
      ∀ reason, (formatCore emitOut : Formatter .ilp32 PUnit)
        { sink := { out := true }, fmt := eightZeros.chars, args := [.int (-42)] } = .fault reason →
          reason = .numbuf2 :=
  formatCore_safe eightZeros [.int (-42)] [paddedNumber true 8 (-42)] (eightZeros_fills (-42)) emitOut
    { out := true }

/-- A minus sign and zeros up to eighty characters do not fit seventy. -/
theorem eightyZeros_unsafe :
    ¬ Safe emitOut { out := true } eightyZeros [(.int (-1) : VArg .ilp32)] := by
  rw [safe_iff (eightyZeros_fills (-1))]
  intro modest
  have fits := (modest _ (List.mem_singleton_self _)).number .d _ rfl (by decide) rfl rfl rfl
  exact absurd fits (by decide)

end NeoSfp
