import NeoSfp.FormatterText

/-!
# Directives

Any text behind a `%` is a directive: flags, a width, a precision, a length
modifier and a conversion character. With arguments of the types it asks for it
becomes a conversion, which is an item to print and the width and precision wanted
for it. The formatter reads directives as they are written; only amounts from 2^31
on leave the range of its counters.
-/

namespace NeoSfp

open Checked

variable {abi : Abi}

/-! ## Syntax -/

inductive Flag where
  | left
  | zero
deriving DecidableEq, Repr

def Flag.char : Flag → UInt8
  | .left => '-'
  | .zero => '0'

def digitText (d : Fin 10) : UInt8 := UInt8.ofNat (48 + d)

/-- The number that decimal digits denote behind the digits of `v`. -/
def decimalFrom (v : Nat) (digits : List (Fin 10)) : Nat := digits.foldl (fun v d => v * 10 + d) v

/-- A width or a precision: written, or an argument. -/
inductive Amount where
  | literal (digits : List (Fin 10))
  | star
deriving DecidableEq, Repr

def Amount.text : Amount → Text
  | .literal digits => digits.map digitText
  | .star => [byte '*']

inductive LengthModifier where
  | none
  | h
  | hh
  | l
  | ll
  | z
deriving DecidableEq, Repr

def LengthModifier.text : LengthModifier → Text
  | .none => []
  | .h => [byte 'h']
  | .hh => [byte 'h', byte 'h']
  | .l => [byte 'l']
  | .ll => [byte 'l', byte 'l']
  | .z => [byte 'z']

/-- A directive behind its `%`; at the end of a format the conversion character is
missing and counts as NUL. -/
structure Directive where
  flags : List Flag
  width : Amount
  prec : Option Amount
  length : LengthModifier
  spec : UInt8
deriving DecidableEq, Repr

def precText : Option Amount → Text
  | none => []
  | some prec => byte '.' :: prec.text

def Directive.text (d : Directive) : Text :=
  d.flags.map Flag.char ++ (d.width.text ++ (precText d.prec ++ (d.length.text ++ [d.spec])))

/-- A directive that ends in a letter, with no digit of its width in the place of a
flag. -/
structure Directive.Legible (d : Directive) : Prop where
  width : ∀ digits, d.width ≠ .literal (0 :: digits)
  spec : IsLetter d.spec

/-! ## Scanning -/

def flagOf (c : UInt8) : Option Flag :=
  if c = '-' then some .left else if c = '0' then some .zero else none

def digitOf (c : UInt8) : Option (Fin 10) :=
  if inside : c ≥ '0' ∧ c ≤ '9' then
    some ⟨c.toNat - 48, by
      have high : c.toNat ≤ 57 := UInt8.le_iff_toNat_le.mp inside.2
      omega⟩
  else
    none

/-- Characters in front that have a meaning, and the text behind them. -/
def scanMany {α : Type} (item : UInt8 → Option α) : Text → List α × Text
  | [] => ([], [])
  | c :: rest =>
    match item c with
    | some a => (a :: (scanMany item rest).1, (scanMany item rest).2)
    | none => ([], c :: rest)

def scanAmount (t : Text) : Amount × Text :=
  if t.headD 0 = '*' then (.star, t.tail)
  else (.literal (scanMany digitOf t).1, (scanMany digitOf t).2)

def scanPrec (t : Text) : Option Amount × Text :=
  if t.headD 0 = '.' then (some (scanAmount t.tail).1, (scanAmount t.tail).2) else (none, t)

def scanLength (t : Text) : LengthModifier × Text :=
  if t.headD 0 = 'l' then
    if t.tail.headD 0 = 'l' then (.ll, t.tail.tail) else (.l, t.tail)
  else if t.headD 0 = 'h' then
    if t.tail.headD 0 = 'h' then (.hh, t.tail.tail) else (.h, t.tail)
  else if t.headD 0 = 'z' then (.z, t.tail)
  else (.none, t)

/-- The directive in front of a text, and what follows it. -/
def scanDirective (t : Text) : Directive × Text :=
  let (flags, t) := scanMany flagOf t
  let (width, t) := scanAmount t
  let (prec, t) := scanPrec t
  let (length, t) := scanLength t
  (⟨flags, width, prec, length, t.headD 0⟩, t.tail)

example : scanDirective (bytes "-08.*ldx") =
    (⟨[.left, .zero], .literal [8], some .star, .l, 'd'⟩, bytes "x") := by decide

/-! ## Arguments -/

/-- The next argument, if it is one of those wanted, and the arguments behind it. -/
def takeArg {α : Type} (want : VArg abi → Option α) : List (VArg abi) → Option (α × List (VArg abi))
  | [] => none
  | v :: args => (want v).map fun a => (a, args)

inductive IntegerConversion where
  | d
  | i
  | u
  | o
  | x
  | X
  | b
deriving DecidableEq, Repr

namespace IntegerConversion

def char : IntegerConversion → UInt8
  | d => 'd'
  | i => 'i'
  | u => 'u'
  | o => 'o'
  | x => 'x'
  | X => 'X'
  | b => 'b'

def signed : IntegerConversion → Bool
  | d => true
  | i => true
  | _ => false

def base : IntegerConversion → Nat
  | o => 8
  | x => 16
  | X => 16
  | b => 2
  | _ => 10

def upper : IntegerConversion → Bool
  | X => true
  | _ => false

/-- The conversion of a character. -/
def ofChar (c : UInt8) : Option IntegerConversion := [d, i, u, o, x, X, b].find? fun conv => conv.char = c

/-- An argument of some width in 64 bits. -/
def extend (conv : IntegerConversion) {w : Nat} (v : BitVec w) : BitVec 64 :=
  if conv.signed then v.signExtend 64 else v.setWidth 64

/-- The number that 64 bits denote. -/
def number (conv : IntegerConversion) (v : BitVec 64) : Int := if conv.signed then v.toInt else v.toNat

/-- An argument of the type that the length modifier asks for. -/
def argument (conv : IntegerConversion) (length : LengthModifier) (v : VArg abi) :
    Option (BitVec 64) :=
  match length with
  | .ll => (asLongLong v).map conv.extend
  | .l => (asLong v).map conv.extend
  | _ => (asInt v).map conv.extend

end IntegerConversion

/-- What a conversion prints. -/
inductive Item (abi : Abi) where
  | char (c : UInt8)
  | string (s : Option CString)
  | percent
  | integer (conv : IntegerConversion) (v : BitVec 64)
  | pointer (v : BitVec abi.word)
  | unknown (spec : UInt8)

/-- A directive with its arguments. -/
structure Conversion (abi : Abi) where
  left : Bool
  zero : Bool
  width : Nat
  prec : Option Nat
  item : Item abi

def fillAmount : Amount → List (VArg abi) → Option (Int × List (VArg abi))
  | .literal digits, args => some (decimalFrom 0 digits, args)
  | .star, args => (takeArg asInt args).map fun taken => (taken.1.toInt, taken.2)

/-- The precision; a negative one counts as none. -/
def fillPrec : Option Amount → List (VArg abi) → Option (Option Nat × List (VArg abi))
  | none, args => some (none, args)
  | some prec, args => (fillAmount prec args).map fun taken =>
    (if taken.1 < 0 then none else some taken.1.toNat, taken.2)

def fillItem (spec : UInt8) (length : LengthModifier) (args : List (VArg abi)) :
    Option (Item abi × List (VArg abi)) :=
  if spec = 'c' then (takeArg asInt args).map fun taken => (.char (UInt8.ofNat taken.1.toNat), taken.2)
  else if spec = 's' then (takeArg asStr args).map fun taken => (.string taken.1, taken.2)
  else if spec = '%' then some (.percent, args)
  else if spec = 'p' then (takeArg asPtr args).map fun taken => (.pointer taken.1, taken.2)
  else
    match IntegerConversion.ofChar spec with
    | some conv => (takeArg (conv.argument length) args).map fun taken =>
      (.integer conv taken.1, taken.2)
    | none => some (.unknown spec, args)

/-- The conversion of a directive, and the arguments left; none if an argument is
missing or of another type. A negative width left-justifies. -/
def fillDirective (d : Directive) (args : List (VArg abi)) :
    Option (Conversion abi × List (VArg abi)) := do
  let (width, args) ← fillAmount d.width args
  let (prec, args) ← fillPrec d.prec args
  let (item, args) ← fillItem d.spec d.length args
  some (⟨Flag.left ∈ d.flags ∨ width < 0, Flag.zero ∈ d.flags, width.natAbs, prec, item⟩, args)

/-! ## What is written is scanned -/

/-- Characters with a meaning are scanned off as long as there are any; the first
without one stops the scan. By induction on them. -/
theorem scanMany_text {α : Type} (item : UInt8 → Option α) (char : α → UInt8)
    (means : ∀ a, item (char a) = some a) (items : List α) (rest : Text)
    (ends : ∀ c ∈ rest.head?, item c = none) :
    scanMany item (items.map char ++ rest) = (items, rest) := by
  induction items with
  | nil =>
    cases rest with
    | nil => rfl
    | cons c rest =>
      have stop : item c = none := ends c rfl
      simp [scanMany, stop]
  | cons a items ih => simp [scanMany, means, ih]

/-- The character of a flag is read as that flag. -/
theorem flagOf_char (f : Flag) : flagOf f.char = some f := by
  cases f <;> rfl

/-- The character of a digit is read as that digit. -/
theorem digitOf_text (d : Fin 10) : digitOf (digitText d) = some d := by
  revert d
  decide

/-- A character that is neither a flag, nor a digit, nor a star. -/
def IsBreak (c : UInt8) : Prop := c ≠ '-' ∧ ¬ (c ≥ '0' ∧ c ≤ '9') ∧ c ≠ '*'

instance (c : UInt8) : Decidable (IsBreak c) := inferInstanceAs (Decidable (_ ∧ _))

/-- A break is not a flag, so it ends the flags. -/
theorem isBreak_flagOf {c : UInt8} (breaks : IsBreak c) : flagOf c = none := by
  obtain ⟨minus, digit, -⟩ := breaks
  have zero : c ≠ '0' := by
    rintro rfl
    exact digit (by decide)
  rw [flagOf, if_neg minus, if_neg zero]

/-- A break is not a digit, so it ends a number. -/
theorem isBreak_digitOf {c : UInt8} (breaks : IsBreak c) : digitOf c = none := dif_neg breaks.2.1

/-- No digit is taken for the star of an argument. -/
theorem digitText_plain : ∀ d, digitText d ≠ '*' := by decide

/-- An amount in front of a break is read as it was written, as a star or as its
digits. -/
theorem scanAmount_text (amount : Amount) (c : UInt8) (breaks : IsBreak c) (rest : Text) :
    scanAmount (amount.text ++ c :: rest) = (amount, c :: rest) := by
  cases amount with
  | star => rfl
  | literal digits =>
    have many := scanMany_text digitOf digitText digitOf_text digits (c :: rest) (by
      rintro _ ⟨⟩
      exact isBreak_digitOf breaks)
    have plain : (digits.map digitText ++ c :: rest).headD 0 ≠ '*' := by
      cases digits with
      | nil => exact breaks.2.2
      | cons d digits => exact digitText_plain d
    rw [scanAmount, Amount.text, if_neg plain, many]

/-- A precision is read as it was written, and what is written begins with a break, so
the width in front of it ends there. -/
theorem scanPrec_text (prec : Option Amount) {front : UInt8} (breaks : IsBreak front)
    (dot : front ≠ '.') (behind : Text) :
    ∃ front' behind', precText prec ++ front :: behind = front' :: behind' ∧ IsBreak front' ∧
      scanPrec (front' :: behind') = (prec, front :: behind) := by
  cases prec with
  | none =>
    refine ⟨front, behind, rfl, breaks, ?_⟩
    rw [scanPrec, List.headD_cons, if_neg dot]
  | some prec =>
    refine ⟨'.', prec.text ++ front :: behind, rfl, by decide, ?_⟩
    rw [scanPrec, List.headD_cons, if_pos rfl, List.tail_cons, scanAmount_text prec front breaks]

/-- In front of a letter a length modifier is read as it was written: no letter behind
it is an `l`, so the modifier ends there. -/
theorem scanLength_text (length : LengthModifier) {c : UInt8} (letter : IsLetter c) (rest : Text) :
    scanLength (length.text ++ c :: rest) = (length, c :: rest) := by
  obtain ⟨-, -, -, -, -, long, half, size⟩ := letter
  simp only [byte] at long half size
  cases length <;> simp_all [scanLength, LengthModifier.text, byte]

/-- The first character of a length modifier and a letter behind it is a break, so
whatever stands in front of it ends there. -/
theorem length_front (length : LengthModifier) {c : UInt8} (letter : IsLetter c) (rest : Text) :
    ∃ front behind, length.text ++ c :: rest = front :: behind ∧ IsBreak front ∧ front ≠ '.' := by
  obtain ⟨-, minus, digit, star, dot, -⟩ := letter
  cases length with
  | none => exact ⟨c, rest, rfl, ⟨minus, digit, star⟩, dot⟩
  | h => exact ⟨'h', c :: rest, rfl, by decide, by decide⟩
  | hh => exact ⟨'h', 'h' :: c :: rest, rfl, by decide, by decide⟩
  | l => exact ⟨'l', c :: rest, rfl, by decide, by decide⟩
  | ll => exact ⟨'l', 'l' :: c :: rest, rfl, by decide, by decide⟩
  | z => exact ⟨'z', c :: rest, rfl, by decide, by decide⟩

/-- Only the digit zero is also a flag, and no legible width begins with it. -/
theorem digitText_flag : ∀ d : Fin 10, d ≠ 0 → flagOf (digitText d) = none := by decide

/-- A directive is read as it was written: each of its parts ends where the next
begins. -/
theorem scanDirective_text (d : Directive) (legible : d.Legible) (rest : Text) :
    scanDirective (d.text ++ rest) = (d, rest) := by
  obtain ⟨flags, width, prec, length, spec⟩ := d
  obtain ⟨proper, letter⟩ := legible
  obtain ⟨front, behind, begins, breaks, dot⟩ := length_front length letter rest
  obtain ⟨front', behind', follows, breaks', precScanned⟩ := scanPrec_text prec breaks dot behind
  rw [← begins] at follows precScanned
  have widthScanned := scanAmount_text width front' breaks' behind'
  have ends : ∀ c ∈ (width.text ++ front' :: behind').head?, flagOf c = none := by
    cases width with
    | star =>
      rintro _ ⟨⟩
      decide
    | literal digits =>
      cases digits with
      | nil =>
        rintro _ ⟨⟩
        exact isBreak_flagOf breaks'
      | cons d digits =>
        rintro _ ⟨⟩
        refine digitText_flag d ?_
        rintro rfl
        exact proper digits rfl
  have flagsScanned := scanMany_text flagOf Flag.char flagOf_char flags _ ends
  simp only [Directive.text, List.append_assoc, List.singleton_append]
  rw [follows, scanDirective, flagsScanned]
  simp only [widthScanned, precScanned, scanLength_text length letter, List.headD_cons,
    List.tail_cons]

/-! ## What is scanned is what the formatter reads -/

section

variable (sink : Sink) (t : Text) (args : List (VArg abi)) (o : Bool)

/-- Looking at the format returns its next character, which is NUL behind the end. -/
theorem fmtPeek_apply :
    fmtPeek ⟨sink, t, args, o⟩ = .ok (t.headD 0) (⟨sink, t, args, o⟩ : FormatState abi) := by
  cases t <;> rfl

/-- Advancing drops one character of a format that has one left. -/
theorem fmtAdvance_apply (more : t.headD 0 ≠ 0) :
    fmtAdvance ⟨sink, t, args, o⟩ = .ok ⟨⟩ (⟨sink, t.tail, args, o⟩ : FormatState abi) := by
  cases t with
  | nil => exact absurd rfl more
  | cons c rest => rfl

/-- The loop over the flags reads what `scanMany` reads and keeps whether each flag
occurred. By induction on the fuel. -/
theorem flagLoop_apply (fuel : Nat) (enough : t.length < fuel) (flags : Flags) :
    flagLoop fuel flags ⟨sink, t, args, o⟩ =
      .ok { flags with
          left := flags.left || Flag.left ∈ (scanMany flagOf t).1
          zero := flags.zero || Flag.zero ∈ (scanMany flagOf t).1 }
        (⟨sink, (scanMany flagOf t).2, args, o⟩ : FormatState abi) := by
  induction fuel generalizing t flags with
  | zero => omega
  | succ fuel ih =>
    rw [flagLoop, Run.bind_apply, fmtPeek_apply, Run.andThen_ok]
    cases t with
    | nil => simp [scanMany]
    | cons c rest =>
      rw [List.length_cons] at enough
      rw [List.headD_cons]
      by_cases minus : c = '-'
      · subst minus
        rw [if_pos rfl, Run.bind_apply, fmtAdvance_apply _ _ _ _ (by simp [byte]), Run.andThen_ok,
          List.tail_cons, ih rest (by omega)]
        simp [scanMany, flagOf]
      · rw [if_neg minus]
        by_cases zero : c = '0'
        · subst zero
          rw [if_pos rfl, Run.bind_apply, fmtAdvance_apply _ _ _ _ (by simp [byte]), Run.andThen_ok,
            List.tail_cons, ih rest (by omega)]
          simp [scanMany, flagOf]
        · have stop : flagOf c = none := by rw [flagOf, if_neg minus, if_neg zero]
          simp [if_neg zero, scanMany, stop]

/-- The flags are read from empty ones on. -/
theorem readFlags_apply :
    readFlags ⟨sink, t, args, o⟩ =
      .ok { left := Flag.left ∈ (scanMany flagOf t).1, zero := Flag.zero ∈ (scanMany flagOf t).1 }
        (⟨sink, (scanMany flagOf t).2, args, o⟩ : FormatState abi) := by
  rw [readFlags, Run.bind_apply, fmtLeft, Run.read, Run.andThen_ok,
    flagLoop_apply sink t args o _ (Nat.lt_succ_self _)]
  simp

/-- An operation on the counters wraps, and whether it did is noted. -/
theorem intOp_apply (exact : Int) :
    intOp exact ⟨sink, t, args, o⟩ = .ok (wrapInt exact)
      (⟨sink, t, args, o || wrapInt exact ≠ exact⟩ : FormatState abi) := rfl

/-- A count wraps exactly from 2^31 on. -/
theorem wrapInt_natCast_ne (n : Nat) : wrapInt n ≠ n ↔ 2 ^ 31 ≤ n := by
  rw [ne_eq, wrapInt_eq_iff, IsInt]
  omega

/-- One more digit: the counter wraps, and from 2^31 on this has been noted. -/
theorem intOp_digit (n d : Nat) :
    intOp (wrapInt n * 10 + d) ⟨sink, t, args, o || 2 ^ 31 ≤ n⟩ =
      .ok (wrapInt (n * 10 + d : Nat))
        (⟨sink, t, args, o || 2 ^ 31 ≤ n * 10 + d⟩ : FormatState abi) := by
  have wraps : wrapInt (wrapInt n * 10 + d) = wrapInt (n * 10 + d : Nat) := by
    unfold wrapInt
    rw [← Int.bmod_add_bmod, Int.bmod_mul_bmod, Int.bmod_add_bmod]
    simp
  have noted : ((o || 2 ^ 31 ≤ n) || wrapInt (wrapInt n * 10 + d) ≠ wrapInt n * 10 + d) =
      (o || decide (2 ^ 31 ≤ n * 10 + d)) := by
    by_cases large : 2 ^ 31 ≤ n
    · have larger : 2 ^ 31 ≤ n * 10 + d := by omega
      simp only [large, larger, decide_true, Bool.or_true, Bool.true_or]
    · have exact : wrapInt n * 10 + d = (n * 10 + d : Nat) := by
        rw [wrapInt_small n (by omega)]
        simp
      simp only [large, decide_false, Bool.or_false, exact, wrapInt_natCast_ne]
  rw [intOp_apply, noted, wraps]

/-- The characters of the range test are the digits, and the subtraction of the source
gives their value. -/
theorem digitOf_digit {c : UInt8} (digit : c ≥ '0' ∧ c ≤ '9') :
    ∃ d, digitOf c = some d ∧ (c.toNat : Int) - 48 = (d : Nat) := by
  have low : 48 ≤ c.toNat := UInt8.le_iff_toNat_le.mp digit.1
  refine ⟨_, dif_pos digit, ?_⟩
  simp only
  omega

/-- The loop over the digits computes the numeral modulo 2^32 and notes when it is too
large. By induction on the fuel, with the digits so far in `n`. -/
theorem parseUintLoop_apply (fuel : Nat) (enough : t.length < fuel) (n : Nat) :
    parseUintLoop fuel (wrapInt n) ⟨sink, t, args, o || 2 ^ 31 ≤ n⟩ =
      .ok (wrapInt (decimalFrom n (scanMany digitOf t).1))
        (⟨sink, (scanMany digitOf t).2, args, o || 2 ^ 31 ≤ decimalFrom n (scanMany digitOf t).1⟩ :
          FormatState abi) := by
  induction fuel generalizing t n with
  | zero => omega
  | succ fuel ih =>
    rw [parseUintLoop, Run.bind_apply, fmtPeek_apply, Run.andThen_ok]
    cases t with
    | nil =>
      rw [List.headD_nil, if_neg (by decide), Run.pure_apply]
      rfl
    | cons c rest =>
      rw [List.length_cons] at enough
      rw [List.headD_cons]
      by_cases digit : c ≥ '0' ∧ c ≤ '9'
      · obtain ⟨d, means, value⟩ := digitOf_digit digit
        have more : (c :: rest).headD 0 ≠ 0 := by
          rintro same
          rw [List.headD_cons] at same
          rw [same] at digit
          exact absurd digit (by decide)
        rw [if_pos digit, value, Run.bind_apply, intOp_digit, Run.andThen_ok, Run.bind_apply,
          fmtAdvance_apply _ _ _ _ more, Run.andThen_ok, List.tail_cons, ih rest (by omega)]
        simp only [scanMany, means]
        rfl
      · have stop : digitOf c = none := dif_neg digit
        rw [if_neg digit, Run.pure_apply]
        simp only [scanMany, stop]
        rfl

/-- A numeral is read whole; it wraps, and from 2^31 on this is noted. -/
theorem parseUint_apply :
    parseUint ⟨sink, t, args, o⟩ = .ok (wrapInt (decimalFrom 0 (scanMany digitOf t).1))
      (⟨sink, (scanMany digitOf t).2, args, o || 2 ^ 31 ≤ decimalFrom 0 (scanMany digitOf t).1⟩ :
        FormatState abi) := by
  have loop := parseUintLoop_apply sink t args o (t.length + 1) (Nat.lt_succ_self _) 0
  rw [parseUint, Run.bind_apply, fmtLeft, Run.read, Run.andThen_ok]
  rwa [show (decide (2 ^ 31 ≤ 0)) = false by decide, Bool.or_false] at loop

/-- An argument of the wanted type is taken from the arguments, and only that. -/
theorem vaArg_apply {α : Type} (want : VArg abi → Option α) {a : α} {args' : List (VArg abi)}
    (taken : takeArg want args = some (a, args')) :
    vaArg want ⟨sink, t, args, o⟩ = .ok a ⟨sink, t, args', o⟩ := by
  cases args with
  | nil => simp [takeArg] at taken
  | cons v args =>
    simp only [takeArg, Option.map_eq_some_iff, Prod.mk.injEq] at taken
    obtain ⟨_, wanted, rfl, rfl⟩ := taken
    simp [vaArg, Run.read, wanted]

/-- An amount is an `int` behind a `*`, or a numeral, and each consumes its own part of
the format. -/
theorem fillAmount_scanned {amount : Int} {args' : List (VArg abi)}
    (filled : fillAmount (scanAmount t).1 args = some (amount, args')) :
    (t.headD 0 = '*' ∧ (scanAmount t).2 = t.tail ∧
      ∃ v, takeArg asInt args = some (v, args') ∧ amount = v.toInt) ∨
    (t.headD 0 ≠ '*' ∧ (scanAmount t).2 = (scanMany digitOf t).2 ∧ args' = args ∧
      amount = (decimalFrom 0 (scanMany digitOf t).1 : Nat)) := by
  by_cases star : t.headD 0 = '*'
  · left
    have scanned : scanAmount t = (.star, t.tail) := if_pos star
    rw [scanned] at filled
    simp only [fillAmount, Option.map_eq_some_iff, Prod.mk.injEq] at filled
    obtain ⟨⟨v, behind⟩, taken, rfl, rfl⟩ := filled
    exact ⟨star, congrArg Prod.snd scanned, v, taken, rfl⟩
  · right
    have scanned : scanAmount t = (.literal (scanMany digitOf t).1, (scanMany digitOf t).2) :=
      if_neg star
    rw [scanned] at filled
    simp only [fillAmount, Option.some.injEq, Prod.mk.injEq] at filled
    obtain ⟨rfl, rfl⟩ := filled
    exact ⟨star, congrArg Prod.snd scanned, rfl, rfl⟩

/-- The width is read as it is filled: an argument that is negative is negated and sets
the flag for the left. -/
theorem readWidth_apply (flags : Flags) {width : Int} {args' : List (VArg abi)}
    (filled : fillAmount (scanAmount t).1 args = some (width, args')) :
    readWidth flags ⟨sink, t, args, o⟩ =
      .ok (wrapInt width.natAbs, { flags with left := flags.left || width < 0 })
        (⟨sink, (scanAmount t).2, args', o || 2 ^ 31 ≤ width.natAbs⟩ : FormatState abi) := by
  rw [readWidth, Run.bind_apply, fmtPeek_apply, Run.andThen_ok]
  obtain ⟨star, behind, v, taken, rfl⟩ | ⟨literal, behind, rfl, rfl⟩ :=
    fillAmount_scanned t args filled
  · have high := v.toInt_lt
    rw [if_pos star, Run.bind_apply, vaArg_apply sink t args o asInt taken, Run.andThen_ok,
      Run.bind_apply, fmtAdvance_apply _ _ _ _ (by rw [star]; decide), Run.andThen_ok, behind]
    by_cases negative : v.toInt < 0
    · have magnitude : -v.toInt = (v.toInt.natAbs : Int) := by omega
      rw [if_pos negative, magnitude, Run.bind_apply, intOp_apply, Run.andThen_ok, Run.pure_apply]
      simp only [wrapInt_natCast_ne, negative, decide_true, Bool.or_true]
    · have magnitude : v.toInt = (v.toInt.natAbs : Int) := by omega
      have small : ¬ 2 ^ 31 ≤ v.toInt.natAbs := by omega
      rw [if_neg negative, Run.pure_apply, wrapInt_small _ (by omega), ← magnitude]
      simp only [small, negative, decide_false, Bool.or_false]
  · have negative : ¬ ((decimalFrom 0 (scanMany digitOf t).1 : Int) < 0) := by omega
    rw [if_neg literal, Run.bind_apply, parseUint_apply, Run.andThen_ok, Run.pure_apply, behind]
    simp only [Int.natAbs_natCast, negative, decide_false, Bool.or_false]

/-- The precision in the formatter's counter. -/
def precInt : Option Nat → Int
  | none => -1
  | some prec => wrapInt prec

/-- The precision is read as it is filled; without a dot there is none. -/
theorem readPrec_apply {prec : Option Nat} {args' : List (VArg abi)}
    (filled : fillPrec (scanPrec t).1 args = some (prec, args')) :
    readPrec ⟨sink, t, args, o⟩ = .ok (precInt prec)
      (⟨sink, (scanPrec t).2, args', o || prec.any (2 ^ 31 ≤ ·)⟩ : FormatState abi) := by
  rw [readPrec, Run.bind_apply, fmtPeek_apply, Run.andThen_ok]
  by_cases dot : t.headD 0 = '.'
  · have scanned : scanPrec t = (some (scanAmount t.tail).1, (scanAmount t.tail).2) := if_pos dot
    rw [scanned] at filled ⊢
    simp only [fillPrec, Option.map_eq_some_iff, Prod.mk.injEq] at filled
    obtain ⟨⟨given, behind⟩, filled, rfl, rfl⟩ := filled
    rw [if_pos dot, Run.bind_apply, fmtAdvance_apply _ _ _ _ (by rw [dot]; decide), Run.andThen_ok,
      Run.bind_apply, fmtPeek_apply, Run.andThen_ok]
    obtain ⟨star, rest, v, taken, rfl⟩ | ⟨literal, rest, rfl, rfl⟩ :=
      fillAmount_scanned t.tail args filled
    · have high := v.toInt_lt
      rw [if_pos star, Run.bind_apply, vaArg_apply sink t.tail args o asInt taken, Run.andThen_ok,
        Run.bind_apply, fmtAdvance_apply _ _ _ _ (by rw [star]; decide), Run.andThen_ok,
        Run.pure_apply, rest]
      by_cases negative : v.toInt < 0
      · simp [negative, precInt]
      · have small : ¬ 2 ^ 31 ≤ v.toInt.toNat := by omega
        have same : precInt (some v.toInt.toNat) = v.toInt := by
          rw [precInt, wrapInt_small _ (by omega)]
          omega
        rw [if_neg negative, if_neg negative, same, Option.any_some, decide_eq_false small,
          Bool.or_false]
    · have negative : ¬ ((decimalFrom 0 (scanMany digitOf t.tail).1 : Int) < 0) := by omega
      rw [if_neg literal, parseUint_apply, if_neg negative, Int.toNat_natCast, rest]
      rfl
  · have scanned : scanPrec t = (none, t) := if_neg dot
    rw [scanned] at filled ⊢
    simp only [fillPrec, Option.some.injEq, Prod.mk.injEq] at filled
    obtain ⟨rfl, rfl⟩ := filled
    rw [if_neg dot, Run.pure_apply]
    simp [precInt]

/-- The counter of `l`. -/
def LengthModifier.count : LengthModifier → Nat
  | .ll => 2
  | .l => 1
  | _ => 0

/-- One expected character is passed if it is there, and the result says whether it
was. -/
theorem skipChar_apply (ch : UInt8) (some_char : ch ≠ 0) :
    skipChar ch ⟨sink, t, args, o⟩ = .ok (decide (t.headD 0 = ch))
      (⟨sink, if t.headD 0 = ch then t.tail else t, args, o⟩ : FormatState abi) := by
  rw [skipChar, Run.bind_apply, fmtPeek_apply, Run.andThen_ok]
  by_cases next : t.headD 0 = ch
  · rw [if_pos next, Run.bind_apply, fmtAdvance_apply _ _ _ _ (by rwa [next]), Run.andThen_ok,
      Run.pure_apply]
    simp only [next, decide_true, if_true]
  · rw [if_neg next, Run.pure_apply]
    simp only [next, decide_false, if_false]

/-- The length modifier is read as one or two `l`, or as none. -/
theorem readLength_apply :
    readLength ⟨sink, t, args, o⟩ = .ok (scanLength t).1.count
      (⟨sink, (scanLength t).2, args, o⟩ : FormatState abi) := by
  rw [readLength, Run.bind_apply, skipChar_apply _ _ _ _ _ (by decide), Run.andThen_ok, scanLength]
  by_cases long : t.headD 0 = 'l'
  · simp only [long, decide_true, if_true]
    rw [Run.bind_apply, skipChar_apply _ _ _ _ _ (by decide), Run.andThen_ok, Run.pure_apply]
    by_cases twice : t.tail.headD 0 = 'l'
    · simp only [twice, decide_true, if_true]
      rfl
    · simp only [twice, decide_false, if_false]
      rfl
  · simp only [long, decide_false, if_false, Bool.false_eq_true]
    rw [Run.bind_apply, skipChar_apply _ _ _ _ _ (by decide), Run.andThen_ok]
    by_cases half : t.headD 0 = 'h'
    · simp only [half, decide_true, if_true]
      rw [Run.bind_apply, skipChar_apply _ _ _ _ _ (by decide), Run.andThen_ok, Run.pure_apply]
      by_cases twice : t.tail.headD 0 = 'h'
      · simp only [twice, if_true]
        rfl
      · simp only [twice, if_false]
        rfl
    · simp only [half, decide_false, if_false, Bool.false_eq_true]
      rw [Run.bind_apply, skipChar_apply _ _ _ _ _ (by decide), Run.andThen_ok, Run.pure_apply]
      by_cases size : t.headD 0 = 'z'
      · simp only [size, if_true]
        rfl
      · simp only [size, if_false]
        rfl

/-- The conversion character is whatever comes next; a format without a NUL loses
exactly that character. -/
theorem readSpec_apply (nulFree : 0 ∉ t) :
    readSpec ⟨sink, t, args, o⟩ = .ok (t.headD 0)
      (⟨sink, t.tail, args, o⟩ : FormatState abi) := by
  rw [readSpec, Run.bind_apply, fmtPeek_apply, Run.andThen_ok]
  cases t with
  | nil => rfl
  | cons c rest =>
    have some_char : c ≠ 0 := by
      rintro rfl
      exact nulFree List.mem_cons_self
    rw [List.headD_cons, if_neg some_char, Run.bind_apply,
      fmtAdvance_apply sink (c :: rest) args o some_char, Run.andThen_ok, Run.pure_apply]

end

/-! ## Scanning goes forward -/

/-- What a scan leaves is the end of the text. -/
theorem scanMany_suffix {α : Type} (item : UInt8 → Option α) (t : Text) :
    (scanMany item t).2 <:+ t := by
  induction t with
  | nil => exact List.suffix_rfl
  | cons c rest ih =>
    rw [scanMany]
    split
    · exact ih.trans (List.suffix_cons c rest)
    · exact List.suffix_rfl

/-- What an amount leaves is the end of the text. -/
theorem scanAmount_suffix (t : Text) : (scanAmount t).2 <:+ t := by
  unfold scanAmount
  split
  · exact List.tail_suffix t
  · exact scanMany_suffix digitOf t

/-- What a precision leaves is the end of the text. -/
theorem scanPrec_suffix (t : Text) : (scanPrec t).2 <:+ t := by
  unfold scanPrec
  split
  · exact (scanAmount_suffix t.tail).trans (List.tail_suffix t)
  · exact List.suffix_rfl

/-- What a length modifier leaves is the end of the text. -/
theorem scanLength_suffix (t : Text) : (scanLength t).2 <:+ t := by
  have once := List.tail_suffix t
  have twice := (List.tail_suffix t.tail).trans once
  unfold scanLength
  split_ifs <;> first | exact twice | exact once | exact List.suffix_rfl

/-- What a directive leaves is the end of the text, so a format without a NUL stays
one. -/
theorem scanDirective_suffix (t : Text) : (scanDirective t).2 <:+ t := by
  have behind := (scanLength_suffix _).trans ((scanPrec_suffix _).trans
    ((scanAmount_suffix _).trans (scanMany_suffix flagOf t)))
  exact (List.tail_suffix _).trans behind

end NeoSfp
