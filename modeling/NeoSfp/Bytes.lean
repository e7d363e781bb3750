import Mathlib

/-!
# Bytes, character classes and NUL-terminated strings

A source `char` is one byte, and a character literal stands for its code. A
`const char *` into a NUL-terminated string is the list of the bytes from the
cursor up to, and not including, the NUL: the empty list is a cursor at the NUL
itself. Reading the NUL is allowed, reading past it is a fault.
-/

namespace NeoSfp

/-- The code of a source character literal. -/
def byte (c : Char) : UInt8 := UInt8.ofNat c.toNat

instance charByte : Coe Char UInt8 := ⟨byte⟩

/-- Literals are told apart by their codes, so that a comparison of two characters of
the source is one of numbers, which `simp` decides. -/
@[simp] theorem byte_eq (a b : Char) : byte a = byte b ↔ a.toNat % 256 = b.toNat % 256 := by
  simp [byte, ← UInt8.toNat_inj]

/-- A literal is the NUL only if its code is zero. -/
@[simp] theorem byte_eq_nul (a : Char) : byte a = 0 ↔ a.toNat % 256 = 0 := by
  simp [byte, ← UInt8.toNat_inj]

/-- The same comparison with the NUL on the left. -/
@[simp] theorem nul_eq_byte (a : Char) : 0 = byte a ↔ a.toNat % 256 = 0 := by
  rw [eq_comm, byte_eq_nul]

/-- The bytes of a source string literal. -/
def bytes (s : String) : List UInt8 := s.toList.map byte

/-- Uppercase only, so that no digit is one of the markers `h`, `b`, `a`. -/
def isHex (c : UInt8) : Bool := (c ≥ '0' && c ≤ '9') || (c ≥ 'A' && c ≤ 'F')

/-- The digit's value, and -1 for any other character. -/
def hexVal (c : UInt8) : Int :=
  if c ≥ '0' && c ≤ '9' then c.toNat - 48
  else if c ≥ 'A' && c ≤ 'F' then c.toNat - 65 + 10
  else -1

/-- The test of the source for a binary digit. -/
def isBin (c : UInt8) : Bool := c == '0' || c == '1'

/-- The test of the source for a Latin letter or a digit. -/
def isAlnumLat (c : UInt8) : Bool :=
  (c ≥ '0' && c ≤ '9') || (c ≥ 'a' && c ≤ 'z') || (c ≥ 'A' && c ≤ 'Z')

/-- Characters at a cursor, up to the terminating NUL. -/
abbrev Text := List UInt8

/-- The read `p[k]`. The NUL behind the text is readable and nothing after it is. -/
def rd (p : Text) (k : Nat) : Option UInt8 := (p ++ [0])[k]?

/-- A NUL-terminated string: no NUL stands before the terminating one. -/
structure CString where
  chars : List UInt8
  nulFree : 0 ∉ chars
deriving DecidableEq

/-- The string a callee sees in a character array: everything before the first NUL. -/
def CString.ofBuffer (buf : List UInt8) : CString where
  chars := buf.takeWhile (· ≠ 0)
  nulFree := by
    intro member
    simpa using List.mem_takeWhile_imp member

/-- Memory behind a `char *`, by offset. -/
abbrev Memory := Nat → UInt8

/-- The `int` an exact value becomes. -/
def wrapInt (exact : Int) : Int := exact.bmod (2 ^ 32)

/-- At the end of a text the terminating NUL is read. -/
@[simp] theorem rd_nil : rd [] 0 = some 0 := rfl

/-- In front of a character the character is read. -/
@[simp] theorem rd_zero (ch : UInt8) (rest : Text) : rd (ch :: rest) 0 = some ch := rfl

/-- A read further on is a read behind the first character. -/
@[simp] theorem rd_succ (ch : UInt8) (rest : Text) (k : Nat) :
    rd (ch :: rest) (k + 1) = rd rest k := by
  simp [rd]

/-- Nothing is readable past the NUL, so that such a read is a fault of the program. -/
@[simp] theorem rd_past (k : Nat) : rd [] (k + 1) = none := by
  simp [rd]

/-- A value in the range of `int`. -/
def IsInt (v : Int) : Prop := -2 ^ 31 ≤ v ∧ v < 2 ^ 31

/-- Whatever the exact value is, the converted one lies in the range of `int`. -/
theorem wrapInt_isInt (exact : Int) : IsInt (wrapInt exact) := by
  have low := Int.le_bmod (x := exact) (m := 2 ^ 32) (by decide)
  have high := Int.bmod_lt (x := exact) (m := 2 ^ 32) (by decide)
  unfold IsInt wrapInt
  omega

/-- The conversion to `int` changes nothing exactly where the exact value is in the
range of `int`. This is what makes a bound on a length exact rather than sufficient. -/
theorem wrapInt_eq_iff (exact : Int) : wrapInt exact = exact ↔ IsInt exact := by
  constructor
  · intro same
    rw [← same]
    exact wrapInt_isInt exact
  · rintro ⟨low, high⟩
    unfold wrapInt
    rw [Int.bmod_eq_of_le] <;> omega

/-- A sum of which one part has been converted already is converted to the same value. -/
theorem wrapInt_add (left right : Int) : wrapInt (wrapInt left + right) = wrapInt (left + right) :=
  Int.bmod_add_bmod

/-- The bits of a converted value are the low bits of the exact one. -/
theorem ofInt_wrapInt (exact : Int) : BitVec.ofInt 32 (wrapInt exact) = BitVec.ofInt 32 exact := by
  apply BitVec.eq_of_toInt_eq
  rw [BitVec.toInt_ofInt, BitVec.toInt_ofInt, wrapInt, Int.bmod_bmod]

/-- A natural number below 2^31 is an `int`, which is how lengths and offsets of real
lines come through their casts unharmed. -/
theorem wrapInt_small (n : Nat) (small : n < 2 ^ 31) : wrapInt n = n :=
  (wrapInt_eq_iff n).mpr ⟨by omega, by omega⟩

/-- A text without a NUL is read back whole from a buffer that holds it, its NUL and any
residue of what was there before. -/
theorem ofBuffer_chars (text residue : List UInt8) (nulFree : 0 ∉ text) :
    (CString.ofBuffer (text ++ 0 :: residue)).chars = text := by
  have nonzero : ∀ ch ∈ text, decide (ch ≠ 0) = true := by
    intro ch member
    simpa using fun same : ch = 0 => nulFree (same ▸ member)
  change (text ++ 0 :: residue).takeWhile (fun ch => decide (ch ≠ 0)) = text
  rw [List.takeWhile_append_of_pos nonzero]
  simp

end NeoSfp
