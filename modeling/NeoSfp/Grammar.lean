import NeoSfp.Scanner

/-!
# The transaction grammar

The language of lines, stated without the parser. A nonterminal is a relation
between the text at which it begins, the value it denotes and the text behind
it. Nothing here says how far a repetition extends or which alternative is tried
first; `GrammarExact` proves that the scanners make the only choices that work.
-/

namespace NeoSfp

/-! ## Digits and numerals -/

/-- The hexadecimal digits, upper case only. -/
def hexDigits : List UInt8 := bytes "0123456789ABCDEF"
/-- The binary digits. -/
def binDigits : List UInt8 := bytes "01"

/-- Latin letters and digits. -/
def alnums : List UInt8 :=
  bytes "0123456789ABCDEFGHIJKLMNOPQRSTUVWXYZabcdefghijklmnopqrstuvwxyz"

/-- The value of a digit is its place among the digits. -/
def digitValue (c : UInt8) : Nat := hexDigits.idxOf c

/-- The number written by digits, the most significant first. -/
def numeral (base : Nat) (digits : Text) : Nat :=
  Nat.ofDigits base (digits.map digitValue).reverse

/-- No digits write zero. -/
@[simp] theorem numeral_nil (base : Nat) : numeral base [] = 0 := rfl

/-- A digit in front counts with the power of the base that its place gives it. -/
theorem numeral_cons (base : Nat) (d : UInt8) (digits : Text) :
    numeral base (d :: digits) = digitValue d * base ^ digits.length + numeral base digits := by
  simp only [numeral, List.map_cons, List.reverse_cons, Nat.ofDigits_append, List.length_reverse,
    List.length_map, Nat.ofDigits_singleton]
  rw [Nat.mul_comm, Nat.add_comm]

example : numeral 16 (bytes "3FE") = 1022 := by decide

/-! ## Nonterminals -/

/-- A nonterminal that denotes values of type `α`. -/
abbrev Nonterminal (α : Type) := Text → α → Text → Prop

/-- One or more times, denoting the values in order. -/
inductive Plus {α : Type} (item : Nonterminal α) : Nonterminal (List α)
  | one {p q : Text} {a : α} : item p a q → Plus item p [a] q
  | more {p q r : Text} {a : α} {as : List α} :
      item p a q → Plus item q as r → Plus item p (a :: as) r

/-- Any number of `_`. -/
inductive Bars : Text → Text → Prop
  | done (p : Text) : Bars p p
  | bar {p q : Text} : Bars p q → Bars (byte '_' :: p) q

/-- Two uppercase hexadecimal digits. -/
inductive HexByte : Nonterminal UInt8
  | pair {x y : UInt8} (q : Text) : x ∈ hexDigits → y ∈ hexDigits →
      HexByte (x :: y :: q) (UInt8.ofNat (numeral 16 [x, y])) q

/-- Bits with any number of `_` before each of them. -/
inductive Bits : Nonterminal Text
  | done (p : Text) : Bits p [] p
  | bit {p q r : Text} {d : UInt8} {ds : Text} :
      Bars p (d :: q) → d ∈ binDigits → Bits q ds r → Bits p (d :: ds) r

inductive Octet : Nonterminal UInt8
  | eight {p q : Text} {ds : Text} : Bits p ds q → ds.length = 8 →
      Octet p (UInt8.ofNat (numeral 2 ds)) q

inductive AsciiByte : Nonterminal UInt8
  | alnum {c : UInt8} (q : Text) : c ∈ alnums → AsciiByte (c :: q) c q

inductive IAddr : Nonterminal UInt8
  | hex {p q r : Text} {a : UInt8} : Bars p (byte 'h' :: q) → HexByte q a r → IAddr p a r
  | bin {p q r : Text} {a : UInt8} : Bars p (byte 'b' :: q) → Octet q a r → IAddr p a r
  | ascii {p q r : Text} {a : UInt8} : Bars p (byte 'a' :: q) → AsciiByte q a r → IAddr p a r

/-- Bytes that start a command and so cannot open a hex group. -/
def ctrlBytes : List UInt8 := [0xA0, 0xA1, 0xA2, 0xA3]

inductive Payload : Nonterminal (List UInt8)
  | done (p : Text) : Payload p [] p
  | bar {p q : Text} {bs : List UInt8} : Payload p bs q → Payload (byte '_' :: p) bs q
  | hex {p q r : Text} {b : UInt8} {bs more : List UInt8} :
      Plus HexByte p (b :: bs) r → b ∉ ctrlBytes → Payload r more q →
      Payload (byte 'h' :: p) (b :: bs ++ more) q
  | bin {p q r : Text} {bs more : List UInt8} :
      Plus Octet p bs r → Payload r more q → Payload (byte 'b' :: p) (bs ++ more) q
  | ascii {p q r : Text} {bs more : List UInt8} :
      Plus AsciiByte p bs r → (r = [] ∨ r.head? = some (byte '_')) → Payload r more q →
      Payload (byte 'a' :: p) (bs ++ more) q

/-- The letters that name display formats. -/
inductive FormatLetter : UInt8 → NeoFmt → Prop
  | hex : FormatLetter 'h' .hex
  | bin : FormatLetter 'b' .bin
  | ascii : FormatLetter 'a' .ascii

/-- The digits of a read count: one to three, not to be mistaken for the rest of
a command start. -/
structure CountDigits (ds : Text) : Prop where
  digits : ∀ d ∈ ds, d ∈ hexDigits
  nonempty : 1 ≤ ds.length
  short : ds.length ≤ 3
  notCtrl : ∀ b ∈ ctrlBytes, numeral 16 (ds.take 2) ≠ b.toNat
  bound : numeral 16 ds ≤ 0x3FE

inductive Tail : Nonterminal (Nat × NeoFmt)
  | empty (p : Text) : Tail p (0, .none) p
  | count {ds : Text} {f : UInt8} {fmt : NeoFmt} (q : Text) :
      CountDigits ds → FormatLetter f fmt →
      Tail (byte 'h' :: (ds ++ f :: byte '_' :: q)) (numeral 16 ds, fmt) q
  | zero {ds : Text} (q : Text) : CountDigits ds → numeral 16 ds = 0 →
      Tail (byte 'h' :: (ds ++ byte '_' :: q)) (0, .none) q

/-- The control bytes of writes, with the digit that tells them apart. -/
def writeCtrls : List (UInt8 × UInt8) := [(byte '0', 0xA0), (byte '2', 0xA2)]

/-- The control bytes of reads, with the digit that tells them apart. -/
def readCtrls : List (UInt8 × UInt8) := [(byte '1', 0xA1), (byte '3', 0xA3)]

inductive Cmd : Nonterminal TwiCmd
  | write {d ctrl addr : UInt8} {p q r : Text} {bs : List UInt8} :
      (d, ctrl) ∈ writeCtrls → IAddr p addr q → Payload q bs r →
      Cmd (byte 'h' :: byte 'A' :: d :: p) (.write ctrl addr bs) r
  | read {d ctrl addr : UInt8} {p q r s : Text} {n : Nat} {fmt : NeoFmt} :
      (d, ctrl) ∈ readCtrls → IAddr p addr q → Bars q r →
      Tail r (n, fmt) s → Cmd (byte 'h' :: byte 'A' :: d :: p) (.read ctrl addr n fmt) s

/-- Further commands, each behind any number of `_`. -/
inductive Cmds : Nonterminal (List TwiCmd)
  | done (p : Text) : Cmds p [] p
  | cmd {p q r s : Text} {c : TwiCmd} {cs : List TwiCmd} :
      Bars p q → Cmd q c r → Cmds r cs s → Cmds p (c :: cs) s

/-- A whole line of commands. -/
inductive Chain : Text → List TwiCmd → Prop
  | line {p q r : Text} {c : TwiCmd} {cs : List TwiCmd} :
      Cmd p c q → Cmds q cs r → Bars r [] → Chain p (c :: cs)

/-- The text begins like a command. -/
def CmdStart (p : Text) : Prop :=
  ∃ d ∈ bytes "0123", ∃ rest, p = byte 'h' :: byte 'A' :: d :: rest

/-- What the record has room for, behind `count` commands with `used` payload
bytes. -/
structure Fits (count used : Nat) (cs : List TwiCmd) : Prop where
  count : count + cs.length ≤ 160
  each : ∀ c ∈ cs, c.payload.length ≤ 1022
  total : used + payloadTotal cs ≤ 2044

/-- Nothing but blanks and tabs. -/
def Blanks (p : Text) : Prop := ∀ ch ∈ p, ch = byte ' ' ∨ ch = byte '\t'

/-- A whole line that is one special command. -/
inductive SpecialLine : Text → NeoCmd → Prop
  | out {ds tail : Text} : ds.length = 8 → (∀ d ∈ ds, d ∈ binDigits) → Blanks tail →
      SpecialLine (bytes "out_" ++ ds ++ tail)
        { kind := .gpioOut, gpioByte := UInt8.ofNat (numeral 2 ds) }
  | inp {tail : Text} : Blanks tail → SpecialLine (bytes "inp" ++ tail) { kind := .gpioIn }
  | help {tail : Text} : Blanks tail → SpecialLine (bytes "help" ++ tail) { kind := .help }
  | mark {tail : Text} : Blanks tail → SpecialLine (bytes "?" ++ tail) { kind := .help }

/-! ## Characters -/

/-- The hex digits by their codes, so that membership can be computed. -/
theorem hexDigits_codes : hexDigits =
    [48, 49, 50, 51, 52, 53, 54, 55, 56, 57, 65, 66, 67, 68, 69, 70] := rfl

/-- The binary digits as characters of the source. -/
theorem binDigits_codes : binDigits = [byte '0', byte '1'] := rfl

/-- The digits of the control bytes as characters of the source. -/
theorem ctrlDigits_codes : bytes "0123" = [byte '0', byte '1', byte '2', byte '3'] := rfl

/-- The letters and digits as three runs of codes, which is how the source tests for
them. -/
theorem alnums_codes : alnums = (List.range' 48 10).map UInt8.ofNat ++
    (List.range' 65 26).map UInt8.ofNat ++ (List.range' 97 26).map UInt8.ofNat := rfl

/-- The test of the source accepts exactly the hex digits, upper case only. -/
theorem isHex_iff (c : UInt8) : isHex c = true ↔ c ∈ hexDigits := by
  simp only [hexDigits_codes, isHex, List.mem_cons, ← UInt8.toNat_inj, UInt8.le_iff_toNat_le,
    byte, ge_iff_le, Bool.or_eq_true, Bool.and_eq_true, decide_eq_true_eq]
  simp
  omega

/-- The test of the source accepts exactly the binary digits. -/
theorem isBin_iff (c : UInt8) : isBin c = true ↔ c ∈ binDigits := by
  simp [isBin, binDigits_codes]

/-- A character is in a run of consecutive codes exactly if its code is in the range. -/
theorem mem_codes (c : UInt8) (first count : Nat) (inside : first + count ≤ 256) :
    c ∈ (List.range' first count).map UInt8.ofNat ↔
      first ≤ c.toNat ∧ c.toNat < first + count := by
  rw [List.mem_map]
  constructor
  · rintro ⟨code, member, same⟩
    rw [List.mem_range'_1] at member
    rw [← same, UInt8.toNat_ofNat', Nat.mod_eq_of_lt (by omega)]
    exact member
  · intro between
    exact ⟨c.toNat, List.mem_range'_1.mpr between, UInt8.ofNat_toNat⟩

/-- The test of the source accepts exactly the Latin letters and the digits. -/
theorem isAlnumLat_iff (c : UInt8) : isAlnumLat c = true ↔ c ∈ alnums := by
  rw [alnums_codes, List.mem_append, List.mem_append, mem_codes c 48 10 (by decide),
    mem_codes c 65 26 (by decide), mem_codes c 97 26 (by decide)]
  simp only [isAlnumLat, UInt8.le_iff_toNat_le, byte, ge_iff_le, Bool.or_eq_true,
    Bool.and_eq_true, decide_eq_true_eq]
  simp
  omega

/-- The code's digit values are the places of the digits, checked for all sixteen. -/
theorem hexVal_digit : ∀ c ∈ hexDigits, hexVal c = (digitValue c : Int) ∧ digitValue c < 16 := by
  rw [hexDigits_codes]
  simp [digitValue, hexDigits_codes, hexVal, byte, List.idxOf_cons]

/-- Digits are told apart by their values, because no digit stands twice in the list. -/
theorem digitValue_inj {x : UInt8} (digit : x ∈ hexDigits) (y : UInt8) :
    digitValue x = digitValue y ↔ x = y := List.idxOf_inj digit

/-- Two hex digits write the first one sixteen times and the second. -/
theorem numeral_pair (x y : UInt8) : numeral 16 [x, y] = 16 * digitValue x + digitValue y := by
  rw [numeral_cons, numeral_cons, numeral_nil]
  simp only [List.length_cons, List.length_nil, Nat.zero_add, pow_one, pow_zero, Nat.mul_one,
    Nat.add_zero]
  rw [Nat.mul_comm]

/-- One hex digit writes its own value. -/
theorem numeral_single (x : UInt8) : numeral 16 [x] = digitValue x := by
  simp [numeral_cons]

/-- A single digit is always a read count: it is too short to be the rest of a command
start. -/
theorem countDigits_single {d : UInt8} (digit : d ∈ hexDigits) : CountDigits [d] := by
  have small := (hexVal_digit d digit).2
  refine
    { digits := by simpa using digit
      nonempty := Nat.le_refl 1
      short := by simp
      notCtrl := ?_
      bound := ?_ }
  · rw [List.take_of_length_le (by simp), numeral_single]
    simp only [ctrlBytes, List.forall_mem_cons, List.not_mem_nil, IsEmpty.forall_iff,
      implies_true, and_true, UInt8.reduceToNat]
    omega
  · rw [numeral_single]
    omega

/-- Two digits start a command behind an `h` if and only if they write one of the
control bytes. -/
theorem ctrl_value {x y : UInt8} (xDigit : x ∈ hexDigits) (yDigit : y ∈ hexDigits)
    (rest : Text) :
    startsCmd (byte 'h' :: x :: y :: rest) = true ↔
      ∃ b ∈ ctrlBytes, numeral 16 [x, y] = b.toNat := by
  have xSmall := (hexVal_digit x xDigit).2
  have ySmall := (hexVal_digit y yDigit).2
  have ten : x = byte 'A' ↔ digitValue x = 10 := (digitValue_inj xDigit (byte 'A')).symm
  have zero : y = byte '0' ↔ digitValue y = 0 := (digitValue_inj yDigit (byte '0')).symm
  have one : y = byte '1' ↔ digitValue y = 1 := (digitValue_inj yDigit (byte '1')).symm
  have two : y = byte '2' ↔ digitValue y = 2 := (digitValue_inj yDigit (byte '2')).symm
  have three : y = byte '3' ↔ digitValue y = 3 := (digitValue_inj yDigit (byte '3')).symm
  simp only [startsCmd, Bool.and_eq_true, Bool.or_eq_true, beq_iff_eq, ten, zero, one, two, three,
    numeral_pair, ctrlBytes, List.mem_cons, List.not_mem_nil, or_false, exists_eq_or_imp,
    exists_eq_left, true_and]
  simp
  omega

end NeoSfp
