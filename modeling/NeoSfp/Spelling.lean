import NeoSfp.Alphabet
import NeoSfp.Lengths
import NeoSfp.ParserGrammar
import NeoSfp.Reports

/-!
# One spelling for every chain

Whatever commands a line can denote can be written in one way: control bytes and
addresses in hex, read counts in three digits, and payloads in hex but for the bytes
that would start a command, which are written in binary. The parser reads such a line
back as the commands it was made from.
-/

namespace NeoSfp

/-! ## Spellings -/

/-- A hex group extends over all that follows; a byte that would start a command has a
binary group in front of it. -/
def spellPayload : List UInt8 → Text
  | [] => []
  | b :: bs =>
    if b ∈ ctrlBytes then byte 'b' :: (bitsText b 8 ++ spellPayload bs)
    else byte 'h' :: (b :: bs).flatMap hexText

/-- A read count in three digits. -/
def countText (n : Nat) : Text :=
  [hexChar (UInt8.ofNat (n / 256)), hexChar (UInt8.ofNat (n / 16)), hexChar (UInt8.ofNat n)]

/-- How the bytes of a read are to be displayed, behind their number. -/
def formatText (n : Nat) : NeoFmt → Text
  | .hex => byte 'h' :: (countText n ++ [byte 'h', byte '_'])
  | .bin => byte 'h' :: (countText n ++ [byte 'b', byte '_'])
  | .ascii => byte 'h' :: (countText n ++ [byte 'a', byte '_'])
  | .none => []

/-- A command in one spelling: everything in hex, the payload where it can be. -/
def TwiCmd.spelling : TwiCmd → Text
  | .write ctrl addr payload =>
    byte 'h' :: (hexText ctrl ++ byte 'h' :: (hexText addr ++ spellPayload payload))
  | .read ctrl addr n fmt =>
    byte 'h' :: (hexText ctrl ++ byte 'h' :: (hexText addr ++ formatText n fmt))

/-- The spellings of some commands, one behind the other. -/
def spelled (cs : List TwiCmd) : Text := cs.flatMap TwiCmd.spelling

example : spelled [.write 0xA0 0x50 [0x01, 0xA1], .read 0xA1 0x50 2 .hex] =
    bytes "hA0h50h01A1hA1h50h002h_" := by decide

/-- The commands that the syntax can express. -/
def TwiCmd.Spellable : TwiCmd → Prop
  | .write ctrl _ _ => ctrl = 0xA0 ∨ ctrl = 0xA2
  | .read ctrl _ n fmt => (ctrl = 0xA1 ∨ ctrl = 0xA3) ∧ n ≤ readCountMax ∧ (fmt = .none → n = 0)

/-! ## Digits -/

/-- The characters of the source's table are the hex digits of the grammar. -/
theorem table_digit : ∀ n < 16, (bytes "0123456789ABCDEF").getD n 0 ∈ hexDigits := by decide

/-- What is printed for four bits is a hex digit of the grammar. -/
theorem hexChar_digit (v : UInt8) : hexChar v ∈ hexDigits := table_digit _ (nibble_lt v)

/-- The digit printed for the low four bits has their value. -/
theorem digitValue_hexChar (v : UInt8) : digitValue (hexChar v) = v.toNat % 16 := by
  have value := (hexVal_digit (hexChar v) (hexChar_digit v)).1
  have mask : v.toNat &&& 15 = v.toNat % 16 := Nat.and_two_pow_sub_one_eq_mod v.toNat 4
  rw [hexVal_hexChar, UInt8.toNat_and] at value
  simp only [UInt8.reduceToNat, mask] at value
  omega

/-- Two printed hex digits write the byte that they were printed for. -/
theorem numeral_hexText (b : UInt8) : numeral 16 (hexText b) = b.toNat := by
  have small := UInt8.toNat_lt b
  rw [hexText, numeral_pair, digitValue_hexChar, digitValue_hexChar, UInt8.toNat_shiftRight,
    Nat.shiftRight_eq_div_pow]
  simp only [UInt8.reduceToNat, Nat.reduceMod, Nat.reducePow]
  omega

/-- Printed bits are binary digits of the grammar. By induction on the bits. -/
theorem bitsText_digits (b : UInt8) (left : Nat) : ∀ d ∈ bitsText b left, d ∈ binDigits := by
  induction left with
  | zero => simp [bitsText]
  | succ left ih =>
    rw [bitsText, List.forall_mem_cons]
    constructor
    · split <;> simp [binDigits_codes]
    · exact ih

/-- Printed bits write the low bits of the byte. By induction on how many there are. -/
theorem numeral_bitsText (b : UInt8) (left : Nat) :
    numeral 2 (bitsText b left) = b.toNat % 2 ^ left := by
  have one : digitValue (byte '1') = 1 := by decide
  have zero : digitValue (byte '0') = 0 := by decide
  induction left with
  | zero => rw [bitsText, numeral_nil, pow_zero, Nat.mod_one]
  | succ left ih =>
    rw [bitsText, numeral_cons, bitsText_length, ih, Nat.mod_pow_succ, ← Nat.toNat_testBit]
    cases bit : b.toNat.testBit left with
    | true =>
      rw [if_pos rfl, one]
      simp [Nat.add_comm]
    | false =>
      rw [if_neg Bool.false_ne_true, zero]
      simp

/-! ## Derivations -/

/-- A byte spelled in hex is derived as that byte, whatever follows. -/
theorem hexByte_spelled (b : UInt8) (q : Text) : HexByte (hexText b ++ q) b q := by
  have derived := HexByte.pair q (hexChar_digit (b >>> 4)) (hexChar_digit b)
  have value : UInt8.ofNat (numeral 16 [hexChar (b >>> 4), hexChar b]) = b := by
    rw [← hexText, numeral_hexText, UInt8.ofNat_toNat]
  rw [value] at derived
  exact derived

/-- Bytes spelled in hex one after another are derived as these bytes. By induction on
them. -/
theorem hexBytes_spelled (b : UInt8) (bs : List UInt8) (q : Text) :
    Plus HexByte ((b :: bs).flatMap hexText ++ q) (b :: bs) q := by
  induction bs generalizing b with
  | nil =>
    rw [List.flatMap_singleton]
    exact .one (hexByte_spelled b q)
  | cons c bs ih =>
    rw [List.flatMap_cons, List.append_assoc]
    exact .more (hexByte_spelled b _) (ih c)

/-- Binary digits are derived as bits without separators. By induction on them. -/
theorem bits_spelled {ds : Text} (digits : ∀ d ∈ ds, d ∈ binDigits) (q : Text) : Bits (ds ++ q) ds q := by
  induction ds with
  | nil => exact .done q
  | cons d ds ih =>
    obtain ⟨first, others⟩ := List.forall_mem_cons.mp digits
    exact .bit (.done _) first (ih others)

/-- A byte spelled in binary is derived as that byte, whatever follows. -/
theorem octet_spelled (b : UInt8) (q : Text) : Octet (bitsText b 8 ++ q) b q := by
  have derived := Octet.eight (bits_spelled (bitsText_digits b 8) q) (bitsText_length b 8)
  have value : UInt8.ofNat (numeral 2 (bitsText b 8)) = b := by
    rw [numeral_bitsText, Nat.mod_eq_of_lt (UInt8.toNat_lt b), UInt8.ofNat_toNat]
  rw [value] at derived
  exact derived

/-- A spelled payload is derived as its bytes, whatever follows. By induction on the
bytes: one that would start a command has a binary group of its own. -/
theorem payload_spelled (bs : List UInt8) (q : Text) : Payload (spellPayload bs ++ q) bs q := by
  induction bs with
  | nil => exact .done q
  | cons b bs ih =>
    rw [spellPayload]
    split
    · rw [List.cons_append, List.append_assoc]
      exact .bin (.one (octet_spelled b _)) ih
    · rename_i ordinary
      have derived := Payload.hex (hexBytes_spelled b bs q) ordinary (.done q)
      rw [List.append_nil] at derived
      exact derived

/-- Three digits write a read count, and are not taken for a command. -/
theorem countText_digits {n : Nat} (inside : n ≤ readCountMax) :
    CountDigits (countText n) ∧ numeral 16 (countText n) = n := by
  have bound : n ≤ 0x3FE := inside
  have digit (m : Nat) : digitValue (hexChar (UInt8.ofNat m)) = m % 16 := by
    rw [digitValue_hexChar, UInt8.toNat_ofNat']
    omega
  have value : numeral 16 (countText n) = n := by
    rw [countText, numeral_cons, numeral_pair, digit, digit, digit]
    simp only [List.length_cons, List.length_nil]
    omega
  refine ⟨?_, value⟩
  refine
    { digits := ?_
      nonempty := by simp [countText]
      short := by simp [countText]
      notCtrl := ?_
      bound := by rw [value]; exact inside }
  · simp only [countText, List.forall_mem_cons]
    exact ⟨hexChar_digit _, hexChar_digit _, hexChar_digit _, by simp⟩
  · rw [countText, List.take_succ_cons, List.take_succ_cons, List.take_zero, numeral_pair, digit, digit]
    simp only [ctrlBytes, List.forall_mem_cons, List.not_mem_nil, IsEmpty.forall_iff, implies_true,
      and_true, UInt8.reduceToNat]
    omega

/-- A spelled tail is derived as its count and its format, whatever follows. -/
theorem tail_spelled {n : Nat} {fmt : NeoFmt} (inside : n ≤ readCountMax) (none : fmt = .none → n = 0)
    (q : Text) : Tail (formatText n fmt ++ q) (n, fmt) q := by
  obtain ⟨digits, value⟩ := countText_digits inside
  have shown {f : UInt8} (letter : FormatLetter f fmt) :
      Tail (byte 'h' :: (countText n ++ [f, byte '_']) ++ q) (n, fmt) q := by
    have derived := Tail.count q digits letter
    rw [value] at derived
    simpa using derived
  cases fmt with
  | none =>
    rw [none rfl]
    exact .empty q
  | hex => exact shown .hex
  | bin => exact shown .bin
  | ascii => exact shown .ascii

/-- A spelled command is derived as that command, whatever follows. -/
theorem cmd_spelled {c : TwiCmd} (spellable : c.Spellable) (q : Text) : Cmd (c.spelling ++ q) c q := by
  have addressed (addr : UInt8) (r : Text) : IAddr (byte 'h' :: (hexText addr ++ r)) addr r :=
    .hex (.done _) (hexByte_spelled addr r)
  cases c with
  | write ctrl addr payload =>
    have derived := payload_spelled payload q
    simp only [TwiCmd.spelling, List.cons_append, List.append_assoc]
    rcases spellable with rfl | rfl
    · exact .write (by decide) (addressed addr _) derived
    · exact .write (by decide) (addressed addr _) derived
  | read ctrl addr n fmt =>
    obtain ⟨named, inside, none⟩ := spellable
    have derived := tail_spelled inside none q
    simp only [TwiCmd.spelling, List.cons_append, List.append_assoc]
    rcases named with rfl | rfl
    · exact .read (by decide) (addressed addr _) (.done _) derived
    · exact .read (by decide) (addressed addr _) (.done _) derived

/-- Spelled commands are derived as these commands. By induction on them. -/
theorem cmds_spelled {cs : List TwiCmd} (spellable : ∀ c ∈ cs, c.Spellable) (q : Text) :
    Cmds (spelled cs ++ q) cs q := by
  induction cs with
  | nil => exact .done q
  | cons c cs ih =>
    obtain ⟨first, others⟩ := List.forall_mem_cons.mp spellable
    rw [spelled, List.flatMap_cons, List.append_assoc]
    exact .cmd (.done _) (cmd_spelled first _) (ih others)

/-- A spelled chain is a line that means the chain. -/
theorem chain_spelled {cs : List TwiCmd} (nonempty : cs ≠ []) (spellable : ∀ c ∈ cs, c.Spellable) :
    Chain (spelled cs) cs := by
  obtain ⟨c, cs, rfl⟩ := List.exists_cons_of_ne_nil nonempty
  obtain ⟨first, others⟩ := List.forall_mem_cons.mp spellable
  have rest := cmds_spelled others []
  rw [List.append_nil] at rest
  exact .line (cmd_spelled first _) rest (.done _)

/-! ## What can be expressed -/

/-- A chain that some line denotes and the record holds. -/
structure Expressible (cs : List TwiCmd) : Prop where
  nonempty : cs ≠ []
  spellable : ∀ c ∈ cs, c.Spellable
  fits : Fits 0 0 cs

/-- Every tail of the grammar has a count in range, and a count of zero where no format
is given. -/
theorem tail_spellable {p q : Text} {v : Nat × NeoFmt} (derived : Tail p v q) :
    v.1 ≤ readCountMax ∧ (v.2 = .none → v.1 = 0) := by
  cases derived with
  | empty p => exact ⟨Nat.zero_le _, fun _ => rfl⟩
  | count q digits letter =>
    refine ⟨digits.bound, ?_⟩
    intro none
    cases letter <;> cases none
  | zero q digits zero => exact ⟨Nat.zero_le _, fun _ => rfl⟩

/-- Every command of the grammar can be spelled, so the spelling misses none. -/
theorem cmd_spellable {p q : Text} {c : TwiCmd} (derived : Cmd p c q) : c.Spellable := by
  cases derived with
  | write named iaddr payload =>
    simp only [writeCtrls, List.mem_cons, Prod.mk.injEq, List.not_mem_nil, or_false] at named
    rcases named with ⟨-, rfl⟩ | ⟨-, rfl⟩
    · exact Or.inl rfl
    · exact Or.inr rfl
  | read named iaddr bars tail =>
    simp only [readCtrls, List.mem_cons, Prod.mk.injEq, List.not_mem_nil, or_false] at named
    refine ⟨?_, tail_spellable tail⟩
    rcases named with ⟨-, rfl⟩ | ⟨-, rfl⟩
    · exact Or.inl rfl
    · exact Or.inr rfl

/-- All commands of a chain can be spelled. By induction on the derivation. -/
theorem cmds_spellable {p q : Text} {cs : List TwiCmd} (derived : Cmds p cs q) :
    ∀ c ∈ cs, c.Spellable := by
  induction derived with
  | done p => simp
  | cmd skipped first others ih => exact List.forall_mem_cons.mpr ⟨cmd_spellable first, ih⟩

/-- What a line means can be expressed: its commands can be spelled, and they fit the
record. -/
theorem line_expressible {p : Text} {cs : List TwiCmd} (derived : Line p (.chain cs)) :
    Expressible cs := by
  cases derived with
  | chain derived fits =>
    refine ⟨chain_nonempty derived, ?_, fits⟩
    cases derived with
    | line first others bars =>
      exact List.forall_mem_cons.mpr ⟨cmd_spellable first, cmds_spellable others⟩

/-! ## The spelling as a line -/

/-- A byte spelled in hex has characters of the grammar only. -/
theorem hexText_allowed (b : UInt8) : ∀ ch ∈ hexText b, allowed ch = true := by
  simp only [hexText, List.forall_mem_cons]
  exact ⟨allowed_hex (hexChar_digit _), allowed_hex (hexChar_digit _), by simp⟩

/-- A spelled payload has characters of the grammar only. By induction on the bytes. -/
theorem spellPayload_allowed (bs : List UInt8) : ∀ ch ∈ spellPayload bs, allowed ch = true := by
  obtain ⟨h, b, -⟩ := allowed_letters
  induction bs with
  | nil => simp [spellPayload]
  | cons first bs ih =>
    rw [spellPayload]
    split
    · refine List.forall_mem_cons.mpr ⟨b, List.forall_mem_append.mpr ⟨?_, ih⟩⟩
      exact fun ch member => allowed_bin (bitsText_digits first 8 ch member)
    · refine List.forall_mem_cons.mpr ⟨h, ?_⟩
      intro ch member
      obtain ⟨other, -, inside⟩ := List.mem_flatMap.mp member
      exact hexText_allowed other ch inside

/-- A spelled tail has characters of the grammar only. -/
theorem formatText_allowed (n : Nat) (fmt : NeoFmt) : ∀ ch ∈ formatText n fmt, allowed ch = true := by
  obtain ⟨h, b, a, bar⟩ := allowed_letters
  have digits : ∀ ch ∈ countText n, allowed ch = true := by
    simp only [countText, List.forall_mem_cons]
    exact ⟨allowed_hex (hexChar_digit _), allowed_hex (hexChar_digit _),
      allowed_hex (hexChar_digit _), by simp⟩
  have shown {f : UInt8} (letter : allowed f = true) :
      ∀ ch ∈ byte 'h' :: (countText n ++ [f, byte '_']), allowed ch = true :=
    List.forall_mem_cons.mpr ⟨h, List.forall_mem_append.mpr ⟨digits, by simp [letter, bar]⟩⟩
  cases fmt with
  | none => simp [formatText]
  | hex => exact shown h
  | bin => exact shown b
  | ascii => exact shown a

/-- A spelled chain has characters of the grammar only. By induction on the commands. -/
theorem spelled_allowed (cs : List TwiCmd) : ∀ ch ∈ spelled cs, allowed ch = true := by
  intro ch member
  obtain ⟨c, -, inside⟩ := List.mem_flatMap.mp member
  obtain ⟨h, -⟩ := allowed_letters
  have header (ctrl addr : UInt8) {rest : Text} (fine : ∀ ch ∈ rest, allowed ch = true) :
      ∀ ch ∈ byte 'h' :: (hexText ctrl ++ byte 'h' :: (hexText addr ++ rest)), allowed ch = true :=
    List.forall_mem_cons.mpr ⟨h, List.forall_mem_append.mpr ⟨hexText_allowed ctrl,
      List.forall_mem_cons.mpr ⟨h, List.forall_mem_append.mpr ⟨hexText_allowed addr, fine⟩⟩⟩⟩
  cases c with
  | write ctrl addr payload => exact header ctrl addr (spellPayload_allowed payload) ch inside
  | read ctrl addr n fmt => exact header ctrl addr (formatText_allowed n fmt) ch inside

/-- The spelling of a chain, as a line. -/
def spelledLine (cs : List TwiCmd) : CString where
  chars := spelled cs
  nulFree := fun member => absurd (spelled_allowed cs 0 member) (by decide)

/-- The entry of a special command is none of a chain, as its kind shows. -/
theorem special_decoded {out : NeoTxn} {entry : NeoCmd} {cs : List TwiCmd} {p : Text}
    (derived : SpecialLine p entry) (special : Special out entry) : ¬ Decoded out cs := by
  intro decoded
  have kind := scanSpecial_kind ((scanSpecial_exact _ _).mpr derived)
  have one : cs.length = 1 := decoded.count.symm.trans special.count
  obtain ⟨c, rfl⟩ := List.length_eq_one_iff.mp one
  obtain ⟨same, -⟩ := List.cons.inj (decoded.cmds.symm.trans special.cmds)
  cases c <;> simp [← same, TwiCmd.encode] at kind

/-- The spelling is read back: a chain's line is accepted and decoded to that chain
exactly if the chain can be expressed at all, and what any accepted line denotes can be.
The spelling is derived by the grammar as its chain, and a record holds one chain at
most. -/
theorem neoParseTransaction_spelled (cs : List TwiCmd) (out : NeoTxn) :
    ((∃ next, neoParseTransaction (some (spelledLine cs)) out = .ok (0, next) ∧ Decoded next cs) ↔
        Expressible cs) ∧
      ∀ line next, CmdStart (skipBlanks line.chars) →
        neoParseTransaction (some line) out = .ok (0, next) → Decoded next cs → Expressible cs := by
  have accepted {line : CString} {next : NeoTxn} (start : CmdStart (skipBlanks line.chars))
      (returned : neoParseTransaction (some line) out = .ok (0, next)) (decoded : Decoded next cs) :
      Expressible cs := by
    obtain ⟨ds, derived, held⟩ := accepted_chain returned start
    rw [decoded_unique decoded held]
    exact line_expressible derived
  refine ⟨⟨?_, ?_⟩, fun line next => accepted⟩
  · rintro ⟨next, returned, decoded⟩
    obtain ⟨parsed, derived, left⟩ := accepted_line returned
    cases derived with
    | chain derived fits =>
      exact accepted ((startsCmd_iff _).mp (chain_start derived)) returned decoded
    | special derived => exact absurd decoded (special_decoded derived left)
  · intro expressible
    have derived := chain_spelled expressible.nonempty expressible.spellable
    have start : skipBlanks (spelledLine cs).chars = spelled cs := skipBlanks_start (chain_start derived)
    have line : Line (skipBlanks (spelledLine cs).chars) (.chain cs) := by
      rw [start]
      exact .chain derived expressible.fits
    exact line_accepted out line

end NeoSfp
