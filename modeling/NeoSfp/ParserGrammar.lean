import NeoSfp.GrammarLines
import NeoSfp.ParserScan

/-!
# The parser recognises the grammar

The parser's run is the line scanner's, and the line scanner is exact for the
grammar. So a line is accepted if and only if the grammar gives it a meaning,
and the record then holds that meaning and nothing else.
-/

namespace NeoSfp

/-- A call returns, and returns 0 if and only if the grammar gives the line a
meaning, which it then leaves in the record. -/
theorem parse_line (line : CString) (out : NeoTxn) :
    ∃ rc next, neoParseTransaction (some line) out = .ok (rc, next) ∧
      (rc = 0 ↔ ∃ parsed, Line (skipBlanks line.chars) parsed) ∧
      ∀ parsed, Line (skipBlanks line.chars) parsed → parsed.LeftIn next := by
  have parses := neoParseTransaction_scan line out
  cases scanned : scanLine (skipBlanks line.chars) with
  | ok parsed =>
    rw [scanned] at parses
    obtain ⟨next, returned, left⟩ := parses
    refine ⟨0, next, returned, ?_, ?_⟩
    · constructor
      · intro _
        exact ⟨parsed, (scanLine_exact _ _).mp scanned⟩
      · intro _
        rfl
    · intro other derived
      rw [line_unique derived ((scanLine_exact _ _).mp scanned)]
      exact left
  | error stopped =>
    rw [scanned] at parses
    obtain ⟨next, returned, -⟩ := parses
    have meaningless := line_stopped scanned
    refine ⟨-1, next, returned, ?_, ?_⟩
    · constructor
      · intro accepted
        exact absurd accepted (by decide)
      · rintro ⟨parsed, derived⟩
        exact absurd derived (meaningless parsed)
    · intro parsed derived
      exact absurd derived (meaningless parsed)

/-- Behind its leading blanks, a line that begins like a command is accepted if and only
if the grammar derives a chain from it that fits the record, and any other line if and
only if it is a special command. The record then holds exactly what was derived. The
parser accepts what the line scanner accepts, which is what the grammar derives; and
which of its two forms a line has shows in its first characters. -/
theorem neoParseTransaction_grammar (line : CString) (out : NeoTxn) :
    ∃ rc next, neoParseTransaction (some line) out = .ok (rc, next) ∧
      (CmdStart (skipBlanks line.chars) →
        (rc = 0 ↔ ∃ cs, Chain (skipBlanks line.chars) cs ∧ Fits 0 0 cs)) ∧
      (¬ CmdStart (skipBlanks line.chars) →
        (rc = 0 ↔ ∃ entry, SpecialLine (skipBlanks line.chars) entry)) ∧
      (∀ cs, Chain (skipBlanks line.chars) cs → Fits 0 0 cs → rc = 0 ∧ Decoded next cs) ∧
      (∀ entry, SpecialLine (skipBlanks line.chars) entry → rc = 0 ∧ Special next entry) := by
  obtain ⟨rc, next, returned, accepted, left⟩ := parse_line line out
  refine ⟨rc, next, returned, ?_, ?_, ?_, ?_⟩
  · intro start
    rw [accepted]
    constructor
    · rintro ⟨parsed, derived⟩
      cases derived with
      | chain derived fits => exact ⟨_, derived, fits⟩
      | special derived =>
        rw [← startsCmd_iff, special_notStart derived] at start
        simp at start
    · rintro ⟨cs, derived, fits⟩
      exact ⟨_, .chain derived fits⟩
  · intro other
    rw [accepted]
    constructor
    · rintro ⟨parsed, derived⟩
      cases derived with
      | chain derived fits => exact absurd ((startsCmd_iff _).mp (chain_start derived)) other
      | special derived => exact ⟨_, derived⟩
    · rintro ⟨entry, derived⟩
      exact ⟨_, .special derived⟩
  · intro cs derived fits
    exact ⟨accepted.mpr ⟨_, .chain derived fits⟩, left _ (.chain derived fits)⟩
  · intro entry derived
    exact ⟨accepted.mpr ⟨_, .special derived⟩, left _ (.special derived)⟩

/-- What the grammar derives is accepted and left in the record, whatever the record
held before. -/
theorem line_accepted {line : CString} {parsed : Parsed} (out : NeoTxn)
    (derived : Line (skipBlanks line.chars) parsed) :
    ∃ next, neoParseTransaction (some line) out = .ok (0, next) ∧ parsed.LeftIn next := by
  obtain ⟨rc, next, returned, accepted, left⟩ := parse_line line out
  have success := accepted.mpr ⟨parsed, derived⟩
  exact ⟨next, success ▸ returned, left parsed derived⟩

/-- The grammar derives what is accepted, and the record holds its meaning. -/
theorem accepted_line {line : CString} {out next : NeoTxn}
    (accepted : neoParseTransaction (some line) out = .ok (0, next)) :
    ∃ parsed, Line (skipBlanks line.chars) parsed ∧ parsed.LeftIn next := by
  obtain ⟨rc, next', returned, zero, left⟩ := parse_line line out
  rw [accepted] at returned
  cases returned
  obtain ⟨parsed, derived⟩ := zero.mp rfl
  exact ⟨parsed, derived, left parsed derived⟩

/-- An accepted line that begins like a command has a chain, which the record holds. -/
theorem accepted_chain {line : CString} {out next : NeoTxn}
    (accepted : neoParseTransaction (some line) out = .ok (0, next))
    (start : CmdStart (skipBlanks line.chars)) :
    ∃ cs, Line (skipBlanks line.chars) (.chain cs) ∧ Decoded next cs := by
  obtain ⟨parsed, derived, left⟩ := accepted_line accepted
  cases derived with
  | @chain cs derived fits => exact ⟨cs, .chain derived fits, left⟩
  | special derived =>
    rw [← startsCmd_iff, special_notStart derived] at start
    simp at start

/-! ## A line of two commands -/

/-- The line `hA0h01hA2h02`: two writes without payload. -/
def twoWrites : CString := CString.ofBuffer (bytes "hA0h01hA2h02")

/-- The line begins with a command. -/
theorem twoWrites_start : CmdStart (skipBlanks twoWrites.chars) :=
  ⟨byte '0', by simp [ctrlDigits_codes], bytes "h01hA2h02", rfl⟩

/-- The text of a write without payload is derived in front of anything, because its
derivation ends behind the address. -/
theorem write_derived {d ctrl x y : UInt8} (named : (d, ctrl) ∈ writeCtrls)
    (xDigit : x ∈ hexDigits) (yDigit : y ∈ hexDigits) (rest : Text) :
    Cmd (byte 'h' :: byte 'A' :: d :: byte 'h' :: x :: y :: rest)
      (.write ctrl (UInt8.ofNat (numeral 16 [x, y])) []) rest :=
  .write named (.hex (.done _) (.pair rest xDigit yDigit)) (.done rest)

/-- The line is accepted, and the record holds its two writes: one derivation behind the
other. -/
theorem twoWrites_accepted : ∃ next cs, neoParseTransaction (some twoWrites) NeoTxn.zero =
    .ok (0, next) ∧ Decoded next cs ∧ cs.length = 2 := by
  have zero : (byte '0', (0xA0 : UInt8)) ∈ writeCtrls := by simp [writeCtrls]
  have two : (byte '2', (0xA2 : UInt8)) ∈ writeCtrls := by simp [writeCtrls]
  have digits : byte '0' ∈ hexDigits ∧ byte '1' ∈ hexDigits ∧ byte '2' ∈ hexDigits := by
    simp [hexDigits_codes, byte]
  have first := write_derived zero digits.1 digits.2.1 (bytes "hA2h02")
  have second := write_derived two digits.1 digits.2.2 []
  have chain : Chain (skipBlanks twoWrites.chars) _ :=
    .line first (.cmd (.done _) second (.done [])) (.done [])
  obtain ⟨next, accepted, decoded⟩ := line_accepted NeoTxn.zero (Line.chain chain
    { count := by simp, each := by simp [TwiCmd.payload], total := by simp [TwiCmd.payload] })
  exact ⟨next, _, accepted, decoded, rfl⟩

/-! ## A line that reads -/

/-- The line `hA1_h50_h1h_`: one byte, displayed in hex. -/
def oneRead : CString := CString.ofBuffer (bytes "hA1_h50_h1h_")

/-- The line begins with a command. -/
theorem oneRead_start : CmdStart (skipBlanks oneRead.chars) :=
  ⟨byte '1', by simp [ctrlDigits_codes], bytes "_h50_h1h_", rfl⟩

/-- The text of a read with its count and format is derived in front of anything,
because it ends with a `_`. -/
theorem read_derived {d ctrl x y n f : UInt8} {fmt : NeoFmt} (named : (d, ctrl) ∈ readCtrls)
    (xDigit : x ∈ hexDigits) (yDigit : y ∈ hexDigits) (count : CountDigits [n])
    (letter : FormatLetter f fmt) (rest : Text) :
    Cmd (byte 'h' :: byte 'A' :: d :: byte '_' :: byte 'h' :: x :: y :: byte '_' :: byte 'h' ::
        n :: f :: byte '_' :: rest)
      (.read ctrl (UInt8.ofNat (numeral 16 [x, y])) (numeral 16 [n]) fmt) rest :=
  .read named (.hex (.bar (.done _)) (.pair _ xDigit yDigit)) (.bar (.done _))
    (.count rest count letter)

/-- The line is accepted, and the record holds its read. -/
theorem oneRead_accepted : ∃ next cs, neoParseTransaction (some oneRead) NeoTxn.zero =
    .ok (0, next) ∧ Decoded next cs ∧ ∃ addr, cs = [.read 0xA1 addr (numeral 16 [byte '1']) .hex] := by
  have named : (byte '1', (0xA1 : UInt8)) ∈ readCtrls := by simp [readCtrls]
  have digits : byte '0' ∈ hexDigits ∧ byte '1' ∈ hexDigits ∧ byte '5' ∈ hexDigits := by
    simp [hexDigits_codes, byte]
  have count := countDigits_single digits.2.1
  have chain : Chain (skipBlanks oneRead.chars) _ :=
    .line (read_derived named digits.2.2 digits.1 count .hex []) (.done []) (.done [])
  obtain ⟨next, accepted, decoded⟩ := line_accepted NeoTxn.zero (Line.chain chain
    { count := by simp, each := by simp [TwiCmd.payload], total := by simp [TwiCmd.payload] })
  exact ⟨next, _, accepted, decoded, _, rfl⟩

/-! ## A line that writes and reads -/

/-- The text of a write with one payload byte is derived whatever follows it. -/
theorem writeByte_derived (rest : Text) :
    Cmd (bytes "hA0h01h02" ++ rest) (.write 0xA0 0x01 [0x02]) rest := by
  have named : (byte '0', (0xA0 : UInt8)) ∈ writeCtrls := by simp [writeCtrls]
  have digits : byte '0' ∈ hexDigits ∧ byte '1' ∈ hexDigits ∧ byte '2' ∈ hexDigits := by
    simp [hexDigits_codes, byte]
  have payload : Payload (bytes "h02" ++ rest) [0x02] rest :=
    .hex (.one (.pair _ digits.1 digits.2.2)) (by decide) (.done rest)
  exact .write named (.hex (.done _) (.pair _ digits.1 digits.2.1)) payload

/-- So is that of a write with two of them. Each is a hex group of its own, and neither
could be taken for a control byte. -/
theorem writeTwo_derived (rest : Text) :
    Cmd (bytes "hA0h01h02h03" ++ rest) (.write 0xA0 0x01 [0x02, 0x03]) rest := by
  have named : (byte '0', (0xA0 : UInt8)) ∈ writeCtrls := by simp [writeCtrls]
  have zero : byte '0' ∈ hexDigits := by simp [hexDigits_codes, byte]
  have one : byte '1' ∈ hexDigits := by simp [hexDigits_codes, byte]
  have two : byte '2' ∈ hexDigits := by simp [hexDigits_codes, byte]
  have three : byte '3' ∈ hexDigits := by simp [hexDigits_codes, byte]
  have ordinary : (0x02 : UInt8) ∉ ctrlBytes ∧ (0x03 : UInt8) ∉ ctrlBytes := by decide
  have payload : Payload (bytes "h02h03" ++ rest) [0x02, 0x03] rest :=
    .hex (.one (.pair _ zero two)) ordinary.1 (.hex (.one (.pair _ zero three)) ordinary.2 (.done _))
  exact .write named (.hex (.done _) (.pair _ zero one)) payload

/-- A read of two bytes ends with its `_`, so it is derived whatever follows. -/
theorem readTwo_derived (rest : Text) :
    Cmd (bytes "hA1h50_h2h_" ++ rest) (.read 0xA1 0x50 2 .hex) rest := by
  have named : (byte '1', (0xA1 : UInt8)) ∈ readCtrls := by simp [readCtrls]
  have digits : byte '0' ∈ hexDigits ∧ byte '2' ∈ hexDigits ∧ byte '5' ∈ hexDigits := by
    simp [hexDigits_codes, byte]
  exact .read named (.hex (.done _) (.pair _ digits.2.2 digits.1)) (.bar (.done _))
    (.count rest (countDigits_single digits.2.1) .hex)

/-- The line `hA0h01h02h03_hA1h50_h2h_`: a write of two bytes, and a read of two. -/
def writeRead : CString := CString.ofBuffer (bytes "hA0h01h02h03_hA1h50_h2h_")

/-- What the line means: the two commands. -/
def writeReadCmds : List TwiCmd := [.write 0xA0 0x01 [0x02, 0x03], .read 0xA1 0x50 2 .hex]

/-- The line begins with a command. -/
theorem writeRead_start : CmdStart (skipBlanks writeRead.chars) :=
  ⟨byte '0', by simp [ctrlDigits_codes], bytes "h01h02h03_hA1h50_h2h_", rfl⟩

/-- The line means its two commands, the write being closed by the `_` between them. -/
theorem writeRead_derived : Line (skipBlanks writeRead.chars) (.chain writeReadCmds) :=
  .chain
    (.line (writeTwo_derived (bytes "_hA1h50_h2h_"))
      (.cmd (.bar (.done _)) (readTwo_derived []) (.done [])) (.done []))
    { count := by decide, each := by decide, total := by decide }

/-- The line is accepted, and the record holds its write and its read. -/
theorem writeRead_accepted (out : NeoTxn) : ∃ next,
    neoParseTransaction (some writeRead) out = .ok (0, next) ∧ Decoded next writeReadCmds :=
  line_accepted out writeRead_derived

end NeoSfp
