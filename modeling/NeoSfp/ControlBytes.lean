import NeoSfp.Appending

/-!
# Bytes that look like control bytes

A payload looks for another command before each of its groups, and nowhere else. A
hex group therefore never begins with a control byte. Its later bytes, and the
internal address, are taken as they are spelled.
-/

namespace NeoSfp

/-- The scan of a hex group takes all the bytes that are derived. -/
theorem scanPayload_hex {run post r : Text} {bs : List UInt8} (derived : Takes (Plus HexByte) run bs)
    (start : startsCmd (byte 'h' :: (run ++ post)) = false)
    (ended : (scanPayload (byte 'h' :: (run ++ post))).stop = .ok r) :
    ∃ more, (scanPayload (byte 'h' :: (run ++ post))).bytes = bs ++ more := by
  obtain ⟨bytes, -⟩ := scanRun_over (headIs isHex) hexDecoder HexByte scanHexByte_exact
    headIs_hex_leads (derived post)
  have group : (scanGroup (byte 'h') (run ++ post)).bytes =
      bs ++ (scanRun (headIs isHex) hexDecoder post).bytes := by
    rw [← bytes]
    simp [Group.bytes, scanGroup, scanHexGroup]
  obtain ⟨q, -, taken, -⟩ := scanPayload_first (by simp) start ended
  rw [taken, group, List.append_assoc]
  exact ⟨_, rfl⟩

/-- Behind derived commands, the scan of a whole line reads the next command. -/
theorem scanChain_next {u q : Text} {before ds : List TwiCmd} (takes : Takes Segment u before)
    (start : startsCmd q = true) (scanned : scanChain 0 0 (u ++ q) = (ds, none)) :
    ∃ c others r, ds = before ++ c :: others ∧ Cmd q c r := by
  obtain ⟨p, cmds, bars⟩ := takes q
  have follow : Follow p := by
    right
    rw [skipBars_bars bars, startsCmd_skip start]
    exact start
  obtain ⟨rest, rfl, room, final⟩ := scanChain_follows cmds follow 0 0 (by decide) scanned
  rw [scanChain_bars _ _ bars] at final
  obtain ⟨c, r, others, read, rfl, -⟩ := scanChain_first start final
  exact ⟨c, others, r, rfl, (scanCmd_sound _ _ q r c room read).1⟩

/-- A command's control byte is the byte that the digits behind its `h` write. -/
theorem cmd_ctrl {p q r : Text} {c : TwiCmd} {b : UInt8} (derived : Cmd (byte 'h' :: p) c r)
    (digits : HexByte p b q) : c.ctrl = b := by
  have read := (scanHexByte_exact p b q).mpr digits
  cases derived with
  | write named iaddr payload =>
    rw [(write_ctrl named _).2.1] at read
    cases read
    rfl
  | read named iaddr bars tail =>
    rw [(read_ctrl named _).2.1] at read
    cases read
    rfl

/-- A command's internal address is the byte that is spelled behind its control byte. -/
theorem cmd_addr {d : UInt8} {p q r : Text} {c : TwiCmd} {a : UInt8}
    (derived : Cmd (byte 'h' :: byte 'A' :: d :: p) c r) (spelled : IAddr p a q) : c.addr = a := by
  obtain ⟨s, read, -⟩ := scanAddr_complete spelled
  cases derived with
  | write named iaddr payload =>
    obtain ⟨t, again, -⟩ := scanAddr_complete iaddr
    rw [read] at again
    cases again
    rfl
  | read named iaddr bars tail =>
    obtain ⟨t, again, -⟩ := scanAddr_complete iaddr
    rw [read] at again
    cases again
    rfl

/-- A group of hex bytes begins with a hex byte, which can be read on its own. -/
theorem plus_first {p q : Text} {b : UInt8} {bs : List UInt8} (derived : Plus HexByte p (b :: bs) q) :
    ∃ r, HexByte p b r := by
  cases derived with
  | one first => exact ⟨_, first⟩
  | more first others => exact ⟨_, first⟩

/-- In an accepted line, an `h` with hex bytes where a payload's group may stand is a
hex group that keeps all its bytes, unless the first of them is a control byte: then it
is the next command. An internal address is kept whatever it is. The scan of the whole
line reaches the place behind the commands and bytes in front of it, and there the look
ahead decides. -/
theorem neoParseTransaction_ctrlBytes (line : CString) (out next : NeoTxn)
    (accepted : neoParseTransaction (some line) out = .ok (0, next))
    (start : CmdStart (skipBlanks line.chars)) :
    ∃ cs, Decoded next cs ∧
      (∀ u before ctrl addr front run b bs post,
        skipBlanks line.chars = u ++ byte 'h' :: (run ++ post) →
        Takes Segment u (before ++ [.write ctrl addr front]) → Takes (Plus HexByte) run (b :: bs) →
        (b ∉ ctrlBytes ∧
          ∃ more others, cs = before ++ .write ctrl addr (front ++ (b :: bs ++ more)) :: others) ∨
        (b ∈ ctrlBytes ∧
          ∃ c others, c.ctrl = b ∧ cs = before ++ .write ctrl addr front :: c :: others)) ∧
      (∀ u before d w a post,
        skipBlanks line.chars = u ++ byte 'h' :: byte 'A' :: d :: (w ++ post) →
        Takes Segment u before → d ∈ bytes "0123" → Takes IAddr w a →
        ∃ c others, c.addr = a ∧ cs = before ++ c :: others) := by
  obtain ⟨cs, derived, decoded⟩ := accepted_chain accepted start
  rw [← startsCmd_iff] at start
  cases derived with
  | chain derived fits =>
    have scanned := (scanChain_exact _ start cs).mpr ⟨derived, fits⟩
    refine ⟨cs, decoded, ?_, ?_⟩
    · intro u before ctrl addr front run b bs post text takes digits
      rw [text] at scanned
      have begins := plus_hex_ctrl (digits post)
      by_cases member : b ∈ ctrlBytes
      · right
        obtain ⟨c, others, r, rfl, command⟩ := scanChain_next takes (begins.mpr member) scanned
        obtain ⟨q, first⟩ := plus_first (digits post)
        exact ⟨member, c, others, cmd_ctrl command first, by simp⟩
      · left
        have group : startsCmd (byte 'h' :: (run ++ post)) = false := by
          rw [← Bool.not_eq_true, begins]
          exact member
        obtain ⟨count, used, r, tail, rfl, ended, -⟩ :=
          scanChain_write takes (boundary_cons _ rfl) scanned
        obtain ⟨more, bytes⟩ := scanPayload_hex digits group ended
        exact ⟨member, more, tail, by rw [bytes]⟩
    · intro u before d w a post text takes member spelled
      rw [text] at scanned
      have begins : startsCmd (byte 'h' :: byte 'A' :: d :: (w ++ post)) = true :=
        (startsCmd_iff _).mpr ⟨d, member, _, rfl⟩
      obtain ⟨c, others, r, rfl, command⟩ := scanChain_next takes begins scanned
      exact ⟨c, others, cmd_addr command (spelled post), rfl⟩

/-- A line of two writes, in which the second `h` begins a command and not a group. -/
theorem neoParseTransaction_ctrlBytes_twoWrites : ∃ next,
    neoParseTransaction (some twoWrites) NeoTxn.zero = .ok (0, next) ∧ ∃ cs, Decoded next cs ∧
      (∀ u before ctrl addr front run b bs post,
        skipBlanks twoWrites.chars = u ++ byte 'h' :: (run ++ post) →
        Takes Segment u (before ++ [.write ctrl addr front]) → Takes (Plus HexByte) run (b :: bs) →
        (b ∉ ctrlBytes ∧
          ∃ more others, cs = before ++ .write ctrl addr (front ++ (b :: bs ++ more)) :: others) ∨
        (b ∈ ctrlBytes ∧
          ∃ c others, c.ctrl = b ∧ cs = before ++ .write ctrl addr front :: c :: others)) ∧
      (∀ u before d w a post,
        skipBlanks twoWrites.chars = u ++ byte 'h' :: byte 'A' :: d :: (w ++ post) →
        Takes Segment u before → d ∈ bytes "0123" → Takes IAddr w a →
        ∃ c others, c.addr = a ∧ cs = before ++ c :: others) := by
  obtain ⟨next, cs, accepted, -⟩ := twoWrites_accepted
  exact ⟨next, accepted, neoParseTransaction_ctrlBytes twoWrites NeoTxn.zero next accepted
    twoWrites_start⟩

/-- The line `hA0hA0h01A0`: a write to the internal address A0. -/
def spelledCtrl : CString := CString.ofBuffer (bytes "hA0hA0h01A0")

/-- It is accepted, and A0 is spelled in hex twice inside the command: as its
internal address and as a byte of its payload. -/
theorem spelledCtrl_accepted : spelledCtrl.chars = bytes "hA0hA0h01A0" ∧
    ∃ next, neoParseTransaction (some spelledCtrl) NeoTxn.zero = .ok (0, next) ∧
      Decoded next [.write 0xA0 0xA0 [0x01, 0xA0]] := by
  have named : (byte '0', (0xA0 : UInt8)) ∈ writeCtrls := by simp [writeCtrls]
  have digits : byte '0' ∈ hexDigits ∧ byte '1' ∈ hexDigits ∧ byte 'A' ∈ hexDigits := by
    simp [hexDigits_codes, byte]
  have address : UInt8.ofNat (numeral 16 [byte 'A', byte '0']) = 0xA0 := by decide
  have first : UInt8.ofNat (numeral 16 [byte '0', byte '1']) = 0x01 := by decide
  have run : Plus HexByte [byte '0', byte '1', byte 'A', byte '0'] _ [] :=
    .more (.pair _ digits.1 digits.2.1) (.one (.pair [] digits.2.2 digits.1))
  rw [address, first] at run
  have iaddr : IAddr (byte 'h' :: byte 'A' :: byte '0' :: bytes "h01A0") _ (bytes "h01A0") :=
    .hex (.done _) (.pair (bytes "h01A0") digits.2.2 digits.1)
  rw [address] at iaddr
  have payload : Payload (bytes "h01A0") ([0x01, 0xA0] ++ []) [] :=
    .hex run (by simp [ctrlBytes]) (.done [])
  have chain : Chain spelledCtrl.chars [.write 0xA0 0xA0 [0x01, 0xA0]] :=
    .line (.write named iaddr payload) (.done []) (.done [])
  exact ⟨rfl, chain_accepted spelledCtrl NeoTxn.zero chain
    { count := by simp, each := by simp [TwiCmd.payload], total := by simp [TwiCmd.payload] }⟩

end NeoSfp
