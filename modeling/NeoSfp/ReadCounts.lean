import NeoSfp.Appending

/-!
# Spellings of a read count

A read looks for another command before it looks for its count. A count that is
spelled like the digits of a command start is therefore never seen as one.
-/

namespace NeoSfp

/-- The digits that make an `h` in front of them a command start. -/
def ctrlSpellings : List Text := [bytes "A0", bytes "A1", bytes "A2", bytes "A3"]

/-- What stands in front of a line's last command: nothing, or an accepted line of
commands and a `_`. -/
inductive Preceding : Text → Nat → Prop
  | nothing : Preceding [] 0
  | line {first : CString} {out left : NeoTxn} : CmdStart (skipBlanks first.chars) →
      neoParseTransaction (some first) out = .ok (0, left) →
      Preceding (first.chars ++ [byte '_']) left.count

/-! ## Commands in front -/

/-- Skipping blanks stops at the same place, whatever text is appended behind that. -/
theorem skipBlanks_append (p more : Text) (some : skipBlanks p ≠ []) :
    skipBlanks (p ++ more) = skipBlanks p ++ more := by
  fun_induction skipBlanks p with
  | case1 => exact absurd rfl some
  | case2 ch rest blank ih => rw [List.cons_append, skipBlanks, if_pos blank, ih some]
  | case3 ch rest other => rw [List.cons_append, skipBlanks, if_neg other]

/-- A chain and a `_` are read in front of anything, so what follows is parsed behind
the commands of the chain. -/
theorem chain_takes {p : Text} {cs : List TwiCmd} (chain : Chain p cs) (q : Text) :
    Segment (p ++ byte '_' :: q) cs q := by
  cases chain with
  | line first others bars =>
    have behind := bars_trans (bars_extend bars (byte '_' :: q)) (.bar (.done q))
    exact ⟨_, .cmd (.done _) (cmd_extends _ _ _ first q) (cmds_extends _ _ _ others q), behind⟩

/-- The commands of what precedes, with room left behind them, as a segment in front of
the last command. -/
theorem preceding_segment {c q : Text} {count : Nat} (preceding : Preceding c count)
    (start : startsCmd q = true) :
    ∃ before, before.length = count ∧ Fits 0 0 before ∧
      startsCmd (skipBlanks (c ++ q)) = true ∧ Segment (skipBlanks (c ++ q)) before q := by
  cases preceding with
  | nothing =>
    rw [List.nil_append, skipBlanks_start start]
    exact ⟨[], rfl, { count := by simp, each := by simp, total := by simp }, start,
      segment_nil (.done q)⟩
  | @line first out left begins accepted =>
    rw [← startsCmd_iff] at begins
    obtain ⟨parsed, derived, decoded⟩ := accepted_line accepted
    cases derived with
    | special derived => simp [special_notStart derived] at begins
    | @chain before chain fits =>
      have some : skipBlanks first.chars ≠ [] := by
        intro empty
        simp [empty, startsCmd] at begins
      rw [List.append_assoc, skipBlanks_append _ _ some]
      exact ⟨before, decoded.count.symm, fits, startsCmd_append begins _, chain_takes chain q⟩

/-! ## Spellings -/

/-- A legal count that is not spelled like a control byte is read as one. -/
theorem spelling_count {s : Text} (digits : ∀ d ∈ s, d ∈ hexDigits) (some : s ≠ [])
    (short : s.length ≤ 3) (legal : numeral 16 s ≤ 0x3FE) (other : s ∉ ctrlSpellings) :
    CountDigits s := by
  have notStart : startsCmd (byte 'h' :: (s ++ [])) = false := by
    match s with
    | [] => exact absurd rfl some
    | [x] => rfl
    | [x, y] =>
      cases start : startsCmd (byte 'h' :: [x, y]) with
      | false => exact start
      | true =>
        obtain ⟨d, member, rest, text⟩ := (startsCmd_iff _).mp start
        simp only [ctrlDigits_codes, List.mem_cons, List.not_mem_nil, or_false] at member
        simp only [List.cons.injEq, true_and] at text
        obtain ⟨rfl, rfl, -⟩ := text
        rcases member with rfl | rfl | rfl | rfl <;> simp [ctrlSpellings, bytes] at other
    | [x, y, z] =>
      cases start : startsCmd (byte 'h' :: [x, y, z]) with
      | false => exact start
      | true =>
        -- three digits that begin like this write more than the largest count
        obtain ⟨d, -, rest, text⟩ := (startsCmd_iff _).mp start
        simp only [List.cons.injEq, true_and] at text
        obtain ⟨rfl, -⟩ := text
        rw [numeral_cons] at legal
        have ten : digitValue (byte 'A') = 10 := rfl
        simp only [ten, List.length_cons, List.length_nil] at legal
        omega
    | _ :: _ :: _ :: _ :: _ =>
      simp only [List.length_cons] at short
      omega
  exact countDigits_scanned digits some short notStart legal

/-- A spelling of a control byte starts a command instead, whatever comes behind it. -/
theorem spelling_start {s : Text} (member : s ∈ ctrlSpellings) (rest : Text) :
    startsCmd (byte 'h' :: (s ++ rest)) = true := by
  simp only [ctrlSpellings, List.mem_cons, List.not_mem_nil, or_false] at member
  rcases member with rfl | rfl | rfl | rfl <;> rfl

/-- The command that starts there has no internal address: a format letter and a `_` are
all that is left. -/
theorem spelling_stops {s : Text} (member : s ∈ ctrlSpellings) {f : UInt8} {fmt : NeoFmt}
    (letter : FormatLetter f fmt) (count used : Nat) :
    ∃ stopped, scanChain count used (byte 'h' :: (s ++ [f, byte '_'])) = ([], some stopped) := by
  have start := spelling_start member [f, byte '_']
  rw [scanChain_step count used (startsCmd_skip start), if_pos start]
  cases scanned : scanCmd count used (byte 'h' :: (s ++ [f, byte '_'])) with
  | error stopped => exact ⟨stopped, rfl⟩
  | ok result =>
    exfalso
    obtain ⟨c, r⟩ := result
    have noAddr : ∃ stopped, scanAddr [f, byte '_'] = .error stopped := by
      cases letter <;> exact ⟨_, rfl⟩
    obtain ⟨stopped, failed⟩ := noAddr
    have ctrl : ∃ b, scanHexByte (s ++ [f, byte '_']) = .ok (b, [f, byte '_']) := by
      simp only [ctrlSpellings, List.mem_cons, List.not_mem_nil, or_false] at member
      rcases member with rfl | rfl | rfl | rfl <;> exact ⟨_, rfl⟩
    obtain ⟨b, first⟩ := ctrl
    unfold scanCmd at scanned
    split at scanned
    · simp at scanned
    · simp [start, scanCmdBody, first, failed] at scanned

/-! ## Lines that end in a read -/

/-- What stands behind the commands in front. -/
def readText (d : UInt8) (address s : Text) (f : UInt8) : Text :=
  byte 'h' :: byte 'A' :: d :: (address ++ byte '_' :: byte 'h' :: (s ++ [f, byte '_']))

/-- What is written behind the commands begins with a read. -/
theorem read_start {d ctrl : UInt8} (named : (d, ctrl) ∈ readCtrls) (address s : Text) (f : UInt8) :
    startsCmd (readText d address s f) = true :=
  (startsCmd_iff _).mpr ⟨d, (read_ctrl named []).1, _, rfl⟩

/-- A further read takes no room for payload, only an entry. -/
theorem fits_read {before : List TwiCmd} (fits : Fits 0 0 before) (room : before.length < 160)
    (ctrl addr : UInt8) (n : Nat) (fmt : NeoFmt) : Fits 0 0 (before ++ [.read ctrl addr n fmt]) := by
  have total := fits.total
  have single : Fits 0 0 [.read ctrl addr n fmt] :=
    { count := by simp, each := by simp [TwiCmd.payload], total := by simp [TwiCmd.payload] }
  refine fits_append fits single room ?_
  simpa [TwiCmd.payload] using total

/-- The line that is written, with its commands in front, is accepted and means those
and the read. -/
theorem read_accepted {line : CString} {d ctrl addr f : UInt8} {address s : Text} {fmt : NeoFmt}
    {before : List TwiCmd} (out : NeoTxn) (start : startsCmd (skipBlanks line.chars) = true)
    (front : Segment (skipBlanks line.chars) before (readText d address s f)) (fits : Fits 0 0 before)
    (room : before.length < 160) (named : (d, ctrl) ∈ readCtrls) (spelled : IAddr address addr [])
    (count : CountDigits s) (letter : FormatLetter f fmt) :
    ∃ next, neoParseTransaction (some line) out = .ok (0, next) ∧
      Decoded next (before ++ [.read ctrl addr (numeral 16 s) fmt]) := by
  obtain ⟨u, text, takes⟩ := iaddr_spans _ _ _ spelled
  rw [List.append_nil] at text
  subst text
  have command : Cmd (readText d address s f) (.read ctrl addr (numeral 16 s) fmt) [] :=
    .read named (takes _) (.bar (.done _)) (.count [] count letter)
  have chain : Chain (skipBlanks line.chars) (before ++ [.read ctrl addr (numeral 16 s) fmt]) :=
    chain_iff.mpr ⟨start, segment_append front (segment_cons command (segment_nil (.done [])))⟩
  exact line_accepted out (.chain chain (fits_read fits room _ _ _ _))

/-- A count spelled like a control byte makes the line fail, since the scan takes it for
the start of a command. -/
theorem read_rejected {line : CString} {d ctrl addr f : UInt8} {address s : Text} {fmt : NeoFmt}
    {before : List TwiCmd} {out next : NeoTxn} (start : startsCmd (skipBlanks line.chars) = true)
    (front : Segment (skipBlanks line.chars) before (readText d address s f)) (fits : Fits 0 0 before)
    (room : before.length < 160) (named : (d, ctrl) ∈ readCtrls) (spelled : IAddr address addr [])
    (member : s ∈ ctrlSpellings) (letter : FormatLetter f fmt) :
    neoParseTransaction (some line) out ≠ .ok (0, next) := by
  intro accepted
  obtain ⟨cs, derived, -⟩ := accepted_chain accepted ((startsCmd_iff _).mp start)
  obtain ⟨u, text, takes⟩ := iaddr_spans _ _ _ spelled
  rw [List.append_nil] at text
  subst text
  -- the read ends without a count, where its digits start a command
  have short : Cmd (readText d address s f) (.read ctrl addr 0 .none)
      (byte 'h' :: (s ++ [f, byte '_'])) :=
    .read named (takes _) (.bar (.done _)) (.empty _)
  have begins := spelling_start member [f, byte '_']
  obtain ⟨q, cmds, bars⟩ := segment_append front (segment_cons short (segment_nil (.done _)))
  have follow : Follow q := by
    right
    rw [skipBars_bars bars, startsCmd_skip begins]
    exact begins
  have limits := fits_read fits room ctrl addr 0 .none
  cases derived with
  | chain derived room =>
    have whole := (scanChain_exact _ start cs).mpr ⟨derived, room⟩
    obtain ⟨stopped, failed⟩ := spelling_stops member letter
      (0 + (before ++ [TwiCmd.read ctrl addr 0 .none]).length)
      (0 + payloadTotal (before ++ [TwiCmd.read ctrl addr 0 .none]))
    rw [scanChain_cmds cmds follow 0 0 limits, scanChain_bars _ _ bars, failed] at whole
    simp at whole

/-- Behind any commands that leave room, with any internal address, a read of a legal
count in a named format is accepted, if and only if the count is not spelled like a
control byte. The look ahead for a command comes first, and digits that it does not take
for one are scanned as the number they write. -/
theorem neoParseTransaction_readCount (line : CString) (out : NeoTxn) {c address s : Text}
    {count n : Nat} {d ctrl addr f : UInt8} {fmt : NeoFmt} (preceding : Preceding c count)
    (room : count < neoParserMaxCmds) (named : (d, ctrl) ∈ readCtrls)
    (spelled : IAddr address addr []) (digits : ∀ x ∈ s, x ∈ hexDigits) (nonempty : s ≠ [])
    (short : s.length ≤ 3) (value : numeral 16 s = n) (legal : n ≤ readCountMax)
    (letter : FormatLetter f fmt) (text : line.chars = c ++ readText d address s f) :
    (∃ next cmd, neoParseTransaction (some line) out = .ok (0, next) ∧
      next.cmds[next.count - 1]? = some cmd ∧ cmd.kind = .twiRead ∧ cmd.rdLen = n ∧
        cmd.rdFmt = fmt) ↔ s ∉ ctrlSpellings := by
  subst value
  obtain ⟨before, rfl, fits, start, front⟩ :=
    preceding_segment preceding (read_start named address s f)
  rw [← text] at start front
  constructor
  · rintro ⟨next, cmd, accepted, -⟩ member
    exact read_rejected start front fits room named spelled member letter accepted
  · intro other
    have counted := spelling_count digits nonempty short legal other
    obtain ⟨next, accepted, decoded⟩ :=
      read_accepted out start front fits room named spelled counted letter
    have last : next.count - 1 = before.length := by
      rw [decoded.count, List.length_append, List.length_singleton, Nat.add_sub_cancel]
    have entry := decoded_at decoded
    rw [← last] at entry
    exact ⟨next, _, accepted, entry, rfl, rfl, rfl⟩

/-- A read behind another one, with a count that no control byte is spelled like. -/
theorem neoParseTransaction_readCount_oneRead : ∃ addr left,
    IAddr (bytes "_h50") addr [] ∧ Preceding (oneRead.chars ++ [byte '_']) left ∧
      ((∃ next cmd, neoParseTransaction (some (oneRead.join oneRead)) NeoTxn.zero = .ok (0, next) ∧
        next.cmds[next.count - 1]? = some cmd ∧ cmd.kind = .twiRead ∧ cmd.rdLen = 1 ∧
          cmd.rdFmt = .hex) ↔ bytes "1" ∉ ctrlSpellings) := by
  obtain ⟨left, cs, accepted, decoded, own, rfl⟩ := oneRead_accepted
  have digits : byte '0' ∈ hexDigits ∧ byte '1' ∈ hexDigits ∧ byte '5' ∈ hexDigits := by
    simp [hexDigits_codes, byte]
  have named : (byte '1', (0xA1 : UInt8)) ∈ readCtrls := by simp [readCtrls]
  have spelled : IAddr [byte '_', byte 'h', byte '5', byte '0'] _ [] :=
    .hex (.bar (.done _)) (.pair [] digits.2.2 digits.1)
  have preceding : Preceding (oneRead.chars ++ [byte '_']) left.count :=
    .line oneRead_start accepted
  have room : left.count < neoParserMaxCmds := by
    rw [decoded.count]
    simp [neoParserMaxCmds]
  have text : (oneRead.join oneRead).chars =
      oneRead.chars ++ [byte '_'] ++ readText (byte '1') (bytes "_h50") (bytes "1") (byte 'h') := rfl
  exact ⟨_, left.count, spelled, preceding, neoParseTransaction_readCount (oneRead.join oneRead)
    NeoTxn.zero preceding room named spelled (by simpa [bytes] using digits.2.1) (by simp [bytes])
    (by decide) (by decide) (by decide) .hex text⟩

/-- The line `hA1h50_hA0h_`: a read of 160 bytes. -/
def count160 : CString := CString.ofBuffer (bytes "hA1h50_hA0h_")

/-- It is rejected, although the count is legal: its digits are those of a control
byte. -/
theorem count160_rejected :
    (∃ addr, IAddr (bytes "h50") addr []) ∧ numeral 16 (bytes "A0") = 160 ∧
      count160.chars = readText (byte '1') (bytes "h50") (bytes "A0") (byte 'h') ∧
      ∀ next, neoParseTransaction (some count160) NeoTxn.zero ≠ .ok (0, next) := by
  have digits : byte '0' ∈ hexDigits ∧ byte '5' ∈ hexDigits := by simp [hexDigits_codes, byte]
  have spelled : IAddr [byte 'h', byte '5', byte '0'] _ [] :=
    .hex (.done _) (.pair [] digits.2 digits.1)
  have named : (byte '1', (0xA1 : UInt8)) ∈ readCtrls := by simp [readCtrls]
  refine ⟨⟨_, spelled⟩, by decide, rfl, ?_⟩
  intro next
  have begins := read_start named (bytes "h50") (bytes "A0") (byte 'h')
  have start : startsCmd (skipBlanks count160.chars) = true := begins
  have front : Segment (skipBlanks count160.chars) []
      (readText (byte '1') (bytes "h50") (bytes "A0") (byte 'h')) := segment_nil (.done _)
  have none : Fits 0 0 [] := { count := by simp, each := by simp, total := by simp }
  exact read_rejected start front none (by simp) named spelled (by simp [ctrlSpellings]) .hex

end NeoSfp
