import NeoSfp.Spans

/-!
# Appending a line directly

A command that follows a line without a `_` between them is seen as a command,
unless the line ends inside an ASCII group: the group's letters then go on with
those of the command, which becomes payload.
-/

namespace NeoSfp

/-- Two lines with nothing between them. -/
def CString.append (first second : CString) : CString where
  chars := first.chars ++ second.chars
  nulFree := by
    rw [List.mem_append, not_or]
    exact ⟨first.nulFree, second.nulFree⟩

/-- The line ends inside an ASCII group: it is a shorter line whose last command
is a write, followed by the group's `a` and letters or digits. -/
def EndsInAscii (p : Text) : Prop :=
  ∃ shorter run cs ctrl addr bs, p = shorter ++ byte 'a' :: run ∧ Letters run ∧
    Line shorter (.chain (cs ++ [.write ctrl addr bs]))

/-! ## Open ASCII groups -/

/-- A line of commands still fits its limits if the last write has less payload. -/
theorem fits_shorter {cs : List TwiCmd} {ctrl addr : UInt8} {bs more : List UInt8}
    (fits : Fits 0 0 (cs ++ [.write ctrl addr (bs ++ more)])) :
    Fits 0 0 (cs ++ [.write ctrl addr bs]) := by
  have count := fits.count
  have total := fits.total
  rw [List.length_append] at count
  simp only [payloadTotal_append, payloadTotal_cons, TwiCmd.payload, payloadTotal_nil,
    List.length_append] at total
  refine
    { count := by rwa [List.length_append]
      each := ?_
      total := ?_ }
  · intro c member
    rcases List.mem_append.mp member with before | last
    · exact fits.each c (List.mem_append_left _ before)
    · have whole := fits.each (.write ctrl addr (bs ++ more)) (by simp)
      obtain rfl := List.mem_singleton.mp last
      simp only [TwiCmd.payload, List.length_append] at whole ⊢
      omega
  · simp only [payloadTotal_append, payloadTotal_cons, TwiCmd.payload, payloadTotal_nil]
    omega

/-- A segment that derives a command begins with one, behind its separators. -/
theorem segment_start {p r : Text} {c : TwiCmd} {cs : List TwiCmd} (segment : Segment p (c :: cs) r) :
    startsCmd (skipBars p) = true := by
  obtain ⟨s, derived, -⟩ := segment
  cases derived with
  | cmd bars first others =>
    have start := cmd_start first
    rw [skipBars_bars bars, startsCmd_skip start]
    exact start

/-- The front of a line of commands is a line of its own, if it is read in front of
anything. -/
theorem takes_chain {u more : Text} {cs : List TwiCmd} (some : cs ≠ [])
    (start : startsCmd (u ++ more) = true) (takes : Takes Segment u cs) : Chain u cs := by
  have segment := takes []
  rw [List.append_nil] at segment
  refine chain_iff.mpr ⟨?_, segment⟩
  cases cs with
  | nil => exact absurd rfl some
  | cons c cs =>
    have begins := segment_start segment
    cases u with
    | nil => simp [skipBars, startsCmd] at begins
    | cons ch u =>
      have same : ch = byte 'h' := startsCmd_selector start
      rw [same] at begins ⊢
      rwa [skipBars_cons u (by simp)] at begins

/-- Commands that the end of the line cuts off end inside an ASCII group. -/
theorem cutOff_endsInAscii {p : Text} {cs : List TwiCmd} (start : startsCmd p = true)
    (fits : Fits 0 0 cs) (cut : CutOffCmds p cs) : EndsInAscii p := by
  obtain ⟨u, run, before, ctrl, addr, front, rfl, letters, rfl, takes⟩ := cut
  refine ⟨u, run, before, ctrl, addr, front, rfl, letters, ?_⟩
  exact .chain (takes_chain (by simp) start takes) (fits_shorter fits)

/-- Inside an ASCII group, the line is a span with letters behind it. -/
theorem endsInAscii_open {p : Text} (ends : EndsInAscii p) :
    ∃ u run before ctrl addr front, p = u ++ byte 'a' :: run ∧ Letters run ∧
      Takes Segment u (before ++ [.write ctrl addr front]) := by
  obtain ⟨shorter, run, cs, ctrl, addr, bs, rfl, letters, line⟩ := ends
  cases line with
  | chain derived fits =>
    rcases segment_span (chain_iff.mp derived).2 clear_nil with
      ⟨u, whole, takes⟩ | ⟨-, u, last, before, ctrl', addr', front, rfl, others, same, takes⟩
    · rw [List.append_nil] at whole
      subst whole
      exact ⟨shorter, run, cs, ctrl, addr, bs, rfl, letters, takes⟩
    · -- the shorter line ended inside a group already, which the `a` goes on with
      refine ⟨u, last ++ byte 'a' :: run, before, ctrl', addr', front, by simp, ?_, takes⟩
      constructor
      · simp
      · intro c member
        rcases List.mem_append.mp member with inside | behind
        · exact others.alnum c inside
        · rcases List.mem_cons.mp behind with rfl | inside
          · simp [← isAlnumLat_iff, isAlnumLat, byte]
          · exact letters.alnum c inside

/-! ## What an open group swallows -/

/-- The last command of a segment can be told apart from those before it. By induction
on the commands. -/
theorem segment_last {p r : Text} {c : TwiCmd} {cs : List TwiCmd} (segment : Segment p (cs ++ [c]) r) :
    ∃ q s, Segment p cs q ∧ Cmd q c s ∧ Bars s r := by
  induction cs generalizing p with
  | nil =>
    obtain ⟨s, derived, behind⟩ := segment
    cases derived with
    | cmd bars first others =>
      cases others with
      | done => exact ⟨_, s, segment_nil bars, first, behind⟩
  | cons d cs ih =>
    obtain ⟨s, derived, behind⟩ := segment
    cases derived with
    | cmd bars first others =>
      obtain ⟨q, t, before, last, ended⟩ := ih ⟨s, others, behind⟩
      exact ⟨q, t, segment_bars bars (segment_cons first before), last, ended⟩

/-- The scan of a write whose payload goes on behind the derived one. -/
theorem scanCmd_write {count used : Nat} {p q r : Text} {ctrl addr : UInt8} {bs : List UInt8}
    {c : TwiCmd} (derived : Cmd p (.write ctrl addr bs) q) (boundary : Boundary q)
    (scanned : scanCmd count used p = .ok (c, r)) :
    c = .write ctrl addr (bs ++ (scanPayload q).bytes) ∧ (scanPayload q).stop = .ok r := by
  have start := cmd_start derived
  cases derived with
  | @write d _ _ s t _ _ named iaddr payload =>
    obtain ⟨-, first, isWrite⟩ := write_ctrl named s
    obtain ⟨x, second, bars⟩ := scanAddr_complete iaddr
    obtain ⟨bytes, ended⟩ := scanPayload_over payload boundary
    rw [scanPayload_bars bars] at bytes ended
    unfold scanCmd at scanned
    split at scanned
    · simp at scanned
    · simp only [start, Bool.not_true, Bool.false_eq_true, if_false, List.drop_one, List.tail_cons,
        scanCmdBody, first, second, isWrite, bytes, ended] at scanned
      split at scanned
      · simp at scanned
      · split at scanned
        · simp at scanned
        · next rest stopped =>
          cases scanned
          exact ⟨rfl, stopped⟩

/-- The scan of an ASCII group takes all its letters, and goes on behind them only if
something is left of the line. -/
theorem scanPayload_letters {w rest r : Text} (letters : Letters w)
    (stops : headIs isAlnumLat rest = false)
    (ended : (scanPayload (byte 'a' :: (w ++ rest))).stop = .ok r) :
    ∃ more, (scanPayload (byte 'a' :: (w ++ rest))).bytes = w ++ more ∧
      (rest = [] → more = [] ∧ r = []) := by
  obtain ⟨reached, named⟩ := (run_exact (headIs isAlnumLat) asciiDecoder AsciiByte .emptyAscii
    scanAsciiByte_exact headIs_alnum_leads (w ++ rest) rest w).mpr ⟨letters_plus letters rest, stops⟩
  have group : (scanGroup (byte 'a') (w ++ rest)).bytes = w := by
    simpa [Group.bytes, scanGroup, scanAsciiGroup] using named
  have closes : (scanGroup (byte 'a') (w ++ rest)).stop = scanAsciiEnd rest := by
    simp [scanGroup, scanAsciiGroup, reached, Except.bind]
  have start : startsCmd (byte 'a' :: (w ++ rest)) = false := startsCmd_other _ (by simp)
  obtain ⟨q, closed, bytes, stop⟩ := scanPayload_first (by simp) start ended
  rw [closes] at closed
  refine ⟨(scanPayload q).bytes, by rw [bytes, group], ?_⟩
  rintro rfl
  cases closed
  rw [scanPayload] at stop
  cases stop
  exact ⟨by rw [scanPayload]; rfl, rfl⟩

/-- Where a command is derived and may end, its scan gives the same command. -/
theorem scanCmd_derived {count used : Nat} {p q r : Text} {c d : TwiCmd} (derived : Cmd p c q)
    (follow : Follow q) (room : used ≤ 2044) (scanned : scanCmd count used p = .ok (d, r)) :
    d = c ∧ Bars q r := by
  cases c with
  | write ctrl addr bs =>
    obtain ⟨rfl, ended⟩ := scanCmd_write derived (follow_boundary follow) scanned
    rw [scanPayload_follow follow] at ended ⊢
    cases ended
    exact ⟨by rw [Group.bytes, List.map_nil, List.append_nil], bars_skip q⟩
  | read ctrl addr n fmt =>
    obtain ⟨-, free, -⟩ := scanCmd_sound count used p r d room scanned
    obtain ⟨rest, again, bars⟩ := scanCmd_complete count used derived follow free (Nat.zero_le _) room
    rw [scanned] at again
    cases again
    exact ⟨rfl, bars⟩

/-- The scan of a whole line passes the commands that are derived in front. -/
theorem scanChain_follows {p q : Text} {cs ds : List TwiCmd} (derived : Cmds p cs q)
    (follow : Follow q) (count used : Nat) (room : used ≤ 2044)
    (scanned : scanChain count used p = (ds, none)) :
    ∃ rest, ds = cs ++ rest ∧ used + payloadTotal cs ≤ 2044 ∧
      scanChain (count + cs.length) (used + payloadTotal cs) q = (rest, none) := by
  induction derived generalizing count used ds with
  | done p => exact ⟨ds, rfl, room, scanned⟩
  | @cmd p q r s c cs bars first others ih =>
    have start := cmd_start first
    rw [scanChain_bars count used bars] at scanned
    obtain ⟨d, t, rest, read, rfl, ended⟩ := scanChain_first start scanned
    obtain ⟨-, -, -, total⟩ := scanCmd_sound count used q t d room read
    obtain ⟨rfl, behind⟩ := scanCmd_derived first (cmds_follow others follow) room read
    rw [← scanChain_bars _ _ behind] at ended
    obtain ⟨rest, rfl, within, final⟩ := ih follow (count + 1) (used + d.payload.length) total ended
    refine ⟨rest, rfl, ?_, ?_⟩
    · rwa [payloadTotal_cons, ← Nat.add_assoc]
    · rwa [List.length_cons, payloadTotal_cons, Nat.add_comm cs.length 1, ← Nat.add_assoc,
        ← Nat.add_assoc]

/-- The scan of a whole line that goes on inside a write: the write gets the bytes
that are scanned behind the derived ones. -/
theorem scanChain_write {u q : Text} {before ds : List TwiCmd} {ctrl addr : UInt8}
    {front : List UInt8} (takes : Takes Segment u (before ++ [.write ctrl addr front]))
    (boundary : Boundary q) (scanned : scanChain 0 0 (u ++ q) = (ds, none)) :
    ∃ count used r tail, ds = before ++ .write ctrl addr (front ++ (scanPayload q).bytes) :: tail ∧
      (scanPayload q).stop = .ok r ∧ scanChain count used r = (tail, none) := by
  obtain ⟨p, s, ⟨p', cmds, skipped⟩, last, bars⟩ := segment_last (takes q)
  have start := cmd_start last
  have follow : Follow p' := by
    right
    rw [skipBars_bars skipped, startsCmd_skip start]
    exact start
  have behind : Boundary s := by
    intro ch tail reached
    rw [skipBars_bars bars] at reached
    exact boundary ch tail reached
  obtain ⟨rest, rfl, room, final⟩ := scanChain_follows cmds follow 0 0 (by decide) scanned
  rw [scanChain_bars _ _ skipped] at final
  obtain ⟨c, r, tail, read, rfl, done⟩ := scanChain_first start final
  obtain ⟨rfl, ended⟩ := scanCmd_write last behind read
  rw [scanPayload_bars bars] at ended done ⊢
  exact ⟨_, _, r, tail, rfl, ended, done⟩

/-- A line with an open group that is scanned to its end has a write whose payload
holds all the letters, and behind which nothing else comes if nothing is left. -/
theorem scanChain_open {u w rest : Text} {before ds : List TwiCmd} {ctrl addr : UInt8}
    {front : List UInt8} (takes : Takes Segment u (before ++ [.write ctrl addr front]))
    (letters : Letters w) (stops : headIs isAlnumLat rest = false)
    (scanned : scanChain 0 0 (u ++ byte 'a' :: (w ++ rest)) = (ds, none)) :
    ∃ more tail, ds = before ++ .write ctrl addr (front ++ (w ++ more)) :: tail ∧
      (rest = [] → more = [] ∧ tail = []) := by
  obtain ⟨count, used, r, tail, rfl, ended, final⟩ :=
    scanChain_write takes (boundary_cons _ rfl) scanned
  obtain ⟨more, bytes, finished⟩ := scanPayload_letters letters stops ended
  refine ⟨more, tail, by rw [bytes], ?_⟩
  intro empty
  obtain ⟨none, rfl⟩ := finished empty
  rw [scanChain_end count used rfl] at final
  cases final
  exact ⟨none, rfl⟩

/-! ## Appended lines -/

/-- A command's entry stands in the record behind those of the commands before it. -/
theorem decoded_at {out : NeoTxn} {before tail : List TwiCmd} {c : TwiCmd}
    (decoded : Decoded out (before ++ c :: tail)) :
    out.cmds[before.length]? = some (c.encode (payloadTotal before)) := by
  have inside : before.length < (before ++ c :: tail).length := by simp
  rw [decoded_entry decoded inside, encodeAll_append,
    List.getElem?_append_right (Nat.le_of_eq (encodeAll_length 0 before)), encodeAll_length,
    Nat.sub_self, Nat.zero_add]
  rfl

/-- What an accepted line of commands means: a chain that fits the limits, and a record
that holds it. -/
theorem accepted_commands {line : CString} {out next : NeoTxn} (start : startsCmd line.chars = true)
    (accepted : neoParseTransaction (some line) out = .ok (0, next)) :
    ∃ cs, Chain line.chars cs ∧ Fits 0 0 cs ∧ Decoded next cs := by
  have same := skipBlanks_start start
  have begins : CmdStart (skipBlanks line.chars) := by rwa [same, ← startsCmd_iff]
  obtain ⟨cs, derived, decoded⟩ := accepted_chain accepted begins
  rw [same] at derived
  cases derived with
  | chain derived fits => exact ⟨cs, derived, fits, decoded⟩

/-- A line that means commands is accepted, and the record then holds exactly these. -/
theorem chain_accepted (line : CString) (out : NeoTxn) {cs : List TwiCmd} (chain : Chain line.chars cs)
    (fits : Fits 0 0 cs) :
    ∃ next, neoParseTransaction (some line) out = .ok (0, next) ∧ Decoded next cs := by
  have derived : Line (skipBlanks line.chars) (.chain cs) := by
    rw [skipBlanks_start (chain_start chain)]
    exact .chain chain fits
  exact line_accepted out derived

/-- Two chains that fit together if their counts and their payloads do, since each limit
is a sum over the commands. -/
theorem fits_append {before after : List TwiCmd} (front : Fits 0 0 before) (back : Fits 0 0 after)
    (count : before.length + after.length ≤ 160)
    (used : payloadTotal before + payloadTotal after ≤ 2044) : Fits 0 0 (before ++ after) where
  count := by rw [List.length_append]; omega
  each := by
    intro c member
    rcases List.mem_append.mp member with inside | inside
    · exact front.each c inside
    · exact back.each c inside
  total := by rw [payloadTotal_append]; omega

/-- A line that does not end inside an ASCII group keeps its commands, whatever
line of commands is appended. -/
theorem append_joined {first second : CString} {out left right : NeoTxn} {before after : List TwiCmd}
    (chain : Chain first.chars before) (follows : Chain second.chars after) (fits : Fits 0 0 before)
    (also : Fits 0 0 after) (decoded : Decoded left before) (others : Decoded right after)
    (count : before.length + after.length ≤ 160)
    (used : payloadTotal before + payloadTotal after ≤ 2044) (closed : ¬ EndsInAscii first.chars) :
    ∃ next, neoParseTransaction (some (first.append second)) out = .ok (0, next) ∧
      Joined next left right := by
  obtain ⟨start, segment⟩ := chain_iff.mp chain
  rcases segment_span segment clear_nil with ⟨u, whole, takes⟩ | ⟨-, cut⟩
  · rw [List.append_nil] at whole
    subst whole
    have both : Chain (first.append second).chars (before ++ after) :=
      chain_iff.mpr ⟨startsCmd_append start _, segment_append (takes _) (chain_iff.mp follows).2⟩
    have room := fits_append fits also count used
    obtain ⟨next, accepted, whole⟩ := chain_accepted _ out both room
    exact ⟨next, accepted, decoded_joined whole decoded others⟩
  · exact absurd (cutOff_endsInAscii start fits cut) closed

/-- The letters with which a line of commands begins: at least the selector, followed by
whatever else an open group would take. -/
theorem start_letters {p : Text} (start : startsCmd p = true) :
    ∃ w rest, p = w ++ rest ∧ Letters w ∧ headIs isAlnumLat rest = false := by
  refine ⟨p.takeWhile isAlnumLat, p.dropWhile isAlnumLat,
    (List.takeWhile_append_dropWhile).symm, ?_, ?_⟩
  · constructor
    · obtain ⟨d, -, rest, rfl⟩ := (startsCmd_iff p).mp start
      simp [List.takeWhile, isAlnumLat, byte]
    · intro c member
      exact (isAlnumLat_iff c).mp (List.mem_takeWhile_imp member)
  · cases behind : p.dropWhile isAlnumLat with
    | nil => rfl
    | cons ch rest =>
      have other := List.head_dropWhile_not isAlnumLat (l := p) (by simp [behind])
      simpa [behind, headIs] using other

/-- A line that ends inside an ASCII group swallows the start of what is appended:
its last write gains payload. -/
theorem append_swallows {first second : CString} {out left right next : NeoTxn}
    {before after : List TwiCmd} (chain : Chain first.chars before) (fits : Fits 0 0 before)
    (decoded : Decoded left before) (follows : Chain second.chars after)
    (ends : EndsInAscii first.chars)
    (accepted : neoParseTransaction (some (first.append second)) out = .ok (0, next)) :
    ¬ Joined next left right := by
  intro joined
  obtain ⟨start, -⟩ := chain_iff.mp chain
  obtain ⟨w, rest, text, letters, stops⟩ := start_letters (chain_iff.mp follows).1
  obtain ⟨u, run, cs, ctrl, addr, front, opened, run_, takes⟩ := endsInAscii_open ends
  -- alone, the line ends with its own letters
  have alone : scanChain 0 0 (u ++ byte 'a' :: (run ++ [])) = (before, none) := by
    rw [List.append_nil, ← opened]
    exact (scanChain_exact _ start before).mpr ⟨chain, fits⟩
  obtain ⟨none, tail, own, finished⟩ := scanChain_open takes run_ rfl alone
  obtain ⟨rfl, rfl⟩ := finished rfl
  -- joined, the letters of the appended line follow them
  have begins : startsCmd (first.append second).chars = true := startsCmd_append start _
  obtain ⟨ds, whole, limits, held⟩ := accepted_commands begins accepted
  have further : Letters (run ++ w) := by
    constructor
    · simp [letters.some]
    · intro c member
      rcases List.mem_append.mp member with inside | inside
      · exact run_.alnum c inside
      · exact letters.alnum c inside
  have both : scanChain 0 0 (u ++ byte 'a' :: (run ++ w ++ rest)) = (ds, Option.none) := by
    have chars : u ++ byte 'a' :: (run ++ w ++ rest) = (first.append second).chars := by
      simp [CString.append, opened, text]
    rw [chars]
    exact (scanChain_exact _ begins ds).mpr ⟨whole, limits⟩
  obtain ⟨more, behind, gained, -⟩ := scanChain_open takes further stops both
  subst own gained
  have same : (TwiCmd.write ctrl addr (front ++ (run ++ []))).encode (payloadTotal cs) =
      (TwiCmd.write ctrl addr (front ++ (run ++ w ++ more))).encode (payloadTotal cs) := by
    have shorter := decoded_at decoded
    have longer := decoded_at held
    rw [joined.front cs.length (by rw [decoded.count]; simp), shorter] at longer
    exact Option.some.inj longer
  have length := congrArg NeoCmd.payloadLen same
  simp only [TwiCmd.encode, List.length_append, List.length_nil] at length
  have gain := List.length_pos_iff.mpr letters.some
  omega

/-- Appending a line of commands directly to another gives the commands of both, if and
only if the first does not end inside an ASCII group. If the group is closed the scan
passes the front as it would alone; if it is open, its scan takes the letters that begin
the second line. -/
theorem neoParseTransaction_append (first second : CString) (out out' out'' left right : NeoTxn)
    (accepted : neoParseTransaction (some first) out = .ok (0, left))
    (also : neoParseTransaction (some second) out' = .ok (0, right))
    (start : CmdStart first.chars) (follows : CmdStart second.chars)
    (count : left.count + right.count ≤ neoParserMaxCmds)
    (used : left.payloadUsed + right.payloadUsed ≤ payloadPoolSize) :
    (∃ next, neoParseTransaction (some (first.append second)) out'' = .ok (0, next) ∧
      Joined next left right) ↔ ¬ EndsInAscii first.chars := by
  rw [← startsCmd_iff] at start follows
  obtain ⟨before, chain, fits, decoded⟩ := accepted_commands start accepted
  obtain ⟨after, behind, room, others⟩ := accepted_commands follows also
  constructor
  · rintro ⟨next, success, joined⟩ ends
    exact append_swallows chain fits decoded behind ends success joined
  · intro closed
    rw [decoded.count, others.count] at count
    rw [decoded.used, others.used] at used
    exact append_joined chain behind fits room decoded others count used closed

/-- A read behind a read: two lines without an open group, so both commands are kept. -/
theorem neoParseTransaction_append_oneRead : ∃ left,
    neoParseTransaction (some oneRead) NeoTxn.zero = .ok (0, left) ∧
      ((∃ next, neoParseTransaction (some (oneRead.append oneRead)) NeoTxn.zero = .ok (0, next) ∧
        Joined next left left) ↔ ¬ EndsInAscii oneRead.chars) := by
  obtain ⟨left, cs, accepted, decoded, addr, rfl⟩ := oneRead_accepted
  have count : left.count + left.count ≤ neoParserMaxCmds := by
    rw [decoded.count]
    simp [neoParserMaxCmds]
  have used : left.payloadUsed + left.payloadUsed ≤ payloadPoolSize := by
    rw [decoded.used]
    simp [TwiCmd.payload]
  have start : CmdStart oneRead.chars := oneRead_start
  exact ⟨left, accepted, neoParseTransaction_append oneRead oneRead NeoTxn.zero NeoTxn.zero
    NeoTxn.zero left left accepted accepted start start count used⟩

/-- The line `hA0h01aX`: a write of one letter, without a closing `_`. -/
def openLetter : CString := CString.ofBuffer (bytes "hA0h01aX")

/-- The line `hA2h02`: a write without payload. -/
def noPayload : CString := CString.ofBuffer (bytes "hA2h02")

/-- The line appended below is a write without payload. -/
theorem noPayload_derived : ∃ addr, Chain noPayload.chars [.write 0xA2 addr []] := by
  have named : (byte '2', (0xA2 : UInt8)) ∈ writeCtrls := by simp [writeCtrls]
  have digits : byte '0' ∈ hexDigits ∧ byte '2' ∈ hexDigits := by simp [hexDigits_codes, byte]
  exact ⟨_, .line (write_derived named digits.1 digits.2 []) (.done []) (.done [])⟩

/-- What precedes the group is a line of its own, and with the group its last write has
the letter as payload. -/
theorem openLetter_derived : ∃ addr, Chain (bytes "hA0h01") [.write 0xA0 addr []] ∧
    Chain openLetter.chars [.write 0xA0 addr [byte 'X']] := by
  have named : (byte '0', (0xA0 : UInt8)) ∈ writeCtrls := by simp [writeCtrls]
  have digits : byte '0' ∈ hexDigits ∧ byte '1' ∈ hexDigits := by simp [hexDigits_codes, byte]
  have letters : Letters [byte 'X'] := ⟨by simp, by simp [← isAlnumLat_iff, isAlnumLat, byte]⟩
  have payload : Payload (bytes "aX") ([byte 'X'] ++ []) [] :=
    .ascii (letters_plus letters []) (Or.inl rfl) (.done [])
  have command : Cmd openLetter.chars _ [] :=
    .write named (.hex (.done _) (.pair (bytes "aX") digits.1 digits.2)) payload
  exact ⟨_, .line (write_derived named digits.1 digits.2 []) (.done []) (.done []),
    .line command (.done []) (.done [])⟩

/-- Behind `hA0h01aX` the command `hA2h02` is lost: it becomes payload of the first,
although both lines are accepted and there is room for both. -/
theorem openLetter_swallows : ∃ left right,
    neoParseTransaction (some openLetter) NeoTxn.zero = .ok (0, left) ∧
      neoParseTransaction (some noPayload) NeoTxn.zero = .ok (0, right) ∧
      left.count + right.count ≤ neoParserMaxCmds ∧
      left.payloadUsed + right.payloadUsed ≤ payloadPoolSize ∧
      ¬ ∃ next, neoParseTransaction (some (openLetter.append noPayload)) NeoTxn.zero =
        .ok (0, next) ∧ Joined next left right := by
  obtain ⟨addr, shorter, chain⟩ := openLetter_derived
  obtain ⟨addr', follows⟩ := noPayload_derived
  have small : ∀ c bs, bs.length ≤ 1 → Fits 0 0 [TwiCmd.write c addr bs] := by
    intro c bs few
    exact
      { count := by simp
        each := by simp only [List.mem_singleton, forall_eq, TwiCmd.payload]; omega
        total := by simp only [payloadTotal_cons, payloadTotal_nil, TwiCmd.payload]; omega }
  have fits := small 0xA0 [byte 'X'] (Nat.le_refl 1)
  have behind : Fits 0 0 [TwiCmd.write 0xA2 addr' []] :=
    { count := by simp, each := by simp [TwiCmd.payload], total := by simp [TwiCmd.payload] }
  have ends : EndsInAscii openLetter.chars :=
    ⟨bytes "hA0h01", [byte 'X'], [], 0xA0, addr, [], rfl,
      ⟨by simp, by simp [← isAlnumLat_iff, isAlnumLat, byte]⟩,
      .chain shorter (small 0xA0 [] (Nat.zero_le 1))⟩
  obtain ⟨left, accepted, decoded⟩ := chain_accepted openLetter NeoTxn.zero chain fits
  obtain ⟨right, also, others⟩ := chain_accepted noPayload NeoTxn.zero follows behind
  refine ⟨left, right, accepted, also, ?_, ?_, ?_⟩
  · rw [decoded.count, others.count]
    simp [neoParserMaxCmds]
  · rw [decoded.used, others.used]
    simp [TwiCmd.payload, payloadPoolSize, neoParserPayloadMax]
  · rintro ⟨next, success, joined⟩
    exact append_swallows chain fits decoded follows ends success joined

end NeoSfp
