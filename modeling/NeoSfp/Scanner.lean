import NeoSfp.Parser

/-!
# Stateless scanning of a line

The parser's decisions depend on the characters at the cursor and on two
counters, never on what the record or the pool hold. The scanners here make that
explicit: each takes a text and gives what it decodes with the text left behind
it, or the message and the place at which the parser would stop. They allocate
nothing and cannot fault. `ParserScan` proves that the parser performs exactly
these scans, storing what they decode.
-/

namespace NeoSfp

/-- A message and the text at the cursor when it is reported. -/
structure Stop where
  msg : Msg
  rest : Text
deriving DecidableEq

/-- A scan: a value and the text behind it, or where and why it stops. -/
abbrev Scan (α : Type) := Text → Except Stop (α × Text)

/-- What is left is a proper end of the text. -/
def Shrinks (p rest : Text) : Prop := rest <:+ p ∧ rest.length < p.length

/-- Reported places are ends of the text, and a success uses up some of it. -/
structure Consumes {α : Type} (scan : Scan α) : Prop where
  ok : ∀ p value rest, scan p = .ok (value, rest) → Shrinks p rest
  stop : ∀ p s, scan p = .error s → s.rest <:+ p

/-- A proper end of a text stays one of any text that ends with it. -/
theorem shrinks_trans {p q r : Text} (first : Shrinks p q) (second : r <:+ q) : Shrinks p r :=
  ⟨second.trans first.1, Nat.lt_of_le_of_lt second.length_le first.2⟩

/-- What stands behind a character is a proper end of the text. -/
theorem shrinks_cons (ch : UInt8) (rest : Text) : Shrinks (ch :: rest) rest :=
  ⟨List.suffix_cons ch rest, Nat.lt_succ_self _⟩

/-! ## Bytes -/

/-- A hex byte: two digits in front of the text. -/
def scanHexByte : Scan UInt8
  | high :: low :: rest =>
    if isHex high && isHex low then .ok (hexPair high low, rest)
    else .error ⟨.hexByteDigits, high :: low :: rest⟩
  | p => .error ⟨.hexByteDigits, p⟩

/-- `left` bits are still to come. -/
def scanBits : Nat → UInt8 → Scan UInt8
  | 0, v, p => .ok (v, p)
  | _ + 1, _, [] => .error ⟨.binaryByteBits, []⟩
  | left + 1, v, ch :: rest =>
    if ch = '_' then scanBits (left + 1) v rest
    else if isBin ch then scanBits left (shiftBit v ch) rest
    else .error ⟨.binaryByteBits, ch :: rest⟩

/-- A binary byte: eight bits. -/
def scanBinByte : Scan UInt8 := scanBits 8 0

/-- An ASCII byte: a letter or a digit. -/
def scanAsciiByte : Scan UInt8
  | [] => .error ⟨.asciiField, []⟩
  | ch :: rest => if isAlnumLat ch then .ok (ch, rest) else .error ⟨.asciiField, ch :: rest⟩

/-- A hex byte uses up its two digits, and what is wrong is reported where it begins. -/
theorem scanHexByte_consumes : Consumes scanHexByte where
  ok p value rest scanned := by
    match p with
    | [] => simp [scanHexByte] at scanned
    | [_] => simp [scanHexByte] at scanned
    | high :: low :: tail =>
      by_cases digits : (isHex high && isHex low) = true
      · simp only [scanHexByte, digits, if_true, Except.ok.injEq, Prod.mk.injEq] at scanned
        obtain ⟨-, rfl⟩ := scanned
        exact shrinks_trans (shrinks_cons high (low :: tail)) (List.suffix_cons low tail)
      · simp [scanHexByte, digits] at scanned
  stop p s stopped := by
    match p with
    | [] => simp [scanHexByte] at stopped; simp [← stopped]
    | [_] => simp [scanHexByte] at stopped; simp [← stopped]
    | high :: low :: tail =>
      by_cases digits : (isHex high && isHex low) = true
      · simp [scanHexByte, digits] at stopped
      · simp only [scanHexByte, digits] at stopped
        cases stopped
        exact List.suffix_refl _

/-- Bits use up one character each at least, and stop at an end of the text. By
induction along the scan. -/
theorem scanBits_suffix (left : Nat) (v : UInt8) (p : Text) :
    match scanBits left v p with
    | .ok (_, rest) => rest <:+ p ∧ rest.length + left ≤ p.length
    | .error s => s.rest <:+ p := by
  fun_induction scanBits left v p with
  | case1 v p => exact ⟨List.suffix_refl p, Nat.le_refl _⟩
  | case2 v n => exact List.suffix_refl _
  | case3 v left rest ih =>
    split at ih
    · exact ⟨ih.1.trans (List.suffix_cons _ rest), by simp only [List.length_cons]; omega⟩
    · exact ih.trans (List.suffix_cons _ rest)
  | case4 v left ch rest bar bit ih =>
    split at ih
    · exact ⟨ih.1.trans (List.suffix_cons ch rest), by simp only [List.length_cons]; omega⟩
    · exact ih.trans (List.suffix_cons ch rest)
  | case5 v left ch rest bar bit => exact List.suffix_refl _

/-- A binary byte uses up its bits, and stops inside them. -/
theorem scanBinByte_consumes : Consumes scanBinByte where
  ok p value rest scanned := by
    have exact := scanBits_suffix 8 0 p
    rw [show scanBits 8 0 p = .ok (value, rest) from scanned] at exact
    exact ⟨exact.1, by have := exact.2; omega⟩
  stop p s stopped := by
    have exact := scanBits_suffix 8 0 p
    rw [show scanBits 8 0 p = .error s from stopped] at exact
    exact exact

/-- An ASCII byte is the letter or digit in front, and what is left is the rest. -/
theorem scanAsciiByte_ok {p rest : Text} {value : UInt8} (scanned : scanAsciiByte p = .ok (value, rest)) :
    p = value :: rest ∧ isAlnumLat value = true := by
  cases p with
  | nil => simp [scanAsciiByte] at scanned
  | cons ch tail =>
    by_cases alnum : isAlnumLat ch = true
    · simp only [scanAsciiByte, alnum, if_true, Except.ok.injEq, Prod.mk.injEq] at scanned
      obtain ⟨rfl, rfl⟩ := scanned
      exact ⟨rfl, alnum⟩
    · simp [scanAsciiByte, alnum] at scanned

/-- An ASCII byte uses up its character. -/
theorem scanAsciiByte_consumes : Consumes scanAsciiByte where
  ok p value rest scanned := by
    obtain ⟨rfl, -⟩ := scanAsciiByte_ok scanned
    exact shrinks_cons value rest
  stop p s stopped := by
    cases p with
    | nil => simp [scanAsciiByte] at stopped; simp [← stopped]
    | cons ch tail =>
      by_cases alnum : isAlnumLat ch = true
      · simp [scanAsciiByte, alnum] at stopped
      · simp only [scanAsciiByte, alnum] at stopped
        cases stopped
        exact List.suffix_refl _

/-! ## Payload groups -/

/-- The bytes decoded in order, each with the text behind it, and how the scan
ended. -/
structure Group where
  items : List (UInt8 × Text)
  stop : Except Stop Text

/-- The bytes without their places. -/
def Group.bytes (g : Group) : List UInt8 := g.items.map Prod.fst

/-- The look ahead for another command: `hA0`, `hA1`, `hA2` or `hA3`. -/
def startsCmd : Text → Bool
  | first :: second :: d :: _ =>
    first == 'h' && second == 'A' && (d == '0' || d == '1' || d == '2' || d == '3')
  | _ => false

/-- A byte decoder that uses up text whenever it succeeds. -/
structure Decoder where
  scan : Scan UInt8
  consumes : Consumes scan

/-- Hex bytes, as they are decoded in a run. -/
def hexDecoder : Decoder := ⟨scanHexByte, scanHexByte_consumes⟩
def binDecoder : Decoder := ⟨scanBinByte, scanBinByte_consumes⟩
def asciiDecoder : Decoder := ⟨scanAsciiByte, scanAsciiByte_consumes⟩

/-- Decode bytes while the group goes on. -/
def scanRun (more : Text → Bool) (decoder : Decoder) (p : Text) : Group :=
  if more p then
    match _scanned : decoder.scan p with
    | .error s => ⟨[], .error s⟩
    | .ok (b, rest) =>
      let tail := scanRun more decoder rest
      ⟨(b, rest) :: tail.items, tail.stop⟩
  else
    ⟨[], .ok p⟩
termination_by p.length
decreasing_by exact (decoder.consumes.ok p b rest _scanned).2

/-- Continue a scan behind the bytes of a first one, if that one ended well. -/
def Group.andThen (g : Group) (next : Text → Group) : Group :=
  match g.stop with
  | .error s => ⟨g.items, .error s⟩
  | .ok rest => ⟨g.items ++ (next rest).items, (next rest).stop⟩

/-- A group that ends without a byte is an error at its end. -/
def Group.orEmpty (g : Group) (empty : Msg) : Group :=
  match g with
  | ⟨[], .ok rest⟩ => ⟨[], .error ⟨empty, rest⟩⟩
  | other => other

/-- The next character is there and passes the test. -/
def headIs (test : UInt8 → Bool) : Text → Bool
  | [] => false
  | ch :: _ => test ch

/-- A binary group goes on where a bit follows, over any number of `_`. -/
def binAhead (p : Text) : Bool := headIs isBin (skipBars p)

/-- A hex group behind its selector. -/
def scanHexGroup (p : Text) : Group :=
  (scanRun (headIs isHex) hexDecoder p).orEmpty .emptyHex

/-- A binary group behind its selector. -/
def scanBinGroup (p : Text) : Group := (scanRun binAhead binDecoder p).orEmpty .emptyBinary

/-- The end of an ASCII group: a `_`, the end of the line or the start of a command. -/
def scanAsciiEnd : Text → Except Stop Text
  | [] => .ok []
  | ch :: rest =>
    if ch = '_' then .ok rest
    else if startsCmd (ch :: rest) then .ok (ch :: rest)
    else .error ⟨.asciiRunEnd, ch :: rest⟩

/-- An ASCII group behind its selector, with its end. -/
def scanAsciiGroup (p : Text) : Group :=
  let g := (scanRun (headIs isAlnumLat) asciiDecoder p).orEmpty .emptyAscii
  ⟨g.items, g.stop.bind scanAsciiEnd⟩

/-- The group selected by `fc`, whose text is `p`. -/
def scanGroup (fc : UInt8) (p : Text) : Group :=
  if fc = 'h' then scanHexGroup p
  else if fc = 'b' then scanBinGroup p
  else if fc = 'a' then scanAsciiGroup p
  else ⟨[], .error ⟨.expectedSelector, fc :: p⟩⟩

/-- Wherever a scan ends or stops is an end of its text. -/
def EndsIn (stop : Except Stop Text) (p : Text) : Prop :=
  match stop with
  | .ok rest => rest <:+ p
  | .error s => s.rest <:+ p

/-- An end of an end of the text is an end of the text. -/
theorem endsIn_mono {stop : Except Stop Text} {p q : Text} (inside : EndsIn stop q)
    (suffix : q <:+ p) : EndsIn stop p := by
  cases stop with
  | ok rest => exact List.IsSuffix.trans inside suffix
  | error s => exact List.IsSuffix.trans inside suffix

/-- A run ends or stops at an end of its text. By induction along the run. -/
theorem scanRun_endsIn (more : Text → Bool) (decoder : Decoder) (p : Text) :
    EndsIn (scanRun more decoder p).stop p := by
  fun_induction scanRun more decoder p with
  | case1 p again s scanned => exact decoder.consumes.stop p s scanned
  | case2 p again b rest scanned tail ih =>
    exact endsIn_mono ih (decoder.consumes.ok p b rest scanned).1
  | case3 p again => exact List.suffix_refl p

/-- The test for an empty group ends or stops where the group does. -/
theorem orEmpty_endsIn (g : Group) (empty : Msg) (p : Text) (inside : EndsIn g.stop p) :
    EndsIn (g.orEmpty empty).stop p := by
  unfold Group.orEmpty
  split <;> exact inside

/-- The end of an ASCII group moves behind a `_` at most. -/
theorem scanAsciiEnd_endsIn (stop : Except Stop Text) (p : Text) (inside : EndsIn stop p) :
    EndsIn (stop.bind scanAsciiEnd) p := by
  cases stop with
  | error s => exact inside
  | ok rest =>
    have suffix : rest <:+ p := inside
    cases rest with
    | nil => exact suffix
    | cons ch tail =>
      simp only [Except.bind, scanAsciiEnd]
      split
      · exact (List.suffix_cons ch tail).trans suffix
      · split <;> exact suffix

/-- A group's scan stays behind its selector, which is itself reported when it
selects no format. -/
theorem scanGroup_split (fc : UInt8) (p : Text) :
    EndsIn (scanGroup fc p).stop p ∨
      scanGroup fc p = ⟨[], .error ⟨.expectedSelector, fc :: p⟩⟩ := by
  have run : ∀ more decoder empty, EndsIn ((scanRun more decoder p).orEmpty empty).stop p :=
    fun more decoder empty => orEmpty_endsIn _ _ _ (scanRun_endsIn more decoder p)
  unfold scanGroup
  split
  · exact Or.inl (run _ _ _)
  · split
    · exact Or.inl (run _ _ _)
    · split
      · exact Or.inl (scanAsciiEnd_endsIn _ _ (run _ _ _))
      · exact Or.inr rfl

/-- A group ends or stops at an end of its text, the selector included. -/
theorem scanGroup_endsIn (fc : UInt8) (p : Text) : EndsIn (scanGroup fc p).stop (fc :: p) := by
  rcases scanGroup_split fc p with inside | unselected
  · exact endsIn_mono inside (List.suffix_cons fc p)
  · rw [unselected]
    exact List.suffix_refl _

/-- A group that ends well leaves an end of the text behind its selector. -/
theorem scanGroup_ok (fc : UInt8) (p rest : Text) (ended : (scanGroup fc p).stop = .ok rest) :
    rest <:+ p := by
  rcases scanGroup_split fc p with inside | unselected
  · rw [ended] at inside
    exact inside
  · simp [unselected] at ended

/-- Each byte of a run is stored at an end of the text. By induction along the run. -/
theorem scanRun_items (more : Text → Bool) (decoder : Decoder) (p : Text) :
    ∀ item ∈ (scanRun more decoder p).items, item.2 <:+ p := by
  fun_induction scanRun more decoder p with
  | case1 p again s scanned => simp
  | case2 p again b rest scanned tail ih =>
    have shrinks := decoder.consumes.ok p b rest scanned
    intro item member
    rcases List.mem_cons.mp member with rfl | member
    · exact shrinks.1
    · exact (ih item member).trans shrinks.1
  | case3 p again => simp

/-- The test for an empty group does not change its bytes. -/
@[simp] theorem orEmpty_items (g : Group) (empty : Msg) : (g.orEmpty empty).items = g.items := by
  unfold Group.orEmpty
  split <;> rfl

/-- Each byte of a group is stored at an end of the text behind its selector. -/
theorem scanGroup_items (fc : UInt8) (p : Text) :
    ∀ item ∈ (scanGroup fc p).items, item.2 <:+ p := by
  unfold scanGroup
  split
  · simpa [scanHexGroup] using scanRun_items _ _ p
  · split
    · simpa [scanBinGroup] using scanRun_items _ _ p
    · split
      · simpa [scanAsciiGroup] using scanRun_items _ _ p
      · simp

/-! ## Payloads -/

/-- A payload, up to the end of the line or the start of a command. Each round passes a
`_` or scans a group, and uses up text. -/
def scanPayload : Text → Group
  | [] => ⟨[], .ok []⟩
  | fc :: p =>
    if startsCmd (fc :: p) then ⟨[], .ok (fc :: p)⟩
    else if fc = '_' then scanPayload p
    else
      match _ended : (scanGroup fc p).stop with
      | .error s => ⟨(scanGroup fc p).items, .error s⟩
      | .ok rest =>
        let more := scanPayload rest
        ⟨(scanGroup fc p).items ++ more.items, more.stop⟩
termination_by p => p.length
decreasing_by
  · exact Nat.lt_succ_self _
  · exact Nat.lt_succ_of_le (scanGroup_ok fc p rest _ended).length_le

/-- Store the decoded bytes one by one: the first that finds its command full at
`len` bytes, or the pool full at `used`, stops the parse behind it. -/
def capacity : Nat → Nat → List (UInt8 × Text) → Except Stop Unit
  | _, _, [] => .ok ()
  | len, used, (_, rest) :: items =>
    if len ≥ neoParserPayloadMax then .error ⟨.payloadExceeds, rest⟩
    else if used ≥ payloadPoolSize then .error ⟨.poolExhausted, rest⟩
    else capacity (len + 1) (used + 1) items

/-! ## Commands -/

/-- One decoded TWI command. -/
inductive TwiCmd where
  | write (ctrl addr : UInt8) (payload : List UInt8)
  | read (ctrl addr : UInt8) (len : Nat) (fmt : NeoFmt)
deriving DecidableEq, Repr

/-- The control byte. -/
def TwiCmd.ctrl : TwiCmd → UInt8
  | .write ctrl _ _ => ctrl
  | .read ctrl _ _ _ => ctrl

/-- The internal address. -/
def TwiCmd.addr : TwiCmd → UInt8
  | .write _ addr _ => addr
  | .read _ addr _ _ => addr

/-- A read carries no payload. -/
def TwiCmd.payload : TwiCmd → List UInt8
  | .write _ _ payload => payload
  | .read .. => []

/-- Total number of payload bytes of a chain. -/
def payloadTotal (cs : List TwiCmd) : Nat := (cs.map fun c => c.payload.length).sum

/-- No commands have no payload. -/
@[simp] theorem payloadTotal_nil : payloadTotal [] = 0 := rfl

/-- The payload of a command counts with those of the others. -/
@[simp] theorem payloadTotal_cons (c : TwiCmd) (cs : List TwiCmd) :
    payloadTotal (c :: cs) = c.payload.length + payloadTotal cs := by
  simp [payloadTotal]

/-- The payloads of two chains add up. By induction on the first. -/
@[simp] theorem payloadTotal_append (left right : List TwiCmd) :
    payloadTotal (left ++ right) = payloadTotal left + payloadTotal right := by
  simp [payloadTotal]

/-- The byte of an address behind its selector; an ASCII byte may be closed by a `_`. -/
def scanAddrByte (fc : UInt8) : Scan UInt8 :=
  if fc = 'h' then scanHexByte
  else if fc = 'b' then scanBinByte
  else fun p =>
    match scanAsciiByte p with
    | .error s => .error s
    | .ok (b, ch :: rest) => .ok (b, if ch = '_' then rest else ch :: rest)
    | .ok (b, []) => .ok (b, [])

/-- The letters that open a group. -/
def isSelector (fc : UInt8) : Bool := fc == 'h' || fc == 'b' || fc == 'a'

/-- The internal address behind any number of `_`. -/
def scanAddr (p : Text) : Except Stop (UInt8 × Text) :=
  match skipBars p with
  | [] => .error ⟨.addrSelector, []⟩
  | fc :: rest =>
    if isSelector fc then scanAddrByte fc rest else .error ⟨.addrSelector, fc :: rest⟩

/-- Up to `left` further digits of the count `n`. -/
def scanCount : Nat → Nat → Text → Nat × Text
  | 0, n, p => (n, p)
  | _ + 1, n, [] => (n, [])
  | left + 1, n, ch :: rest =>
    if isHex ch then scanCount left (n <<< 4 ||| (hexVal ch).toNat) rest else (n, ch :: rest)

/-- The display format and what follows it; only a zero count may omit it. -/
def scanFmt (n : Nat) : Scan NeoFmt
  | ff :: rest =>
    if isSelector ff then .ok (fmtOf ff, rest)
    else if n = 0 then .ok (.none, ff :: rest)
    else .error ⟨.missingFormat, ff :: rest⟩
  | [] => if n = 0 then .ok (.none, []) else .error ⟨.missingFormat, []⟩

/-- The `_` that closes an explicit tail. -/
def scanClose : Text → Except Stop Text
  | ch :: rest => if ch = '_' then .ok rest else .error ⟨.readEnd, ch :: rest⟩
  | [] => .error ⟨.readEnd, []⟩

/-- The explicit tail behind its `h`. -/
def scanTailBody (p : Text) : Except Stop ((Nat × NeoFmt) × Text) :=
  let (n, q) := scanCount 3 0 p
  if q.length = p.length then .error ⟨.missingCount, q⟩
  else if n > readCountMax then .error ⟨.countExceeds, q⟩
  else
    match scanFmt n q with
    | .error s => .error s
    | .ok (fmt, r) =>
      match scanClose r with
      | .error s => .error s
      | .ok rest => .ok ((n, fmt), rest)

/-- The tail of a read: left out at the end of the line or in front of a command, or an
`h` with a count. -/
def scanTail (p : Text) : Except Stop ((Nat × NeoFmt) × Text) :=
  match skipBars p with
  | [] => .ok ((0, .none), [])
  | ch :: rest =>
    if startsCmd (ch :: rest) then .ok ((0, .none), ch :: rest)
    else if ch = 'h' then scanTailBody rest
    else .error ⟨.expectedCount, ch :: rest⟩

/-- What follows the `h` of a command start, in a record that already holds
`used` payload bytes. -/
def scanCmdBody (used : Nat) (p : Text) : Except Stop (TwiCmd × Text) :=
  match scanHexByte p with
  | .error s => .error s
  | .ok (ctrl, p) =>
    match scanAddr p with
    | .error s => .error s
    | .ok (addr, p) =>
      if isReadCtrl ctrl then
        match scanTail p with
        | .error s => .error s
        | .ok ((len, fmt), rest) => .ok (.read ctrl addr len fmt, rest)
      else
        match capacity 0 used (scanPayload p).items with
        | .error s => .error s
        | .ok () =>
          match (scanPayload p).stop with
          | .error s => .error s
          | .ok rest => .ok (.write ctrl addr (scanPayload p).bytes, rest)

/-- One command behind `count` earlier ones. -/
def scanCmd (count used : Nat) (p : Text) : Except Stop (TwiCmd × Text) :=
  if count ≥ neoParserMaxCmds then .error ⟨.tooManyCmds, p⟩
  else if !startsCmd p then .error ⟨.commandStart, p⟩
  else scanCmdBody used (p.drop 1)

/-- Skipping `_` leaves an end of the text. By induction on the text. -/
theorem skipBars_suffix (p : Text) : skipBars p <:+ p := by
  fun_induction skipBars p with
  | case1 => exact List.suffix_refl _
  | case2 rest ih => exact ih.trans (List.suffix_cons _ rest)
  | case3 ch rest bar => exact List.suffix_refl _

/-- A payload ends or stops at an end of its text. By induction along the scan, one
group at a time. -/
theorem scanPayload_endsIn (p : Text) : EndsIn (scanPayload p).stop p := by
  fun_induction scanPayload p with
  | case1 => exact List.suffix_refl _
  | case2 fc p start => exact List.suffix_refl _
  | case3 p start ih => exact endsIn_mono ih (List.suffix_cons _ p)
  | case4 fc p start bar s ended =>
    have inside := scanGroup_endsIn fc p
    rw [ended] at inside
    exact inside
  | case5 fc p start bar rest ended more ih =>
    exact endsIn_mono ih ((scanGroup_ok fc p rest ended).trans (List.suffix_cons fc p))

/-- Places at which payload bytes are stored are ends of the text, so a store that fails
is reported at one of them. -/
theorem capacity_stop (len used : Nat) (items : List (UInt8 × Text)) (s : Stop)
    (stopped : capacity len used items = .error s) : s.rest ∈ items.map Prod.snd := by
  fun_induction capacity len used items with
  | case1 => simp at stopped
  | case2 len used b rest items full => cases stopped; simp
  | case3 len used b rest items room full => cases stopped; simp
  | case4 len used b rest items room more ih => exact List.mem_cons_of_mem _ (ih stopped)

/-- The byte of an address uses up text in each of its forms, and an unknown selector is
reported where it stands. -/
theorem scanAddrByte_consumes (fc : UInt8) : Consumes (scanAddrByte fc) := by
  unfold scanAddrByte
  split
  · exact scanHexByte_consumes
  · split
    · exact scanBinByte_consumes
    · constructor
      · intro p value rest scanned
        cases first : scanAsciiByte p with
        | error s => simp [first] at scanned
        | ok result =>
          obtain ⟨b, tail⟩ := result
          have shrinks := scanAsciiByte_consumes.ok p b tail first
          cases tail with
          | nil =>
            simp only [first, Except.ok.injEq, Prod.mk.injEq] at scanned
            exact scanned.2 ▸ shrinks
          | cons ch after =>
            simp only [first, Except.ok.injEq, Prod.mk.injEq] at scanned
            obtain ⟨-, rfl⟩ := scanned
            split
            · exact shrinks_trans shrinks (List.suffix_cons ch after)
            · exact shrinks
      · intro p s stopped
        cases first : scanAsciiByte p with
        | error t =>
          simp only [first, Except.error.injEq] at stopped
          exact stopped ▸ scanAsciiByte_consumes.stop p t first
        | ok result =>
          obtain ⟨b, tail⟩ := result
          cases tail <;> simp [first] at stopped

/-- An address uses up text behind any `_`, and stops at an end of it. -/
theorem scanAddr_consumes : Consumes scanAddr where
  ok p value rest scanned := by
    have bars := skipBars_suffix p
    unfold scanAddr at scanned
    split at scanned
    · simp at scanned
    · next fc tail behind =>
      split at scanned
      · rw [behind] at bars
        have shrinks := (scanAddrByte_consumes fc).ok tail value rest scanned
        have after : tail <:+ p := (List.suffix_cons fc tail).trans bars
        exact ⟨shrinks.1.trans after, Nat.lt_of_lt_of_le shrinks.2 after.length_le⟩
      · simp at scanned
  stop p s stopped := by
    have bars := skipBars_suffix p
    unfold scanAddr at stopped
    split at stopped
    · cases stopped
      exact List.nil_suffix
    · next fc tail behind =>
      rw [behind] at bars
      split at stopped
      · exact ((scanAddrByte_consumes fc).stop tail s stopped).trans
          ((List.suffix_cons fc tail).trans bars)
      · cases stopped
        exact bars

/-- A count leaves an end of the text. By induction on how many digits are left. -/
theorem scanCount_suffix (left n : Nat) (p : Text) : (scanCount left n p).2 <:+ p := by
  fun_induction scanCount left n p with
  | case1 n p => exact List.suffix_refl _
  | case2 left n => exact List.suffix_refl _
  | case3 left n ch rest digit ih => exact ih.trans (List.suffix_cons ch rest)
  | case4 left n ch rest digit => exact List.suffix_refl _

/-- A format ends or stops at an end of the text. -/
theorem scanFmt_endsIn (n : Nat) (p : Text) : EndsIn ((scanFmt n p).map Prod.snd) p := by
  cases p with
  | nil =>
    simp only [scanFmt]
    split <;> exact List.suffix_refl _
  | cons ff rest =>
    simp only [scanFmt]
    split
    · exact List.suffix_cons ff rest
    · split <;> exact List.suffix_refl _

/-- The end of a read is passed, or missed where it should stand. -/
theorem scanClose_endsIn (p : Text) : EndsIn (scanClose p) p := by
  cases p with
  | nil => exact List.suffix_refl _
  | cons ch rest =>
    simp only [scanClose]
    split
    · exact List.suffix_cons ch rest
    · exact List.suffix_refl _

/-- A tail behind its `h` ends or stops at an end of the text: count, format and close
in a row. -/
theorem scanTailBody_endsIn (p : Text) : EndsIn ((scanTailBody p).map Prod.snd) p := by
  have digits := scanCount_suffix 3 0 p
  unfold scanTailBody
  generalize scanCount 3 0 p = counted at digits ⊢
  obtain ⟨n, q⟩ := counted
  simp only at digits ⊢
  split
  · exact digits
  · split
    · exact digits
    · have format := scanFmt_endsIn n q
      split
      · next s stopped =>
        rw [stopped] at format
        exact endsIn_mono format digits
      · next fmt r scanned =>
        rw [scanned] at format
        have close := scanClose_endsIn r
        split
        · next s stopped =>
          rw [stopped] at close
          exact endsIn_mono (endsIn_mono close format) digits
        · next rest closed =>
          rw [closed] at close
          exact endsIn_mono (endsIn_mono close format) digits

/-- A tail ends or stops at an end of the text, also where it is left out. -/
theorem scanTail_endsIn (p : Text) : EndsIn ((scanTail p).map Prod.snd) p := by
  have bars := skipBars_suffix p
  unfold scanTail
  split
  · exact List.nil_suffix
  · next ch rest behind =>
    rw [behind] at bars
    split
    · exact bars
    · split
      · exact endsIn_mono (scanTailBody_endsIn rest) ((List.suffix_cons ch rest).trans bars)
      · exact bars

/-- Each byte of a payload is stored at an end of the text. By induction along the
scan. -/
theorem scanPayload_items (p : Text) : ∀ item ∈ (scanPayload p).items, item.2 <:+ p := by
  fun_induction scanPayload p with
  | case1 => simp
  | case2 fc p start => simp
  | case3 p start ih => exact fun item member => (ih item member).trans (List.suffix_cons _ p)
  | case4 fc p start bar s ended =>
    exact fun item member => (scanGroup_items fc p item member).trans (List.suffix_cons fc p)
  | case5 fc p start bar rest ended more ih =>
    intro item member
    rcases List.mem_append.mp member with member | member
    · exact (scanGroup_items fc p item member).trans (List.suffix_cons fc p)
    · exact ((ih item member).trans (scanGroup_ok fc p rest ended)).trans (List.suffix_cons fc p)

/-- What follows the start of a command uses up its control byte and more, and stops at
an end of the text. -/
theorem scanCmdBody_consumes (used : Nat) : Consumes (scanCmdBody used) where
  ok p value rest scanned := by
    unfold scanCmdBody at scanned
    split at scanned
    · simp at scanned
    · next ctrl q first =>
      have ctrlShrinks := scanHexByte_consumes.ok p ctrl q first
      split at scanned
      · simp at scanned
      · next addr r second =>
        have addrShrinks := scanAddr_consumes.ok q addr r second
        have behind : Shrinks p r := shrinks_trans ctrlShrinks addrShrinks.1
        split at scanned
        · have tail := scanTail_endsIn r
          split at scanned
          · simp at scanned
          · next len fmt after third =>
            rw [third] at tail
            simp only [Except.ok.injEq, Prod.mk.injEq] at scanned
            exact scanned.2 ▸ shrinks_trans behind tail
        · have payload := scanPayload_endsIn r
          split at scanned
          · simp at scanned
          · split at scanned
            · simp at scanned
            · next after third =>
              rw [third] at payload
              simp only [Except.ok.injEq, Prod.mk.injEq] at scanned
              exact scanned.2 ▸ shrinks_trans behind payload
  stop p s stopped := by
    unfold scanCmdBody at stopped
    split at stopped
    · next t first => cases stopped; exact scanHexByte_consumes.stop p _ first
    · next ctrl q first =>
      have ctrlSuffix := (scanHexByte_consumes.ok p ctrl q first).1
      split at stopped
      · next t second => cases stopped; exact (scanAddr_consumes.stop q _ second).trans ctrlSuffix
      · next addr r second =>
        have behind : r <:+ p := (scanAddr_consumes.ok q addr r second).1.trans ctrlSuffix
        split at stopped
        · have tail := scanTail_endsIn r
          split at stopped
          · next t third =>
            rw [third] at tail
            cases stopped
            exact List.IsSuffix.trans tail behind
          · simp at stopped
        · have payload := scanPayload_endsIn r
          split at stopped
          · next t full =>
            cases stopped
            obtain ⟨item, member, same⟩ := List.mem_map.mp (capacity_stop 0 used _ _ full)
            exact same ▸ (scanPayload_items r item member).trans behind
          · split at stopped
            · next t third =>
              rw [third] at payload
              cases stopped
              exact List.IsSuffix.trans payload behind
            · simp at stopped

/-- A command uses up text, which is why the scan of a chain comes to an end. -/
theorem scanCmd_consumes (count used : Nat) : Consumes (scanCmd count used) where
  ok p value rest scanned := by
    unfold scanCmd at scanned
    split at scanned
    · simp at scanned
    · split at scanned
      · simp at scanned
      · have shrinks := (scanCmdBody_consumes used).ok _ value rest scanned
        exact ⟨shrinks.1.trans (List.drop_suffix 1 p),
          Nat.lt_of_lt_of_le shrinks.2 (List.drop_suffix 1 p).length_le⟩
  stop p s stopped := by
    unfold scanCmd at stopped
    split at stopped
    · cases stopped; exact List.suffix_refl _
    · split at stopped
      · cases stopped; exact List.suffix_refl _
      · exact ((scanCmdBody_consumes used).stop _ s stopped).trans (List.drop_suffix 1 p)

/-! ## Chains -/

/-- The commands completed, behind `count` commands with `used` payload bytes,
and the error that ended the chain, if any. -/
def scanChain (count used : Nat) (p : Text) : List TwiCmd × Option Stop :=
  match _behind : skipBars p with
  | [] => ([], none)
  | ch :: rest =>
    if startsCmd (ch :: rest) then
      match _scanned : scanCmd count used (ch :: rest) with
      | .error s => ([], some s)
      | .ok (cmd, q) =>
        let more := scanChain (count + 1) (used + cmd.payload.length) q
        (cmd :: more.1, more.2)
    else
      ([], some ⟨.garbage, ch :: rest⟩)
termination_by p.length
decreasing_by
  have shrinks := (scanCmd_consumes count used).ok _ cmd q _scanned
  have bars := (_behind ▸ skipBars_suffix p : ch :: rest <:+ p).length_le
  exact Nat.lt_of_lt_of_le shrinks.2 bars

/-- A chain ends where nothing but `_` is left. -/
theorem scanChain_end (count used : Nat) {p : Text} (behind : skipBars p = []) :
    scanChain count used p = ([], none) := by
  rw [scanChain]
  split
  · rfl
  · next reached => simp [behind] at reached

/-- One round of a chain's scan: a command behind the `_`, and then the rest with its
counters, or what is no command. -/
theorem scanChain_step (count used : Nat) {p rest : Text} {ch : UInt8}
    (behind : skipBars p = ch :: rest) :
    scanChain count used p =
      if startsCmd (ch :: rest) then
        match scanCmd count used (ch :: rest) with
        | .error s => ([], some s)
        | .ok (cmd, q) =>
          (cmd :: (scanChain (count + 1) (used + cmd.payload.length) q).1,
            (scanChain (count + 1) (used + cmd.payload.length) q).2)
      else ([], some ⟨.garbage, ch :: rest⟩) := by
  rw [scanChain]
  split
  · next finished => simp [behind] at finished
  · next first tail reached =>
    rw [behind] at reached
    cases reached
    split
    · split
      · next stopped => rw [stopped]
      · next scanned => rw [scanned]
    · rfl

/-! ## Whole lines -/

/-- The digits of `out_`, without any `_` between them. -/
def scanOutBits : Nat → UInt8 → Scan UInt8
  | 0, v, p => .ok (v, p)
  | _ + 1, _, [] => .error ⟨.outDigits, []⟩
  | left + 1, v, ch :: rest =>
    if isBin ch then scanOutBits left (shiftBit v ch) rest else .error ⟨.outDigits, ch :: rest⟩

/-- The table entry of a special command. -/
def scanSpecial (p : Text) : Except Stop NeoCmd :=
  match strPrefix p (bytes "out_") with
  | some q =>
    match scanOutBits 8 0 q with
    | .error s => .error s
    | .ok (v, rest) =>
      if strtailEmpty rest then .ok { kind := .gpioOut, gpioByte := v }
      else .error ⟨.outExtra, rest⟩
  | none =>
    if (strPrefix p (bytes "inp")).any strtailEmpty then .ok { kind := .gpioIn }
    else if (strPrefix p (bytes "help")).any strtailEmpty ∨
        (headIs (· == '?') p = true ∧ strtailEmpty (p.drop 1) = true) then
      .ok { kind := .help }
    else .error ⟨.unknownCommand, p⟩

/-- What an accepted line means. -/
inductive Parsed where
  | chain (cs : List TwiCmd)
  | special (entry : NeoCmd)
deriving DecidableEq

/-- A line behind its leading blanks; an error names the commands completed
before it. -/
def scanLine (p : Text) : Except (List TwiCmd × Stop) Parsed :=
  if p = [] then .error ([], ⟨.emptyTransaction, []⟩)
  else if startsCmd p then
    match scanChain 0 0 p with
    | (cs, none) => .ok (.chain cs)
    | (cs, some s) => .error (cs, s)
  else
    match scanSpecial p with
    | .ok entry => .ok (.special entry)
    | .error s => .error ([], s)

end NeoSfp
