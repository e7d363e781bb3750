import NeoSfp.Scanner

/-!
# The parser performs the scans

Each parser routine makes the decisions of its scan and stores what the scan
decodes. The record it works on is described by three predicates: the commands
decoded so far are all it holds (`Decoded`), one more command is being filled
(`Filling`), or the parse has stopped (`Rejected`). No routine faults: reads stay
at or before the NUL, stores stay inside both arrays, and the loops end.
-/

namespace NeoSfp

open Checked

/-! ## Records -/

/-- The table entry of a command whose payload starts at `off`. -/
def TwiCmd.encode (off : Nat) : TwiCmd → NeoCmd
  | .write ctrl addr payload =>
    { kind := .twiWrite, ctrlByte := ctrl, internalAddr := addr,
      payloadOff := off, payloadLen := payload.length }
  | .read ctrl addr len fmt =>
    { kind := .twiRead, ctrlByte := ctrl, internalAddr := addr,
      rdLen := len, rdFmt := fmt, payloadOff := off }

/-- The entries of a chain, their payloads laid out one after the other. -/
def encodeAll : Nat → List TwiCmd → List NeoCmd
  | _, [] => []
  | off, c :: cs => c.encode off :: encodeAll (off + c.payload.length) cs

/-- All payload bytes of a chain in order. -/
def payloads (cs : List TwiCmd) : List UInt8 := cs.flatMap TwiCmd.payload

/-- The record holds exactly these commands. -/
structure Decoded (out : NeoTxn) (cs : List TwiCmd) : Prop where
  count : out.count = cs.length
  cmds : out.cmds.toList = encodeAll 0 cs ++ List.replicate (neoParserMaxCmds - cs.length) ({} : NeoCmd)
  used : out.payloadUsed = payloadTotal cs
  room : out.payloadUsed ≤ payloadPoolSize
  pool : out.payloadPool.toList.take out.payloadUsed = payloads cs
  noError : out.error = none

/-- Behind these commands the record holds an open one, `entry` but for its
payload, which is `bs` so far. -/
structure Filling (out : NeoTxn) (cs : List TwiCmd) (entry : NeoCmd) (bs : List UInt8) : Prop where
  count : out.count = cs.length
  free : cs.length < neoParserMaxCmds
  cmds : out.cmds.toList = encodeAll 0 cs ++
    { entry with payloadLen := bs.length } ::
      List.replicate (neoParserMaxCmds - (cs.length + 1)) ({} : NeoCmd)
  used : out.payloadUsed = payloadTotal cs + bs.length
  len : bs.length ≤ neoParserPayloadMax
  room : out.payloadUsed ≤ payloadPoolSize
  pool : out.payloadPool.toList.take out.payloadUsed = payloads cs ++ bs
  noError : out.error = none

/-- The parse stopped at `s` behind these commands. What it stored for the
command it was in stays behind the counted entries. -/
structure Rejected (out : NeoTxn) (cs : List TwiCmd) (base : Text) (s : Stop) : Prop where
  count : out.count = cs.length
  free : cs.length ≤ neoParserMaxCmds
  cmds : out.cmds.toList.take cs.length = encodeAll 0 cs
  used : payloadTotal cs ≤ out.payloadUsed
  room : out.payloadUsed ≤ payloadPoolSize
  pool : out.payloadPool.toList.take (payloadTotal cs) = payloads cs
  error : out.error = some s.msg
  errorPos : out.errorPos = wrapInt (base.length - s.rest.length)

/-- A chain has as many entries as commands. By induction on the commands. -/
@[simp] theorem encodeAll_length (off : Nat) (cs : List TwiCmd) :
    (encodeAll off cs).length = cs.length := by
  induction cs generalizing off with
  | nil => rfl
  | cons c cs ih => simp [encodeAll, ih]

/-- The entries of two chains in a row: those of the second begin behind the payloads of
the first. -/
theorem encodeAll_append (off : Nat) (left right : List TwiCmd) :
    encodeAll off (left ++ right) =
      encodeAll off left ++ encodeAll (off + payloadTotal left) right := by
  induction left generalizing off with
  | nil => simp [encodeAll, payloadTotal]
  | cons c cs ih =>
    simp only [List.cons_append, encodeAll, ih, payloadTotal, List.map_cons, List.sum_cons,
      Nat.add_assoc]

/-- The payload bytes are as many as the commands' lengths say. -/
@[simp] theorem payloads_length (cs : List TwiCmd) : (payloads cs).length = payloadTotal cs := by
  simp [payloads, payloadTotal, List.length_flatMap]

/-- The payloads of two chains in a row are those of the first and then of the
second. -/
@[simp] theorem payloads_append (left right : List TwiCmd) :
    payloads (left ++ right) = payloads left ++ payloads right := by
  simp [payloads]

/-- Entries and payload bytes determine the commands they encode: the entries give every
command but its payload, and the payload's length, which cuts it out of the bytes. -/
theorem encodeAll_injective {off : Nat} {cs ds : List TwiCmd} (same : encodeAll off cs = encodeAll off ds)
    (content : payloads cs = payloads ds) : cs = ds := by
  induction cs generalizing off ds with
  | nil =>
    have none := congrArg List.length same
    rw [encodeAll_length, encodeAll_length] at none
    exact (List.length_eq_zero_iff.mp none.symm).symm
  | cons c cs ih =>
    cases ds with
    | nil => cases same
    | cons d ds =>
      obtain ⟨head, tail⟩ := List.cons.inj same
      rw [payloads, payloads, List.flatMap_cons, List.flatMap_cons] at content
      have long : c.payload.length = d.payload.length := by
        cases c <;> cases d <;> simp_all [TwiCmd.encode, TwiCmd.payload]
      obtain ⟨payload, behind⟩ := List.append_inj content long
      have first : c = d := by
        cases c <;> cases d <;> simp_all [TwiCmd.encode, TwiCmd.payload]
      rw [long] at tail
      rw [first, ih tail behind]

/-- A record holds one chain at most, since its entries and its pool determine the
commands. -/
theorem decoded_unique {out : NeoTxn} {cs ds : List TwiCmd} (first : Decoded out cs)
    (second : Decoded out ds) : cs = ds := by
  have many : cs.length = ds.length := first.count.symm.trans second.count
  have entries := first.cmds.symm.trans second.cmds
  have same := (List.append_inj entries (by rw [encodeAll_length, encodeAll_length, many])).1
  exact encodeAll_injective same (first.pool.symm.trans second.pool)

/-! ## Decoders -/

/-- The cursor of a parse that stops at `s`. -/
def Cur.stop (c : Cur) (s : Stop) : Cur :=
  { c with
    p := s.rest
    out := { c.out with error := some s.msg, errorPos := wrapInt (c.base.length - s.rest.length) } }

/-- Perform a scan at the cursor, without storing anything. -/
def ofScan {α : Type} (scan : Scan α) : Parser α := fun c =>
  match scan c.p with
  | .ok (value, rest) => .ok value { c with p := rest }
  | .error s => .err (c.stop s)

/-- A scan that succeeds returns its value and moves the cursor behind what it used
up. -/
theorem ofScan_ok {α : Type} {scan : Scan α} {c : Cur} {value : α} {rest : Text}
    (scanned : scan c.p = .ok (value, rest)) : ofScan scan c = .ok value { c with p := rest } := by
  simp [ofScan, scanned]

/-- A scan that stops ends the parse with its message at its place. -/
theorem ofScan_error {α : Type} {scan : Scan α} {c : Cur} {s : Stop}
    (stopped : scan c.p = .error s) : ofScan scan c = .err (c.stop s) := by
  simp [ofScan, stopped]

/-- Reporting an error stops the parse at the cursor. -/
@[simp] theorem errAt_apply {α : Type} (msg : Msg) (c : Cur) :
    (errAt msg : Parser α) c = .err (c.stop ⟨msg, c.p⟩) := rfl

/-- The character at the cursor, the NUL at the end of the text. -/
def here (p : Text) : UInt8 := p.headD 0

/-- Reading at the cursor is always possible: at the end of the text the NUL is read. -/
theorem rd_here (p : Text) : rd p 0 = some (here p) := by
  cases p <;> rfl

/-- Looking at the cursor returns the character there and changes nothing. -/
@[simp] theorem peek_apply (c : Cur) : peek 0 c = .ok (here c.p) c := by
  simp [peek, Run.read, rd_here]

/-- Looking one character further returns that one, where the cursor is not at the
end. -/
theorem peek_second (base : Text) (ch : UInt8) (p : Text) (out : NeoTxn) :
    peek 1 ⟨base, ch :: p, out⟩ = .ok (here p) ⟨base, ch :: p, out⟩ := by
  cases p <;> rfl

/-- Advancing passes one character of a text that has one left. -/
@[simp] theorem advance_apply (base : Text) (ch : UInt8) (p : Text) (out : NeoTxn) :
    advance ⟨base, ch :: p, out⟩ = .ok ⟨⟩ ⟨base, p, out⟩ := rfl

/-- The test for the end of the string is whether nothing is left of it. -/
@[simp] theorem eos_apply (c : Cur) : eos c = .ok c.p.isEmpty c := rfl

/-- Skipping `_` at the cursor moves it behind them. -/
@[simp] theorem skipBarsHere_apply (c : Cur) :
    skipBarsHere c = .ok ⟨⟩ { c with p := skipBars c.p } := rfl

/-- Moving the cursor changes nothing but the cursor. -/
@[simp] theorem moveTo_apply (p : Text) (c : Cur) : moveTo p c = .ok ⟨⟩ { c with p := p } := rfl

/-- The lookahead's short-circuit order keeps its reads at or before the NUL: it looks
further only behind a character that is there. -/
theorem atCmdStart_total (p : Text) : atCmdStart p = some (startsCmd p) := by
  match p with
  | [] => rfl
  | [first] => by_cases h : first = 'h' <;> simp [atCmdStart, startsCmd, h]
  | [first, second] =>
    by_cases h : first = 'h' <;> by_cases a : second = 'A' <;> simp [atCmdStart, startsCmd, h, a]
  | first :: second :: d :: rest =>
    by_cases h : first = 'h' <;> by_cases a : second = 'A' <;>
      simp [atCmdStart, startsCmd, h, a, Bool.or_assoc]

/-- The lookahead at the cursor never faults and changes nothing. -/
@[simp] theorem cmdStartHere_apply (c : Cur) : cmdStartHere c = .ok (startsCmd c.p) c := by
  simp [cmdStartHere, Run.read, atCmdStart_total]

/-- Decoding a hex byte performs its scan: two digits are read, or the message is that
of the scan. -/
theorem decodeHexByte_scan : decodeHexByte = ofScan scanHexByte := by
  funext c
  obtain ⟨base, p, out⟩ := c
  match p with
  | [] => simp [decodeHexByte, ofScan, scanHexByte, here, isHex]
  | [high] =>
    have nul : isHex 0 = false := by decide
    by_cases first : isHex high = true <;>
      simp [decodeHexByte, ofScan, scanHexByte, here, first, peek_second, nul]
  | high :: low :: rest =>
    by_cases first : isHex high = true <;> by_cases second : isHex low = true <;>
      simp [decodeHexByte, ofScan, scanHexByte, here, first, second, peek_second]

/-- Decoding an ASCII byte performs its scan. -/
theorem decodeAsciiByte_scan : decodeAsciiByte = ofScan scanAsciiByte := by
  funext c
  obtain ⟨base, p, out⟩ := c
  cases p with
  | nil => simp [decodeAsciiByte, ofScan, scanAsciiByte, here, isAlnumLat]
  | cons ch rest =>
    by_cases alnum : isAlnumLat ch = true <;>
      simp [decodeAsciiByte, ofScan, scanAsciiByte, here, alnum]

/-- What a scan gives does not depend on the characters already passed. -/
theorem ofScan_congr {α : Type} {scan scan' : Scan α} {p q : Text} (base : Text) (out : NeoTxn)
    (same : scan p = scan' q) : ofScan scan ⟨base, p, out⟩ = ofScan scan' ⟨base, q, out⟩ := by
  unfold ofScan
  simp only [same]
  cases scan' q <;> rfl

/-- Induct over the scan's characters; every round of the loop uses one up. -/
theorem decodeBinLoop_scan (left : Nat) (v : UInt8) (p : Text) (fuel bits : Nat) (base : Text)
    (out : NeoTxn) (counted : bits + left = 8) (enough : p.length < fuel) :
    decodeBinLoop fuel bits v ⟨base, p, out⟩ = ofScan (scanBits left v) ⟨base, p, out⟩ := by
  fun_induction scanBits left v p generalizing fuel bits with
  | case1 v p =>
    obtain ⟨fuel, rfl⟩ : ∃ more, fuel = more + 1 := ⟨fuel - 1, by omega⟩
    have full : ¬ bits < 8 := by omega
    simp [decodeBinLoop, ofScan, scanBits, full]
  | case2 left v =>
    obtain ⟨fuel, rfl⟩ : ∃ more, fuel = more + 1 := ⟨fuel - 1, by omega⟩
    have open_ : bits < 8 := by omega
    simp [decodeBinLoop, ofScan, scanBits, open_, here, isBin]
  | case3 left v rest ih =>
    obtain ⟨fuel, rfl⟩ : ∃ more, fuel = more + 1 := ⟨fuel - 1, by omega⟩
    have open_ : bits < 8 := by omega
    have next := ih fuel bits counted (by simpa using enough)
    have passed : ofScan (scanBits (left + 1) v) ⟨base, byte '_' :: rest, out⟩ =
        ofScan (scanBits (left + 1) v) ⟨base, rest, out⟩ :=
      ofScan_congr base out (by simp only [scanBits, if_true])
    rw [passed]
    simpa [decodeBinLoop, open_, here] using next
  | case4 left v ch rest bar bit ih =>
    obtain ⟨fuel, rfl⟩ : ∃ more, fuel = more + 1 := ⟨fuel - 1, by omega⟩
    have open_ : bits < 8 := by omega
    have next := ih fuel (bits + 1) (by omega) (by simpa using enough)
    have passed : ofScan (scanBits (left + 1) v) ⟨base, ch :: rest, out⟩ =
        ofScan (scanBits left (shiftBit v ch)) ⟨base, rest, out⟩ :=
      ofScan_congr base out (by simp only [scanBits, bar, bit, if_true, if_false])
    rw [passed]
    simpa [decodeBinLoop, open_, here, bar, bit] using next
  | case5 left v ch rest bar bit =>
    obtain ⟨fuel, rfl⟩ : ∃ more, fuel = more + 1 := ⟨fuel - 1, by omega⟩
    have open_ : bits < 8 := by omega
    simp [decodeBinLoop, ofScan, scanBits, open_, here, bar, bit]

/-- Decoding a binary byte performs its scan, with all eight bits to go. -/
theorem decodeBinByte_scan : decodeBinByte = ofScan scanBinByte := by
  funext c
  exact decodeBinLoop_scan 8 0 c.p (c.p.length + 1) 0 c.base c.out rfl (Nat.lt_succ_self _)

/-! ## Groups -/

/-- The test for a further hex byte looks at the next character only. -/
@[simp] theorem hexMore_apply (c : Cur) : hexMore c = .ok (headIs isHex c.p) c := by
  obtain ⟨base, p, out⟩ := c
  cases p <;> simp [hexMore, headIs, here, isHex, byte]

/-- The test for a further ASCII byte looks at the next character only. -/
@[simp] theorem asciiMore_apply (c : Cur) : asciiMore c = .ok (headIs isAlnumLat c.p) c := by
  obtain ⟨base, p, out⟩ := c
  cases p <;> simp [asciiMore, headIs, here, isAlnumLat, byte]

/-- A character that is neither a bit nor `_` is itself what lies ahead. -/
@[simp] theorem binMore_apply (c : Cur) : binMore c = .ok (binAhead c.p) c := by
  obtain ⟨base, p, out⟩ := c
  cases p with
  | nil => simp [binMore, binAhead, headIs, skipBars, here, isBin]
  | cons ch rest =>
    have nul : ∀ q : Text, headIs isBin q = isBin (here q) := by
      intro q
      cases q <;> simp [headIs, here, isBin]
    have reached : here (ch :: rest) = ch := rfl
    by_cases bar : ch = '_'
    · subst bar
      simp [binMore, binAhead, reached, Run.read, rd_here, nul]
    · by_cases bit : isBin ch = true
      · simp [binMore, binAhead, reached, bar, bit, skipBars, Run.read, headIs]
      · simp [binMore, binAhead, reached, bar, bit, skipBars, headIs]

/-! ## Storing -/

/-- Writing the entry behind a table's first commands replaces just that entry. -/
theorem set_middle {α : Type} (before after : List α) (old new : α) (index : Nat)
    (reached : before.length = index) :
    (before ++ old :: after).set index new = before ++ new :: after := by
  subst reached
  simp

/-- Writing the next free place extends the written part by one value. -/
theorem take_set_next {α : Type} (values : List α) (next : Nat) (value : α)
    (inside : next < values.length) :
    (values.set next value).take (next + 1) = values.take next ++ [value] := by
  rw [List.take_add_one, List.take_set_of_le (Nat.le_refl next)]
  simp [inside]

/-- The open command's entry as the table holds it, with the length of the payload so
far. -/
theorem filling_entry {out : NeoTxn} {cs : List TwiCmd} {entry : NeoCmd} {bs : List UInt8}
    (filling : Filling out cs entry bs) :
    out.cmds[cs.length]? = some { entry with payloadLen := bs.length } := by
  rw [← Vector.getElem?_toList, filling.cmds]
  simp

/-- A store into the open command's entry that leaves the payload length alone. -/
theorem modifyCmd_filling {out : NeoTxn} {cs : List TwiCmd} {entry : NeoCmd} {bs : List UInt8}
    (filling : Filling out cs entry bs) (base p : Text) (change : NeoCmd → NeoCmd)
    (next : NeoCmd)
    (changes : ∀ len, change { entry with payloadLen := len } = { next with payloadLen := len }) :
    ∃ out', modifyCmd cs.length change ⟨base, p, out⟩ = .ok ⟨⟩ ⟨base, p, out'⟩ ∧
      Filling out' cs next bs := by
  have inside : cs.length < neoParserMaxCmds := filling.free
  obtain ⟨_, stored⟩ := Vector.getElem?_eq_some_iff.mp (filling_entry filling)
  refine ⟨{ out with cmds := out.cmds.set cs.length { next with payloadLen := bs.length } },
    ?_, ?_⟩
  · simp [modifyCmd, Run.update, inside, stored, changes]
  · have table : (out.cmds.set cs.length { next with payloadLen := bs.length }).toList =
        encodeAll 0 cs ++ { next with payloadLen := bs.length } ::
          List.replicate (neoParserMaxCmds - (cs.length + 1)) ({} : NeoCmd) := by
      rw [Vector.toList_set, filling.cmds, set_middle _ _ _ _ _ (encodeAll_length 0 cs)]
    exact { filling with cmds := table }

/-- Opening a command: its entry is the first unused one, still zero, so the change
starts from nothing. -/
theorem modifyCmd_decoded {out : NeoTxn} {cs : List TwiCmd} (decoded : Decoded out cs)
    (free : cs.length < neoParserMaxCmds) (base p : Text) (change : NeoCmd → NeoCmd)
    (empty : (change {}).payloadLen = 0) :
    ∃ out', modifyCmd cs.length change ⟨base, p, out⟩ = .ok ⟨⟩ ⟨base, p, out'⟩ ∧
      Filling out' cs (change {}) [] := by
  have unused : out.cmds.toList = encodeAll 0 cs ++
      ({} : NeoCmd) :: List.replicate (neoParserMaxCmds - (cs.length + 1)) ({} : NeoCmd) := by
    rw [decoded.cmds, ← List.replicate_succ]
    congr 2
    omega
  have filling : Filling out cs {} [] :=
    { count := decoded.count, free := free, cmds := unused, used := decoded.used
      len := Nat.zero_le _, room := decoded.room
      pool := by rw [decoded.pool, List.append_nil], noError := decoded.noError }
  obtain ⟨_, stored⟩ := Vector.getElem?_eq_some_iff.mp (filling_entry filling)
  refine ⟨{ out with cmds := out.cmds.set cs.length (change {}) }, ?_, ?_⟩
  · have zero : out.cmds[cs.length] = {} := stored
    simp [modifyCmd, Run.update, free, zero]
  · have table : (out.cmds.set cs.length (change {})).toList = encodeAll 0 cs ++
        change {} :: List.replicate (neoParserMaxCmds - (cs.length + 1)) ({} : NeoCmd) := by
      rw [Vector.toList_set, filling.cmds, set_middle _ _ _ _ _ (encodeAll_length 0 cs)]
    have same : { change {} with payloadLen := ([] : List UInt8).length } = change {} := by
      rw [List.length_nil]
      generalize change {} = made at empty
      cases made
      simp only at empty
      rw [empty]
    exact { filling with cmds := by rw [table, same] }

/-- The length test, the pool test, and the two stores of one payload byte. -/
theorem pushPayload_filling {c : Cur} {cs : List TwiCmd} {entry : NeoCmd} {bs : List UInt8}
    (filling : Filling c.out cs entry bs) (b : UInt8) :
    (neoParserPayloadMax ≤ bs.length →
      pushPayload cs.length b c = .err (c.stop ⟨.payloadExceeds, c.p⟩)) ∧
    (bs.length < neoParserPayloadMax → payloadPoolSize ≤ c.out.payloadUsed →
      pushPayload cs.length b c = .err (c.stop ⟨.poolExhausted, c.p⟩)) ∧
    (bs.length < neoParserPayloadMax → c.out.payloadUsed < payloadPoolSize →
      ∃ out, pushPayload cs.length b c = .ok ⟨⟩ { c with out := out } ∧
        Filling out cs entry (bs ++ [b])) := by
  have inside : cs.length < neoParserMaxCmds := filling.free
  have stored := filling_entry filling
  obtain ⟨_, present⟩ := Vector.getElem?_eq_some_iff.mp stored
  refine ⟨?_, ?_, ?_⟩
  · intro full
    simp [pushPayload, Run.read, stored, full]
  · intro room full
    simp [pushPayload, Run.read, stored, Nat.not_le.mpr room, full]
  · intro room free
    have grown : (bs.length + 1) % 65536 = bs.length + 1 := by
      have bound : neoParserPayloadMax = 1022 := rfl
      omega
    refine ⟨{ c.out with
      payloadPool := c.out.payloadPool.set c.out.payloadUsed b
      payloadUsed := c.out.payloadUsed + 1
      cmds := c.out.cmds.set cs.length { entry with payloadLen := bs.length + 1 } }, ?_, ?_⟩
    · simp [pushPayload, Run.read, Nat.not_le.mpr room, Nat.not_le.mpr free, Run.update, free,
        modifyCmd, inside, present, grown]
    · refine
        { count := filling.count
          free := inside
          cmds := ?_
          used := ?_
          len := ?_
          room := free
          pool := ?_
          noError := filling.noError }
      · rw [Vector.toList_set, filling.cmds, set_middle _ _ _ _ _ (encodeAll_length 0 cs)]
        simp
      · change c.out.payloadUsed + 1 = _
        rw [filling.used, List.length_append, List.length_singleton, Nat.add_assoc]
      · simpa using room
      · change (c.out.payloadPool.set c.out.payloadUsed b).toList.take (c.out.payloadUsed + 1) = _
        rw [Vector.toList_set, take_set_next _ _ _ (by simpa using free), filling.pool,
          List.append_assoc]

/-- The table has a place for every command it holds. -/
theorem decoded_free {out : NeoTxn} {cs : List TwiCmd} (decoded : Decoded out cs) :
    cs.length ≤ neoParserMaxCmds := by
  have size := congrArg List.length decoded.cmds
  simp only [Vector.length_toList, List.length_append, encodeAll_length] at size
  omega

/-- A parse that stops between commands leaves those decoded, and its message and
place. -/
theorem decoded_rejected {out : NeoTxn} {cs : List TwiCmd} (decoded : Decoded out cs)
    (base p : Text) (s : Stop) : Rejected ((⟨base, p, out⟩ : Cur).stop s).out cs base s where
  count := decoded.count
  free := decoded_free decoded
  cmds := by
    change out.cmds.toList.take cs.length = _
    rw [decoded.cmds, List.take_left' (encodeAll_length 0 cs)]
  used := decoded.used.ge
  room := decoded.room
  pool := by rw [← decoded.used]; exact decoded.pool
  error := rfl
  errorPos := rfl

/-- A parse that stops inside a command leaves those decoded before it; what it stored
for the open one does not count. -/
theorem filling_rejected {out : NeoTxn} {cs : List TwiCmd} {entry : NeoCmd} {bs : List UInt8}
    (filling : Filling out cs entry bs) (base p : Text) (s : Stop) :
    Rejected ((⟨base, p, out⟩ : Cur).stop s).out cs base s where
  count := filling.count
  free := filling.free.le
  cmds := by
    change out.cmds.toList.take cs.length = _
    rw [filling.cmds, List.take_left' (encodeAll_length 0 cs)]
  used := by
    change payloadTotal cs ≤ out.payloadUsed
    rw [filling.used]
    exact Nat.le_add_right _ _
  room := filling.room
  pool := by
    change out.payloadPool.toList.take (payloadTotal cs) = _
    have shorter : payloadTotal cs ≤ out.payloadUsed := by
      rw [filling.used]
      exact Nat.le_add_right _ _
    rw [← Nat.min_eq_left shorter, ← List.take_take, filling.pool,
      List.take_left' (payloads_length cs)]
  error := rfl
  errorPos := rfl

/-- How a routine that stores decoded bytes ends: with them appended to the open
command, or stopped by a full store or by the scan itself. -/
def Fills {α : Type} (base : Text) (out : NeoTxn) (cs : List TwiCmd) (entry : NeoCmd)
    (bs : List UInt8) (g : Group) (value : α) (result : Outcome Fault Cur α) : Prop :=
  match (capacity bs.length out.payloadUsed g.items).bind fun _ => g.stop with
  | .ok rest => ∃ next, result = .ok value ⟨base, rest, next⟩ ∧
      Filling next cs entry (bs ++ g.bytes)
  | .error s => ∃ c, result = .err c ∧ Rejected c.out cs base s

/-- One more byte stored in front of what a scan stores: both limits have been tested
for it. -/
theorem fills_cons {α : Type} {base rest : Text} {out next : NeoTxn} {cs : List TwiCmd}
    {entry : NeoCmd} {bs : List UInt8} {b : UInt8} {g : Group} {value : α}
    {result : Outcome Fault Cur α} (room : ¬ bs.length ≥ neoParserPayloadMax)
    (free : ¬ out.payloadUsed ≥ payloadPoolSize) (used : next.payloadUsed = out.payloadUsed + 1)
    (after : Fills base next cs entry (bs ++ [b]) g value result) :
    Fills base out cs entry bs ⟨(b, rest) :: g.items, g.stop⟩ value result := by
  unfold Fills at after ⊢
  simpa only [capacity, room, free, used, if_false, Group.bytes, List.map_cons,
    List.length_append, List.length_singleton, List.append_assoc, List.singleton_append] using after

/-- Stores fill up in order, so a capacity test splits at any point. -/
theorem capacity_append (len used : Nat) (left right : List (UInt8 × Text)) :
    capacity len used (left ++ right) =
      (capacity len used left).bind fun _ =>
        capacity (len + left.length) (used + left.length) right := by
  fun_induction capacity len used left with
  | case1 len used => rfl
  | case2 len used b rest items full => simp [capacity, full, Except.bind]
  | case3 len used b rest items room full => simp [capacity, room, full, Except.bind]
  | case4 len used b rest items room free ih =>
    simp only [List.cons_append, capacity, room, free, if_false, ih, List.length_cons]
    congr 2
    funext _
    congr 1 <;> omega

/-- A group has as many bytes as items. -/
theorem group_bytes_length (g : Group) : g.bytes.length = g.items.length := by
  simp [Group.bytes]

/-- Run one storing routine behind another: what the two scans store is stored in order,
and the first that stops ends both. -/
theorem fills_andThen {α β : Type} {base : Text} {out : NeoTxn} {cs : List TwiCmd}
    {entry : NeoCmd} {bs : List UInt8} {g : Group} {value : α} {result : Outcome Fault Cur α}
    {nextGroup : Text → Group} {final : β} {next : α → Parser β}
    (filling : Filling out cs entry bs)
    (first : Fills base out cs entry bs g value result)
    (second : ∀ rest mid, g.stop = .ok rest → Filling mid cs entry (bs ++ g.bytes) →
      Fills base mid cs entry (bs ++ g.bytes) (nextGroup rest) final
        (next value ⟨base, rest, mid⟩)) :
    Fills base out cs entry bs (g.andThen nextGroup) final (result.andThen next) := by
  unfold Fills at first
  cases stored : capacity bs.length out.payloadUsed g.items with
  | error s =>
    simp only [stored, Except.bind] at first
    obtain ⟨c, rfl, rejected⟩ := first
    have full : capacity bs.length out.payloadUsed (g.andThen nextGroup).items = .error s := by
      unfold Group.andThen
      split
      · exact stored
      · simp [capacity_append, stored, Except.bind]
    simp only [Fills, full, Except.bind]
    exact ⟨c, rfl, rejected⟩
  | ok _ =>
    simp only [stored, Except.bind] at first
    cases ended : g.stop with
    | error s =>
      simp only [ended] at first
      obtain ⟨c, rfl, rejected⟩ := first
      simp only [Fills, Group.andThen, ended, stored, Except.bind]
      exact ⟨c, rfl, rejected⟩
    | ok rest =>
      simp only [ended] at first
      obtain ⟨mid, rfl, filled⟩ := first
      have after := second rest mid ended filled
      have used : mid.payloadUsed = out.payloadUsed + g.items.length := by
        rw [filled.used, filling.used, List.length_append, group_bytes_length, Nat.add_assoc]
      simp only [Fills, Group.andThen, ended, capacity_append, stored, Except.bind, Group.bytes,
        List.map_append, List.length_append, List.length_map, used, List.append_assoc,
        Run.andThen_ok] at after ⊢
      exact after

section Group

variable {more : Parser Bool} {moreText : Text → Bool} {decode : Parser UInt8} {decoder : Decoder}

/-- A group's loop stores its run. Induct over the run: each round decodes one
byte and either finds a store full or leaves the shorter rest to the loop. -/
theorem groupLoop_fills (again : ∀ c, more c = .ok (moreText c.p) c)
    (decodes : decode = ofScan decoder.scan) (base p : Text) (out : NeoTxn) (cs : List TwiCmd)
    (entry : NeoCmd) (bs : List UInt8) (fuel got : Nat) (filling : Filling out cs entry bs)
    (enough : p.length < fuel) :
    Fills base out cs entry bs (scanRun moreText decoder p)
      (got + (scanRun moreText decoder p).items.length)
      (groupLoop more decode cs.length fuel got ⟨base, p, out⟩) := by
  fun_induction scanRun moreText decoder p generalizing out bs fuel got with
  | case1 p goes s stopped =>
    obtain ⟨fuel, rfl⟩ : ∃ left, fuel = left + 1 := ⟨fuel - 1, by omega⟩
    have step : groupLoop more decode cs.length (fuel + 1) got ⟨base, p, out⟩ =
        .err ((⟨base, p, out⟩ : Cur).stop s) := by
      simp [groupLoop, again, goes, decodes, ofScan, stopped]
    rw [step]
    exact ⟨_, rfl, filling_rejected filling base p s⟩
  | case2 p goes b rest scanned tail ih =>
    obtain ⟨fuel, rfl⟩ : ∃ left, fuel = left + 1 := ⟨fuel - 1, by omega⟩
    have shrinks := decoder.consumes.ok p b rest scanned
    have step : groupLoop more decode cs.length (fuel + 1) got ⟨base, p, out⟩ =
        (pushPayload cs.length b ⟨base, rest, out⟩).andThen fun _ =>
          groupLoop more decode cs.length fuel (got + 1) := by
      simp [groupLoop, again, goes, decodes, ofScan, scanned]
    have pushed := pushPayload_filling (c := ⟨base, rest, out⟩) filling b
    rw [step]
    by_cases full : bs.length ≥ neoParserPayloadMax
    · rw [pushed.1 full]
      simp only [Fills, capacity, full, if_true]
      exact ⟨_, rfl, filling_rejected filling base rest _⟩
    · by_cases poolFull : out.payloadUsed ≥ payloadPoolSize
      · rw [pushed.2.1 (by omega) poolFull]
        simp only [Fills, capacity, full, poolFull, if_true, if_false]
        exact ⟨_, rfl, filling_rejected filling base rest _⟩
      · obtain ⟨next, stored, grown⟩ := pushed.2.2 (by omega) (by simpa using poolFull)
        have used : next.payloadUsed = out.payloadUsed + 1 := by
          rw [grown.used, filling.used, List.length_append, List.length_singleton, Nat.add_assoc]
        have after := ih next (bs ++ [b]) fuel (got + 1) grown (by have := shrinks.2; omega)
        rw [stored, List.length_cons, ← Nat.add_assoc, Nat.add_right_comm]
        exact fills_cons full poolFull used after
  | case3 p goes =>
    obtain ⟨fuel, rfl⟩ : ∃ left, fuel = left + 1 := ⟨fuel - 1, by omega⟩
    have step : groupLoop more decode cs.length (fuel + 1) got ⟨base, p, out⟩ =
        .ok got ⟨base, p, out⟩ := by
      simp [groupLoop, again, goes]
    rw [step]
    exact ⟨out, rfl, by simpa [Group.bytes] using filling⟩

/-- The test for an empty group is a scan behind the group that stores nothing. -/
theorem orEmpty_eq (g : Group) (empty : Msg) :
    g.orEmpty empty = g.andThen fun rest =>
      ⟨[], if g.items.length = 0 then .error ⟨empty, rest⟩ else .ok rest⟩ := by
  obtain ⟨items, stop⟩ := g
  cases items <;> cases stop <;> simp [Group.orEmpty, Group.andThen]

/-- The body of a group stores its run and then tests for an empty one. -/
theorem groupBody_fills (again : ∀ c, more c = .ok (moreText c.p) c)
    (decodes : decode = ofScan decoder.scan) (empty : Msg) (base p : Text) (out : NeoTxn)
    (cs : List TwiCmd) (entry : NeoCmd) (bs : List UInt8) (filling : Filling out cs entry bs) :
    Fills base out cs entry bs ((scanRun moreText decoder p).orEmpty empty) ⟨⟩
      (groupBody more decode empty cs.length ⟨base, p, out⟩) := by
  have loop := groupLoop_fills again decodes base p out cs entry bs (p.length + 1) 0 filling
    (Nat.lt_succ_self _)
  rw [Nat.zero_add] at loop
  rw [orEmpty_eq]
  refine fills_andThen filling loop ?_
  intro rest next ended filled
  by_cases none_ : (scanRun moreText decoder p).items.length = 0
  · simp only [none_, if_true]
    exact ⟨_, errAt_apply empty _, filling_rejected filled base rest _⟩
  · simp only [none_, if_false]
    exact ⟨next, rfl, by simpa [Group.bytes] using filled⟩

end Group

/-- A hex group stores what its scan decodes. -/
theorem hexGroup_fills {out : NeoTxn} {cs : List TwiCmd} {entry : NeoCmd} {bs : List UInt8}
    (filling : Filling out cs entry bs) (base p : Text) :
    Fills base out cs entry bs (scanHexGroup p) ⟨⟩ (hexGroup cs.length ⟨base, p, out⟩) :=
  groupBody_fills hexMore_apply decodeHexByte_scan .emptyHex base p out cs entry bs filling

/-- A binary group stores what its scan decodes. -/
theorem binGroup_fills {out : NeoTxn} {cs : List TwiCmd} {entry : NeoCmd} {bs : List UInt8}
    (filling : Filling out cs entry bs) (base p : Text) :
    Fills base out cs entry bs (scanBinGroup p) ⟨⟩ (binGroup cs.length ⟨base, p, out⟩) :=
  groupBody_fills binMore_apply decodeBinByte_scan .emptyBinary base p out cs entry bs filling

/-- The end of an ASCII group stores nothing: it passes a `_`, or finds that none is
needed. -/
theorem asciiEnd_fills {out : NeoTxn} {cs : List TwiCmd} {entry : NeoCmd} {bs : List UInt8}
    (filling : Filling out cs entry bs) (base p : Text) :
    Fills base out cs entry bs ⟨[], scanAsciiEnd p⟩ ⟨⟩ (asciiEnd ⟨base, p, out⟩) := by
  have kept : Filling out cs entry (bs ++ []) := by simpa using filling
  cases p with
  | nil => exact ⟨out, by simp [asciiEnd, here], kept⟩
  | cons ch rest =>
    by_cases bar : ch = '_'
    · simp only [Fills, capacity, scanAsciiEnd, bar, if_true, Except.bind]
      exact ⟨out, by simp [asciiEnd, here], kept⟩
    · by_cases start : startsCmd (ch :: rest) = true
      · simp only [Fills, capacity, scanAsciiEnd, bar, start, if_true, if_false, Except.bind]
        exact ⟨out, by simp [asciiEnd, here, bar, start], kept⟩
      · simp only [Fills, capacity, scanAsciiEnd, bar, start, if_false, Except.bind]
        exact ⟨_, by simp [asciiEnd, here, bar, start],
          filling_rejected filling base (ch :: rest) _⟩

/-- An ASCII group stores what its scan decodes, and then takes its end. -/
theorem asciiGroup_fills {out : NeoTxn} {cs : List TwiCmd} {entry : NeoCmd} {bs : List UInt8}
    (filling : Filling out cs entry bs) (base p : Text) :
    Fills base out cs entry bs (scanAsciiGroup p) ⟨⟩
      (asciiGroup cs.length ⟨base, p, out⟩) := by
  have decodes : decodeAsciiByte = ofScan asciiDecoder.scan := decodeAsciiByte_scan
  have body := groupBody_fills asciiMore_apply decodes .emptyAscii base p out cs entry bs filling
  have ended : scanAsciiGroup p =
      ((scanRun (headIs isAlnumLat) asciiDecoder p).orEmpty .emptyAscii).andThen fun rest =>
        ⟨[], scanAsciiEnd rest⟩ := by
    unfold scanAsciiGroup Group.andThen
    generalize (scanRun (headIs isAlnumLat) asciiDecoder p).orEmpty .emptyAscii = g
    obtain ⟨items, stop⟩ := g
    cases stop <;> simp [Except.bind]
  rw [ended]
  exact fills_andThen filling body fun rest next _ filled => asciiEnd_fills filled base rest

/-- A group behind its selector stores what its scan decodes. There is one case for each
selector. -/
theorem formatGroup_fills {out : NeoTxn} {cs : List TwiCmd} {entry : NeoCmd} {bs : List UInt8}
    (filling : Filling out cs entry bs) (base : Text) (fc : UInt8) (p : Text) :
    Fills base out cs entry bs (scanGroup fc p) ⟨⟩
      (formatGroup cs.length fc ⟨base, fc :: p, out⟩) := by
  by_cases hex : fc = 'h'
  · simpa [formatGroup, scanGroup, hex] using hexGroup_fills filling base p
  · by_cases bin : fc = 'b'
    · simpa [formatGroup, scanGroup, hex, bin] using binGroup_fills filling base p
    · by_cases ascii : fc = 'a'
      · simpa [formatGroup, scanGroup, hex, bin, ascii] using asciiGroup_fills filling base p
      · simp only [Fills, scanGroup, hex, bin, ascii, if_false, capacity, Except.bind]
        exact ⟨_, by simp [formatGroup, hex, bin, ascii],
          filling_rejected filling base (fc :: p) _⟩

/-- The payload loop stores the payload's scan. Induct over the scan: each round
passes a `_` or a whole group, and either uses up at least one character. -/
theorem writePayloadLoop_fills (base p : Text) (out : NeoTxn) (cs : List TwiCmd)
    (entry : NeoCmd) (bs : List UInt8) (fuel : Nat) (filling : Filling out cs entry bs)
    (enough : p.length < fuel) :
    Fills base out cs entry bs (scanPayload p) ⟨⟩
      (writePayloadLoop cs.length fuel ⟨base, p, out⟩) := by
  have kept : ∀ {out bs}, Filling out cs entry bs → Filling out cs entry (bs ++ []) := by
    intro out bs filling
    simpa using filling
  -- one round of the loop at a group, whether the group stops or not
  have round : ∀ fuel fc p out, ¬ startsCmd (fc :: p) = true → fc ≠ byte '_' →
      writePayloadLoop cs.length (fuel + 1) ⟨base, fc :: p, out⟩ =
        (formatGroup cs.length fc ⟨base, fc :: p, out⟩).andThen fun _ =>
          writePayloadLoop cs.length fuel := by
    intro fuel fc p out start bar
    simp [writePayloadLoop, start, bar, here]
  fun_induction scanPayload p generalizing out bs fuel with
  | case1 =>
    obtain ⟨fuel, rfl⟩ : ∃ left, fuel = left + 1 := ⟨fuel - 1, by omega⟩
    exact ⟨out, by simp [writePayloadLoop], kept filling⟩
  | case2 fc p start =>
    obtain ⟨fuel, rfl⟩ : ∃ left, fuel = left + 1 := ⟨fuel - 1, by omega⟩
    exact ⟨out, by simp [writePayloadLoop, start], kept filling⟩
  | case3 p start ih =>
    obtain ⟨fuel, rfl⟩ : ∃ left, fuel = left + 1 := ⟨fuel - 1, by omega⟩
    have step : writePayloadLoop cs.length (fuel + 1) ⟨base, byte '_' :: p, out⟩ =
        writePayloadLoop cs.length fuel ⟨base, p, out⟩ := by
      simp [writePayloadLoop, start, here]
    rw [step]
    exact ih out bs fuel filling (by simpa using enough)
  | case4 fc p start bar s ended =>
    obtain ⟨fuel, rfl⟩ : ∃ left, fuel = left + 1 := ⟨fuel - 1, by omega⟩
    have stopped : Group.mk (scanGroup fc p).items (.error s) =
        (scanGroup fc p).andThen scanPayload := by
      simp [Group.andThen, ended]
    rw [round _ _ _ _ start bar, stopped]
    refine fills_andThen filling (formatGroup_fills filling base fc p) ?_
    intro rest next reached
    simp [ended] at reached
  | case5 fc p start bar rest ended more ih =>
    obtain ⟨fuel, rfl⟩ : ∃ left, fuel = left + 1 := ⟨fuel - 1, by omega⟩
    have continued : Group.mk ((scanGroup fc p).items ++ more.items) more.stop =
        (scanGroup fc p).andThen scanPayload := by
      simp [Group.andThen, ended, more]
    have shorter : rest.length ≤ p.length := (scanGroup_ok fc p rest ended).length_le
    rw [round _ _ _ _ start bar, continued]
    refine fills_andThen filling (formatGroup_fills filling base fc p) ?_
    intro reached next same filled
    obtain rfl : rest = reached := by simpa [ended] using same
    exact ih next _ fuel filled (by simp only [List.length_cons] at enough; omega)

/-! ## Commands -/

/-- The test of the source, turned round: a character is a selector unless it differs
from all three letters. -/
theorem isSelector_iff (fc : UInt8) :
    isSelector fc = true ↔ ¬ (fc ≠ 'h' ∧ fc ≠ 'b' ∧ fc ≠ 'a') := by
  simp only [isSelector, Bool.or_eq_true, beq_iff_eq]
  tauto

/-- The cases follow the selector, and behind `a` whether a `_` closes the byte. -/
theorem parseOneByteAny_scan : parseOneByteAny = ofScan scanAddr := by
  funext c
  obtain ⟨base, p, out⟩ := c
  simp only [parseOneByteAny, ofScan, scanAddr, Run.bind_apply, skipBarsHere_apply,
    Run.andThen_ok, peek_apply]
  generalize skipBars p = q
  cases q with
  | nil => simp [here, Cur.stop]
  | cons fc rest =>
    by_cases hex : fc = 'h'
    · subst hex
      cases scanned : scanHexByte rest with
      | error s =>
        simp [here, isSelector, scanAddrByte, decodeHexByte_scan, ofScan, scanned, Cur.stop]
      | ok r => simp [here, isSelector, scanAddrByte, decodeHexByte_scan, ofScan, scanned]
    · by_cases bin : fc = 'b'
      · subst bin
        cases scanned : scanBinByte rest with
        | error s =>
          simp [here, isSelector, scanAddrByte, decodeBinByte_scan, ofScan, scanned, Cur.stop]
        | ok r => simp [here, isSelector, scanAddrByte, decodeBinByte_scan, ofScan, scanned]
      · by_cases ascii : fc = 'a'
        · subst ascii
          cases scanned : scanAsciiByte rest with
          | error s =>
            simp [here, isSelector, scanAddrByte, decodeAsciiByte_scan, ofScan, scanned, Cur.stop]
          | ok r =>
            obtain ⟨b, tail⟩ := r
            cases tail with
            | nil => simp [here, isSelector, scanAddrByte, decodeAsciiByte_scan, ofScan, scanned]
            | cons ch after =>
              by_cases bar : ch = '_' <;>
                simp [here, isSelector, scanAddrByte, decodeAsciiByte_scan, ofScan, scanned, bar]
        · simp [here, isSelector, hex, bin, ascii, Cur.stop]

/-- Every digit taken counts once, up to the third. By induction on how many are
left. -/
theorem countLoop_scan (left n digits : Nat) (base p : Text) (out : NeoTxn)
    (counted : digits + left = 3) :
    countLoop (left + 1) n digits ⟨base, p, out⟩ =
      .ok ((scanCount left n p).1, digits + (p.length - (scanCount left n p).2.length))
        ⟨base, (scanCount left n p).2, out⟩ := by
  fun_induction scanCount left n p generalizing digits with
  | case1 n p =>
    have full : ¬ digits < 3 := by omega
    simp [countLoop, full]
  | case2 left n => simp [countLoop, here, isHex]
  | case3 left n ch rest digit ih =>
    have room : digits < 3 := by omega
    have next := ih (digits + 1) (by omega)
    have shorter := (scanCount_suffix left (n <<< 4 ||| (hexVal ch).toNat) rest).length_le
    have step : countLoop (left + 2) n digits ⟨base, ch :: rest, out⟩ =
        countLoop (left + 1) (n <<< 4 ||| (hexVal ch).toNat) (digits + 1) ⟨base, rest, out⟩ := by
      rw [countLoop]
      simp [here, digit, room]
    rw [step, next, List.length_cons]
    congr 2
    omega
  | case4 left n ch rest digit => simp [countLoop, here, digit]

/-- How a routine that ends a command goes: the scan's value is stored and the
text behind it reached, or the scan's error is reported. -/
def Reads {α : Type} (base : Text) (cs : List TwiCmd) (scanned : Except Stop (α × Text))
    (stored : α → NeoTxn → Prop) (result : Outcome Fault Cur PUnit) : Prop :=
  match scanned with
  | .ok (value, rest) => ∃ next, result = .ok ⟨⟩ ⟨base, rest, next⟩ ∧ stored value next
  | .error s => ∃ c, result = .err c ∧ Rejected c.out cs base s

/-- The format of a read is read as it is scanned, and stored in the open command. -/
theorem readFormat_reads {out : NeoTxn} {cs : List TwiCmd} {entry : NeoCmd}
    (filling : Filling out cs entry []) (n : Nat) (base p : Text) :
    Reads base cs (scanFmt n p) (fun fmt next => Filling next cs { entry with rdFmt := fmt } [])
      (readFormat cs.length n ⟨base, p, out⟩) := by
  have store : ∀ fmt, ∃ next, modifyCmd cs.length (fun entry => { entry with rdFmt := fmt })
      ⟨base, p, out⟩ = .ok ⟨⟩ ⟨base, p, next⟩ ∧ Filling next cs { entry with rdFmt := fmt } [] :=
    fun fmt => modifyCmd_filling filling base p _ _ fun _ => rfl
  cases p with
  | nil =>
    by_cases zero : n = 0
    · obtain ⟨next, stored, filled⟩ := store .none
      simp only [Reads, scanFmt, zero, if_true]
      exact ⟨next, by simp [readFormat, here, stored], filled⟩
    · simp only [Reads, scanFmt, zero, if_false]
      exact ⟨_, by simp [readFormat, here, zero], filling_rejected filling base [] _⟩
  | cons ff rest =>
    by_cases selected : isSelector ff = true
    · obtain ⟨next, stored, filled⟩ := store (fmtOf ff)
      have chosen := (isSelector_iff ff).mp selected
      simp only [Reads, scanFmt, selected, if_true]
      exact ⟨next, by simp only [readFormat, Run.bind_apply, peek_apply, Run.andThen_ok, here,
        List.headD_cons, Run.ite_apply, chosen, if_false, stored, advance_apply], filled⟩
    · have other := not_not.mp (mt (isSelector_iff ff).mpr selected)
      by_cases zero : n = 0
      · obtain ⟨next, stored, filled⟩ := store .none
        simp only [Reads, scanFmt, selected, zero, if_true]
        exact ⟨next, by simp [readFormat, here, other, stored], filled⟩
      · simp only [Reads, scanFmt, selected, zero, if_false]
        exact ⟨_, by simp [readFormat, here, other, zero],
          filling_rejected filling base (ff :: rest) _⟩

/-- The count and the format of a read are read as they are scanned, and stored in the
open command. -/
theorem readExplicit_reads {out : NeoTxn} {cs : List TwiCmd} {entry : NeoCmd}
    (filling : Filling out cs entry []) (base p : Text) :
    Reads base cs (scanTailBody p)
      (fun tail next => Filling next cs { entry with rdLen := tail.1, rdFmt := tail.2 } [])
      (readExplicit cs.length ⟨base, p, out⟩) := by
  have counted := countLoop_scan 3 0 0 base p out rfl
  have suffix := scanCount_suffix 3 0 p
  unfold readExplicit scanTailBody
  generalize scanCount 3 0 p = count at counted suffix ⊢
  obtain ⟨n, q⟩ := count
  have digits : 0 + (p.length - q.length) = 0 ↔ q.length = p.length := by
    have := suffix.length_le
    simp only at this
    omega
  simp only [Run.bind_apply, counted, Run.andThen_ok, Run.ite_apply, digits]
  by_cases missing : q.length = p.length
  · simp only [missing, if_true]
    exact ⟨_, errAt_apply _ _, filling_rejected filling base q _⟩
  · by_cases exceeds : n > readCountMax
    · simp only [missing, exceeds, if_true, if_false]
      exact ⟨_, errAt_apply _ _, filling_rejected filling base q _⟩
    · have narrow : n % 2 ^ 16 = n := by
        have bound : readCountMax = 1022 := rfl
        omega
      obtain ⟨mid, stored, filled⟩ := modifyCmd_filling filling base q
        (fun entry => { entry with rdLen := n % 2 ^ 16 }) { entry with rdLen := n }
        (fun _ => by rw [narrow])
      have format := readFormat_reads filled n base q
      simp only [missing, exceeds, if_false, stored, Run.andThen_ok]
      cases chosen : scanFmt n q with
      | error s =>
        rw [chosen] at format
        obtain ⟨c, failed, rejected⟩ := format
        exact ⟨c, by simp [failed], rejected⟩
      | ok result =>
        obtain ⟨fmt, r⟩ := result
        rw [chosen] at format
        obtain ⟨next, read, formatted⟩ := format
        simp only [Run.bind_apply, read, Run.andThen_ok]
        cases r with
        | nil => exact ⟨_, by simp [readClose, here], filling_rejected formatted base [] _⟩
        | cons ch rest =>
          by_cases bar : ch = '_'
          · simp only [scanClose, bar, if_true]
            exact ⟨next, by simp [readClose, here], formatted⟩
          · simp only [scanClose, bar, if_false]
            exact ⟨_, by simp [readClose, here, bar],
              filling_rejected formatted base (ch :: rest) _⟩

/-- The tail of a read is read as it is scanned; where it is left out, nothing is to be
received and no format is stored. -/
theorem parseReadTail_reads {out : NeoTxn} {cs : List TwiCmd} {entry : NeoCmd}
    (filling : Filling out cs entry []) (base p : Text) :
    Reads base cs (scanTail p)
      (fun tail next => Filling next cs { entry with rdLen := tail.1, rdFmt := tail.2 } [])
      (parseReadTail cs.length ⟨base, p, out⟩) := by
  unfold parseReadTail scanTail
  simp only [Run.bind_apply, skipBarsHere_apply, Run.andThen_ok, eos_apply]
  generalize skipBars p = q
  cases q with
  | nil =>
    obtain ⟨next, stored, filled⟩ := modifyCmd_filling filling base []
      (fun entry => { entry with rdLen := 0, rdFmt := .none })
      { entry with rdLen := 0, rdFmt := .none } (fun _ => rfl)
    exact ⟨next, by simp [stored], filled⟩
  | cons ch rest =>
    by_cases start : startsCmd (ch :: rest) = true
    · obtain ⟨next, stored, filled⟩ := modifyCmd_filling filling base (ch :: rest)
        (fun entry => { entry with rdLen := 0, rdFmt := .none })
        { entry with rdLen := 0, rdFmt := .none } (fun _ => rfl)
      simp only [start, if_true]
      exact ⟨next, by simp [start, stored], filled⟩
    · by_cases explicit : ch = 'h'
      · subst explicit
        simpa [start, here] using readExplicit_reads filling base rest
      · simp only [start, explicit, if_false]
        exact ⟨_, by simp [start, here, explicit], filling_rejected filling base (ch :: rest) _⟩

/-- Counting the open command: its entry and stored bytes are the command's, so the
record holds one command more. -/
theorem countUp_decoded {out : NeoTxn} {cs : List TwiCmd} {entry : NeoCmd} {bs : List UInt8}
    (filling : Filling out cs entry bs) (cmd : TwiCmd) (payload : cmd.payload = bs)
    (encoded : { entry with payloadLen := bs.length } = cmd.encode (payloadTotal cs))
    (base p : Text) :
    ∃ next, countUp ⟨base, p, out⟩ = .ok ⟨⟩ ⟨base, p, next⟩ ∧ Decoded next (cs ++ [cmd]) := by
  refine ⟨{ out with count := out.count + 1 }, rfl, ?_⟩
  refine
    { count := ?_
      cmds := ?_
      used := ?_
      room := filling.room
      pool := ?_
      noError := filling.noError }
  · change out.count + 1 = _
    rw [filling.count, List.length_append, List.length_singleton]
  · change out.cmds.toList = _
    rw [filling.cmds, encoded, encodeAll_append, Nat.zero_add, encodeAll, encodeAll,
      List.length_append, List.length_singleton, List.append_assoc, List.singleton_append]
  · change out.payloadUsed = _
    rw [filling.used, payloadTotal_append, payloadTotal_cons, payload, payloadTotal_nil,
      Nat.add_zero]
  · change out.payloadPool.toList.take out.payloadUsed = _
    rw [filling.pool, payloads_append]
    simp [payloads, payload]

/-- A read is parsed behind its address as it is scanned, and then counted. -/
theorem readTail_counted {out : NeoTxn} {cs : List TwiCmd} {ctrl addr : UInt8}
    (filling : Filling out cs
      { kind := .twiRead, ctrlByte := ctrl, internalAddr := addr, payloadOff := payloadTotal cs } [])
    (base p : Text) :
    Reads base cs
      (match scanTail p with
        | .error s => .error s
        | .ok ((len, fmt), rest) => .ok (.read ctrl addr len fmt, rest))
      (fun cmd next => Decoded next (cs ++ [cmd]))
      ((parseReadTail cs.length ⟨base, p, out⟩).andThen fun _ => countUp) := by
  have tail := parseReadTail_reads filling base p
  cases scanned : scanTail p with
  | error s =>
    rw [scanned] at tail
    obtain ⟨c, failed, rejected⟩ := tail
    exact ⟨c, by simp [failed], rejected⟩
  | ok result =>
    obtain ⟨⟨len, fmt⟩, rest⟩ := result
    rw [scanned] at tail
    obtain ⟨next, read, tailed⟩ := tail
    obtain ⟨final, counted, done⟩ := countUp_decoded tailed (.read ctrl addr len fmt) rfl
      (by simp [TwiCmd.encode]) base rest
    exact ⟨final, by simp [read, counted], done⟩

/-- A write is parsed behind its address as it is scanned, its payload stored byte by
byte, and then counted. -/
theorem writePayload_counted {out : NeoTxn} {cs : List TwiCmd} {ctrl addr : UInt8}
    (filling : Filling out cs
      { kind := .twiWrite, ctrlByte := ctrl, internalAddr := addr, payloadOff := payloadTotal cs } [])
    (base p : Text) :
    Reads base cs
      (match capacity 0 (payloadTotal cs) (scanPayload p).items with
        | .error s => .error s
        | .ok () =>
          match (scanPayload p).stop with
          | .error s => .error s
          | .ok rest => .ok (.write ctrl addr (scanPayload p).bytes, rest))
      (fun cmd next => Decoded next (cs ++ [cmd]))
      ((parseWritePayload cs.length ⟨base, p, out⟩).andThen fun _ => countUp) := by
  have payload := writePayloadLoop_fills base p out cs _ [] (p.length + 1) filling
    (Nat.lt_succ_self _)
  have used : out.payloadUsed = payloadTotal cs := by
    rw [filling.used, List.length_nil, Nat.add_zero]
  have written : parseWritePayload cs.length ⟨base, p, out⟩ =
      writePayloadLoop cs.length (p.length + 1) ⟨base, p, out⟩ := rfl
  simp only [Fills, List.length_nil, used, List.nil_append] at payload
  rw [written]
  cases fits : capacity 0 (payloadTotal cs) (scanPayload p).items with
  | error s =>
    simp only [fits, Except.bind] at payload
    obtain ⟨c, failed, rejected⟩ := payload
    exact ⟨c, by simp [failed], rejected⟩
  | ok _ =>
    simp only [fits, Except.bind] at payload
    cases scanned : (scanPayload p).stop with
    | error s =>
      simp only [scanned] at payload
      obtain ⟨c, failed, rejected⟩ := payload
      exact ⟨c, by simp [failed], rejected⟩
    | ok rest =>
      simp only [scanned] at payload
      obtain ⟨next, filledUp, complete⟩ := payload
      obtain ⟨final, counted, done⟩ := countUp_decoded complete
        (.write ctrl addr (scanPayload p).bytes) rfl (by simp [TwiCmd.encode]) base rest
      exact ⟨final, by simp [filledUp, counted], done⟩

/-- A command is parsed behind its start as it is scanned: control byte, address, and
the payload or the tail. -/
theorem cmdBody_reads {out : NeoTxn} {cs : List TwiCmd} (decoded : Decoded out cs)
    (free : cs.length < neoParserMaxCmds) (base p : Text) :
    Reads base cs (scanCmdBody (payloadTotal cs) p)
      (fun cmd next => Decoded next (cs ++ [cmd])) (cmdBody ⟨base, p, out⟩) := by
  unfold cmdBody scanCmdBody
  simp only [Run.bind_apply, decodeHexByte_scan]
  cases first : scanHexByte p with
  | error s =>
    rw [ofScan_error (c := ⟨base, p, out⟩) first]
    exact ⟨_, rfl, decoded_rejected decoded base p s⟩
  | ok result =>
    obtain ⟨ctrl, q⟩ := result
    rw [ofScan_ok (c := ⟨base, p, out⟩) first]
    have narrow : out.payloadUsed % 2 ^ 16 = payloadTotal cs := by
      have bound : out.payloadUsed ≤ 2044 := decoded.room
      rw [← decoded.used]
      omega
    obtain ⟨opened, stored, filling⟩ := modifyCmd_decoded decoded free base q
      (fun entry => { entry with
        ctrlByte := ctrl
        payloadOff := payloadTotal cs
        payloadLen := 0
        rdLen := 0
        rdFmt := .none
        kind := if isReadCtrl ctrl then .twiRead else .twiWrite }) rfl
    simp only [Run.andThen_ok, Run.bind_apply, Run.get_apply, decoded.count, narrow, stored,
      parseOneByteAny_scan]
    cases second : scanAddr q with
    | error s =>
      rw [ofScan_error (c := ⟨base, q, opened⟩) second]
      exact ⟨_, rfl, filling_rejected filling base q s⟩
    | ok result =>
      obtain ⟨addr, r⟩ := result
      rw [ofScan_ok (c := ⟨base, q, opened⟩) second]
      obtain ⟨addressed, storedAddr, filled⟩ := modifyCmd_filling filling base r
        (fun entry => { entry with internalAddr := addr })
        { kind := if isReadCtrl ctrl then .twiRead else .twiWrite, ctrlByte := ctrl,
          internalAddr := addr, payloadOff := payloadTotal cs } (fun _ => rfl)
      simp only [Run.andThen_ok, Run.bind_apply, storedAddr, Run.ite_apply]
      by_cases isRead : isReadCtrl ctrl = true
      · rw [if_pos isRead] at filled ⊢
        rw [if_pos isRead]
        exact readTail_counted filled base r
      · rw [if_neg isRead] at filled ⊢
        rw [if_neg isRead]
        exact writePayload_counted filled base r

/-- One command is parsed as it is scanned, behind the commands already decoded. -/
theorem parseOneTwiCmd_reads {out : NeoTxn} {cs : List TwiCmd} (decoded : Decoded out cs)
    (base p : Text) :
    Reads base cs (scanCmd cs.length (payloadTotal cs) p)
      (fun cmd next => Decoded next (cs ++ [cmd])) (parseOneTwiCmd ⟨base, p, out⟩) := by
  unfold parseOneTwiCmd scanCmd
  simp only [Run.bind_apply, Run.get_apply, Run.andThen_ok, Run.ite_apply, decoded.count,
    cmdStartHere_apply]
  by_cases full : cs.length ≥ neoParserMaxCmds
  · simp only [full, if_true]
    exact ⟨_, errAt_apply _ _, decoded_rejected decoded base p _⟩
  · by_cases start : startsCmd p = true
    · cases p with
      | nil => simp [startsCmd] at start
      | cons ch rest =>
        simpa [full, start] using cmdBody_reads decoded (Nat.lt_of_not_le full) base rest
    · simp only [full, start, if_false, Bool.not_false, if_true]
      exact ⟨_, errAt_apply _ _, decoded_rejected decoded base p _⟩

/-! ## Lines -/

/-- How a chain ends: with its commands decoded behind the earlier ones, or
rejected behind those completed. -/
def Chains (base : Text) (cs : List TwiCmd) (scanned : List TwiCmd × Option Stop)
    (result : Outcome Fault Cur PUnit) : Prop :=
  match scanned with
  | (more, none) => ∃ q next, result = .ok ⟨⟩ ⟨base, q, next⟩ ∧ Decoded next (cs ++ more)
  | (more, some s) => ∃ c, result = .err c ∧ Rejected c.out (cs ++ more) base s

/-- The chain loop ends where nothing but `_` is left. -/
theorem chainLoop_end (fuel : Nat) (base p : Text) (out : NeoTxn) (behind : skipBars p = []) :
    ∃ q, chainLoop (fuel + 1) ⟨base, p, out⟩ = .ok ⟨⟩ ⟨base, q, out⟩ := by
  cases p with
  | nil => exact ⟨[], by simp [chainLoop]⟩
  | cons ch rest => exact ⟨[], by simp [chainLoop, behind]⟩

/-- A round of the chain loop parses a command behind the `_`, or reports what is no
command. -/
theorem chainLoop_step (fuel : Nat) (base p : Text) (out : NeoTxn) (ch : UInt8) (rest : Text)
    (behind : skipBars p = ch :: rest) :
    chainLoop (fuel + 1) ⟨base, p, out⟩ =
      if startsCmd (ch :: rest) then
        (parseOneTwiCmd ⟨base, ch :: rest, out⟩).andThen fun _ => chainLoop fuel
      else errAt .garbage ⟨base, ch :: rest, out⟩ := by
  cases p with
  | nil => simp [skipBars] at behind
  | cons first tail =>
    by_cases start : startsCmd (ch :: rest) = true <;> simp [chainLoop, behind, start]

/-- The chain loop performs the chain's scan. Each round of the loop parses one
command, which uses up at least one character. -/
theorem chainLoop_chains (count used : Nat) (base p : Text) (out : NeoTxn) (cs : List TwiCmd)
    (fuel : Nat) (counted : count = cs.length) (total : used = payloadTotal cs)
    (decoded : Decoded out cs) (enough : p.length < fuel) :
    Chains base cs (scanChain count used p) (chainLoop fuel ⟨base, p, out⟩) := by
  fun_induction scanChain count used p generalizing out cs fuel with
  | case1 count used p behind =>
    obtain ⟨fuel, rfl⟩ : ∃ left, fuel = left + 1 := ⟨fuel - 1, by omega⟩
    obtain ⟨q, ended⟩ := chainLoop_end fuel base p out behind
    exact ⟨q, out, ended, by simpa using decoded⟩
  | case2 count used p ch rest behind start s scanned =>
    obtain ⟨fuel, rfl⟩ : ∃ left, fuel = left + 1 := ⟨fuel - 1, by omega⟩
    have parsed := parseOneTwiCmd_reads decoded base (ch :: rest)
    rw [← counted, ← total, scanned] at parsed
    obtain ⟨c, failed, rejected⟩ := parsed
    rw [chainLoop_step fuel base p out ch rest behind, if_pos start, failed]
    exact ⟨c, rfl, by simpa using rejected⟩
  | case3 count used p ch rest behind start cmd q scanned more ih =>
    obtain ⟨fuel, rfl⟩ : ∃ left, fuel = left + 1 := ⟨fuel - 1, by omega⟩
    have parsed := parseOneTwiCmd_reads decoded base (ch :: rest)
    have shrinks := (scanCmd_consumes count used).ok _ cmd q scanned
    have bars := (behind ▸ skipBars_suffix p : ch :: rest <:+ p).length_le
    rw [← counted, ← total, scanned] at parsed
    obtain ⟨next, done, extended⟩ := parsed
    have after := ih next (cs ++ [cmd]) fuel (by simp [counted]) (by simp [total]) extended
      (by have := shrinks.2; omega)
    rw [chainLoop_step fuel base p out ch rest behind, if_pos start, done]
    change Chains base cs (cmd :: more.1, more.2) (chainLoop fuel ⟨base, q, next⟩)
    change Chains base (cs ++ [cmd]) more (chainLoop fuel ⟨base, q, next⟩) at after
    obtain ⟨cmds, ended⟩ := more
    cases ended <;> simpa [Chains] using after
  | case4 count used p ch rest behind start =>
    obtain ⟨fuel, rfl⟩ : ∃ left, fuel = left + 1 := ⟨fuel - 1, by omega⟩
    rw [chainLoop_step fuel base p out ch rest behind, if_neg start]
    exact ⟨_, errAt_apply _ _, by simpa using decoded_rejected decoded base (ch :: rest) _⟩

/-- The record holds exactly one special command. -/
structure Special (out : NeoTxn) (entry : NeoCmd) : Prop where
  count : out.count = 1
  cmds : out.cmds.toList = entry :: List.replicate (neoParserMaxCmds - 1) ({} : NeoCmd)
  used : out.payloadUsed = 0
  noError : out.error = none

/-- The read `q[i]` sees the character at the `i`-th end of the text. -/
theorem rd_drop (q : Text) (i : Nat) (inside : i ≤ q.length) : rd q i = some (here (q.drop i)) := by
  induction q generalizing i with
  | nil =>
    obtain rfl : i = 0 := Nat.le_zero.mp inside
    rfl
  | cons ch rest ih =>
    cases i with
    | zero => rfl
    | succ i => simpa using ih i (Nat.le_of_succ_le_succ inside)

/-- The digits are read by index, so the scan of the text from `i` on decides. -/
theorem outLoop_scan (left : Nat) (v : UInt8) (q : Text) (i : Nat) (c : Cur)
    (inside : i ≤ q.length) :
    outLoop q left i v c =
      match scanOutBits left v (q.drop i) with
      | .ok (value, _) => .ok value c
      | .error s => .err (c.stop s) := by
  induction left generalizing i v with
  | zero => rfl
  | succ left ih =>
    simp only [outLoop, Run.bind_apply, Run.read, rd_drop q i inside, Run.andThen_ok,
      Run.ite_apply, moveTo_apply, errAt_apply]
    cases remaining : q.drop i with
    | nil => simp [here, scanOutBits, Cur.stop]
    | cons ch rest =>
      have next : q.drop (i + 1) = rest := by
        rw [← List.drop_drop, remaining, List.drop_one, List.tail_cons]
      have further : i + 1 ≤ q.length := by
        have size := congrArg List.length remaining
        simp only [List.length_drop, List.length_cons] at size
        omega
      have reached : here (ch :: rest) = ch := rfl
      by_cases bit : isBin ch = true
      · have digit : ¬ (ch ≠ '0' ∧ ch ≠ '1') := by
          rintro ⟨zero, one⟩
          simp [isBin, zero, one] at bit
        rw [reached, if_neg digit, ih _ (i + 1) further, next]
        simp only [scanOutBits, bit, if_true]
      · have other : ch ≠ '0' ∧ ch ≠ '1' := by
          simpa [isBin] using bit
        rw [reached, if_pos other]
        simp only [scanOutBits, bit]
        rfl

/-- The text behind the digits that were scanned, which the source finds by index. -/
theorem scanOutBits_rest (left : Nat) (v : UInt8) (p : Text) (value : UInt8) (rest : Text)
    (scanned : scanOutBits left v p = .ok (value, rest)) : rest = p.drop left := by
  fun_induction scanOutBits left v p with
  | case1 v p =>
    cases scanned
    rfl
  | case2 v left => simp at scanned
  | case3 v left ch rest bit ih =>
    rw [List.drop_succ_cons]
    exact ih scanned
  | case4 v left ch rest bit => simp at scanned

/-- A special command becomes the only entry of the record. -/
theorem appendSpecial_decoded {out : NeoTxn} (decoded : Decoded out []) (base p : Text)
    (change : NeoCmd → NeoCmd) (entry : NeoCmd) (makes : change {} = entry) :
    ∃ next, appendSpecial change ⟨base, p, out⟩ = .ok ⟨⟩ ⟨base, p, next⟩ ∧
      Special next entry := by
  have empty : out.cmds.toList = List.replicate neoParserMaxCmds ({} : NeoCmd) := decoded.cmds
  have count : out.count = 0 := decoded.count
  have inside : 0 < neoParserMaxCmds := by decide
  have zero : out.cmds[0] = {} := by
    rw [← Vector.getElem_toList (by simpa using inside)]
    simp [empty]
  refine ⟨{ out with cmds := out.cmds.set 0 entry, count := 0 + 1 }, ?_, ?_⟩
  · simp [appendSpecial, modifyCmd, Run.update, countUp, count, inside, zero, makes]
  · refine
      { count := rfl
        cmds := ?_
        used := decoded.used
        noError := decoded.noError }
    rw [Vector.toList_set, empty]
    rfl

/-- The four forms are tried in the scan's order, each behind the failure of the
ones before it. -/
theorem parseSpecial_reads {out : NeoTxn} (decoded : Decoded out []) (base p : Text) :
    match scanSpecial p with
    | .ok entry => ∃ q next, parseSpecial ⟨base, p, out⟩ = .ok ⟨⟩ ⟨base, q, next⟩ ∧
        Special next entry
    | .error s => ∃ c, parseSpecial ⟨base, p, out⟩ = .err c ∧ Rejected c.out [] base s := by
  have stores := appendSpecial_decoded decoded base
  unfold parseSpecial scanSpecial
  simp only [Run.bind_apply, Run.get_apply, Run.andThen_ok]
  cases asOut : strPrefix p (bytes "out_") with
  | some q =>
    simp only [Run.bind_apply, outLoop_scan 8 0 q 0 _ (Nat.zero_le _), List.drop_zero]
    cases digits : scanOutBits 8 0 q with
    | error s => exact ⟨_, rfl, decoded_rejected decoded base p s⟩
    | ok result =>
      obtain ⟨v, rest⟩ := result
      obtain rfl := scanOutBits_rest 8 0 q v rest digits
      simp only [Run.andThen_ok]
      by_cases closed : strtailEmpty (q.drop 8) = true
      · obtain ⟨next, stored, special⟩ := stores (q.drop 8)
          (fun entry => { entry with kind := .gpioOut, gpioByte := v }) _ rfl
        simpa [closed] using ⟨_, next, stored, special⟩
      · simp only [closed, Bool.not_false, if_true]
        exact ⟨_, errAt_apply _ _, decoded_rejected decoded base (q.drop 8) _⟩
  | none =>
    obtain ⟨input, storedInput, inputOnly⟩ := stores p (fun _ => { kind := .gpioIn }) _ rfl
    obtain ⟨help, storedHelp, helpOnly⟩ := stores p (fun _ => { kind := .help }) _ rfl
    have option : ∀ end_ : Option Text, end_.any strtailEmpty = (end_.filter strtailEmpty).isSome := by
      intro end_
      cases end_ with
      | none => rfl
      | some q => by_cases closed : strtailEmpty q = true <;> simp [closed]
    simp only [option]
    cases asInp : (strPrefix p (bytes "inp")).filter strtailEmpty with
    | some q => exact ⟨q, input, by simp [storedInput], inputOnly⟩
    | none =>
      cases asHelp : (strPrefix p (bytes "help")).filter strtailEmpty with
      | some q => exact ⟨q, help, by simp [storedHelp], helpOnly⟩
      | none =>
        have mark : here p = byte '?' ↔ headIs (· == '?') p = true := by
          cases p <;> simp [here, headIs]
        simp only [Run.bind_apply, peek_apply, Run.andThen_ok, Run.ite_apply, mark]
        simp only [Option.isSome_none, Bool.false_eq_true, false_or, if_false]
        by_cases asMark : headIs (· == '?') p = true ∧ strtailEmpty (p.drop 1) = true
        · simp only [if_pos asMark]
          exact ⟨p.drop 1, help, by simp [storedHelp], helpOnly⟩
        · simp only [if_neg asMark]
          exact ⟨_, errAt_apply _ _, decoded_rejected decoded base p _⟩

/-- What an accepted line leaves in the record. -/
def Parsed.LeftIn (out : NeoTxn) : Parsed → Prop
  | .chain cs => Decoded out cs
  | .special entry => Special out entry

/-- The parser is total: it accepts or rejects every line as the scan does, and
leaves the decoded commands in the record, whatever that held before. -/
theorem neoParseTransaction_scan (line : CString) (out : NeoTxn) :
    match scanLine (skipBlanks line.chars) with
    | .ok parsed => ∃ next, neoParseTransaction (some line) out = .ok (0, next) ∧
        parsed.LeftIn next
    | .error (cs, s) => ∃ next, neoParseTransaction (some line) out = .ok (-1, next) ∧
        Rejected next cs (skipBlanks line.chars) s := by
  have fresh : Decoded { out with
      count := 0
      payloadUsed := 0
      error := none
      errorPos := 0
      cmds := Vector.replicate neoParserMaxCmds {} } [] :=
    { count := rfl, cmds := rfl, used := rfl, room := Nat.zero_le _, pool := rfl, noError := rfl }
  unfold neoParseTransaction
  simp only
  generalize skipBlanks line.chars = p
  unfold scanLine
  by_cases empty : p = []
  · subst empty
    have origin : wrapInt (([] : Text).length - ([] : Text).length) = 0 := by decide
    have rejected := decoded_rejected fresh [] [] ⟨.emptyTransaction, []⟩
    simp only [Cur.stop, origin] at rejected
    exact ⟨_, rfl, rejected⟩
  · by_cases start : startsCmd p = true
    · have chain := chainLoop_chains 0 0 p p _ [] (p.length + 1) rfl rfl fresh
        (Nat.lt_succ_self _)
      simp only [parseLine, Run.bind_apply, cmdStartHere_apply, Run.andThen_ok, Run.ite_apply,
        Run.get_apply, empty, start, if_true, if_false, List.isEmpty_iff]
      generalize scanChain 0 0 p = scanned at chain ⊢
      obtain ⟨cs, ended⟩ := scanned
      cases ended with
      | none =>
        obtain ⟨q, next, accepted, left⟩ := chain
        exact ⟨next, by rw [accepted], left⟩
      | some s =>
        obtain ⟨c, failed, rejected⟩ := chain
        exact ⟨c.out, by rw [failed], rejected⟩
    · have special := parseSpecial_reads fresh p p
      simp only [parseLine, Run.bind_apply, cmdStartHere_apply, Run.andThen_ok, Run.ite_apply,
        empty, start, if_false, List.isEmpty_iff]
      generalize scanSpecial p = scanned at special ⊢
      cases scanned with
      | ok entry =>
        obtain ⟨q, next, accepted, left⟩ := special
        exact ⟨next, by simp [accepted], left⟩
      | error s =>
        obtain ⟨c, failed, rejected⟩ := special
        exact ⟨c.out, by simp [failed], rejected⟩

end NeoSfp
