import NeoSfp.BusDiscipline
import NeoSfp.Executor
import NeoSfp.ParserScan

/-!
# What the executor does

Each routine of the executor is an equation between states: the calls it appends
are fixed by the commands alone, and only what it prints depends on what the
hardware answered. The calls of a chain are those of its commands one after the
other, each a frame of its own.
-/

namespace NeoSfp

open Checked

/-! ## Expected calls and reports -/

/-- The transfers that receive `len` bytes: all but the last are acknowledged. -/
def receiveTransfers (len : Nat) : List HalCall :=
  (List.range len).map fun i => .twiTrans 0xFF (if i + 1 = len then 0 else 1)

/-- The transfers that send bytes. -/
def sendTransfers (vs : List UInt8) : List HalCall := vs.map fun v => .twiTrans v 0

/-- The transfers of a command in order. -/
def TwiCmd.transfers : TwiCmd → List HalCall
  | .write ctrl addr payload => sendTransfers (ctrl :: addr :: payload)
  | .read ctrl addr len _ => sendTransfers [ctrl, addr] ++ receiveTransfers len

/-- All calls of a command: its transfers between a START and a STOP. -/
def TwiCmd.frame (c : TwiCmd) : List HalCall := .twiStart :: (c.transfers ++ [.twiStop])

def ackMark (ack : Int) : UInt8 := if ack = 0 then '+' else '-'

def hexText (b : UInt8) : List UInt8 := [hexChar (b >>> 4), hexChar b]

/-- The bits `left - 1` down to 0. -/
def bitsText (b : UInt8) : Nat → List UInt8
  | 0 => []
  | left + 1 => (if b.toNat.testBit left then byte '1' else byte '0') :: bitsText b left

def byteText (b : UInt8) : NeoFmt → List UInt8
  | .hex => hexText b
  | .bin => bitsText b 8
  | .ascii => [if b ≥ 0x20 ∧ b < 0x7F then b else byte '.']
  | .none => hexText b

/-- What is printed for bytes sent behind a history of calls. -/
def sendReport (hal : Hal) : List HalCall → List UInt8 → List UInt8
  | _, [] => []
  | h, v :: vs =>
    hexText v ++ ackMark (hal.twiTrans h v 0).1 :: sendReport hal (h ++ [.twiTrans v 0]) vs

/-- What is printed for one received byte. -/
def receivedText (fmt : NeoFmt) (last : Bool) (answer : Int × UInt8) : List UInt8 :=
  if last = false ∧ answer.1 ≠ 0 then [byte '-'] else byteText answer.2 fmt ++ [byte '-']

/-- What is printed for the last `left` received bytes. -/
def receiveReport (hal : Hal) (fmt : NeoFmt) : List HalCall → Nat → List UInt8
  | _, 0 => []
  | h, left + 1 =>
    let hostAck := if left = 0 then 0 else 1
    receivedText fmt (left == 0) (hal.twiTrans h 0xFF hostAck) ++
      receiveReport hal fmt (h ++ [.twiTrans 0xFF hostAck]) left

/-- The line printed for a command, without its newline. -/
def TwiCmd.report (hal : Hal) (h : List HalCall) : TwiCmd → List UInt8
  | .write ctrl addr payload => sendReport hal (h ++ [.twiStart]) (ctrl :: addr :: payload)
  | .read ctrl addr len fmt =>
    sendReport hal (h ++ [.twiStart]) [ctrl, addr] ++
      receiveReport hal fmt (h ++ .twiStart :: sendTransfers [ctrl, addr]) len

/-- The lines printed for a chain. -/
def chainReport (hal : Hal) : List HalCall → List TwiCmd → List UInt8
  | _, [] => []
  | h, c :: cs => c.report hal h ++ byte '\n' :: chainReport hal (h ++ c.frame) cs

/-! ## Printers -/

/-- A call is recorded behind the others and changes nothing else. -/
@[simp] theorem call_apply (c : HalCall) (s : ExecState) :
    call c s = .ok ⟨⟩ { s with calls := s.calls ++ [c] } := rfl

/-- A character printed is the output it adds. -/
@[simp] theorem neoPutc_apply (c : UInt8) (s : ExecState) :
    neoPutc c s = .ok ⟨⟩ { s with output := s.output ++ [c] } := rfl

/-- A text printed is the output it adds. -/
@[simp] theorem neoPuts_apply (text : List UInt8) (s : ExecState) :
    neoPuts text s = .ok ⟨⟩ { s with output := s.output ++ text } := rfl

/-- A byte in hex prints two digits. -/
@[simp] theorem printHexByte_apply (b : UInt8) (s : ExecState) :
    printHexByte b s = .ok ⟨⟩ { s with output := s.output ++ hexText b } := by
  simp [printHexByte, hexText]

/-- The bits are printed from the highest down. By induction on how many are left. -/
@[simp] theorem printBits_apply (b : UInt8) (left : Nat) (s : ExecState) :
    printBits b left s = .ok ⟨⟩ { s with output := s.output ++ bitsText b left } := by
  induction left generalizing s with
  | zero => simp [printBits, bitsText]
  | succ left ih => simp [printBits, bitsText, ih]

/-- A byte is printed in the format of its command: as two hex digits, eight bits or a
character. -/
@[simp] theorem printByteInFmt_apply (b : UInt8) (fmt : NeoFmt) (s : ExecState) :
    printByteInFmt b fmt s = .ok ⟨⟩ { s with output := s.output ++ byteText b fmt } := by
  cases fmt <;> simp [printByteInFmt, printBinByte, byteText]

example : byteText 0xA5 .bin = bytes "10100101" ∧ byteText 0xA5 .ascii = bytes "." := by decide

/-! ## Bytes and loops -/

/-- A transfer is recorded, and returns what the hardware answers to the calls so
far. -/
@[simp] theorem twiTrans_apply (hal : Hal) (v : UInt8) (hostAck : Nat) (s : ExecState) :
    twiTrans hal v hostAck s =
      .ok (hal.twiTrans s.calls v hostAck) { s with calls := s.calls ++ [.twiTrans v hostAck] } :=
  rfl

/-- One byte sent: its call, and the mark of its acknowledge behind the byte. -/
@[simp] theorem execTwiByte_apply (hal : Hal) (v : UInt8) (s : ExecState) :
    execTwiByte hal v 0 s = .ok ⟨⟩ { s with
      calls := s.calls ++ sendTransfers [v]
      output := s.output ++ sendReport hal s.calls [v] } := by
  simp [execTwiByte, sendTransfers, sendReport, ackMark]

/-- Bytes are sent one transfer at a time. -/
theorem sendTransfers_cons (v : UInt8) (vs : List UInt8) :
    sendTransfers (v :: vs) = sendTransfers [v] ++ sendTransfers vs := rfl

/-- The report of bytes sent is that of the first and, behind its call, that of the
others. -/
theorem sendReport_cons (hal : Hal) (h : List HalCall) (v : UInt8) (vs : List UInt8) :
    sendReport hal h (v :: vs) =
      sendReport hal h [v] ++ sendReport hal (h ++ sendTransfers [v]) vs := by
  simp [sendReport, sendTransfers]

/-- A byte that the pool holds is read, and that it was read is recorded. -/
theorem readPool_apply (txn : NeoTxn) (i : Nat) (v : UInt8) (s : ExecState)
    (stored : txn.payloadPool[i]? = some v) :
    readPool txn i s = .ok v { s with reads := s.reads ++ [i] } := by
  simp [readPool, Run.read, stored]

/-- The loop sends the pool's bytes from the command's offset on, in their order,
and reads nothing else. -/
theorem writeLoop_apply (hal : Hal) (txn : NeoTxn) (cmd : NeoCmd) (vs : List UInt8) (i : Nat)
    (s : ExecState)
    (stored : ∀ k < vs.length, txn.payloadPool[cmd.payloadOff + i + k]? = vs[k]?) :
    writeLoop hal txn cmd vs.length i s = .ok ⟨⟩
      { calls := s.calls ++ sendTransfers vs
        output := s.output ++ sendReport hal s.calls vs
        reads := s.reads ++ List.range' (cmd.payloadOff + i) vs.length } := by
  induction vs generalizing i s with
  | nil => simp [writeLoop, sendTransfers, sendReport]
  | cons v vs ih =>
    have first : txn.payloadPool[cmd.payloadOff + i]? = some v := by
      simpa using stored 0 (Nat.succ_pos _)
    have others : ∀ k < vs.length,
        txn.payloadPool[cmd.payloadOff + (i + 1) + k]? = vs[k]? := by
      intro k inside
      have moved := stored (k + 1) (Nat.succ_lt_succ inside)
      rw [List.getElem?_cons_succ] at moved
      rw [← moved]
      congr 1
      omega
    rw [List.length_cons, writeLoop, Run.bind_apply, readPool_apply txn _ v s first]
    simp only [Run.andThen_ok, Run.bind_apply, execTwiByte_apply, ih (i + 1) _ others]
    rw [sendTransfers_cons v vs, sendReport_cons hal s.calls v vs, List.range'_succ]
    simp [Nat.add_assoc]

/-- The loop receives one byte after the other, and acknowledges all but the last. By
induction on the bytes left. -/
theorem readLoop_apply (hal : Hal) (cmd : NeoCmd) (left i : Nat) (s : ExecState)
    (remaining : i + left = cmd.rdLen) :
    readLoop hal cmd left i s = .ok ⟨⟩ { s with
      calls := s.calls ++ (List.range' i left).map fun i =>
        .twiTrans 0xFF (if i + 1 = cmd.rdLen then 0 else 1)
      output := s.output ++ receiveReport hal cmd.rdFmt s.calls left } := by
  induction left generalizing i s with
  | zero => simp [readLoop, receiveReport]
  | succ left ih =>
    have next := fun s => ih (i + 1) s (by omega)
    have last : i + 1 = cmd.rdLen ↔ left = 0 := by omega
    rw [readLoop]
    simp only [Run.bind_apply, twiTrans_apply, Run.andThen_ok, Run.ite_apply, neoPutc_apply,
      printByteInFmt_apply, last, receiveReport, receivedText, List.range'_succ, List.map_cons]
    by_cases final : left = 0
    · subst final
      simp [readLoop, receiveReport]
    · by_cases nack : (hal.twiTrans s.calls 0xFF 1).1 = 0
      · simp [final, nack, next]
      · simp [final, nack, next]

/-! ## Commands and chains -/

/-- The pool holds the command's bytes at its offset. -/
def Stored (txn : NeoTxn) (off : Nat) (vs : List UInt8) : Prop :=
  ∀ k < vs.length, txn.payloadPool[off + k]? = vs[k]?

/-- One decoded command: the calls of its frame, and its report. A write and a read are
the two cases. -/
theorem execCmd_twi (hal : Hal) (txn : NeoTxn) (c : TwiCmd) (off : Nat) (s : ExecState)
    (stored : Stored txn off c.payload) :
    execCmd hal txn (c.encode off) s = .ok true
      { calls := s.calls ++ c.frame
        output := s.output ++ c.report hal s.calls
        reads := s.reads ++ List.range' off c.payload.length } := by
  cases c with
  | write ctrl addr payload =>
    have loop := fun s => writeLoop_apply hal txn ((TwiCmd.write ctrl addr payload).encode off)
      payload 0 s stored
    simp only [TwiCmd.encode, Nat.add_zero] at loop
    simp only [execCmd, TwiCmd.encode, execWrite, twiStart, twiStop, Run.bind_apply, call_apply,
      execTwiByte_apply, Run.andThen_ok, loop, Run.pure_apply]
    simp [TwiCmd.frame, TwiCmd.transfers, TwiCmd.report, TwiCmd.payload, sendTransfers, sendReport]
  | read ctrl addr len fmt =>
    have loop := fun s => readLoop_apply hal ((TwiCmd.read ctrl addr len fmt).encode off) len 0 s
      (Nat.zero_add len)
    simp only [TwiCmd.encode] at loop
    simp only [execCmd, TwiCmd.encode, execRead, twiStart, twiStop, Run.bind_apply, call_apply,
      execTwiByte_apply, Run.andThen_ok, loop, Run.pure_apply]
    simp [TwiCmd.frame, TwiCmd.transfers, TwiCmd.report, TwiCmd.payload, sendTransfers, sendReport,
      receiveTransfers, List.range_eq_range']
    exact fun _ _ => rfl

/-- The counted entries are these commands, and the pool begins with their bytes. -/
structure Holds (out : NeoTxn) (cs : List TwiCmd) : Prop where
  count : out.count = cs.length
  cmds : out.cmds.toList.take cs.length = encodeAll 0 cs
  pool : out.payloadPool.toList.take (payloadTotal cs) = payloads cs

/-- An accepted record holds the commands that were decoded. -/
theorem decoded_holds {out : NeoTxn} {cs : List TwiCmd} (decoded : Decoded out cs) :
    Holds out cs where
  count := decoded.count
  cmds := by rw [decoded.cmds, List.take_left' (encodeAll_length 0 cs)]
  pool := by rw [← decoded.used]; exact decoded.pool

/-- A rejected record still holds the commands in front of the error. -/
theorem rejected_holds {out : NeoTxn} {cs : List TwiCmd} {base : Text} {s : Stop}
    (rejected : Rejected out cs base s) : Holds out cs where
  count := rejected.count
  cmds := rejected.cmds
  pool := rejected.pool

/-- The pool holds each command's bytes at the offset of its entry, which is the sum of
the payloads before it. -/
theorem holds_stored {out : NeoTxn} {before after : List TwiCmd} {c : TwiCmd}
    (holds : Holds out (before ++ c :: after)) : Stored out (payloadTotal before) c.payload := by
  intro k inside
  have pool := holds.pool
  rw [payloadTotal_append, payloadTotal_cons, payloads_append] at pool
  have reached : payloadTotal before + k <
      payloadTotal before + (c.payload.length + payloadTotal after) := by omega
  rw [← Vector.getElem?_toList, ← List.getElem?_take_of_lt reached, pool,
    List.getElem?_append_right (by simp), payloads_length, Nat.add_sub_cancel_left]
  simp only [payloads, List.flatMap_cons]
  rw [List.getElem?_append_left inside]

/-- The entry of a command stands behind those of the commands before it. -/
theorem holds_cmd {out : NeoTxn} {before after : List TwiCmd} {c : TwiCmd}
    (holds : Holds out (before ++ c :: after)) :
    out.cmds[before.length]? = some (c.encode (payloadTotal before)) := by
  have reached : before.length < (before ++ c :: after).length := by simp
  rw [← Vector.getElem?_toList, ← List.getElem?_take_of_lt reached, holds.cmds, encodeAll_append]
  simp [encodeAll]

/-- The loop runs the commands that are left; `before` have been run. By induction on
those left, with the offset of the next in step. -/
theorem runLoop_apply (hal : Hal) (out : NeoTxn) (before after : List TwiCmd) (s : ExecState)
    (holds : Holds out (before ++ after)) :
    runLoop hal out after.length before.length s = .ok ⟨⟩
      { calls := s.calls ++ after.flatMap TwiCmd.frame
        output := s.output ++ chainReport hal s.calls after
        reads := s.reads ++ List.range' (payloadTotal before) (payloadTotal after) } := by
  induction after generalizing before s with
  | nil => simp [runLoop, chainReport]
  | cons c after ih =>
    have grouped : before ++ c :: after = (before ++ [c]) ++ after := by simp
    have next := fun s => ih (before ++ [c]) s (grouped ▸ holds)
    have moved : before.length + 1 = (before ++ [c]).length := by simp
    rw [List.length_cons, runLoop]
    simp only [Run.bind_apply, Run.read, holds_cmd holds, Run.andThen_ok,
      execCmd_twi hal out c _ s (holds_stored holds), if_true, neoPutc_apply, moved, next]
    simp only [chainReport, List.flatMap_cons, payloadTotal_append, payloadTotal_cons,
      payloadTotal_nil, Nat.add_zero]
    simp only [List.append_assoc, List.range'_append_1, List.singleton_append]

/-- The executor on a record that holds a chain: the frames of its commands, their
reports, and each payload byte read once, in order. -/
theorem neoExecRun_chain (hal : Hal) (out : NeoTxn) (cs : List TwiCmd) (s : ExecState)
    (holds : Holds out cs) :
    neoExecRun hal out s = .ok ⟨⟩
      { calls := s.calls ++ cs.flatMap TwiCmd.frame
        output := s.output ++ chainReport hal s.calls cs
        reads := s.reads ++ List.range (payloadTotal cs) } := by
  rw [neoExecRun, holds.count]
  have loop := runLoop_apply hal out [] cs s holds
  rwa [payloadTotal_nil, ← List.range_eq_range'] at loop

/-- The calls of a special command. -/
def specialCalls (entry : NeoCmd) : List HalCall :=
  match entry.kind with
  | .gpioOut => [.gpioWriteByte entry.gpioByte]
  | .gpioIn => [.gpioReadByte]
  | _ => []

/-- A special line is one of three kinds, and none of them is a TWI command. -/
theorem scanSpecial_kind {p : Text} {entry : NeoCmd} (scanned : scanSpecial p = .ok entry) :
    entry.kind = .gpioOut ∨ entry.kind = .gpioIn ∨ entry.kind = .help := by
  unfold scanSpecial at scanned
  split at scanned
  · split at scanned
    · simp at scanned
    · split at scanned
      · cases scanned
        exact Or.inl rfl
      · simp at scanned
  · split at scanned
    · cases scanned
      exact Or.inr (Or.inl rfl)
    · split at scanned
      · cases scanned
        exact Or.inr (Or.inr rfl)
      · simp at scanned

/-- The executor on a record that holds a special command: at most one call, and
no read of the pool. -/
theorem neoExecRun_special (hal : Hal) (out : NeoTxn) (entry : NeoCmd) (s : ExecState)
    (special : Special out entry)
    (kind : entry.kind = .gpioOut ∨ entry.kind = .gpioIn ∨ entry.kind = .help) :
    ∃ s', neoExecRun hal out s = .ok ⟨⟩ s' ∧ s'.calls = s.calls ++ specialCalls entry ∧
      s'.reads = s.reads := by
  have stored : out.cmds[0]? = some entry := by
    rw [← Vector.getElem?_toList, special.cmds]
    rfl
  simp only [neoExecRun, special.count, runLoop, Run.bind_apply, Run.read, stored, Run.andThen_ok,
    execCmd, specialCalls]
  rcases kind with gpioOut | gpioIn | help
  · simp [gpioOut, printBinByte]
  · simp [gpioIn, gpioReadByte, printBinByte]
  · simp [help, neoExecPrintHelp]

end NeoSfp
