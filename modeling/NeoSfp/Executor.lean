import NeoSfp.Parser

/-!
# The transaction executor

The executor drives the hardware through five calls and prints through
`neo_putc`. Its state records both, with the places of the payload pool it read.
The hardware is any function from the calls made so far: whatever a device
answers, and however that depends on the past, is one of these functions.
-/

namespace NeoSfp

open Checked

/-- One call through the vtable with the arguments it passes. -/
inductive HalCall where
  | twiStart
  | twiStop
  | twiTrans (byte : UInt8) (hostAck : Nat)
  | gpioWriteByte (v : UInt8)
  | gpioReadByte
deriving DecidableEq, Repr

/-- What the hardware answers behind a history of calls: the return value of
`twi_trans` with the byte it leaves in its argument, and the GPIO byte. -/
structure Hal where
  twiTrans : List HalCall → UInt8 → Nat → Int × UInt8
  gpioReadByte : List HalCall → UInt8

/-- The calls made, the characters printed, and the places of the payload pool that were
read, in order. -/
structure ExecState where
  calls : List HalCall := []
  output : List UInt8 := []
  reads : List Nat := []
deriving DecidableEq, Repr

/-- A routine of the executor, which faults only where it would leave one of the
record's arrays. -/
abbrev Executor := Run Fault ExecState

/-! ## Hardware calls and output -/

/-- Record a call of the hardware. -/
def call (c : HalCall) : Executor PUnit := Run.modify fun s => { s with calls := s.calls ++ [c] }

/-- Claim the bus. -/
def twiStart : Executor PUnit := call .twiStart

/-- Release the bus. -/
def twiStop : Executor PUnit := call .twiStop

/-- The return value and the byte left behind. -/
def twiTrans (hal : Hal) (byte : UInt8) (hostAck : Nat) : Executor (Int × UInt8) := do
  let s ← Run.get
  call (.twiTrans byte hostAck)
  pure (hal.twiTrans s.calls byte hostAck)

/-- The byte at the port, which the hardware answers. -/
def gpioReadByte (hal : Hal) : Executor UInt8 := do
  let s ← Run.get
  call .gpioReadByte
  pure (hal.gpioReadByte s.calls)

/-- One character of output. -/
def neoPutc (c : UInt8) : Executor PUnit := Run.modify fun s => { s with output := s.output ++ [c] }

/-- A string of output. -/
def neoPuts (text : List UInt8) : Executor PUnit :=
  Run.modify fun s => { s with output := s.output ++ text }

/-- The read `payload_pool[i]`. -/
def readPool (txn : NeoTxn) (i : Nat) : Executor UInt8 := do
  Run.modify fun s => { s with reads := s.reads ++ [i] }
  Run.read .poolIndex fun _ => txn.payloadPool[i]?

/-! ## Pretty-printers -/

/-- The table `hd`, indexed by four bits. -/
def hexChar (v : UInt8) : UInt8 := (bytes "0123456789ABCDEF").getD (v &&& 0xF).toNat 0

/-- A byte in two upper-case hex digits, the high half first. -/
def printHexByte (b : UInt8) : Executor PUnit := do
  neoPutc (hexChar (b >>> 4))
  neoPutc (hexChar b)

/-- Bits `left - 1` down to 0. -/
def printBits (b : UInt8) : Nat → Executor PUnit
  | 0 => pure ⟨⟩
  | left + 1 => do
    neoPutc (if b.toNat.testBit left then '1' else '0')
    printBits b left

/-- A byte in eight binary digits. -/
def printBinByte (b : UInt8) : Executor PUnit := printBits b 8

/-- A byte in the format of a read; what is not printable becomes a dot. -/
def printByteInFmt (b : UInt8) : NeoFmt → Executor PUnit
  | .hex => printHexByte b
  | .bin => printBinByte b
  | .ascii => neoPutc (if b ≥ 0x20 ∧ b < 0x7F then b else '.')
  | .none => printHexByte b

/-! ## Commands -/

/-- Send a byte and print it in hex, with a `+` if it was acknowledged and a `-` if
not. -/
def execTwiByte (hal : Hal) (v : UInt8) (hostAck : Nat) : Executor PUnit := do
  let (ack, _) ← twiTrans hal v hostAck
  printHexByte v
  neoPutc (if ack = 0 then '+' else '-')

/-- Payload bytes `i` up to the command's length, `left` of them. -/
def writeLoop (hal : Hal) (txn : NeoTxn) (cmd : NeoCmd) : Nat → Nat → Executor PUnit
  | 0, _ => pure ⟨⟩
  | left + 1, i => do
    let v ← readPool txn (cmd.payloadOff + i)
    execTwiByte hal v 0
    writeLoop hal txn cmd left (i + 1)

/-- A write: control byte, internal address and payload, between a START and a STOP. -/
def execWrite (hal : Hal) (txn : NeoTxn) (cmd : NeoCmd) : Executor PUnit := do
  twiStart
  execTwiByte hal cmd.ctrlByte 0
  execTwiByte hal cmd.internalAddr 0
  writeLoop hal txn cmd cmd.payloadLen 0
  twiStop

/-- Bytes `i` up to the read count, `left` of them. -/
def readLoop (hal : Hal) (cmd : NeoCmd) : Nat → Nat → Executor PUnit
  | 0, _ => pure ⟨⟩
  | left + 1, i => do
    let last := i + 1 = cmd.rdLen
    let (ack, b) ← twiTrans hal 0xFF (if last then 0 else 1)
    -- an intermediate NACK means the read phase failed; the last byte is always valid
    if ¬ last ∧ ack ≠ 0 then
      neoPutc '-'
    else do
      printByteInFmt b cmd.rdFmt
      neoPutc '-'
    readLoop hal cmd left (i + 1)

/-- A read: control byte and internal address are sent, and then as many bytes received,
between a START and a STOP. -/
def execRead (hal : Hal) (cmd : NeoCmd) : Executor PUnit := do
  twiStart
  execTwiByte hal cmd.ctrlByte 0
  execTwiByte hal cmd.internalAddr 0
  readLoop hal cmd cmd.rdLen 0
  twiStop

/-- The help, as it is printed. -/
def helpText : String :=
  "Commands:\n" ++
  "  hA0|hA2 <iaddr> <data>           write data to slave (no STOP if chained)\n" ++
  "  hA1|hA3 <iaddr> h<n><h|b|a>_     read up to h3FE bytes, display in fmt\n" ++
  "  out_xxxxxxxx                     write 8-bit GPIO from 8 binary digits\n" ++
  "  inp                              read GPIO byte\n" ++
  "  help | ?                         this message\n" ++
  "Data byte formats: h<HH>... (hex pairs), b<bbbbbbbb>... (8-bit groups,\n" ++
  "  '_' for grouping), a<chars>_ (latin letters/digits, '_' terminated).\n" ++
  "Bytes equal to A0/A1/A2/A3 inside a command MUST use binary form.\n" ++
  "Transaction terminator: Enter (max 1024 bytes per line).\n"

/-- Print the help. -/
def neoExecPrintHelp : Executor PUnit := neoPuts (bytes helpText)

/-- One command. The value says whether a newline is still needed. -/
def execCmd (hal : Hal) (txn : NeoTxn) (cmd : NeoCmd) : Executor Bool :=
  match cmd.kind with
  | .twiWrite => do
    execWrite hal txn cmd
    pure true
  | .twiRead => do
    execRead hal cmd
    pure true
  | .gpioOut => do
    call (.gpioWriteByte cmd.gpioByte)
    neoPuts (bytes "gpio <= ")
    printBinByte cmd.gpioByte
    pure true
  | .gpioIn => do
    let v ← gpioReadByte hal
    neoPuts (bytes "gpio => ")
    printBinByte v
    pure true
  | .help => do
    neoExecPrintHelp
    pure false
  | .none => pure true

/-- Commands `i` up to the record's count, `left` of them. -/
def runLoop (hal : Hal) (txn : NeoTxn) : Nat → Nat → Executor PUnit
  | 0, _ => pure ⟨⟩
  | left + 1, i => do
    let cmd ← Run.read .cmdIndex fun _ => txn.cmds[i]?
    let newLineNeeded ← execCmd hal txn cmd
    if newLineNeeded then neoPutc '\n' else pure ⟨⟩
    runLoop hal txn left (i + 1)

/-- Run every command of a record on the configured hardware. -/
def neoExecRun (hal : Hal) (txn : NeoTxn) : Executor PUnit := runLoop hal txn txn.count 0

end NeoSfp
