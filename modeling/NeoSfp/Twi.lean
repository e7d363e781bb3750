import NeoSfp.Executor
import NeoSfp.PrimFifo
import NeoSfp.SpiFlash
import NeoSfp.TwoWire

/-!
# The TWI controller and its driver

The controller steps once in every clock cycle, all of its processes at once. The CPU
reaches it through two registers. An access takes a cycle for the request and one for
the response, which comes out of a register, and any number of cycles may pass in front
of it. Everything outside is a world of streams: the prescaled clock enables, whether
others leave the bus lines alone, and how long the CPU takes.
-/

namespace NeoSfp

open Checked TwoWire

/-! ## Registers -/

/-- The control register, as far as it can be written. -/
structure TwiCtrl where
  enable : Bool
  prsc : BitVec 3
  cdiv : BitVec 4
  clkstr : Bool
deriving DecidableEq, Repr

/-- The low bits of the engine's state, which are also the command of a FIFO entry. -/
inductive TwiOp where
  | nop
  | start
  | stop
  | rtx
deriving DecidableEq, Repr

/-- The two bits of an operation. -/
def TwiOp.code : TwiOp → BitVec 2
  | .nop => 0b00
  | .start => 0b01
  | .stop => 0b10
  | .rtx => 0b11

/-- The operation of two bits; every code has one. -/
def TwiOp.ofCode (code : BitVec 2) : TwiOp :=
  if code = 0b00 then .nop else if code = 0b01 then .start else if code = 0b10 then .stop else .rtx

/-- The clock generator: its tick, its counter, and the phases with those of the cycle
before. -/
structure ClkGen where
  tick : Bool
  cnt : BitVec 4
  phaseGen : BitVec 4
  phaseGenFf : BitVec 4
deriving DecidableEq, Repr

/-- The bus engine with the levels it drives; `online` is the high bit of its state. -/
structure Engine where
  online : Bool
  op : TwiOp
  bitcnt : BitVec 4
  sreg : BitVec 9
  txRe : Bool
  rxWe : Bool
  sdaOut : Bool
  sclOut : Bool
deriving DecidableEq, Repr

/-- The controller: its control register, the two FIFOs, the clock generator, the
engine, and the synchronizers of the two lines. -/
structure Twi (awidth : Nat) where
  ctrl : TwiCtrl
  tx : PrimFifo awidth (BitVec 11)
  rx : PrimFifo awidth (BitVec 9)
  clkGen : ClkGen
  engine : Engine
  sdaSync : BitVec 2
  sclSync : BitVec 2

/-- What comes in beside the bus of the CPU. -/
structure TwiPins where
  clkgen : BitVec 8
  sda : Bool
  scl : Bool

/-- A request of the CPU. -/
inductive BusReq where
  | none
  | readCtrl
  | writeCtrl (data : BitVec 32)
  | readDcmd
  | writeDcmd (data : BitVec 32)
deriving DecidableEq, Repr

/-! ## Processes -/

/-- The bus engine is in an operation. -/
def Engine.busy (e : Engine) : Bool := e.online && e.op != .nop

/-- One of four phases: its step is over, but was not a cycle ago. -/
def ClkGen.phase (g : ClkGen) (i : Nat) : Bool := g.phaseGenFf.getLsbD i && !g.phaseGen.getLsbD i

/-- The TWI engine, given the head of the TX FIFO and the sampled data line. -/
def Engine.next (enable txAvail : Bool) (txRdata : BitVec 11) (tick : Bool) (phase : Nat → Bool)
    (sample : Bool) (e : Engine) : Engine :=
  let e' := { e with txRe := false, rxWe := false, online := enable }
  if e.online then
    match e.op with
    | .nop =>
      let e' := { e' with
        bitcnt := 0
        sreg := txRdata.extractLsb' 0 8 ++ BitVec.ofBool !(txRdata.getLsbD 8) }
      if txAvail && tick then { e' with txRe := true, op := .ofCode (txRdata.extractLsb' 9 2) } else e'
    | .start =>
      let e' := if phase 0 then { e' with sdaOut := true }
        else if phase 2 then { e' with sdaOut := false } else e'
      if phase 0 then { e' with sclOut := true }
      else if phase 3 then { e' with sclOut := false, op := .nop } else e'
    | .stop =>
      let e' := if phase 0 then { e' with sdaOut := false }
        else if phase 3 then { e' with sdaOut := true, op := .nop } else e'
      if phase 0 then { e' with sclOut := false }
      else if phase 1 then { e' with sclOut := true } else e'
    | .rtx =>
      let e' := if phase 0 || phase 3 then { e' with sclOut := false }
        else if phase 1 then { e' with sclOut := true } else e'
      let e' := if e.bitcnt = 0b1001 ∧ phase 0 then { e' with sdaOut := false }
        else if phase 0 then { e' with sdaOut := e.sreg.getLsbD 8 } else e'
      let e' := if phase 2 then { e' with sreg := e.sreg.shiftConcat sample } else e'
      let e' := if phase 3 then { e' with bitcnt := e.bitcnt + 1 } else e'
      if e.bitcnt = 0b1001 ∧ phase 0 then { e' with rxWe := true, op := .nop } else e'
  else { e' with sclOut := true, sdaOut := true, op := .nop }

/-- The clock and phase generators; `halt` is the clock stretching. -/
def ClkGen.next (ctrl : TwiCtrl) (clkgen : BitVec 8) (busy halt : Bool) (g : ClkGen) : ClkGen :=
  let enabled := clkgen.getLsbD ctrl.prsc.toNat
  { tick := ctrl.enable && enabled && g.cnt == ctrl.cdiv
    cnt :=
      if !ctrl.enable then 0
      else if enabled then if g.cnt = ctrl.cdiv then 0 else g.cnt + 1
      else g.cnt
    phaseGen :=
      if !ctrl.enable || !busy then 0b0001
      else if g.tick && !halt then g.phaseGen.rotateLeft 1
      else g.phaseGen
    phaseGenFf := g.phaseGen }

namespace Twi

variable {awidth : Nat} (s : Twi awidth)

/-- The control register behind a cycle with this request. -/
def writtenCtrl : BusReq → TwiCtrl
  | .writeCtrl data =>
    { enable := data.getLsbD 0
      prsc := data.extractLsb' 1 3
      cdiv := data.extractLsb' 4 4
      clkstr := data.getLsbD 8 }
  | _ => s.ctrl

/-- The ports of the command FIFO: the CPU writes it and the engine reads it, and it is
cleared while the controller is disabled. -/
def txPorts (req : BusReq) : FifoPorts (BitVec 11) :=
  { clear := !s.ctrl.enable
    wdata := match req with
      | .writeDcmd data => data.setWidth 11
      | _ => 0
    we := match req with
      | .writeDcmd _ => true
      | _ => false
    re := s.engine.txRe }

/-- The ports of the receive FIFO: the engine writes the received byte with its
acknowledge, and the CPU reads it. -/
def rxPorts (req : BusReq) : FifoPorts (BitVec 9) :=
  { clear := !s.ctrl.enable
    wdata := BitVec.ofBool (s.engine.sreg.getLsbD 0) ++ s.engine.sreg.extractLsb' 1 8
    we := s.engine.rxWe
    re := match req with
      | .readDcmd => true
      | _ => false }

/-- The controller would drive the clock high, but it is still pulled low. -/
def halt : Bool := s.engine.sclOut && !s.sclSync.getLsbD 1 && s.ctrl.clkstr

/-- A clock cycle. -/
def step (pins : TwiPins) (req : BusReq) : Twi awidth where
  ctrl := s.writtenCtrl req
  tx := s.tx.step (s.txPorts req)
  rx := s.rx.step (s.rxPorts req)
  clkGen := s.clkGen.next s.ctrl pins.clkgen s.engine.busy s.halt
  engine := s.engine.next s.ctrl.enable s.tx.availO s.tx.rdataO s.clkGen.tick s.clkGen.phase
    (s.sdaSync.getLsbD 1)
  sdaSync := s.sdaSync.shiftConcat pins.sda
  sclSync := s.sclSync.shiftConcat pins.scl

/-- `TWI_CTRL_BUSY`. -/
def ctrlBusy : Bool := s.engine.busy || s.tx.availO

/-- The response to a request. -/
def response : BusReq → BitVec 32
  | .readCtrl =>
    BitVec.ofBool s.ctrlBusy ++ BitVec.ofBool s.rx.availO ++ BitVec.ofBool (!s.tx.freeO) ++
      BitVec.ofBool (s.sdaSync.getLsbD 1) ++ BitVec.ofBool (s.sclSync.getLsbD 1) ++ 0#8 ++
      BitVec.ofNat 4 awidth ++ 0#6 ++ BitVec.ofBool s.ctrl.clkstr ++ s.ctrl.cdiv ++ s.ctrl.prsc ++
      BitVec.ofBool s.ctrl.enable
  | .readDcmd => s.rx.rdataO.setWidth 32
  | _ => 0

end Twi

/-! ## The controller in its world -/

/-- Streams by the number of the cycle: the clock enables, whether others leave the bus
lines alone, and how many cycles the CPU spends in front of an access. -/
structure World where
  clkgen : Nat → BitVec 8
  sda : Nat → Bool
  scl : Nat → Bool
  gap : Nat → Nat

/-- A controller, the number of its cycle, and what has been done to the bus so far. -/
structure Bench (awidth : Nat) where
  twi : Twi awidth
  now : Nat
  trace : List Level := []

/-- A routine of the driver on the controller in its world. -/
abbrev TwiDriver (awidth : Nat) := Run DriverFault (Bench awidth)

section

variable {awidth : Nat} (w : World)

/-- What the controller drives, and whether the others leave the lines alone. -/
def Bench.level (b : Bench awidth) : Level :=
  { scl := b.twi.engine.sclOut
    sda := b.twi.engine.sdaOut
    sclFree := w.scl b.now
    sdaFree := w.sda b.now }

/-- A clock cycle, in which the controller sees the lines. -/
def Bench.cycle (req : BusReq) (b : Bench awidth) : Bench awidth :=
  let pins : TwiPins :=
    { clkgen := w.clkgen b.now
      sda := (b.level w).line
      scl := (b.level w).clock }
  let b' : Bench awidth := { b with twi := b.twi.step pins req, now := b.now + 1 }
  { b' with trace := b.trace ++ [b'.level w] }

/-- Cycles in which the CPU asks for nothing. -/
def Bench.idle (count : Nat) (b : Bench awidth) : Bench awidth := (Bench.cycle w .none)^[count] b

/-- An access of the CPU, with its response. -/
def access (req : BusReq) : TwiDriver awidth (BitVec 32) := fun b =>
  let asked := b.idle w (w.gap b.now)
  .ok (asked.twi.response req) ((asked.cycle w req).cycle w .none)

/-! ## The driver -/

/-- The bit of `CTRL` that tells that the command FIFO is full. -/
def twiCtrlTxFull : Nat := 29
/-- The bit of `CTRL` that tells that there is something to read. -/
def twiCtrlRxAvail : Nat := 30
/-- The bit of `CTRL` that tells that an operation is going on. -/
def twiCtrlBusy : Nat := 31

/-- Read `CTRL` until a bit of it is zero. -/
def pollCtrl (bit : Nat) : Nat → TwiDriver awidth PUnit
  | 0 => Run.fault .polls
  | polls + 1 => do
    let ctrl ← access w .readCtrl
    if ctrl.getLsbD bit then pollCtrl bit polls else pure ⟨⟩

/-- Disable the controller, and then configure and enable it. -/
def neorv32TwiSetup (prsc cdiv clkstr : Nat) : TwiDriver awidth PUnit := do
  let _ ← access w (.writeCtrl 0)
  let ctrl : BitVec 32 := 1#32 ||| BitVec.ofNat 32 (prsc % 8) <<< 1 |||
    BitVec.ofNat 32 (cdiv % 16) <<< 4 ||| BitVec.ofNat 32 (clkstr % 2) <<< 8
  let _ ← access w (.writeCtrl ctrl)

/-- The command of a transmission. -/
def rtxCmd (data : UInt8) (mack : Nat) : BitVec 32 :=
  data.toBitVec.setWidth 32 ||| BitVec.ofNat 32 (mack % 2) <<< 8 ||| TwiOp.rtx.code.setWidth 32 <<< 9

/-- Write the command of a transmission. -/
def neorv32TwiSendNonblocking (data : UInt8) (mack : Nat) : TwiDriver awidth PUnit := do
  let _ ← access w (.writeDcmd (rtxCmd data mack))

/-- Write the command of a stop. -/
def neorv32TwiGenerateStopNonblocking : TwiDriver awidth PUnit := do
  let _ ← access w (.writeDcmd (TwiOp.stop.code.setWidth 32 <<< 9))

/-- Write the command of a start. -/
def neorv32TwiGenerateStartNonblocking : TwiDriver awidth PUnit := do
  let _ ← access w (.writeDcmd (TwiOp.start.code.setWidth 32 <<< 9))

/-- The status, and the byte it leaves in `*data`. -/
def neorv32TwiGet (data : UInt8) : TwiDriver awidth (Int × UInt8) := do
  let ctrl ← access w .readCtrl
  if ctrl.getLsbD twiCtrlRxAvail then do
    let tmp ← access w .readDcmd
    pure (if tmp.getLsbD 8 then 1 else 0, ⟨tmp.setWidth 8⟩)
  else pure (-1, data)

/-- Transmit a byte and wait for the answer. -/
def neorv32TwiTransfer (polls : Nat) (data : UInt8) (mack : Nat) : TwiDriver awidth (Int × UInt8) := do
  pollCtrl w twiCtrlTxFull polls
  neorv32TwiSendNonblocking w data mack
  pollCtrl w twiCtrlBusy polls
  neorv32TwiGet w data

/-- Generate a stop and wait for its end. -/
def neorv32TwiGenerateStop (polls : Nat) : TwiDriver awidth PUnit := do
  pollCtrl w twiCtrlTxFull polls
  neorv32TwiGenerateStopNonblocking w
  pollCtrl w twiCtrlBusy polls

/-- Generate a start and wait for its end. -/
def neorv32TwiGenerateStart (polls : Nat) : TwiDriver awidth PUnit := do
  pollCtrl w twiCtrlTxFull polls
  neorv32TwiGenerateStartNonblocking w
  pollCtrl w twiCtrlBusy polls

end

end NeoSfp
