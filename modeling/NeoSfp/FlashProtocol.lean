import NeoSfp.BulkWrite
import NeoSfp.History

/-!
# The command protocol of the flash

A run of the driver is any sequence of calls of its public functions. It talks to
the chip in frames of one command each. What a frame may be depends on the chip at
that moment and on the frame before it: while the chip is busy only status reads
are sent, and a program or an erase directly follows a write-enable of its own.
Every public function starts from a chip at rest and leaves it at rest, so the
protocol holds over a whole run.
-/

namespace NeoSfp

open Checked NorFlash History

/-! ## Calls of the driver -/

/-- A call of a public function. -/
inductive FlashCall where
  | check
  | readByte (addr : UInt32)
  | readPage (addr : UInt32) (length : Nat) (pData : Memory)
  | writeByte (addr : UInt32) (wdata : UInt8)
  | writeWord (addr wdata : UInt32)
  | writePage (addr : UInt32) (length : Nat) (pData : Memory)
  | writeHuge (addr : UInt32) (length : Nat) (pData : Option Memory)
  | eraseSector (addr : UInt32)

section

variable {σ : Type} (spi : Slave σ) (polls : Nat)

/-- A call of the driver, without its reply. -/
def FlashCall.run : FlashCall → Driver σ PUnit
  | .check => do
    let _ ← neoSpiFlashCheck spi
    pure ⟨⟩
  | .readByte addr => do
    let _ ← neoSpiFlashReadByte spi addr
    pure ⟨⟩
  | .readPage addr length pData => do
    let _ ← neoSpiFlashReadPage spi addr length pData
    pure ⟨⟩
  | .writeByte addr wdata => neoSpiFlashWriteByte spi polls addr wdata
  | .writeWord addr wdata => neoSpiFlashWriteWord spi polls addr wdata
  | .writePage addr length pData => neoSpiFlashWritePage spi polls addr length pData
  | .writeHuge addr length pData => neoSpiFlashWriteHuge spi polls addr length pData
  | .eraseSector addr => neoSpiFlashEraseSector spi polls addr

/-- Calls of the driver in a row. -/
def runCalls : List FlashCall → Driver σ PUnit
  | [] => pure ⟨⟩
  | call :: calls => do
    call.run spi polls
    runCalls calls

/-- What a call of the SPI library does to the device. -/
def SpiCall.effect : SpiCall → σ → σ
  | .csEn => spi.select
  | .csDis => spi.release
  | .transfer b => fun d => (spi.exchange b d).2

/-- The device behind calls of the SPI library. -/
def replay (d : σ) (calls : List SpiCall) : σ := calls.foldl (fun d call => call.effect spi d) d

/-- The device behind two runs of calls is the second run's, begun where the first one
has left it. -/
theorem replay_append (d : σ) (first second : List SpiCall) :
    replay spi d (first ++ second) = replay spi (replay spi d first) second :=
  List.foldl_append

end

/-! ## The protocol -/

/-- The operands that belong to a command. -/
def SpiFlashCmd.Operands : SpiFlashCmd → List UInt8 → Prop
  | .writeEnable, args => args = []
  | .writeDisable, args => args = []
  | .wake, args => args = []
  | .readStatus, args => args.length = 1
  | .read, args => 3 ≤ args.length
  | .pageProgram, args => 3 ≤ args.length
  | .eraseSector, args => args.length = 3

/-- A frame of exactly one command. -/
def OneCommand (frame : List UInt8) : Prop :=
  ∃ cmd args, frame = cmd.code :: args ∧ SpiFlashCmd.Operands cmd args

/-- The frame issues a command. -/
def Issues (cmd : SpiFlashCmd) (frame : List UInt8) : Prop := frame.head? = some cmd.code

/-- What a frame may be, on a chip in a given state and behind a given frame. -/
structure Allowed (f : Flash) (previous : Option (List UInt8)) (frame : List UInt8) : Prop where
  one : OneCommand frame
  quiet : ¬ Issues .readStatus frame → f.busy = 0
  enabled : Issues .pageProgram frame ∨ Issues .eraseSector frame →
    f.wel = true ∧ f.busy = 0 ∧ previous = some [SpiFlashCmd.writeEnable.code]

/-- The rule for frames sent to a chip from a given state on. -/
def frameRule (chip : Chip) (start : Flash) (past : List (List UInt8)) (frame : List UInt8) : Prop :=
  Allowed (replay chip.slave start (past.flatMap frameCalls)) past.getLast? frame

/-- A run so far: its calls are frames that kept the rule, and the chip is at rest. -/
structure Session (chip : Chip) (start : Flash) (earlier : List SpiCall) (s : DriverState Flash)
    (frames : List (List UInt8)) : Prop where
  calls : s.calls = earlier ++ frames.flatMap frameCalls
  device : s.dev = replay chip.slave start (frames.flatMap frameCalls)
  along : Along (frameRule chip start) [] frames
  idle : Idle s.dev

/-! ## Frames on a chip -/

section

variable {chip : Chip} {cells : Cells} {wel : Bool} {busy begun : Nat}

/-- Bytes behind a command other than a status read only lengthen the frame, and the
device does nothing until it is released. By induction on the bytes. -/
theorem replay_transfers (op : UInt8) (other : op ≠ 0x05) (sent bytes : List UInt8) :
    replay chip.slave ⟨cells, wel, busy, begun, some (op :: sent)⟩ (bytes.map .transfer) =
      ⟨cells, wel, busy, begun, some (op :: (sent ++ bytes))⟩ := by
  induction bytes generalizing sent with
  | nil => simp [replay]
  | cons b bytes ih =>
    have step : SpiCall.effect chip.slave (.transfer b) ⟨cells, wel, busy, begun, some (op :: sent)⟩ =
        ⟨cells, wel, busy, begun, some (op :: (sent ++ [b]))⟩ := by
      simp [SpiCall.effect, Chip.slave, Chip.exchange, other]
    rw [List.map_cons, replay, List.foldl_cons, step, ← replay, ih]
    simp

/-- A whole frame is carried out when it is released, so that the device behind it is
the one that has executed the frame. -/
theorem replay_frame (op : UInt8) (other : op ≠ 0x05) (args : List UInt8) :
    replay chip.slave ⟨cells, wel, busy, begun, none⟩ (frameCalls (op :: args)) =
      chip.execute ⟨cells, wel, busy, begun, none⟩ (op :: args) := by
  have start : replay chip.slave ⟨cells, wel, busy, begun, none⟩ [.csEn, .transfer op] =
      ⟨cells, wel, busy, begun, some [op]⟩ := rfl
  have split : frameCalls (op :: args) = [.csEn, .transfer op] ++ (args.map .transfer ++ [.csDis]) :=
    rfl
  rw [split, replay_append, start, replay_append, replay_transfers op other]
  rfl

/-- A status read takes nothing but one of the polls that the device stays busy for. -/
theorem replay_status :
    replay chip.slave ⟨cells, wel, busy, begun, none⟩ (frameCalls [0x05, 0]) =
      ⟨cells, wel, busy - 1, begun, none⟩ := by
  simp [replay, frameCalls, SpiCall.effect, Chip.slave, Chip.select, Chip.exchange, Chip.release,
    Chip.execute]

/-- A write-enable sets the latch of a chip at rest and changes nothing else. -/
theorem replay_enable :
    replay chip.slave (rest cells wel begun) (frameCalls [0x06]) = rest cells true begun := by
  rw [rest, replay_frame 0x06 (by decide)]
  simp [Chip.execute, rest]

/-- So many polls take so many of those that the chip stays busy for, by induction on
their number. -/
theorem replay_polls (count : Nat) :
    replay chip.slave ⟨cells, wel, busy, begun, none⟩
        ((List.replicate count [0x05, 0]).flatMap frameCalls) =
      ⟨cells, wel, busy - count, begun, none⟩ := by
  induction count generalizing busy with
  | zero => rfl
  | succ count ih =>
    rw [List.replicate_succ, List.flatMap_cons, replay_append, replay_status, ih, Nat.sub_sub,
      Nat.add_comm]

/-- A write-enable, an operation's frame, and the polls behind it bring a chip at rest
to rest again, with the contents that the operation leaves. -/
theorem replay_operation (op : UInt8) (other : op ≠ 0x05) (args : List UInt8) :
    replay chip.slave (rest cells wel begun)
        ((operationFrames (op :: args) (operated chip cells begun (op :: args)).busy).flatMap
          frameCalls) =
      rest (operated chip cells begun (op :: args)).cells
        (operated chip cells begun (op :: args)).wel
        (operated chip cells begun (op :: args)).begun := by
  have released : (operated chip cells begun (op :: args)).frame = none := execute_released chip _ _
  rw [operationFrames, List.flatMap_cons, List.flatMap_cons, replay_append, replay_enable,
    replay_append, rest, replay_frame op other, ← operated]
  generalize operated chip cells begun (op :: args) = f at released ⊢
  obtain ⟨cells', wel', busy', begun', frame⟩ := f
  cases released
  rw [replay_polls, Nat.sub_eq_zero_of_le (Nat.le_succ busy')]
  rfl

/-! ## Frames that keep the rule -/

/-- The status may be read at any time, behind any frame. -/
theorem allowed_status (f : Flash) (previous : Option (List UInt8)) :
    Allowed f previous [0x05, 0] where
  one := ⟨.readStatus, [0], rfl, rfl⟩
  quiet := fun other => absurd rfl other
  enabled := by
    rintro (program | erase)
    · exact absurd (Option.some.inj program) (by decide)
    · exact absurd (Option.some.inj erase) (by decide)

/-- Commands that need no latch. -/
def SpiFlashCmd.plain (cmd : SpiFlashCmd) : Prop := cmd ≠ .pageProgram ∧ cmd ≠ .eraseSector

/-- Commands are told apart by their first bytes. -/
theorem code_injective : Function.Injective SpiFlashCmd.code := by
  intro first second same
  cases first <;> cases second <;> first | rfl | exact absurd same (by decide)

/-- So a frame that begins with a command's byte issues this command and no other. -/
theorem issues_iff {cmd other : SpiFlashCmd} {args : List UInt8} :
    Issues other (cmd.code :: args) ↔ cmd = other := by
  constructor
  · intro issues
    exact code_injective (Option.some.inj issues)
  · rintro rfl
    rfl

/-- A chip that is done takes every command that needs no latch, whatever frame was sent
before it. -/
theorem allowed_plain {f : Flash} (done : f.busy = 0) (previous : Option (List UInt8))
    {cmd : SpiFlashCmd} {args : List UInt8} (plain : cmd.plain) (operands : cmd.Operands args) :
    Allowed f previous (cmd.code :: args) where
  one := ⟨cmd, args, rfl, operands⟩
  quiet := fun _ => done
  enabled := by
    rintro (program | erase)
    · exact absurd (issues_iff.mp program) plain.1
    · exact absurd (issues_iff.mp erase) plain.2

/-- A program or an erase is allowed on a chip that is done and has its latch set,
directly behind the write-enable. -/
theorem allowed_operation {f : Flash} (done : f.busy = 0) (latch : f.wel = true)
    {cmd : SpiFlashCmd} {args : List UInt8} (operands : cmd.Operands args) :
    Allowed f (some [0x06]) (cmd.code :: args) where
  one := ⟨cmd, args, rfl, operands⟩
  quiet := fun _ => done
  enabled := fun _ => ⟨latch, done, rfl⟩

section

variable {start : Flash} {earlier : List SpiCall} {frames : List (List UInt8)}
  {s : DriverState Flash}

/-- A session goes on with frames that keep the rule, if they leave the chip at rest.
What was sent before is a part of their past, and so the rule is the one for appended
sequences. -/
theorem session_frames {s' : DriverState Flash} (session : Session chip start earlier s frames)
    (more : List (List UInt8)) (calls : s'.calls = s.calls ++ more.flatMap frameCalls)
    (device : s'.dev = replay chip.slave s.dev (more.flatMap frameCalls)) (idle : Idle s'.dev)
    (along : Along (frameRule chip start) frames more) :
    Session chip start earlier s' (frames ++ more) where
  calls := by rw [calls, session.calls, List.flatMap_append, List.append_assoc]
  device := by rw [device, session.device, List.flatMap_append, replay_append]
  along := along_append.mpr ⟨session.along, along⟩
  idle := idle

/-- From a session on, the computation runs to its end in a session; it begins at
most `bound` programs and erases. -/
def Serves (chip : Chip) (polls bound : Nat) {α : Type} (program : Driver Flash α) : Prop :=
  ∀ start earlier s frames, Session chip start earlier s frames →
    Patient chip.delay (s.dev.begun + bound) polls →
    ∃ value s' frames', program s = .ok value s' ∧ Session chip start earlier s' frames' ∧
      s'.dev.begun ≤ s.dev.begun + bound

/-- Polls that are enough for more operations are enough for fewer. -/
theorem patient_less {delay : Nat → Nat} {limit limit' polls : Nat} (less : limit ≤ limit')
    (patient : Patient delay limit' polls) : Patient delay limit polls := by
  intro n inside
  exact patient n (Nat.lt_of_lt_of_le inside less)

variable {polls : Nat} {α β : Type}

/-- To return a value sends nothing. -/
theorem serves_pure (value : α) : Serves chip polls 0 (pure value) := by
  intro start earlier s frames session patient
  exact ⟨value, s, frames, rfl, session, Nat.le_refl _⟩

/-- Computations that each run in a session run in one, one behind the other, and the
operations that they begin add up. The bound tells for which delays the polls have to be
enough. -/
theorem serves_bind {m n : Nat} {first : Driver Flash α} {next : α → Driver Flash β}
    (head : Serves chip polls m first) (tail : ∀ value, Serves chip polls n (next value)) :
    Serves chip polls (m + n) (first >>= next) := by
  intro start earlier s frames session patient
  obtain ⟨value, s', frames', ran, session', count⟩ := head start earlier s frames session
    (patient_less (by omega) patient)
  obtain ⟨value', s'', frames'', ran', session'', count'⟩ := tail value start earlier s' frames'
    session' (patient_less (by omega) patient)
  refine ⟨value', s'', frames'', ?_, session'', by omega⟩
  rw [Run.bind_apply, ran, Run.andThen_ok, ran']

/-- The bound on the operations may be larger than what is begun. -/
theorem serves_more {m n : Nat} {program : Driver Flash α} (less : m ≤ n)
    (serves : Serves chip polls m program) : Serves chip polls n program := by
  intro start earlier s frames session patient
  obtain ⟨value, s', frames', ran, session', count⟩ := serves start earlier s frames session
    (patient_less (by omega) patient)
  exact ⟨value, s', frames', ran, session', by omega⟩

/-- Between two frames of a session the chip is at rest, so that only its contents, its
latch and its count of operations matter to what comes. -/
theorem session_rest (session : Session chip start earlier s frames) :
    ∃ cells wel begun calls reads, s = ⟨rest cells wel begun, calls, reads⟩ := by
  obtain ⟨dev, calls, reads⟩ := s
  have resting : dev = rest dev.cells dev.wel dev.begun := idle_rest session.idle
  exact ⟨dev.cells, dev.wel, dev.begun, calls, reads, by rw [← resting]⟩

/-- A single frame that needs no latch and leaves the chip at rest can be sent in any
session, since it is allowed behind every frame. -/
theorem serves_plain {program : Driver Flash α} (cmd : SpiFlashCmd) (args : List UInt8)
    (plain : cmd.plain) (operands : cmd.Operands args)
    (sends : ∀ cells wel begun calls reads, ∃ value wel',
      program ⟨rest cells wel begun, calls, reads⟩ =
          .ok value ⟨rest cells wel' begun, calls ++ frameCalls (cmd.code :: args), reads⟩ ∧
        replay chip.slave (rest cells wel begun) (frameCalls (cmd.code :: args)) =
          rest cells wel' begun) :
    Serves chip polls 0 program := by
  intro start earlier s frames session patient
  obtain ⟨cells, wel, begun, calls, reads, rfl⟩ := session_rest session
  obtain ⟨value, wel', ran, replayed⟩ := sends cells wel begun calls reads
  refine ⟨value, _, frames ++ [cmd.code :: args], ran, ?_, Nat.le_refl _⟩
  refine session_frames session _ (by simp) ?_ (rest_idle _ _ _) ?_
  · rw [List.flatMap_singleton, replayed]
  · rw [along_single, frameRule, ← session.device]
    exact allowed_plain rfl _ plain operands

/-- A write-enable, a program or an erase, and the polls until it has ended: the frames
are allowed one after the other, and with polls enough for its delay the operation
ends. -/
theorem serves_operation {program : Driver Flash PUnit} (cmd : SpiFlashCmd) (args : List UInt8)
    (sent : List Nat) (other : cmd.code ≠ 0x05) (operands : cmd.Operands args)
    (ends : ∀ cells wel begun calls reads,
      (operated chip cells begun (cmd.code :: args)).busy < polls →
      program ⟨rest cells wel begun, calls, reads⟩ =
        .ok ⟨⟩ (ended (operated chip cells begun (cmd.code :: args)) (cmd.code :: args) calls
          (reads ++ sent))) :
    Serves chip polls 1 program := by
  intro start earlier s frames session patient
  obtain ⟨cells, wel, begun, calls, reads, rfl⟩ := session_rest session
  have enough : chip.delay begun < polls := patient begun (Nat.lt_succ_self _)
  have begins := operated_begins chip cells begun (cmd.code :: args)
  have ran := ends cells wel begun calls reads (by omega)
  have device : rest cells wel begun = replay chip.slave start (frames.flatMap frameCalls) :=
    session.device
  refine ⟨⟨⟩, _, _, ran, session_frames session (operationFrames (cmd.code :: args)
    (operated chip cells begun (cmd.code :: args)).busy) ?_ ?_ (rest_idle _ _ _) ?_, ?_⟩
  · rw [ended, operationCalls_frames]
  · rw [ended, replay_operation cmd.code other args]
  · rw [operationFrames, along_cons, along_cons]
    refine ⟨?_, ?_, ?_⟩
    · rw [frameRule, ← device]
      exact allowed_plain rfl _ (show SpiFlashCmd.writeEnable.plain from ⟨by decide, by decide⟩) rfl
    · rw [frameRule, List.flatMap_append, replay_append, ← device, List.flatMap_singleton,
        replay_enable, List.getLast?_concat]
      exact allowed_operation rfl rfl operands
    · apply along_always
      intro frame member past
      rw [List.eq_of_mem_replicate member]
      exact allowed_status _ _
  · change (operated chip cells begun (cmd.code :: args)).begun ≤ begun + 1
    omega

/-- Behind a computation that begins no operation the bound stays. -/
theorem serves_then {n : Nat} {first : Driver Flash α} {next : α → Driver Flash β}
    (head : Serves chip polls 0 first) (tail : ∀ value, Serves chip polls n (next value)) :
    Serves chip polls n (first >>= next) :=
  serves_more (by omega) (serves_bind head tail)

/-! ## The public functions -/

/-- A command without operands is a frame of its own. -/
theorem serves_command (cmd : SpiFlashCmd) (plain : cmd.plain) (alone : cmd.Operands [])
    (other : cmd.code ≠ 0x05) : Serves chip polls 0 (command chip.slave cmd) := by
  refine serves_plain cmd [] plain alone ?_
  intro cells wel begun calls reads
  have kept : ∃ wel', chip.execute ⟨cells, wel, 0, begun, none⟩ [cmd.code] = rest cells wel' begun := by
    obtain ⟨noProgram, noErase⟩ := plain
    cases cmd with
    | pageProgram => exact absurd rfl noProgram
    | eraseSector => exact absurd rfl noErase
    | read => exact ⟨wel, rfl⟩
    | writeDisable => exact ⟨false, rfl⟩
    | readStatus => exact ⟨wel, rfl⟩
    | writeEnable => exact ⟨true, rfl⟩
    | wake => exact ⟨wel, rfl⟩
  obtain ⟨wel', executed⟩ := kept
  refine ⟨⟨⟩, wel', ?_, ?_⟩
  · rw [← executed]
    simp [command, rest, frameCalls]
  · rw [← executed, rest, replay_frame cmd.code other]

/-- A status read is a frame that is always allowed. -/
theorem serves_readStatus : Serves chip polls 0 (neoSpiFlashReadStatus chip.slave) := by
  refine serves_plain .readStatus [0] ⟨by decide, by decide⟩ rfl ?_
  intro cells wel begun calls reads
  exact ⟨_, wel, neoSpiFlashReadStatus_apply chip, replay_status⟩

/-- The check wakes the chip up, sets the latch, looks at the status, clears the latch
and looks again: five frames, none of which begins an operation. -/
theorem serves_check : Serves chip polls 0 (neoSpiFlashCheck chip.slave) := by
  refine serves_then (serves_command .wake ⟨by decide, by decide⟩ rfl (by decide)) ?_
  intro _
  refine serves_then (serves_command .writeEnable ⟨by decide, by decide⟩ rfl (by decide)) ?_
  intro _
  refine serves_then serves_readStatus ?_
  intro status
  split
  · refine serves_then (serves_command .writeDisable ⟨by decide, by decide⟩ rfl (by decide)) ?_
    intro _
    refine serves_then serves_readStatus ?_
    intro status'
    exact serves_pure _
  · exact serves_pure _

/-- A read is one frame: its address, and a zero for each byte. -/
theorem serves_readPage (addr : UInt32) (length : Nat) (pData : Memory) :
    Serves chip polls 0 (neoSpiFlashReadPage chip.slave addr length pData) := by
  refine serves_plain .read (addrBytes addr ++ List.replicate (min length spiFlashPageSize) 0)
    ⟨by decide, by decide⟩ (by simp [SpiFlashCmd.Operands, addrBytes]) ?_
  intro cells wel begun calls reads
  have opcode : ∃ op arg, [(0x03 : UInt8)] = op :: arg ∧ op ≠ 0x05 := ⟨0x03, [], rfl, by decide⟩
  obtain ⟨pData', received⟩ := @receiveLoop_apply chip cells wel 0 begun
    (calls ++ [.csEn] ++ [.transfer 0x03] ++ (addrBytes addr).map .transfer) reads
    (min length spiFlashPageSize) 0 pData (addrBytes addr)
  refine ⟨pData', wel, ?_, ?_⟩
  · simp only [neoSpiFlashReadPage, rest, Run.bind_apply, spiCsEn_apply, Run.andThen_ok,
      spiTransfer_apply, List.head?_nil, List.nil_append, SpiFlashCmd.code, reduceCtorEq, if_false,
      neoSpiFlashWriteAddr_apply chip addr _ opcode, List.singleton_append, received,
      spiCsDis_apply, Run.pure_apply]
    simp [Chip.execute, frameCalls]
  · rw [rest, replay_frame _ (by decide)]
    simp [Chip.execute, SpiFlashCmd.code]

/-- A read of one byte is a read of its address with one zero behind it. -/
theorem serves_readByte (addr : UInt32) :
    Serves chip polls 0 (neoSpiFlashReadByte chip.slave addr) := by
  refine serves_plain .read (addrBytes addr ++ [0]) ⟨by decide, by decide⟩
    (by simp [SpiFlashCmd.Operands, addrBytes]) ?_
  intro cells wel begun calls reads
  have opcode : ∃ op arg, [(0x03 : UInt8)] = op :: arg ∧ op ≠ 0x05 := ⟨0x03, [], rfl, by decide⟩
  refine ⟨Chip.answer ⟨cells, wel, 0, begun, some (0x03 :: addrBytes addr)⟩
    (0x03 :: addrBytes addr), wel, ?_, ?_⟩
  · simp only [neoSpiFlashReadByte, rest, Run.bind_apply, spiCsEn_apply, Run.andThen_ok,
      spiTransfer_apply, List.head?_nil, List.nil_append, SpiFlashCmd.code, reduceCtorEq, if_false,
      neoSpiFlashWriteAddr_apply chip addr _ opcode, List.head?_cons, List.cons_append,
      Option.some.injEq, show ¬ (0x03 : UInt8) = 0x05 by decide, spiCsDis_apply,
      Run.pure_apply]
    simp [Chip.execute, frameCalls]
  · rw [rest, replay_frame _ (by decide)]
    simp [Chip.execute, SpiFlashCmd.code]

/-- An erase is one operation, with three bytes of address and nothing behind them. -/
theorem serves_eraseSector (addr : UInt32) :
    Serves chip polls 1 (neoSpiFlashEraseSector chip.slave polls addr) := by
  refine serves_operation .eraseSector (addrBytes addr ++ []) [] (by decide)
    (by simp [SpiFlashCmd.Operands, addrBytes]) ?_
  intro cells wel begun calls reads enough
  exact neoSpiFlashEraseSector_ends chip polls addr enough

/-- A byte is written by one operation, with the byte behind the address. -/
theorem serves_writeByte (addr : UInt32) (wdata : UInt8) :
    Serves chip polls 1 (neoSpiFlashWriteByte chip.slave polls addr wdata) := by
  refine serves_operation .pageProgram (addrBytes addr ++ [wdata]) [] (by decide)
    (by simp [SpiFlashCmd.Operands, addrBytes]) ?_
  intro cells wel begun calls reads enough
  exact neoSpiFlashWriteByte_ends chip polls addr wdata enough

/-- A word is written by one operation, with its four bytes behind the address. -/
theorem serves_writeWord (addr wdata : UInt32) :
    Serves chip polls 1 (neoSpiFlashWriteWord chip.slave polls addr wdata) := by
  refine serves_operation .pageProgram (addrBytes addr ++ wordBytes wdata) [] (by decide)
    (by simp [SpiFlashCmd.Operands, addrBytes]) ?_
  intro cells wel begun calls reads enough
  exact neoSpiFlashWriteWord_ends chip polls addr wdata enough

/-- A page is written by one operation, with at most a page of bytes behind the
address. -/
theorem serves_writePage (addr : UInt32) (length : Nat) (pData : Memory) :
    Serves chip polls 1 (neoSpiFlashWritePage chip.slave polls addr length pData) := by
  refine serves_operation .pageProgram
    (addrBytes addr ++ (List.range (min length spiFlashPageSize)).map pData)
    (List.range (min length spiFlashPageSize)) (by decide)
    (by simp [SpiFlashCmd.Operands, addrBytes]) ?_
  intro cells wel begun calls reads enough
  exact neoSpiFlashWritePage_ends chip polls addr length pData enough

/-- Each turn of the bulk write begins at most an erase and a program, so that the loop
begins no more than twice as many operations as it has turns. By induction on the turns
that are left. -/
theorem serves_hugeLoop (length : Nat) (pData : Memory) (fuel : Nat) (addr addressErasePrev : UInt32)
    (j : Nat) (near : j < length + 256) (enough : length + 256 ≤ j + 256 * fuel) :
    Serves chip polls (2 * fuel) (hugeLoop chip.slave polls length pData fuel addr
      addressErasePrev j) := by
  induction fuel generalizing addr addressErasePrev j with
  | zero => omega
  | succ fuel ih =>
    rw [hugeLoop]
    split
    · have ahead : Serves chip polls 1 (eraseAhead chip.slave polls addr addressErasePrev) := by
        unfold eraseAhead
        split
        · exact serves_more (by omega) (serves_bind (serves_eraseSector addr) fun _ => serves_pure addr)
        · exact serves_more (by omega) (serves_pure _)
      refine serves_more (show 1 + (1 + 2 * fuel) ≤ 2 * (fuel + 1) by omega) ?_
      refine serves_bind ahead ?_
      intro next
      refine serves_bind (serves_writePage addr spiFlashPageSize pData) ?_
      intro _
      rw [spiFlashPageSize]
      exact ih _ _ _ (by omega) (by omega)
    · exact serves_more (by omega) (serves_pure _)

/-- The bulk write begins an erase in front of its loop, and the loop's operations;
without data it does nothing. -/
theorem serves_writeHuge (addr : UInt32) (length : Nat) (pData : Option Memory) :
    Serves chip polls (1 + 2 * (min length (spiFlashBlockSize * 10) + 1))
      (neoSpiFlashWriteHuge chip.slave polls addr length pData) := by
  cases pData with
  | none => exact serves_more (by omega) (serves_pure _)
  | some pData =>
    rw [neoSpiFlashWriteHuge]
    split
    · exact serves_more (by omega) (serves_pure _)
    · refine serves_bind (serves_eraseSector addr) ?_
      intro _
      exact serves_hugeLoop _ pData _ addr addr 0 (by omega) (by omega)

/-- How many programs and erases a call begins at most. -/
def FlashCall.operations : FlashCall → Nat
  | .check => 0
  | .readByte _ => 0
  | .readPage _ _ _ => 0
  | .writeByte _ _ => 1
  | .writeWord _ _ => 1
  | .writePage _ _ _ => 1
  | .writeHuge _ length _ => 1 + 2 * (min length (spiFlashBlockSize * 10) + 1)
  | .eraseSector _ => 1

/-- Every public function runs in a session, and begins no more operations than its
bound says. -/
theorem serves_call (call : FlashCall) :
    Serves chip polls call.operations (call.run chip.slave polls) := by
  cases call with
  | check => exact serves_then serves_check fun _ => serves_pure _
  | readByte addr => exact serves_then (serves_readByte addr) fun _ => serves_pure _
  | readPage addr length pData =>
    exact serves_then (serves_readPage addr length pData) fun _ => serves_pure _
  | writeByte addr wdata => exact serves_writeByte addr wdata
  | writeWord addr wdata => exact serves_writeWord addr wdata
  | writePage addr length pData => exact serves_writePage addr length pData
  | writeHuge addr length pData => exact serves_writeHuge addr length pData
  | eraseSector addr => exact serves_eraseSector addr

/-- Any sequence of calls runs in one session, by induction on the calls, and their
bounds add up. -/
theorem serves_calls (calls : List FlashCall) :
    Serves chip polls (calls.map FlashCall.operations).sum (runCalls chip.slave polls calls) := by
  induction calls with
  | nil => exact serves_pure _
  | cons call calls ih => exact serves_bind (serves_call call) fun _ => ih

end

end

/-! ## A whole run -/

/-- A session begins behind no frame, on a chip at rest. -/
theorem session_start (chip : Chip) (s : DriverState Flash) (idle : Idle s.dev) :
    Session chip s.dev s.calls s [] where
  calls := by simp
  device := rfl
  along := along_nil []
  idle := idle

/-- Any sequence of calls keeps the command protocol. On a chip that starts at rest, and
given polls enough for its delays, all calls return; the run is a sequence of frames,
each allowed by the chip's state at that moment and the frame before it; and every call
leaves the chip deselected and done. The invariant of a session is kept by each call,
and the induction is on the calls. -/
theorem runCalls_protocol (chip : Chip) (calls : List FlashCall) (s : DriverState Flash)
    (idle : Idle s.dev) :
    ∃ enough, ∀ polls ≥ enough, ∃ s' frames,
      runCalls chip.slave polls calls s = .ok ⟨⟩ s' ∧
      s'.calls = s.calls ++ frames.flatMap frameCalls ∧
      s'.dev = replay chip.slave s.dev (frames.flatMap frameCalls) ∧
      (∀ before frame after, frames = before ++ frame :: after →
        Allowed (replay chip.slave s.dev (before.flatMap frameCalls)) before.getLast? frame) ∧
      ∀ before after, calls = before ++ after → ∃ between,
        runCalls chip.slave polls before s = .ok ⟨⟩ between ∧ Idle between.dev := by
  obtain ⟨enough, patience⟩ := patient_enough chip.delay
    (s.dev.begun + (calls.map FlashCall.operations).sum)
  refine ⟨enough, ?_⟩
  intro polls large
  have patient := patience polls large
  have start := session_start chip s idle
  obtain ⟨_, s', frames, ran, session, -⟩ := serves_calls calls s.dev s.calls s [] start patient
  refine ⟨s', frames, ran, session.calls, session.device, session.along, ?_⟩
  rintro before after rfl
  rw [List.map_append, List.sum_append] at patient
  obtain ⟨_, between, _, returned, session', -⟩ := serves_calls before s.dev s.calls s [] start
    (patient_less (by omega) patient)
  exact ⟨between, returned, session'.idle⟩

/-- A check, a bulk write of more than a page and a read, on a blank flash. -/
theorem runCalls_protocol_blank :
    ∃ enough, ∀ polls ≥ enough, ∃ s' frames,
      runCalls (norChip fun _ => 3).slave polls
          [.check, .writeHuge 0 257 (some secondPage), .readByte 256] blankFlash = .ok ⟨⟩ s' ∧
      s'.calls = [] ++ frames.flatMap frameCalls ∧
      s'.dev = replay (norChip fun _ => 3).slave blankFlash.dev (frames.flatMap frameCalls) ∧
      (∀ before frame after, frames = before ++ frame :: after →
        Allowed (replay (norChip fun _ => 3).slave blankFlash.dev (before.flatMap frameCalls))
          before.getLast? frame) ∧
      ∀ before after, [.check, .writeHuge 0 257 (some secondPage), .readByte 256] =
          before ++ after → ∃ between,
        runCalls (norChip fun _ => 3).slave polls before blankFlash = .ok ⟨⟩ between ∧
          Idle between.dev :=
  runCalls_protocol (norChip fun _ => 3) _ blankFlash (rest_idle _ _ _)

end NeoSfp
