import NeoSfp.SpiFlash

/-!
# The driver on a flash

On an idle chip every operation is an equation between states: the frames it sends
are fixed by its arguments, the polls behind them by the chip, and it returns with
the chip idle again.
-/

namespace NeoSfp

open Checked NorFlash

/-- The calls of one frame. -/
def frameCalls (frame : List UInt8) : List SpiCall :=
  .csEn :: (frame.map .transfer ++ [.csDis])

/-- The calls that poll a chip which answers busy `busy` times. -/
def pollCalls (busy : Nat) : List SpiCall :=
  (List.replicate (busy + 1) (frameCalls [0x05, 0])).flatten

def addrBytes (addr : UInt32) : List UInt8 :=
  [wordByte addr 2, wordByte addr 1, wordByte addr 0]

/-- The calls of a program or an erase: write-enable, the operation, and polls. -/
def operationCalls (frame : List UInt8) (busy : Nat) : List SpiCall :=
  frameCalls [0x06] ++ frameCalls frame ++ pollCalls busy

/-- The frames of a program or an erase. -/
def operationFrames (frame : List UInt8) (busy : Nat) : List (List UInt8) :=
  [0x06] :: frame :: List.replicate (busy + 1) [0x05, 0]

/-- The bus sees a program or an erase as a sequence of frames: the write-enable, the
operation itself, and one status frame for each poll. -/
theorem operationCalls_frames (frame : List UInt8) (busy : Nat) :
    operationCalls frame busy = (operationFrames frame busy).flatMap frameCalls := by
  simp [operationCalls, operationFrames, pollCalls, List.flatMap, List.map_replicate]

/-- A chip at rest. -/
def rest (cells : Cells) (wel : Bool) (begun : Nat) : Flash := ⟨cells, wel, 0, begun, none⟩

/-- An idle chip is a chip at rest with its own contents, latch and count, so the
equations below apply to every idle chip. -/
theorem idle_rest {f : Flash} (idle : Idle f) : f = rest f.cells f.wel f.begun := by
  obtain ⟨cells, wel, busy, begun, frame⟩ := f
  obtain ⟨done, released⟩ := idle
  cases done
  cases released
  rfl

/-- A chip at rest is idle: no operation is going on and no frame is open. -/
theorem rest_idle (cells : Cells) (wel : Bool) (begun : Nat) : Idle (rest cells wel begun) :=
  ⟨rfl, rfl⟩

/-- The three address bytes carry the low 24 bits, the most significant first. The chip
puts them together again and never sees the upper byte. -/
theorem address_bytes (addr : UInt32) :
    address (wordByte addr 2) (wordByte addr 1) (wordByte addr 0) = addr.toNat % 2 ^ 24 := by
  simp only [address, wordByte, UInt8.toNat_ofNat']
  omega

/-! ## Calls on a chip -/

section

variable (chip : Chip) {cells : Cells} {wel : Bool} {busy begun : Nat} {calls : List SpiCall}
  {reads : List Nat}

/-- Selecting the chip opens an empty frame and is one call on the bus. -/
@[simp] theorem spiCsEn_apply :
    spiCsEn chip.slave ⟨⟨cells, wel, busy, begun, none⟩, calls, reads⟩ =
      .ok ⟨⟩ ⟨⟨cells, wel, busy, begun, some []⟩, calls ++ [.csEn], reads⟩ := rfl

/-- Releasing the chip hands it the frame for execution; until then the bytes sent have
changed nothing. -/
@[simp] theorem spiCsDis_apply (frame : List UInt8) :
    spiCsDis chip.slave ⟨⟨cells, wel, busy, begun, some frame⟩, calls, reads⟩ =
      .ok ⟨⟩ ⟨chip.execute ⟨cells, wel, busy, begun, none⟩ frame, calls ++ [.csDis], reads⟩ := rfl

/-- A byte exchanged joins the frame; one read as a status brings the end of the
operation nearer. -/
@[simp] theorem spiTransfer_apply (frame : List UInt8) (b : UInt8) :
    spiTransfer chip.slave b ⟨⟨cells, wel, busy, begun, some frame⟩, calls, reads⟩ =
      .ok (Chip.answer ⟨cells, wel, busy, begun, some frame⟩ frame)
        ⟨⟨cells, wel, if frame.head? = some 0x05 then busy - 1 else busy, begun,
          some (frame ++ [b])⟩, calls ++ [.transfer b], reads⟩ := rfl

/-! ## Frames -/

/-- The write-enable sets the latch of a chip at rest and leaves everything else as it
was. -/
theorem neoSpiFlashWriteEnable_apply :
    neoSpiFlashWriteEnable chip.slave ⟨rest cells wel begun, calls, reads⟩ =
      .ok ⟨⟩ ⟨rest cells true begun, calls ++ frameCalls [0x06], reads⟩ := by
  simp [neoSpiFlashWriteEnable, command, rest, SpiFlashCmd.code, Chip.execute, frameCalls]

/-- Reading the status returns it and costs a busy chip one of the polls that are left
to it. -/
theorem neoSpiFlashReadStatus_apply :
    neoSpiFlashReadStatus chip.slave ⟨⟨cells, wel, busy, begun, none⟩, calls, reads⟩ =
      .ok (status ⟨cells, wel, busy, begun, none⟩)
        ⟨⟨cells, wel, busy - 1, begun, none⟩, calls ++ frameCalls [0x05, 0], reads⟩ := by
  simp [neoSpiFlashReadStatus, SpiFlashCmd.code, Chip.execute, frameCalls, Chip.answer, status]

/-- The BUSY bit of the status is set exactly while an operation is going on, whatever
the latch says. -/
theorem status_busy (f : Flash) : status f &&& 1 ≠ 0 ↔ f.busy ≠ 0 := by
  unfold status
  by_cases done : f.busy = 0 <;> cases f.wel <;> simp [done] <;> decide

/-- Polling ends when the chip is done, if the polls last until then. By induction on
the polls: each status read either finds the chip done or brings it one step nearer. -/
theorem neoSpiFlashWaitWip_apply (polls : Nat) (enough : busy < polls) :
    neoSpiFlashWaitWip chip.slave polls ⟨⟨cells, wel, busy, begun, none⟩, calls, reads⟩ =
      .ok ⟨⟩ ⟨rest cells wel begun, calls ++ pollCalls busy, reads⟩ := by
  induction polls generalizing busy calls with
  | zero => exact absurd enough (Nat.not_lt_zero busy)
  | succ polls ih =>
    rw [neoSpiFlashWaitWip, Run.bind_apply, neoSpiFlashReadStatus_apply, Run.andThen_ok]
    simp only [status_busy, Run.ite_apply, Run.pure_apply]
    cases busy with
    | zero => simp [pollCalls, rest]
    | succ busy =>
      rw [if_pos (Nat.succ_ne_zero busy), Nat.add_sub_cancel, ih (by omega)]
      simp [pollCalls, List.replicate_succ]

/-- The address joins an open frame as three bytes. The frame's first byte must not be
the status command, under which the chip would count polls. -/
theorem neoSpiFlashWriteAddr_apply (addr : UInt32) (frame : List UInt8)
    (command : ∃ op arg, frame = op :: arg ∧ op ≠ 0x05) :
    neoSpiFlashWriteAddr chip.slave addr
        ⟨⟨cells, wel, busy, begun, some frame⟩, calls, reads⟩ =
      .ok ⟨⟩ ⟨⟨cells, wel, busy, begun, some (frame ++ addrBytes addr)⟩,
        calls ++ (addrBytes addr).map .transfer, reads⟩ := by
  obtain ⟨op, arg, rfl, other⟩ := command
  simp [neoSpiFlashWriteAddr, other, addrBytes]

/-- The bytes sent are those of the buffer, in order, and each is read from the buffer
once. By induction on the bytes left. -/
theorem sendLoop_apply (pData : Memory) (left i : Nat) (frame : List UInt8)
    (command : ∃ op arg, frame = op :: arg ∧ op ≠ 0x05) :
    sendLoop chip.slave pData left i
        ⟨⟨cells, wel, busy, begun, some frame⟩, calls, reads⟩ =
      .ok ⟨⟩ ⟨⟨cells, wel, busy, begun, some (frame ++ (List.range' i left).map pData)⟩,
        calls ++ ((List.range' i left).map pData).map .transfer, reads ++ List.range' i left⟩ := by
  obtain ⟨op, arg, rfl, other⟩ := command
  induction left generalizing i arg calls reads with
  | zero => simp [sendLoop]
  | succ left ih =>
    rw [sendLoop]
    simp only [readData, Run.bind_apply, Run.modify_apply, Run.pure_apply, Run.andThen_ok,
      spiTransfer_apply, List.head?_cons, Option.some.injEq, if_neg other, List.cons_append, ih]
    simp [List.range'_succ]

/-- Receiving sends zeros and leaves the chip as it is: the frame grows, and it is
executed only when the chip is released. -/
theorem receiveLoop_apply (left i : Nat) (pData : Memory) (sent : List UInt8) :
    ∃ pData', receiveLoop chip.slave left i pData
        ⟨⟨cells, wel, busy, begun, some (0x03 :: sent)⟩, calls, reads⟩ =
      .ok pData' ⟨⟨cells, wel, busy, begun, some (0x03 :: (sent ++ List.replicate left 0))⟩,
        calls ++ (List.replicate left 0).map .transfer, reads⟩ := by
  induction left generalizing i pData sent calls with
  | zero => exact ⟨pData, by simp [receiveLoop]⟩
  | succ left ih =>
    have other : ¬ (0x03 : UInt8) = 0x05 := by decide
    rw [receiveLoop, Run.bind_apply, spiTransfer_apply, Run.andThen_ok]
    simp only [List.head?_cons, Option.some.injEq, if_neg other, List.cons_append]
    obtain ⟨pData', ran⟩ := ih (i + 1) (Function.update pData i _) (sent ++ [0])
    refine ⟨pData', ran.trans ?_⟩
    simp [List.replicate_succ]

/-! ## Operations -/

/-- The chip behind a frame that came directly behind a write-enable. -/
def operated (cells : Cells) (begun : Nat) (frame : List UInt8) : Flash :=
  chip.execute ⟨cells, true, 0, begun, none⟩ frame

/-- A command begins an operation, or leaves everything but the latch. These are all the
cases of the command decoder, so no later proof opens it. -/
theorem execute_cases (f : Flash) (frame : List UInt8) :
    (∃ cells, chip.execute f frame = chip.begins cells f) ∨
      ∃ wel, chip.execute f frame = { f with wel := wel } := by
  have unchanged : ∃ wel, f = { f with wel := wel } := ⟨f.wel, rfl⟩
  cases frame with
  | nil => exact Or.inr unchanged
  | cons op arg =>
    unfold Chip.execute
    simp only
    split_ifs with busy enable disable program erase
    · exact Or.inr unchanged
    · exact Or.inr ⟨true, rfl⟩
    · exact Or.inr ⟨false, rfl⟩
    · split
      · exact Or.inl ⟨_, rfl⟩
      · exact Or.inr unchanged
    · split
      · exact Or.inl ⟨_, rfl⟩
      · exact Or.inr unchanged
    · exact Or.inr unchanged

/-- Executing a frame does not open another: the chip stays released. -/
theorem execute_released (f : Flash) (frame : List UInt8) :
    (chip.execute f frame).frame = f.frame := by
  rcases execute_cases chip f frame with ⟨cells, same⟩ | ⟨wel, same⟩
  · rw [same, Chip.begins]
  · rw [same]

/-- At most one operation begins behind a frame, and it keeps the chip busy for its
delay. -/
theorem operated_begins (cells : Cells) (begun : Nat) (frame : List UInt8) :
    ((operated chip cells begun frame).busy = 0 ∧
        (operated chip cells begun frame).begun = begun) ∨
      ((operated chip cells begun frame).busy = chip.delay begun ∧
        (operated chip cells begun frame).begun = begun + 1) := by
  rw [operated]
  rcases execute_cases chip ⟨cells, true, 0, begun, none⟩ frame with ⟨cells', same⟩ | ⟨wel, same⟩
  · right
    rw [same, Chip.begins]
    constructor
    · rfl
    · rfl
  · left
    rw [same]
    constructor
    · rfl
    · rfl

/-- Polling ends with the chip at rest, whether or not an operation was going on. -/
theorem neoSpiFlashWaitWip_settles (polls : Nat) (f : Flash) (released : f.frame = none)
    (enough : f.busy < polls) :
    neoSpiFlashWaitWip chip.slave polls ⟨f, calls, reads⟩ =
      .ok ⟨⟩ ⟨rest f.cells f.wel f.begun, calls ++ pollCalls f.busy, reads⟩ := by
  obtain ⟨cells, wel, busy, begun, frame⟩ := f
  cases released
  exact neoSpiFlashWaitWip_apply chip polls enough

/-- A state in which an operation has ended. -/
def ended (f : Flash) (frame : List UInt8) (calls : List SpiCall) (reads : List Nat) :
    DriverState Flash :=
  ⟨rest f.cells f.wel f.begun, calls ++ operationCalls frame f.busy, reads⟩

/-- The common shape of an erase and the programs: whatever `send` adds to the frame, it
is released behind a write-enable and polled to its end. Each operation of the driver is
this with its own command and its own data. -/
theorem operation_ends (polls : Nat) (cmd : SpiFlashCmd) (other : cmd.code ≠ 0x05) (addr : UInt32)
    (send : Driver Flash PUnit) (data : List UInt8) (sent : List Nat)
    (sends : ∀ calls, send
        ⟨⟨cells, true, 0, begun, some (cmd.code :: addrBytes addr)⟩, calls, reads⟩ =
      .ok ⟨⟩ ⟨⟨cells, true, 0, begun, some (cmd.code :: (addrBytes addr ++ data))⟩,
        calls ++ data.map .transfer, reads ++ sent⟩)
    (enough : (operated chip cells begun (cmd.code :: (addrBytes addr ++ data))).busy < polls) :
    (do
      neoSpiFlashWriteEnable chip.slave
      spiCsEn chip.slave
      let _ ← spiTransfer chip.slave cmd.code
      neoSpiFlashWriteAddr chip.slave addr
      send
      spiCsDis chip.slave
      neoSpiFlashWaitWip chip.slave polls : Driver Flash PUnit)
        ⟨rest cells wel begun, calls, reads⟩ =
      .ok ⟨⟩ (ended (operated chip cells begun (cmd.code :: (addrBytes addr ++ data)))
        (cmd.code :: (addrBytes addr ++ data)) calls (reads ++ sent)) := by
  have opcode : ∃ op arg, [cmd.code] = op :: arg ∧ op ≠ 0x05 := ⟨cmd.code, [], rfl, other⟩
  have released : (operated chip cells begun (cmd.code :: (addrBytes addr ++ data))).frame = none :=
    execute_released chip _ _
  rw [Run.bind_apply, neoSpiFlashWriteEnable_apply, Run.andThen_ok]
  simp only [rest, Run.bind_apply, spiCsEn_apply, Run.andThen_ok, spiTransfer_apply,
    List.head?_nil, List.nil_append, reduceCtorEq, if_false,
    neoSpiFlashWriteAddr_apply chip addr _ opcode, List.singleton_append, sends, spiCsDis_apply]
  rw [← operated, neoSpiFlashWaitWip_settles chip polls _ released enough]
  simp [ended, operationCalls, frameCalls]

/-- The erase is an operation that sends no data behind the address. -/
theorem neoSpiFlashEraseSector_ends (polls : Nat) (addr : UInt32)
    (enough : (operated chip cells begun (0x20 :: (addrBytes addr ++ []))).busy < polls) :
    neoSpiFlashEraseSector chip.slave polls addr ⟨rest cells wel begun, calls, reads⟩ =
      .ok ⟨⟩ (ended (operated chip cells begun (0x20 :: (addrBytes addr ++ [])))
        (0x20 :: (addrBytes addr ++ [])) calls (reads ++ [])) :=
  operation_ends chip polls .eraseSector (by decide) addr (pure ⟨⟩) [] [] (by simp) enough

/-- The byte write is an operation that sends its one byte. -/
theorem neoSpiFlashWriteByte_ends (polls : Nat) (addr : UInt32) (wdata : UInt8)
    (enough : (operated chip cells begun (0x02 :: (addrBytes addr ++ [wdata]))).busy < polls) :
    neoSpiFlashWriteByte chip.slave polls addr wdata ⟨rest cells wel begun, calls, reads⟩ =
      .ok ⟨⟩ (ended (operated chip cells begun (0x02 :: (addrBytes addr ++ [wdata])))
        (0x02 :: (addrBytes addr ++ [wdata])) calls (reads ++ [])) :=
  operation_ends chip polls .pageProgram (by decide) addr
    (do
      let _ ← spiTransfer chip.slave wdata
      pure ⟨⟩) [wdata] [] (by simp [SpiFlashCmd.code]) enough

/-- The bytes of a word in memory. -/
def wordBytes (word : UInt32) : List UInt8 :=
  [wordByte word 0, wordByte word 1, wordByte word 2, wordByte word 3]

/-- The word write is an operation that sends the four bytes of the word as they stand
in memory. -/
theorem neoSpiFlashWriteWord_ends (polls : Nat) (addr wdata : UInt32)
    (enough : (operated chip cells begun (0x02 :: (addrBytes addr ++ wordBytes wdata))).busy < polls) :
    neoSpiFlashWriteWord chip.slave polls addr wdata ⟨rest cells wel begun, calls, reads⟩ =
      .ok ⟨⟩ (ended (operated chip cells begun (0x02 :: (addrBytes addr ++ wordBytes wdata)))
        (0x02 :: (addrBytes addr ++ wordBytes wdata)) calls (reads ++ [])) :=
  operation_ends chip polls .pageProgram (by decide) addr (wordLoop chip.slave wdata 4 0)
    (wordBytes wdata) [] (by simp [wordLoop, wordBytes, SpiFlashCmd.code]) enough

/-- The frame of a page write. -/
def pageFrame (addr : UInt32) (length : Nat) (pData : Memory) : List UInt8 :=
  0x02 :: (addrBytes addr ++ (List.range (min length spiFlashPageSize)).map pData)

/-- The page write is an operation that sends the first bytes of the buffer, a page of
them at most. -/
theorem neoSpiFlashWritePage_ends (polls : Nat) (addr : UInt32) (length : Nat) (pData : Memory)
    (enough : (operated chip cells begun (pageFrame addr length pData)).busy < polls) :
    neoSpiFlashWritePage chip.slave polls addr length pData ⟨rest cells wel begun, calls, reads⟩ =
      .ok ⟨⟩ (ended (operated chip cells begun (pageFrame addr length pData))
        (pageFrame addr length pData) calls
        (reads ++ List.range (min length spiFlashPageSize))) := by
  have framed : ∃ op arg, (0x02 : UInt8) :: addrBytes addr = op :: arg ∧ op ≠ 0x05 :=
    ⟨0x02, addrBytes addr, rfl, by decide⟩
  refine operation_ends chip polls .pageProgram (by decide) addr _ _ _ ?_ enough
  intro calls
  rw [SpiFlashCmd.code, sendLoop_apply chip pData _ 0 _ framed, ← List.range_eq_range']
  rfl

/-- An erase leaves the chip idle, with the sector of the address erased and one more
operation counted. -/
theorem neoSpiFlashEraseSector_apply (polls : Nat) (addr : UInt32)
    (enough : chip.delay begun < polls) :
    neoSpiFlashEraseSector chip.slave polls addr ⟨rest cells wel begun, calls, reads⟩ =
      .ok ⟨⟩ ⟨rest (erase chip.sector (addr.toNat % 2 ^ 24) cells) false (begun + 1),
        calls ++ operationCalls (0x20 :: addrBytes addr) (chip.delay begun), reads⟩ := by
  have carried : operated chip cells begun (0x20 :: (addrBytes addr ++ [])) =
      ⟨erase chip.sector (addr.toNat % 2 ^ 24) cells, false, chip.delay begun, begun + 1, none⟩ := by
    simp [operated, Chip.execute, addrBytes, address_bytes, Chip.begins]
  rw [neoSpiFlashEraseSector_ends chip polls addr (by rwa [carried]), carried, List.append_nil,
    List.append_nil]
  rfl

/-- A page write leaves the chip idle, with the buffer's first bytes programmed from the
address on and wrapped inside the page. -/
theorem neoSpiFlashWritePage_apply (polls : Nat) (addr : UInt32) (length : Nat)
    (positive : 0 < length) (pData : Memory) (enough : chip.delay begun < polls) :
    neoSpiFlashWritePage chip.slave polls addr length pData ⟨rest cells wel begun, calls, reads⟩ =
      .ok ⟨⟩ ⟨rest (program chip.page (addr.toNat % 2 ^ 24)
          ((List.range (min length spiFlashPageSize)).map pData) cells) false (begun + 1),
        calls ++ operationCalls (pageFrame addr length pData) (chip.delay begun),
        reads ++ List.range (min length spiFlashPageSize)⟩ := by
  have carried : operated chip cells begun (pageFrame addr length pData) =
      ⟨program chip.page (addr.toNat % 2 ^ 24)
        ((List.range (min length spiFlashPageSize)).map pData) cells, false,
        chip.delay begun, begun + 1, none⟩ := by
    have nonempty : 0 < min length spiFlashPageSize := by
      rw [spiFlashPageSize]
      omega
    obtain ⟨rest, more⟩ : ∃ rest, min length spiFlashPageSize = rest + 1 :=
      ⟨min length spiFlashPageSize - 1, by omega⟩
    rw [pageFrame, more, List.range_succ_eq_map]
    simp [operated, Chip.execute, addrBytes, address_bytes, Chip.begins]
  rw [neoSpiFlashWritePage_ends chip polls addr length pData (by rwa [carried]), carried]
  rfl

end

end NeoSfp
