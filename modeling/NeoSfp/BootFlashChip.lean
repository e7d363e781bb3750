import NeoSfp.BootFlash
import NeoSfp.FlashMemory
import NeoSfp.NorBlocks

/-!
# The bootloader's flash on a chip

On a chip at rest each access of the bootloader's driver is an access to the contents,
and leaves the chip at rest.
-/

namespace NeoSfp

open Checked NorFlash

section

variable (chip : BlockChip) {cells : Cells} {wel : Bool} {busy begun : Nat} {calls : List SpiCall}
  {reads : List Nat}

/-! ## Calls -/

/-- Selecting the chip opens an empty frame and is one call on the bus, as with the
application's driver. -/
@[simp] theorem blockCsEn_apply :
    spiCsEn chip.slave ⟨⟨cells, wel, busy, begun, none⟩, calls, reads⟩ =
      .ok ⟨⟩ ⟨⟨cells, wel, busy, begun, some []⟩, calls ++ [.csEn], reads⟩ := rfl

/-- Releasing the chip hands it the frame for execution, with the block erase among its
commands. -/
@[simp] theorem blockCsDis_apply (frame : List UInt8) :
    spiCsDis chip.slave ⟨⟨cells, wel, busy, begun, some frame⟩, calls, reads⟩ =
      .ok ⟨⟩ ⟨chip.execute ⟨cells, wel, busy, begun, none⟩ frame, calls ++ [.csDis], reads⟩ := rfl

/-- A byte exchanged joins the frame; one read as a status brings the end of the
operation nearer. -/
@[simp] theorem blockTransfer_apply (frame : List UInt8) (b : UInt8) :
    spiTransfer chip.slave b ⟨⟨cells, wel, busy, begun, some frame⟩, calls, reads⟩ =
      .ok (Chip.answer ⟨cells, wel, busy, begun, some frame⟩ frame)
        ⟨⟨cells, wel, if frame.head? = some 0x05 then busy - 1 else busy, begun,
          some (frame ++ [b])⟩, calls ++ [.transfer b], reads⟩ := rfl

/-! ## Frames -/

/-- A command of one byte is a frame of its own, and does what the chip does with that
byte. -/
theorem spiFlashCmd_apply (cmd : BootFlashCmd) (plain : cmd.code ≠ 0xD8) :
    spiFlashCmd chip.slave cmd ⟨rest cells wel begun, calls, reads⟩ =
      .ok ⟨⟩ ⟨chip.chip.execute (rest cells wel begun) [cmd.code], calls ++ frameCalls [cmd.code],
        reads⟩ := by
  simp [spiFlashCmd, rest, chip.execute_other _ _ _ plain, frameCalls]

/-- Reading the status returns it and costs a busy chip one of the polls that are left
to it. -/
theorem spiFlashReadStatus_apply :
    spiFlashReadStatus chip.slave ⟨⟨cells, wel, busy, begun, none⟩, calls, reads⟩ =
      .ok (status ⟨cells, wel, busy, begun, none⟩)
        ⟨⟨cells, wel, busy - 1, begun, none⟩, calls ++ frameCalls [0x05, 0], reads⟩ := by
  have plain : (0x05 : UInt8) ≠ 0xD8 := by decide
  simp [spiFlashReadStatus, BootFlashCmd.code, chip.execute_other _ _ _ plain, Chip.execute, frameCalls,
    Chip.answer, status]

/-- Polling ends when the chip is done, if the polls last until then. By induction on
the polls. -/
theorem spiFlashPoll_apply (polls : Nat) (enough : busy < polls) :
    spiFlashPoll chip.slave polls ⟨⟨cells, wel, busy, begun, none⟩, calls, reads⟩ =
      .ok ⟨⟩ ⟨rest cells wel begun, calls ++ pollCalls busy, reads⟩ := by
  induction polls generalizing busy calls with
  | zero => exact absurd enough (Nat.not_lt_zero busy)
  | succ polls ih =>
    rw [spiFlashPoll, Run.bind_apply, spiFlashReadStatus_apply, Run.andThen_ok]
    simp only [status_busy, Run.ite_apply, Run.pure_apply]
    cases busy with
    | zero => simp [pollCalls, rest]
    | succ busy =>
      rw [if_pos (Nat.succ_ne_zero busy), Nat.add_sub_cancel, ih (by omega)]
      simp [pollCalls, List.replicate_succ]

/-- The address joins an open frame as three bytes, the most significant first. -/
theorem spiFlashSendAddr_apply (op : UInt8) (other : op ≠ 0x05) (flashAddr : UInt32) :
    spiFlashSendAddr chip.slave flashAddr ⟨⟨cells, wel, busy, begun, some [op]⟩, calls, reads⟩ =
      .ok ⟨⟩ ⟨⟨cells, wel, busy, begun, some (op :: addrBytes flashAddr)⟩,
        calls ++ (addrBytes flashAddr).map .transfer, reads⟩ := by
  simp [spiFlashSendAddr, other, addrBytes]

/-- The write-enable sets the latch of a chip at rest. -/
theorem bootWriteEnable_apply :
    spiFlashCmd chip.slave .writeEnable ⟨rest cells wel begun, calls, reads⟩ =
      .ok ⟨⟩ ⟨rest cells true begun, calls ++ frameCalls [0x06], reads⟩ := by
  rw [spiFlashCmd_apply chip .writeEnable (by decide)]
  simp [rest, Chip.execute, BootFlashCmd.code]

/-- The write-disable clears the latch of a chip at rest. -/
theorem bootWriteDisable_apply :
    spiFlashCmd chip.slave .writeDisable ⟨rest cells wel begun, calls, reads⟩ =
      .ok ⟨⟩ ⟨rest cells false begun, calls ++ frameCalls [0x04], reads⟩ := by
  rw [spiFlashCmd_apply chip .writeDisable (by decide)]
  simp [rest, Chip.execute, BootFlashCmd.code]

/-- Waking the chip changes nothing on one that is awake. -/
theorem bootWake_apply :
    spiFlashCmd chip.slave .wake ⟨rest cells wel begun, calls, reads⟩ =
      .ok ⟨⟩ ⟨rest cells wel begun, calls ++ frameCalls [0xAB], reads⟩ := by
  rw [spiFlashCmd_apply chip .wake (by decide)]
  simp [rest, Chip.execute, BootFlashCmd.code]

/-! ## Accesses -/

variable {polls : Nat}

/-- A block erase in its frames is the erase of the block that the address lies in, and
begins one operation. -/
theorem refines_eraseFrame (flashAddr : UInt32) : Refines chip.chip polls 1
    (eraseFrame chip.slave polls flashAddr) (modify (erase chip.block (cellOf flashAddr))) := by
  intro cells wel begun calls reads patient
  have enough : chip.chip.delay begun < polls := patient begun (Nat.lt_succ_self _)
  have other : (0xD8 : UInt8) ≠ 0x05 := by decide
  have erased : chip.execute ⟨cells, true, 0, begun, none⟩ (0xD8 :: addrBytes flashAddr) =
      ⟨erase chip.block (cellOf flashAddr) cells, false, chip.chip.delay begun, begun + 1, none⟩ := by
    rw [chip.execute_erase]
    simp [Chip.execute, addrBytes, address_bytes, Chip.begins, cellOf, BlockChip.coarse]
  refine ⟨false, begun + 1, calls ++ operationCalls (0xD8 :: addrBytes flashAddr) (chip.chip.delay begun),
    reads, ?_, Nat.le_refl _⟩
  rw [eraseFrame, Run.bind_apply, bootWriteEnable_apply, Run.andThen_ok]
  simp only [rest, Run.bind_apply, blockCsEn_apply, Run.andThen_ok, blockTransfer_apply, List.head?_nil,
    reduceCtorEq, if_false, List.nil_append, BootFlashCmd.code, spiFlashSendAddr_apply chip _ other,
    blockCsDis_apply, erased, spiFlashPoll_apply chip polls enough]
  simp [operationCalls, frameCalls]
  rfl

/-- A byte programmed in its frames is the byte programmed in the contents, and begins
one operation. -/
theorem refines_programFrame (flashAddr : UInt32) (wdata : UInt8) : Refines chip.chip polls 1
    (programFrame chip.slave polls flashAddr wdata)
    (modify (program chip.chip.page (cellOf flashAddr) [wdata])) := by
  intro cells wel begun calls reads patient
  have enough : chip.chip.delay begun < polls := patient begun (Nat.lt_succ_self _)
  have other : (0x02 : UInt8) ≠ 0x05 := by decide
  have plain : (0x02 : UInt8) ≠ 0xD8 := by decide
  have programmed : chip.execute ⟨cells, true, 0, begun, none⟩ (0x02 :: (addrBytes flashAddr ++ [wdata])) =
      ⟨program chip.chip.page (cellOf flashAddr) [wdata] cells, false, chip.chip.delay begun, begun + 1,
        none⟩ := by
    rw [chip.execute_other _ _ _ plain]
    simp [Chip.execute, addrBytes, address_bytes, Chip.begins, cellOf]
  refine ⟨false, begun + 1,
    calls ++ operationCalls (0x02 :: (addrBytes flashAddr ++ [wdata])) (chip.chip.delay begun), reads, ?_,
    Nat.le_refl _⟩
  rw [programFrame, Run.bind_apply, bootWriteEnable_apply, Run.andThen_ok]
  simp only [rest, Run.bind_apply, blockCsEn_apply, Run.andThen_ok, blockTransfer_apply, List.head?_nil,
    reduceCtorEq, if_false, List.nil_append, BootFlashCmd.code, spiFlashSendAddr_apply chip _ other,
    List.head?_cons, Option.some.injEq, other, List.cons_append,
    blockCsDis_apply, programmed, spiFlashPoll_apply chip polls enough]
  simp [operationCalls, frameCalls]
  rfl

/-- The word that is read at an address. -/
def wordAt (flashAddr : UInt32) (cells : Cells) : UInt32 :=
  read32 ((List.range 4).map fun i => cells ((cellOf flashAddr + i) % 2 ^ 24))

/-- A word read in its frame is the word of the contents at the address, and nothing
changes. -/
theorem refines_readFrame (flashAddr : UInt32) : Refines chip.chip polls 0
    (readFrame chip.slave flashAddr) (do
      let cells ← get
      pure (wordAt flashAddr cells)) := by
  intro cells wel begun calls reads patient
  have other : (0x03 : UInt8) ≠ 0x05 := by decide
  have plain : (0x03 : UInt8) ≠ 0xD8 := by decide
  have ignored (arg : List UInt8) : chip.execute ⟨cells, wel, 0, begun, none⟩ (0x03 :: arg) =
      ⟨cells, wel, 0, begun, none⟩ := by
    rw [chip.execute_other _ _ _ plain]
    simp [Chip.execute]
  have byte (sent : List UInt8) (calls : List SpiCall) :
      spiTransfer chip.slave 0
          ⟨⟨cells, wel, 0, begun, some (0x03 :: (addrBytes flashAddr ++ sent))⟩, calls, reads⟩ =
        .ok (cells ((cellOf flashAddr + sent.length) % 2 ^ 24))
          ⟨⟨cells, wel, 0, begun, some (0x03 :: (addrBytes flashAddr ++ (sent ++ [0])))⟩,
            calls ++ [.transfer 0], reads⟩ := by
    rw [blockTransfer_apply]
    simp [Chip.answer, addrBytes, address_bytes, cellOf]
  have first := byte []
  rw [List.append_nil] at first
  have opened (calls : List SpiCall) :
      spiTransfer chip.slave BootFlashCmd.read.code ⟨⟨cells, wel, 0, begun, some []⟩, calls, reads⟩ =
        .ok (Chip.answer ⟨cells, wel, 0, begun, some []⟩ [])
          ⟨⟨cells, wel, 0, begun, some [0x03]⟩, calls ++ [.transfer 0x03], reads⟩ := by
    rw [blockTransfer_apply]
    simp [BootFlashCmd.code]
  have ran : readFrame chip.slave flashAddr ⟨rest cells wel begun, calls, reads⟩ =
      .ok (wordAt flashAddr cells) ⟨rest cells wel begun,
        calls ++ frameCalls (0x03 :: (addrBytes flashAddr ++ [0, 0, 0, 0])), reads⟩ := by
    rw [readFrame, rest, Run.bind_apply, blockCsEn_apply, Run.andThen_ok, Run.bind_apply, opened, Run.andThen_ok,
      Run.bind_apply, spiFlashSendAddr_apply chip _ other, Run.andThen_ok, Run.bind_apply, first, Run.andThen_ok,
      Run.bind_apply, byte, Run.andThen_ok, Run.bind_apply, byte, Run.andThen_ok, Run.bind_apply, byte,
      Run.andThen_ok, Run.bind_apply, blockCsDis_apply, ignored, Run.andThen_ok, Run.pure_apply]
    simp [frameCalls, wordAt, List.range_succ]
  exact ⟨wel, begun, calls ++ frameCalls (0x03 :: (addrBytes flashAddr ++ [0, 0, 0, 0])), reads, ran,
    Nat.le_refl _⟩

/-! ## The driver -/

/-- The flash is at rest with these contents, and a number of operations may still be
asked of it. -/
def FlashAt (chip : Chip) (polls left : Nat) (cells : Cells) (d : DriverState Flash) : Prop :=
  ∃ (wel : Bool) (begun : Nat) (calls : List SpiCall) (reads : List Nat),
    d = ⟨rest cells wel begun, calls, reads⟩ ∧ Patient chip.delay (begun + left) polls

/-- A program of the flash driver, run by the bootloader: it returns what it means on
the contents, leaves the flash at rest, and uses up as many operations as it may
begin. -/
theorem onFlash_at {chip : Chip} {α : Type} {bound left : Nat} {program : Driver Flash α}
    {meaning : StateM Cells α} {d : DriverState Flash} (refines : Refines chip polls bound program meaning)
    (now : FlashAt chip polls (bound + left) cells d) :
    ∃ d', FlashAt chip polls left (meaning cells).2 d' ∧
      ∀ s : Boot Flash, s.streams.spi = d → onFlash program s =
        .ok (meaning cells).1 { s with streams := { s.streams with spi := d' } } := by
  obtain ⟨wel, begun, calls, reads, rfl, patient⟩ := now
  obtain ⟨wel', begun', calls', reads', ran, count⟩ :=
    refines cells wel begun calls reads (patient_less (by omega) patient)
  refine ⟨_, ⟨wel', begun', calls', reads', rfl, patient_less (by omega) patient⟩, ?_⟩
  intro s at_rest
  rw [onFlash, at_rest, ran]

end

end NeoSfp
