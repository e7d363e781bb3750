import NeoSfp.Bootloader

/-!
# The bootloader's flash

The bootloader has a driver of its own for the SPI flash, which writes and reads words
at a running address, and erases as many blocks as the executable needs.
-/

namespace NeoSfp

open Checked NorFlash

/-- The commands that the bootloader uses, by the source's names. -/
inductive BootFlashCmd where
  | pageProgram
  | read
  | writeDisable
  | readStatus
  | writeEnable
  | wake
  | sectorErase
deriving DecidableEq, Repr

/-- The byte that is sent for a command; the erase is that of a block. -/
def BootFlashCmd.code : BootFlashCmd → UInt8
  | .pageProgram => 0x02
  | .read => 0x03
  | .writeDisable => 0x04
  | .readStatus => 0x05
  | .writeEnable => 0x06
  | .wake => 0xAB
  | .sectorErase => 0xD8

/-- `SPI_FLASH_BASE_ADDR`. -/
def bootFlashBase : UInt32 := 0x00400000

/-- `SPI_FLASH_SECTOR_SIZE`. -/
def bootSectorSize : UInt32 := 65536

section

variable {σ : Type} (spi : Slave σ)

/-! ## Frames -/

/-- A frame that consists of the command alone. -/
def spiFlashCmd (cmd : BootFlashCmd) : Driver σ PUnit := do
  spiCsEn spi
  let _ ← spiTransfer spi cmd.code
  spiCsDis spi

/-- The status register, in one frame. -/
def spiFlashReadStatus : Driver σ UInt8 := do
  spiCsEn spi
  let _ ← spiTransfer spi BootFlashCmd.readStatus.code
  let res ← spiTransfer spi 0
  spiCsDis spi
  pure res

/-- The three bytes of `g_flash_addr`. -/
def spiFlashSendAddr (flashAddr : UInt32) : Driver σ PUnit := do
  let _ ← spiTransfer spi (wordByte flashAddr 2)
  let _ ← spiTransfer spi (wordByte flashAddr 1)
  let _ ← spiTransfer spi (wordByte flashAddr 0)

/-- Read the status until the chip is not busy. -/
def spiFlashPoll : Nat → Driver σ PUnit
  | 0 => Run.fault .polls
  | polls + 1 => do
    let status ← spiFlashReadStatus spi
    if status &&& 1 ≠ 0 then spiFlashPoll polls else pure ⟨⟩

/-- A block erase, from the write-enable to its end. -/
def eraseFrame (polls : Nat) (flashAddr : UInt32) : Driver σ PUnit := do
  spiFlashCmd spi .writeEnable
  spiCsEn spi
  let _ ← spiTransfer spi BootFlashCmd.sectorErase.code
  spiFlashSendAddr spi flashAddr
  spiCsDis spi
  spiFlashPoll spi polls

/-- A byte programmed, from the write-enable to its end. -/
def programFrame (polls : Nat) (flashAddr : UInt32) (wdata : UInt8) : Driver σ PUnit := do
  spiFlashCmd spi .writeEnable
  spiCsEn spi
  let _ ← spiTransfer spi BootFlashCmd.pageProgram.code
  spiFlashSendAddr spi flashAddr
  let _ ← spiTransfer spi wdata
  spiCsDis spi
  spiFlashPoll spi polls

/-- Four bytes read. -/
def readFrame (flashAddr : UInt32) : Driver σ UInt32 := do
  spiCsEn spi
  let _ ← spiTransfer spi BootFlashCmd.read.code
  spiFlashSendAddr spi flashAddr
  let byte0 ← spiTransfer spi 0
  let byte1 ← spiTransfer spi 0
  let byte2 ← spiTransfer spi 0
  let byte3 ← spiTransfer spi 0
  spiCsDis spi
  pure (read32 [byte0, byte1, byte2, byte3])

/-! ## The driver -/

/-- What the driver does with the flash, seen from the bootloader. -/
def onFlash {α : Type} (program : Driver σ α) : Loader σ α := fun s =>
  match program s.streams.spi with
  | .ok value spi => .ok value { s with streams := { s.streams with spi := spi } }
  | .err spi => .err { s with streams := { s.streams with spi := spi } }
  | .fault reason => .fault (.driver reason)

/-- Set the running address. -/
def setFlashAddr (flashAddr : UInt32) : Loader σ PUnit := Run.modify fun s =>
  { s with streams := { s.streams with flashAddr := flashAddr } }

/-- Look for the flash and go to the base address: 1 without an SPI controller, and -1
if the latch cannot be set and cleared again. -/
def spiFlashSetup (available : Bool) : Loader σ Int :=
  if !available then pure 1
  else do
    setFlashAddr bootFlashBase
    onFlash (spiFlashCmd spi .wake)
    onFlash (spiFlashCmd spi .writeEnable)
    let status ← onFlash (spiFlashReadStatus spi)
    if status &&& 2 = 0 then pure (-1)
    else do
      onFlash (spiFlashCmd spi .writeDisable)
      let status ← onFlash (spiFlashReadStatus spi)
      if status &&& 2 ≠ 0 then pure (-1) else pure 0

/-- The loop over the sectors still to erase. -/
def eraseLoop (polls : Nat) : Nat → Loader σ PUnit
  | 0 => pure ⟨⟩
  | numSectors + 1 => do
    let s ← Run.get
    onFlash (eraseFrame spi polls s.streams.flashAddr)
    setFlashAddr (s.streams.flashAddr + bootSectorSize)
    eraseLoop polls numSectors

/-- Erase as many blocks as the data fills and one more, from the base address on. -/
def spiFlashErase (polls : Nat) : Loader σ Int := do
  setFlashAddr bootFlashBase
  let s ← Run.get
  eraseLoop spi polls (s.exeSize / bootSectorSize + 1).toNat
  setFlashAddr bootFlashBase
  pure 0

/-- The next word of the flash. -/
def spiFlashStreamGet : Loader σ (Int × UInt32) := do
  let s ← Run.get
  let rdata ← onFlash (readFrame spi s.streams.flashAddr)
  setFlashAddr (s.streams.flashAddr + 4)
  pure (0, rdata)

/-- The loop over the bytes of a word still to write. -/
def putLoop (polls : Nat) : List UInt8 → Loader σ PUnit
  | [] => pure ⟨⟩
  | byte :: bytes => do
    let s ← Run.get
    onFlash (programFrame spi polls s.streams.flashAddr byte)
    setFlashAddr (s.streams.flashAddr + 1)
    putLoop polls bytes

/-- Write the next word to the flash, byte by byte. -/
def spiFlashStreamPut (polls : Nat) (wdata : UInt32) : Loader σ Int := do
  putLoop spi polls (wordBytes wdata)
  pure 0

end

end NeoSfp
