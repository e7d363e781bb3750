import NeoSfp.Bytes
import NeoSfp.Checked
import NeoSfp.NorFlash

/-!
# The SPI flash driver

The driver talks to a device through the three calls of the vendor's SPI library.
Its state is the device's, with the calls made and the places of the caller's
buffer read so far. The polling loop has no bound of its own, so its iterations are
counted against a given number; running out of them is a fault. Addresses are
32-bit and wrap. Lengths count at most ten blocks and are natural numbers.
-/

namespace NeoSfp

open Checked NorFlash

/-- The bytes that one erase clears. -/
def spiFlashSectorSize : Nat := 4096
/-- The size of a block; the bulk write takes ten of them at most. -/
def spiFlashBlockSize : Nat := 65536
/-- The bytes inside which one program command stays. -/
def spiFlashPageSize : Nat := 256

/-- The commands that the driver uses, by the source's names. -/
inductive SpiFlashCmd where
  | pageProgram
  | read
  | writeDisable
  | readStatus
  | writeEnable
  | wake
  | eraseSector
deriving DecidableEq, Repr

/-- The byte that is sent for a command. -/
def SpiFlashCmd.code : SpiFlashCmd → UInt8
  | .pageProgram => 0x02
  | .read => 0x03
  | .writeDisable => 0x04
  | .readStatus => 0x05
  | .writeEnable => 0x06
  | .wake => 0xAB
  | .eraseSector => 0x20

/-- A call of the SPI library. -/
inductive SpiCall where
  | csEn
  | csDis
  | transfer (b : UInt8)
deriving DecidableEq, Repr

/-- A run that polls longer than allowed, or a loop that outlives its fuel. -/
inductive DriverFault where
  | polls
  | fuel
deriving DecidableEq, Repr

/-- The device, with the calls made and the places of the caller's buffer that were
read. -/
structure DriverState (σ : Type) where
  dev : σ
  calls : List SpiCall := []
  reads : List Nat := []

/-- A routine of the driver on a device with states in `σ`. -/
abbrev Driver (σ : Type) := Run DriverFault (DriverState σ)

section

variable {σ : Type} (spi : Slave σ)

/-! ## Calls -/

/-- Select the device. -/
def spiCsEn : Driver σ PUnit := Run.modify fun s =>
  { s with dev := spi.select s.dev, calls := s.calls ++ [.csEn] }

/-- Release the device, which is when it acts on a command. -/
def spiCsDis : Driver σ PUnit := Run.modify fun s =>
  { s with dev := spi.release s.dev, calls := s.calls ++ [.csDis] }

/-- Send a byte; the value is the byte that the device sends at the same time. -/
def spiTransfer (b : UInt8) : Driver σ UInt8 := do
  let s ← Run.get
  Run.modify fun s =>
    { s with dev := (spi.exchange b s.dev).2, calls := s.calls ++ [.transfer b] }
  pure (spi.exchange b s.dev).1

/-- The read `pData[i]`. -/
def readData (pData : Memory) (i : Nat) : Driver σ UInt8 := do
  Run.modify fun s => { s with reads := s.reads ++ [i] }
  pure (pData i)

/-! ## Commands -/

/-- A frame that consists of the command alone. -/
def command (cmd : SpiFlashCmd) : Driver σ PUnit := do
  spiCsEn spi
  let _ ← spiTransfer spi cmd.code
  spiCsDis spi

/-- Release the device from its power-down mode. -/
def neoSpiFlashWakeup : Driver σ PUnit := command spi .wake

/-- Set the write-enable latch. -/
def neoSpiFlashWriteEnable : Driver σ PUnit := command spi .writeEnable

/-- Clear the write-enable latch. -/
def neoSpiFlashWriteDisable : Driver σ PUnit := command spi .writeDisable

/-- The status register, in one frame. -/
def neoSpiFlashReadStatus : Driver σ UInt8 := do
  spiCsEn spi
  let _ ← spiTransfer spi SpiFlashCmd.readStatus.code
  let res ← spiTransfer spi 0
  spiCsDis spi
  pure res

/-- Poll until the BUSY bit is clear. -/
def neoSpiFlashWaitWip : Nat → Driver σ PUnit
  | 0 => Run.fault .polls
  | polls + 1 => do
    let status ← neoSpiFlashReadStatus spi
    if status &&& 1 ≠ 0 then neoSpiFlashWaitWip polls else pure ⟨⟩

/-- Byte `k` of a word in memory, least significant first. -/
def wordByte (word : UInt32) (k : Nat) : UInt8 := UInt8.ofNat (word.toNat / 256 ^ k)

/-- Three address bytes, most significant first. -/
def neoSpiFlashWriteAddr (addr : UInt32) : Driver σ PUnit := do
  let _ ← spiTransfer spi (wordByte addr 2)
  let _ ← spiTransfer spi (wordByte addr 1)
  let _ ← spiTransfer spi (wordByte addr 0)
  pure ⟨⟩

/-! ## Public functions -/

/-- The write-enable latch of the status register. -/
def latched (status : UInt8) : Bool := status &&& 2 ≠ 0

/-- Look for a device: 0 if its latch can be set and cleared again, and -1 otherwise. -/
def neoSpiFlashCheck : Driver σ Int := do
  neoSpiFlashWakeup spi
  neoSpiFlashWriteEnable spi
  let status ← neoSpiFlashReadStatus spi
  if latched status then do
    neoSpiFlashWriteDisable spi
    let status ← neoSpiFlashReadStatus spi
    pure (if latched status then -1 else 0)
  else
    pure (-1)

/-- One byte from the flash. -/
def neoSpiFlashReadByte (addr : UInt32) : Driver σ UInt8 := do
  spiCsEn spi
  let _ ← spiTransfer spi SpiFlashCmd.read.code
  neoSpiFlashWriteAddr spi addr
  let rdata ← spiTransfer spi 0
  spiCsDis spi
  pure rdata

/-- Receive `left` bytes, to be stored from `pData[i]` on. -/
def receiveLoop : Nat → Nat → Memory → Driver σ Memory
  | 0, _, pData => pure pData
  | left + 1, i, pData => do
    let b ← spiTransfer spi 0
    receiveLoop left (i + 1) (Function.update pData i b)

/-- The value is the buffer left behind. -/
def neoSpiFlashReadPage (addr : UInt32) (length : Nat) (pData : Memory) : Driver σ Memory := do
  let length := min length spiFlashPageSize
  spiCsEn spi
  let _ ← spiTransfer spi SpiFlashCmd.read.code
  neoSpiFlashWriteAddr spi addr
  let pData ← receiveLoop spi length 0 pData
  spiCsDis spi
  pure pData

/-- Send the `left` bytes from `pData[i]` on. -/
def sendLoop (pData : Memory) : Nat → Nat → Driver σ PUnit
  | 0, _ => pure ⟨⟩
  | left + 1, i => do
    let b ← readData pData i
    let _ ← spiTransfer spi b
    sendLoop pData left (i + 1)

/-- Program one byte and wait until the device is done. -/
def neoSpiFlashWriteByte (polls : Nat) (addr : UInt32) (wdata : UInt8) : Driver σ PUnit := do
  neoSpiFlashWriteEnable spi
  spiCsEn spi
  let _ ← spiTransfer spi SpiFlashCmd.pageProgram.code
  neoSpiFlashWriteAddr spi addr
  let _ ← spiTransfer spi wdata
  spiCsDis spi
  neoSpiFlashWaitWip spi polls

/-- Send the `left` bytes of a word from byte `i` on. -/
def wordLoop (wdata : UInt32) : Nat → Nat → Driver σ PUnit
  | 0, _ => pure ⟨⟩
  | left + 1, i => do
    let _ ← spiTransfer spi (wordByte wdata i)
    wordLoop wdata left (i + 1)

/-- Program the four bytes of a word, least significant first, and wait. -/
def neoSpiFlashWriteWord (polls : Nat) (addr : UInt32) (wdata : UInt32) : Driver σ PUnit := do
  neoSpiFlashWriteEnable spi
  spiCsEn spi
  let _ ← spiTransfer spi SpiFlashCmd.pageProgram.code
  neoSpiFlashWriteAddr spi addr
  wordLoop spi wdata 4 0
  spiCsDis spi
  neoSpiFlashWaitWip spi polls

/-- Program the first bytes of the buffer, a page at most, and wait. -/
def neoSpiFlashWritePage (polls : Nat) (addr : UInt32) (length : Nat) (pData : Memory) :
    Driver σ PUnit := do
  let length := min length spiFlashPageSize
  neoSpiFlashWriteEnable spi
  spiCsEn spi
  let _ ← spiTransfer spi SpiFlashCmd.pageProgram.code
  neoSpiFlashWriteAddr spi addr
  sendLoop spi pData length 0
  spiCsDis spi
  neoSpiFlashWaitWip spi polls

/-- Erase the sector that the address lies in, and wait. -/
def neoSpiFlashEraseSector (polls : Nat) (addr : UInt32) : Driver σ PUnit := do
  neoSpiFlashWriteEnable spi
  spiCsEn spi
  let _ ← spiTransfer spi SpiFlashCmd.eraseSector.code
  neoSpiFlashWriteAddr spi addr
  spiCsDis spi
  neoSpiFlashWaitWip spi polls

/-- Erase at `addr` once it has left the sector erased last; the value is the
address of the last erase. -/
def eraseAhead (polls : Nat) (addr addressErasePrev : UInt32) : Driver σ UInt32 :=
  if addr ≥ addressErasePrev + UInt32.ofNat spiFlashSectorSize then do
    neoSpiFlashEraseSector spi polls addr
    pure addr
  else
    pure addressErasePrev

/-- The loop of the bulk write: every page is programmed from the buffer's start. -/
def hugeLoop (polls : Nat) (length : Nat) (pData : Memory) :
    Nat → UInt32 → UInt32 → Nat → Driver σ PUnit
  | 0, _, _, _ => Run.fault .fuel
  | fuel + 1, addr, addressErasePrev, j =>
    if j < length then do
      let addressErasePrev ← eraseAhead spi polls addr addressErasePrev
      neoSpiFlashWritePage spi polls addr spiFlashPageSize pData
      hugeLoop polls length pData fuel (addr + UInt32.ofNat spiFlashPageSize) addressErasePrev
        (j + spiFlashPageSize)
    else
      pure ⟨⟩

/-- Erase and program a range page by page. Nothing is done without a buffer or for no
bytes, and no more than ten blocks are written. -/
def neoSpiFlashWriteHuge (polls : Nat) (addr : UInt32) (length : Nat) (pData : Option Memory) :
    Driver σ PUnit :=
  match pData with
  | none => pure ⟨⟩
  | some pData =>
    if length = 0 then
      pure ⟨⟩
    else do
      let length := min length (spiFlashBlockSize * 10)
      neoSpiFlashEraseSector spi polls addr
      hugeLoop spi polls length pData (length + 1) addr addr 0

end

end NeoSfp
