import NeoSfp.ImageGen

/-!
# The bootloader

The bootloader loads an executable from a stream of words into the memory, and stores
one on a device. Which stream or device that is comes as a set of functions. What lies
behind an address is a matter of the hardware, and comes as a map of the address space.
An access to a word that is not aligned is trapped, and so are one to an address at which
nothing answers and a write to a read-only memory; the trap handler halts.
-/

namespace NeoSfp

open Checked

/-! ## Memory -/

/-- What lies behind the address of a word. The bootloader has its variables and its stack
at the start of the data memory (`__neorv32_ram_base` and `__neorv32_ram_size` in its
makefile); it lies itself in a memory that can only be read. -/
inductive Region where
  | ram
  | rom
  | own
  | device
  | nothing
deriving DecidableEq, Repr

/-- The bytes behind the addresses. They mean something in a memory only. -/
abbrev MainMemory := UInt32 → UInt8

/-- Bytes put in the memory from an address on. -/
def MainMemory.place (addr : UInt32) (data : List UInt8) (m : MainMemory) : MainMemory := fun a =>
  if (a - addr).toNat < data.length then data.getD (a - addr).toNat 0 else m a

/-- The word at an address, least significant byte first. -/
def MainMemory.word (m : MainMemory) (addr : UInt32) : UInt32 :=
  read32 [m addr, m (addr + 1), m (addr + 2), m (addr + 3)]

/-! ## State -/

/-- Where the bootloader stops for good. An access to its own variables and stack or to the
registers of a device can do anything, and is where the model ends. -/
inductive BootFault where
  | trap
  | own
  | device
  | rounds
  | driver (reason : DriverFault)
deriving DecidableEq, Repr

/-- What the streams of words come from: what UART0 has still to receive, the address in
the flash, and the flash behind the SPI controller. -/
structure Streams (σ : Type) where
  input : List UInt8 := []
  flashAddr : UInt32 := 0
  spi : DriverState σ

/-- The bootloader's variables, the map of the address space, the memory, what has been
printed, and the streams. -/
structure Boot (σ : Type) where
  exeBase : UInt32 := 0
  exeSize : UInt32 := 0
  region : UInt32 → Region
  memory : MainMemory
  output : List UInt8 := []
  streams : Streams σ

/-- An error is a wait for a character that does not come. -/
abbrev Loader (σ : Type) := Run BootFault (Boot σ)

/-- The word with which every executable begins. -/
def binSignature : UInt32 := 0x214F454E

/-- Where the data begins behind the header. -/
def binOffsetData : UInt32 := 16

section

variable {σ : Type}

/-! ## UART0 -/

/-- Wait for a character. -/
def uartGetc : Loader σ UInt8 := do
  let s ← Run.get
  match s.streams.input with
  | [] => Run.reject id
  | c :: input => do
    Run.modify fun s => { s with streams := { s.streams with input := input } }
    pure c

/-- A line feed is sent behind a carriage return. -/
def uartPutc (c : UInt8) : Loader σ PUnit := Run.modify fun s =>
  { s with output := s.output ++ if c = byte '\n' then [byte '\r', c] else [c] }

/-- Send a string. -/
def uartPuts : List UInt8 → Loader σ PUnit
  | [] => pure ⟨⟩
  | c :: s => do
    uartPutc c
    uartPuts s

/-- Send a number in eight upper-case hex digits behind `0x`. -/
def uartPuth (num : UInt32) : Loader σ PUnit := do
  uartPutc '0'
  uartPutc 'x'
  uartPuts ((List.range 8).map fun k =>
    (bytes "0123456789ABCDEF").getD (num.toNat / 16 ^ (7 - k) % 16) 0)

/-- There is nothing to set up for an upload, and it succeeds. -/
def uartSetup : Loader σ Int := pure 0

/-- A word from UART0, least significant byte first. It always succeeds, because it
waits. -/
def uartStreamGet : Loader σ (Int × UInt32) := do
  let byte0 ← uartGetc
  let byte1 ← uartGetc
  let byte2 ← uartGetc
  let byte3 ← uartGetc
  pure (0, read32 [byte0, byte1, byte2, byte3])

/-! ## Loading and storing -/

/-- Store a word. Only an aligned one of free memory is stored; elsewhere the access
traps, or it reaches what the model leaves out. -/
def storeUnsignedWord (addr wdata : UInt32) : Loader σ PUnit := do
  let s ← Run.get
  if addr % 4 = 0 then
    match s.region addr with
    | .ram => Run.modify fun s => { s with memory := s.memory.place addr (wordBytes wdata) }
    | .own => Run.fault .own
    | .device => Run.fault .device
    | .rom | .nothing => Run.fault .trap
  else Run.fault .trap

/-- Read a word, from a memory of either kind. -/
def loadUnsignedWord (addr : UInt32) : Loader σ UInt32 := do
  let s ← Run.get
  if addr % 4 = 0 then
    match s.region addr with
    | .ram | .rom => pure (s.memory.word addr)
    | .own => Run.fault .own
    | .device => Run.fault .device
    | .nothing => Run.fault .trap
  else Run.fault .trap

/-- Transfer the executable: whether the stream has failed, and the checksum. -/
def transferLoop (streamGet : Loader σ (Int × UInt32)) (baseAddr size : UInt32) :
    Nat → UInt32 → Bool → UInt32 → Loader σ (Bool × UInt32)
  | 0, _, _, _ => Run.fault .rounds
  | rounds + 1, i, rc, checksum =>
    if i < size then
      if rc then pure (rc, checksum)
      else do
        let (status, tmp) ← streamGet
        storeUnsignedWord (baseAddr + i) tmp
        transferLoop streamGet baseAddr size rounds (i + 4) (status ≠ 0) (checksum + tmp)
    else pure (rc, checksum)

/-- Load an executable: header, words and checksum. The size is cleared first and
recorded only at the end; the base is recorded with the header. -/
def systemAppLoad (rounds : Nat) (devInit : Loader σ Int) (streamGet : Loader σ (Int × UInt32)) :
    Loader σ Int := do
  Run.modify fun s => { s with exeSize := 0 }
  let status ← devInit
  if status ≠ 0 then do
    uartPuts (bytes "\x07ERROR_DEVICE\n")
    pure 1
  else do
    let (rc0, signature) ← streamGet
    let (rc1, baseAddr) ← streamGet
    let (rc2, size) ← streamGet
    let (rc3, checksum) ← streamGet
    Run.modify fun s => { s with exeBase := baseAddr }
    if signature ≠ binSignature then do
      uartPuts (bytes "\x07ERROR_SIGNATURE\n")
      pure 1
    else do
      let (rc, checksum) ← transferLoop streamGet baseAddr size rounds 0
        (rc0 ≠ 0 || rc1 ≠ 0 || rc2 ≠ 0 || rc3 ≠ 0) checksum
      if rc then do
        uartPuts (bytes "\x07ERROR_DEVICE\n")
        pure 1
      else if checksum + 1 ≠ 0 then do
        uartPuts (bytes "\x07ERROR_CHECKSUM\n")
        pure 1
      else do
        Run.modify fun s => { s with exeSize := size }
        uartPuts (bytes "OK\n")
        pure 0

/-- Write the executable: whether the stream has failed, and the checksum. -/
def flashLoop (streamPut : UInt32 → Loader σ Int) (baseAddr size : UInt32) :
    Nat → UInt32 → UInt32 → Loader σ (Bool × UInt32)
  | 0, _, _ => Run.fault .rounds
  | rounds + 1, i, checksum =>
    if i < size then do
      let tmp ← loadUnsignedWord (baseAddr + i)
      let status ← streamPut tmp
      if status ≠ 0 then pure (true, checksum + tmp)
      else flashLoop streamPut baseAddr size rounds (i + 4) (checksum + tmp)
    else pure (false, checksum)

/-- Store the executable in memory on a device, behind a question to the user: erase,
write the words, and write the header in front of them. -/
def systemAppStore (rounds : Nat) (devInit devErase : Loader σ Int) (streamPut : UInt32 → Loader σ Int) :
    Loader σ Int := do
  let s ← Run.get
  if s.exeSize = 0 then do
    uartPuts (bytes "No executable.\n")
    pure 1
  else do
    let status ← devInit
    if status ≠ 0 then do
      uartPuts (bytes "\x07ERROR_DEVICE\n")
      pure 1
    else do
      let s ← Run.get
      let baseAddr := s.exeBase
      let size := s.exeSize
      let addrBackup := s.streams.flashAddr
      uartPuts (bytes "Write ")
      uartPuth size
      uartPuts (bytes " bytes from ")
      uartPuth baseAddr
      uartPuts (bytes " to flash @")
      uartPuth addrBackup
      uartPuts (bytes "? (y/n)\n")
      let answer ← uartGetc
      if answer ≠ 'y' then pure 1
      else do
        uartPuts (bytes "Flashing... ")
        let status ← devErase
        if status ≠ 0 then do
          uartPuts (bytes "\x07ERROR_DEVICE\n")
          pure 1
        else do
          Run.modify fun s => { s with
            streams := { s.streams with flashAddr := s.streams.flashAddr + binOffsetData } }
          let (rc, checksum) ← flashLoop streamPut baseAddr size rounds 0 0
          Run.modify fun s => { s with streams := { s.streams with flashAddr := addrBackup } }
          let rc0 ← streamPut binSignature
          let rc1 ← streamPut baseAddr
          let rc2 ← streamPut size
          let rc3 ← streamPut (~~~ checksum)
          if rc || rc0 ≠ 0 || rc1 ≠ 0 || rc2 ≠ 0 || rc3 ≠ 0 then do
            uartPuts (bytes "\x07ERROR_DEVICE\n")
            pure 1
          else do
            uartPuts (bytes "OK\n")
            pure 0

/-- Whether to boot; without an executable the user is asked. -/
def bootConfirmed : Loader σ Bool := do
  let s ← Run.get
  if s.exeSize = 0 then do
    uartPuts (bytes "No executable. Boot anyway? (y/n)\n")
    let answer ← uartGetc
    pure (answer == 'y')
  else pure true

/-- Where the application is started, if it is. -/
def systemAppBoot : Loader σ (Option UInt32) := do
  let confirmed ← bootConfirmed
  if confirmed then do
    let s ← Run.get
    uartPuts (bytes "Booting from ")
    uartPuth s.exeBase
    uartPuts (bytes "...\n\n")
    pure (some s.exeBase)
  else pure none

end

end NeoSfp
