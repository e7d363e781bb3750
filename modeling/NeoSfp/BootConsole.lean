import NeoSfp.BootFlash
import NeoSfp.Uploads

/-!
# The bootloader's console

The bootloader's main program: an automatic sequence that boots from the flash, and a
console whose commands load, store and start an executable. The driver of the flash
changes nothing but the streams.
-/

namespace NeoSfp

open Checked NorFlash

/-! ## The console -/

/-- What the session does next. -/
inductive Verdict where
  | next
  | halt
  | restart
  | boot (addr : UInt32)
deriving DecidableEq, Repr

/-- The registers that `i` shows. -/
structure SystemInfo where
  mimpid : UInt32
  clk : UInt32
  misa : UInt32
  mxisah : UInt32
  mxisa : UInt32
  soc : UInt32
  misc : UInt32
deriving DecidableEq, Repr

section

variable {σ : Type} (spi : Slave σ) (available : Bool) (polls rounds : Nat) (info : SystemInfo)

/-- Load an executable from the flash. -/
def loadFlash : Loader σ Int :=
  systemAppLoad rounds (spiFlashSetup spi available) (spiFlashStreamGet spi)

/-- The list of commands. -/
def bootHelp : List UInt8 :=
  bytes ("Available CMDs:\nh: Help\ni: System info\nr: Restart\nu: Upload via UART\n" ++
    "l: SPI flash - load\ns: SPI flash - program\ne: Start executable\nx: Exit\n")

/-- Show the registers of the system. -/
def printInfo : Loader σ PUnit := do
  uartPuts (bytes "HWV:  ")
  uartPuth info.mimpid
  uartPuts (bytes "\nCLK:  ")
  uartPuth info.clk
  uartPuts (bytes "\nMISA: ")
  uartPuth info.misa
  uartPuts (bytes "\nXISA: ")
  uartPuth info.mxisah
  uartPutc '_'
  uartPuth info.mxisa
  uartPuts (bytes "\nSOC:  ")
  uartPuth info.soc
  uartPuts (bytes "\nMISC: ")
  uartPuth info.misc
  uartPuts (bytes "\n")

/-- A command that has been read. -/
def bootCommand (cmd : UInt8) : Loader σ Verdict :=
  if cmd = 'r' then pure .restart
  else if cmd = 'u' then do
    uartPuts (bytes "Awaiting neorv32_exe.bin... ")
    let status ← systemAppLoad rounds uartSetup uartStreamGet
    if status ≠ 0 then pure .halt else pure .next
  else if cmd = 'e' then do
    let started ← systemAppBoot
    match started with
    | some addr => pure (.boot addr)
    | none => pure .next
  else if cmd = 'x' then pure .halt
  else if cmd = 'h' then do
    uartPuts bootHelp
    pure .next
  else if cmd = 'i' then do
    printInfo info
    pure .next
  else if cmd = 's' then do
    let _ ← systemAppStore rounds (spiFlashSetup spi available) (spiFlashErase spi polls)
      (spiFlashStreamPut spi polls)
    pure .next
  else if cmd = 'l' then do
    uartPuts (bytes "Loading from SPI flash @0x00400000... ")
    let _ ← loadFlash spi available rounds
    pure .next
  else pure .next

/-- One round of the console: a key is read, echoed and carried out. -/
def consoleRound : Loader σ Verdict := do
  uartPuts (bytes "CMD:> ")
  let cmd ← uartGetc
  uartPutc cmd
  uartPutc '\n'
  bootCommand spi available polls rounds info cmd

/-- The loop of the console. -/
def bootConsole : Nat → Loader σ Verdict
  | 0 => Run.fault .rounds
  | commands + 1 => do
    let verdict ← consoleRound spi available polls rounds info
    match verdict with
    | .next => bootConsole commands
    | verdict => pure verdict

/-- The sequence in front of the console. With a timer the user may have aborted it; the
key is discarded. -/
def autoBoot (clint aborted : Bool) : Loader σ Verdict := do
  uartPuts (bytes "Auto-boot")
  if clint && aborted then do
    uartPuts (bytes " in 8s. Press any key to abort.\n")
    let _ ← uartGetc
    uartPuts (bytes "Aborted.\n\n")
    pure .next
  else do
    uartPuts (if clint then bytes " in 8s. Press any key to abort.\n" else [])
    uartPutc '\n'
    uartPuts (bytes "Loading from SPI flash @0x00400000... ")
    let status ← loadFlash spi available rounds
    if status = 0 then do
      let started ← systemAppBoot
      match started with
      | some addr => pure (.boot addr)
      | none => pure .next
    else pure .next

/-- The greeting with the date of the build. -/
def bootIntro (date : List UInt8) : List UInt8 :=
  bytes "\n\nNEORV32 Bootloader\nbuild: " ++ date ++ bytes "\n\n"

/-- The bootloader: its greeting, the automatic sequence, and the console if that has
not started anything. -/
def bootMain (date : List UInt8) (clint aborted : Bool) (commands : Nat) : Loader σ Verdict := do
  uartPuts (bootIntro date)
  let verdict ← autoBoot spi available rounds clint aborted
  match verdict with
  | .next => do
    uartPuts (bytes "Type 'h' for help.\n")
    bootConsole spi available polls rounds info commands
  | verdict => pure verdict

end

/-! ## What is left alone -/

section

variable {σ : Type} {spi : Slave σ}

/-- The executable, as far as the bootloader knows it, and the memory it is in. -/
def Boot.executable (s : Boot σ) : (UInt32 → Region) × MainMemory × UInt32 × UInt32 :=
  (s.region, s.memory, s.exeBase, s.exeSize)

/-- Waiting for a character keeps whatever does not look at the input. -/
theorem getc_preserves {γ : Type} {view : Boot σ → γ}
    (same : ∀ s input, view { s with streams := { s.streams with input := input } } = view s) :
    Run.Preserves view (uartGetc : Loader σ UInt8) := by
  intro s c s' returned
  cases received : s.streams.input with
  | nil =>
    rw [uartGetc_waits received] at returned
    cases returned
  | cons c' input =>
    rw [uartGetc_apply received, Outcome.ok.injEq] at returned
    rw [← returned.2, same]

/-- Sending a text keeps whatever does not look at the output. -/
theorem puts_preserves {γ : Type} {view : Boot σ → γ}
    (same : ∀ s output, view { s with output := output } = view s)
    (text : List UInt8) : Run.Preserves view (uartPuts text : Loader σ PUnit) := by
  intro s result s' returned
  rw [uartPuts_apply, Outcome.ok.injEq] at returned
  rw [← returned.2, same]

/-- Sending a number keeps whatever does not look at the output. -/
theorem puth_preserves {γ : Type} {view : Boot σ → γ}
    (same : ∀ s output, view { s with output := output } = view s)
    (num : UInt32) : Run.Preserves view (uartPuth num : Loader σ PUnit) := by
  intro s result s' returned
  rw [uartPuth_apply, Outcome.ok.injEq] at returned
  rw [← returned.2, same]

/-- A program of the flash driver touches nothing but the streams. -/
theorem onFlash_framed {α : Type} (program : Driver σ α) : Framed (onFlash program : Loader σ α) := by
  intro s value s' returned
  cases ran : program s.streams.spi with
  | err spi => simp [onFlash, ran] at returned
  | fault reason => simp [onFlash, ran] at returned
  | ok result spi =>
    simp only [onFlash, ran, Outcome.ok.injEq] at returned
    obtain ⟨rfl, rfl⟩ := returned
    refine ⟨_, rfl, ?_⟩
    intro u same
    rw [onFlash, same, ran]

/-- Setting the address in the flash touches nothing but the streams. -/
theorem setFlashAddr_framed (flashAddr : UInt32) : Framed (setFlashAddr flashAddr : Loader σ PUnit) := by
  intro s value s' returned
  rw [setFlashAddr, Run.modify_apply, Outcome.ok.injEq] at returned
  obtain ⟨-, rfl⟩ := returned
  refine ⟨_, rfl, ?_⟩
  intro u same
  rw [setFlashAddr, Run.modify_apply, same]

/-- A computation that touches only the streams keeps every view that does not look at
them. -/
theorem framed_preserves {α γ : Type} {view : Boot σ → γ} {program : Loader σ α} (framed : Framed program)
    (same : ∀ s d, view { s with streams := d } = view s) : Run.Preserves view program := by
  intro s value s' returned
  obtain ⟨d', rfl, -⟩ := framed s value s' returned
  exact same s d'

/-- Looking for the flash touches nothing but the streams, whether or not the unit is
there. -/
theorem setup_framed (available : Bool) : Framed (spiFlashSetup spi available) := by
  refine framed_ite (framed_pure _) (framed_bind (setFlashAddr_framed _) fun _ => ?_)
  refine framed_bind (onFlash_framed _) fun _ => framed_bind (onFlash_framed _) fun _ => ?_
  refine framed_bind (onFlash_framed _) fun status => framed_ite (framed_pure _) ?_
  refine framed_bind (onFlash_framed _) fun _ => framed_bind (onFlash_framed _) fun status => ?_
  exact framed_ite (framed_pure _) (framed_pure _)

/-- A computation that begins by looking at the flash address may do so: the address is
part of the streams, so what follows still depends on nothing else. -/
theorem framed_flashAddr {α : Type} {next : Boot σ → Loader σ α} (framed : ∀ s, Framed (next s))
    (by_address : ∀ s u : Boot σ, s.streams = u.streams → next s = next u) : Framed (Run.get >>= next) := by
  intro s value s' returned
  obtain ⟨d', rfl, again⟩ := framed s s value s' returned
  refine ⟨d', rfl, ?_⟩
  intro u same
  rw [Run.bind_apply, Run.get_apply, Run.andThen_ok, by_address u s same]
  exact again u same

/-- Reading a word of the flash touches nothing but the streams. -/
theorem streamGet_framed : Framed (spiFlashStreamGet spi) := by
  refine framed_flashAddr (fun s => ?_) fun s u same => by rw [same]
  exact framed_bind (onFlash_framed _) fun _ => framed_bind (setFlashAddr_framed _) fun _ => framed_pure _

/-- Reading a word of the flash always reports success, whatever the flash answers. -/
theorem streamGet_certain (s : Boot σ) (result : Int × UInt32) (s' : Boot σ)
    (returned : spiFlashStreamGet spi s = .ok result s') : result.1 = 0 := by
  obtain ⟨t, s₁, -, returned⟩ := Run.bind_ok returned
  obtain ⟨rdata, s₂, -, returned⟩ := Run.bind_ok returned
  obtain ⟨⟨⟩, s₃, -, returned⟩ := Run.bind_ok returned
  rw [Run.pure_apply, Outcome.ok.injEq] at returned
  rw [← returned.1]

end

end NeoSfp
