import NeoSfp.BootConsole

/-!
# Sessions with the bootloader

Whatever is typed and whatever the flash answers, an application that the bootloader
starts without having been told to boot anyway is an executable that has come in whole,
and as it has come in.
-/

namespace NeoSfp

open Checked NorFlash

section

variable {σ : Type} {spi : Slave σ} {available : Bool} {polls rounds : Nat} {info : SystemInfo}

/-! ## The executable -/

/-- The executable does not depend on the streams. -/
theorem executable_streams (s : Boot σ) (d : Streams σ) : Boot.executable { s with streams := d } = s.executable :=
  rfl

/-- The executable does not depend on what has been printed. -/
theorem executable_output (s : Boot σ) (output : List UInt8) :
    Boot.executable { s with output := output } = s.executable := rfl

/-- Sending a text keeps the executable. -/
theorem text_preserves (text : List UInt8) :
    Run.Preserves Boot.executable (uartPuts text : Loader σ PUnit) := puts_preserves executable_output text

/-- Sending a number keeps the executable. -/
theorem number_preserves (num : UInt32) :
    Run.Preserves Boot.executable (uartPuth num : Loader σ PUnit) := puth_preserves executable_output num

/-- Waiting for a key keeps the executable. -/
theorem key_preserves : Run.Preserves Boot.executable (uartGetc : Loader σ UInt8) :=
  getc_preserves fun _ _ => rfl

/-- Erasing blocks keeps the executable in the memory. By induction on the blocks
left. -/
theorem eraseLoop_preserves (count : Nat) : Run.Preserves Boot.executable (eraseLoop spi polls count) := by
  induction count with
  | zero => exact Run.preserves_pure _
  | succ count ih =>
    refine Run.preserves_bind Run.preserves_get fun s => ?_
    refine Run.preserves_bind (framed_preserves (onFlash_framed _) executable_streams) fun _ => ?_
    exact Run.preserves_bind (framed_preserves (setFlashAddr_framed _) executable_streams) fun _ => ih

/-- Erasing the place of the executable in the flash keeps the executable in the
memory. -/
theorem erase_preserves : Run.Preserves Boot.executable (spiFlashErase spi polls) := by
  have set (flashAddr : UInt32) := framed_preserves (setFlashAddr_framed flashAddr) (executable_streams (σ := σ))
  refine Run.preserves_bind (set _) fun _ => Run.preserves_bind Run.preserves_get fun s => ?_
  refine Run.preserves_bind (eraseLoop_preserves _) fun _ => Run.preserves_bind (set _) fun _ => ?_
  exact Run.preserves_pure _

/-- Programming bytes keeps the executable. By induction on the bytes. -/
theorem putLoop_preserves (bytes : List UInt8) : Run.Preserves Boot.executable (putLoop spi polls bytes) := by
  induction bytes with
  | nil => exact Run.preserves_pure _
  | cons byte bytes ih =>
    refine Run.preserves_bind Run.preserves_get fun s => ?_
    refine Run.preserves_bind (framed_preserves (onFlash_framed _) executable_streams) fun _ => ?_
    exact Run.preserves_bind (framed_preserves (setFlashAddr_framed _) executable_streams) fun _ => ih

/-- Programming a word keeps the executable. -/
theorem put_preserves (wdata : UInt32) : Run.Preserves Boot.executable (spiFlashStreamPut spi polls wdata) :=
  Run.preserves_bind (putLoop_preserves _) fun _ => Run.preserves_pure _

/-- Reading a word of the memory changes nothing, whether it succeeds or faults. -/
theorem loadWord_preserves (addr : UInt32) :
    Run.Preserves Boot.executable (loadUnsignedWord addr : Loader σ UInt32) := by
  refine Run.preserves_bind Run.preserves_get fun s => Run.preserves_ite ?_ (Run.preserves_fault _)
  cases s.region addr with
  | ram => exact Run.preserves_pure _
  | rom => exact Run.preserves_pure _
  | own => exact Run.preserves_fault _
  | device => exact Run.preserves_fault _
  | nothing => exact Run.preserves_fault _

/-- The loop that copies the executable to the flash keeps it in the memory. By
induction on the rounds. -/
theorem flashLoop_preserves (base size i checksum : UInt32) :
    Run.Preserves Boot.executable (flashLoop (spiFlashStreamPut spi polls) base size rounds i checksum) := by
  induction rounds generalizing i checksum with
  | zero => exact Run.preserves_fault _
  | succ rounds ih =>
    refine Run.preserves_ite ?_ (Run.preserves_pure _)
    refine Run.preserves_bind (loadWord_preserves _) fun _ => Run.preserves_bind (put_preserves _) fun _ => ?_
    exact Run.preserves_ite (Run.preserves_pure _) (ih _ _)

/-- A store leaves the executable as it is, whether it is carried out, declined or
refused. -/
theorem store_preserves : Run.Preserves Boot.executable
    (systemAppStore rounds (spiFlashSetup spi available) (spiFlashErase spi polls)
      (spiFlashStreamPut spi polls)) := by
  have failed (text : List UInt8) : Run.Preserves Boot.executable
      (do
        uartPuts text
        pure 1 : Loader σ Int) :=
    Run.preserves_bind (text_preserves text) fun _ => Run.preserves_pure _
  have init : Run.Preserves Boot.executable (spiFlashSetup spi available) :=
    framed_preserves (setup_framed available) executable_streams
  refine Run.preserves_bind Run.preserves_get fun s => Run.preserves_ite (failed _) ?_
  refine Run.preserves_bind init fun _ => Run.preserves_ite (failed _) ?_
  refine Run.preserves_bind Run.preserves_get fun s => ?_
  refine Run.preserves_bind (text_preserves _) fun _ => Run.preserves_bind (number_preserves _) fun _ => ?_
  refine Run.preserves_bind (text_preserves _) fun _ => Run.preserves_bind (number_preserves _) fun _ => ?_
  refine Run.preserves_bind (text_preserves _) fun _ => Run.preserves_bind (number_preserves _) fun _ => ?_
  refine Run.preserves_bind (text_preserves _) fun _ => Run.preserves_bind key_preserves fun _ => ?_
  refine Run.preserves_ite (Run.preserves_pure _) (Run.preserves_bind (text_preserves _) fun _ => ?_)
  refine Run.preserves_bind erase_preserves fun _ => Run.preserves_ite (failed _) ?_
  refine Run.preserves_bind (Run.preserves_modify fun _ => rfl) fun _ => ?_
  refine Run.preserves_bind (flashLoop_preserves _ _ _ _) fun _ => ?_
  refine Run.preserves_bind (Run.preserves_modify fun _ => rfl) fun _ => ?_
  refine Run.preserves_bind (put_preserves _) fun _ => Run.preserves_bind (put_preserves _) fun _ => ?_
  refine Run.preserves_bind (put_preserves _) fun _ => Run.preserves_bind (put_preserves _) fun _ => ?_
  exact Run.preserves_ite (failed _) (Run.preserves_bind (text_preserves _) fun _ => Run.preserves_pure _)

/-- Sending a text leaves the streams alone. -/
theorem text_streams (text : List UInt8) : Run.Preserves Boot.streams (uartPuts text : Loader σ PUnit) :=
  puts_preserves (fun _ _ => rfl) text

/-- Sending a character leaves the streams alone. -/
theorem putc_streams (c : UInt8) : Run.Preserves Boot.streams (uartPutc c : Loader σ PUnit) :=
  Run.preserves_modify fun _ => rfl

/-- Sending a character keeps the executable. -/
theorem putc_preserves (c : UInt8) : Run.Preserves Boot.executable (uartPutc c : Loader σ PUnit) :=
  Run.preserves_modify fun _ => rfl

/-- Showing the system's registers keeps the executable. -/
theorem info_preserves : Run.Preserves Boot.executable (printInfo info : Loader σ PUnit) := by
  refine Run.preserves_bind (text_preserves _) fun _ => Run.preserves_bind (number_preserves _) fun _ => ?_
  refine Run.preserves_bind (text_preserves _) fun _ => Run.preserves_bind (number_preserves _) fun _ => ?_
  refine Run.preserves_bind (text_preserves _) fun _ => Run.preserves_bind (number_preserves _) fun _ => ?_
  refine Run.preserves_bind (text_preserves _) fun _ => Run.preserves_bind (number_preserves _) fun _ => ?_
  refine Run.preserves_bind (putc_preserves _) fun _ => Run.preserves_bind (number_preserves _) fun _ => ?_
  refine Run.preserves_bind (text_preserves _) fun _ => Run.preserves_bind (number_preserves _) fun _ => ?_
  refine Run.preserves_bind (text_preserves _) fun _ => Run.preserves_bind (number_preserves _) fun _ => ?_
  exact text_preserves _

/-! ## Refusals -/

/-- A load that fails leaves no executable. -/
def Refuses (program : Loader σ Int) : Prop :=
  ∀ s status s', program s = .ok status s' → s.exeSize = 0 → status ≠ 0 → s'.exeSize = 0

/-- What comes before may do anything that keeps the size: a load refuses if what
follows does. -/
theorem refuses_bind {α : Type} {first : Loader σ α} {next : α → Loader σ Int}
    (head : Run.Preserves Boot.exeSize first) (tail : ∀ value, Refuses (next value)) :
    Refuses (first >>= next) := by
  intro s status s' returned cleared failed
  obtain ⟨value, middle, ran, continued⟩ := Run.bind_ok returned
  exact tail value middle status s' continued ((head _ _ _ ran).trans cleared) failed

/-- A choice between two loads that refuse is one. -/
theorem refuses_ite {condition : Prop} [Decidable condition] {yes no : Loader σ Int} (left : Refuses yes)
    (right : Refuses no) : Refuses (if condition then yes else no) := by
  split
  · exact left
  · exact right

/-- A computation that keeps the size keeps it at zero, so it refuses. -/
theorem refuses_of_preserves {program : Loader σ Int} (kept : Run.Preserves Boot.exeSize program) :
    Refuses program := by
  intro s status s' returned cleared _
  rw [kept s status s' returned, cleared]

/-- Storing a word keeps every view that does not look at the memory. -/
theorem storeWord_preserves {β : Type} {view : Boot σ → β}
    (kept : ∀ s memory, view { s with memory := memory } = view s) (addr wdata : UInt32) :
    Run.Preserves view (storeUnsignedWord addr wdata : Loader σ PUnit) := by
  refine Run.preserves_bind Run.preserves_get fun s => Run.preserves_ite ?_ (Run.preserves_fault _)
  cases s.region addr with
  | ram => exact Run.preserves_modify fun s => kept s _
  | rom => exact Run.preserves_fault _
  | own => exact Run.preserves_fault _
  | device => exact Run.preserves_fault _
  | nothing => exact Run.preserves_fault _

/-- The transfer of the words keeps the recorded size. By induction on the rounds. -/
theorem transferLoop_preserves {streamGet : Loader σ (Int × UInt32)} (framed : Framed streamGet)
    (base size i checksum : UInt32) (rc : Bool) :
    Run.Preserves Boot.exeSize (transferLoop streamGet base size rounds i rc checksum) := by
  induction rounds generalizing i rc checksum with
  | zero => exact Run.preserves_fault _
  | succ rounds ih =>
    refine Run.preserves_ite (Run.preserves_ite (Run.preserves_pure _) ?_) (Run.preserves_pure _)
    refine Run.preserves_bind (framed_preserves framed fun _ _ => rfl) fun _ => ?_
    exact Run.preserves_bind (storeWord_preserves (fun _ _ => rfl) _ _) fun _ => ih _ _ _

/-- A load that fails leaves no executable: the size is zero from its first step on, and
is recorded again only at its end. -/
theorem load_refused {devInit : Loader σ Int} {streamGet : Loader σ (Int × UInt32)} (initialized : Framed devInit)
    (framed : Framed streamGet) {s s' : Boot σ} {status : Int} (failed : status ≠ 0)
    (returned : systemAppLoad rounds devInit streamGet s = .ok status s') : s'.exeSize = 0 := by
  have error (text : List UInt8) : Refuses
      (do
        uartPuts text
        pure 1 : Loader σ Int) :=
    refuses_of_preserves (Run.preserves_bind (puts_preserves (fun _ _ => rfl) text) fun _ => Run.preserves_pure _)
  have get : Run.Preserves Boot.exeSize streamGet := framed_preserves framed fun _ _ => rfl
  obtain ⟨⟨⟩, s₀, cleared, returned⟩ := Run.bind_ok returned
  cases cleared
  refine (?_ : Refuses _) _ _ _ returned rfl failed
  refine refuses_bind (framed_preserves initialized fun _ _ => rfl) fun _ => refuses_ite (error _) ?_
  refine refuses_bind get fun _ => refuses_bind get fun _ => refuses_bind get fun _ => refuses_bind get fun _ => ?_
  refine refuses_bind (Run.preserves_modify fun _ => rfl) fun _ => refuses_ite (error _) ?_
  refine refuses_bind (transferLoop_preserves framed _ _ _ _ _) fun _ => refuses_ite (error _) ?_
  refine refuses_ite (error _) ?_
  -- the load has succeeded
  intro s status s' returned _ failed
  obtain ⟨⟨⟩, s₁, -, returned⟩ := Run.bind_ok returned
  obtain ⟨⟨⟩, s₂, -, returned⟩ := Run.bind_ok returned
  rw [Run.pure_apply, Outcome.ok.injEq] at returned
  exact absurd returned.1.symm failed

/-! ## Booting -/

/-- A character that has been received stood in front of the input, and nothing else has
changed. -/
theorem uartGetc_ok {s s' : Boot σ} {c : UInt8} (returned : uartGetc s = .ok c s') :
    s.streams.input = c :: s'.streams.input ∧
      s' = { s with streams := { s.streams with input := s'.streams.input } } := by
  cases received : s.streams.input with
  | nil =>
    rw [uartGetc_waits received] at returned
    cases returned
  | cons c' input =>
    rw [uartGetc_apply received, Outcome.ok.injEq] at returned
    obtain ⟨rfl, rfl⟩ := returned
    exact ⟨rfl, rfl⟩

/-- The user is asked only where there is no executable, and has said yes if the boot
goes on without one. -/
theorem bootConfirmed_ok {s s' : Boot σ} {confirmed : Bool} (returned : bootConfirmed s = .ok confirmed s') :
    s'.executable = s.executable ∧ (confirmed = false → s.exeSize = 0) ∧
      (confirmed = true → s.exeSize = 0 → ∃ rest, s.streams.input = byte 'y' :: rest) := by
  obtain ⟨t, s₁, got, returned⟩ := Run.bind_ok returned
  cases got
  by_cases absent : s.exeSize = 0
  · rw [if_pos absent] at returned
    obtain ⟨⟨⟩, s₂, said, returned⟩ := Run.bind_ok returned
    obtain ⟨answer, s₃, key, returned⟩ := Run.bind_ok returned
    rw [Run.pure_apply, Outcome.ok.injEq] at returned
    obtain ⟨rfl, rfl⟩ := returned
    refine ⟨(key_preserves _ _ _ key).trans (text_preserves _ _ _ _ said), fun _ => absent, ?_⟩
    intro yes _
    obtain ⟨received, -⟩ := uartGetc_ok key
    rw [uartPuts_apply, Outcome.ok.injEq] at said
    obtain ⟨-, rfl⟩ := said
    rw [beq_iff_eq.mp yes] at received
    exact ⟨_, received⟩
  · rw [if_neg absent, Run.pure_apply, Outcome.ok.injEq] at returned
    obtain ⟨rfl, rfl⟩ := returned
    exact ⟨rfl, nofun, fun _ none => absurd none absent⟩

/-- Without an executable the bootloader starts one only if it is told to. -/
theorem systemAppBoot_ok {s s' : Boot σ} {started : Option UInt32} (returned : systemAppBoot s = .ok started s') :
    s'.executable = s.executable ∧ (started = none → s.exeSize = 0) ∧
      ∀ addr, started = some addr → addr = s.exeBase ∧
        (s.exeSize = 0 → ∃ rest, s.streams.input = byte 'y' :: rest) := by
  obtain ⟨confirmed, s₁, asked, returned⟩ := Run.bind_ok returned
  obtain ⟨same, refused, told⟩ := bootConfirmed_ok asked
  have base : s₁.exeBase = s.exeBase := congrArg (fun exe => exe.2.2.1) same
  cases confirmed with
  | false =>
    simp only [Bool.false_eq_true, if_false, Run.pure_apply, Outcome.ok.injEq] at returned
    obtain ⟨rfl, rfl⟩ := returned
    exact ⟨same, fun _ => refused rfl, nofun⟩
  | true =>
    simp only [if_true, Run.bind_apply, Run.get_apply, Run.andThen_ok, uartPuts_apply, uartPuth_apply,
      Run.pure_apply, Outcome.ok.injEq] at returned
    obtain ⟨rfl, rfl⟩ := returned
    refine ⟨same, nofun, ?_⟩
    rintro addr ⟨⟩
    exact ⟨base, told rfl⟩

/-! ## Sessions -/

/-- The executable is in the memory as it has come in, and clear of what the bootloader
needs for itself. -/
def Intact (image : AppImage) (s : Boot σ) : Prop :=
  s.exeBase = image.base ∧ s.exeSize = image.size ∧ FreeWords s.region image.base image.words.length ∧
    ∀ k < image.data.length, s.memory (image.base + UInt32.ofNat k) = image.data.getD k 0

/-- Behind its setup the flash returns the words of the executable. -/
def FlashOffers (spi : Slave σ) (available : Bool) (d : Streams σ) (image : AppImage) : Prop :=
  ∃ (s : Boot σ) (d' d'' : Streams σ), s.streams = d ∧
    spiFlashSetup spi available s = .ok 0 { s with streams := d' } ∧
    Yields (spiFlashStreamGet spi) d' image.transfer d''

/-- A bootloader that has an executable has one of these. -/
def Vouched (offered : AppImage → Prop) (s : Boot σ) : Prop :=
  s.exeSize ≠ 0 → ∃ image, offered image ∧ Intact image s

/-- An executable that is intact stays so where the memory and the records are the
same. -/
theorem holds_same {image : AppImage} {s s' : Boot σ} (same : s'.executable = s.executable)
    (holds : Intact image s) : Intact image s' := by
  have region : s'.region = s.region := congrArg (fun exe => exe.1) same
  have memory : s'.memory = s.memory := congrArg (fun exe => exe.2.1) same
  have base : s'.exeBase = s.exeBase := congrArg (fun exe => exe.2.2.1) same
  have size : s'.exeSize = s.exeSize := congrArg (fun exe => exe.2.2.2) same
  rwa [Intact, region, memory, base, size]

/-- A bootloader stays vouched for where the memory and the records are the same. -/
theorem vouched_same {offered : AppImage → Prop} {s s' : Boot σ} (same : s'.executable = s.executable)
    (vouched : Vouched offered s) : Vouched offered s' := by
  have size : s'.exeSize = s.exeSize := congrArg (fun exe => exe.2.2.2) same
  intro some
  rw [size] at some
  obtain ⟨image, known, holds⟩ := vouched some
  exact ⟨image, known, holds_same same holds⟩

/-- An image that has just been taken is in the memory as it came in. -/
theorem taken_holds (image : AppImage) (d : Streams σ) (s : Boot σ)
    (free : FreeWords s.region image.base image.words.length) : Intact image (s.taken image d) := by
  have small : image.data.length ≤ 2 ^ 32 := by
    have counted := image.counted
    have reached := image.reached
    rw [AppImage.data, wordBytes_length]
    omega
  refine ⟨rfl, rfl, free, ?_⟩
  intro k inside
  exact place_at image.base image.data s.memory k inside small

/-- Behind an upload that succeeds the executable is the one that was sent. -/
theorem upload_vouched {offered : AppImage → Prop} {s s' : Boot σ}
    (sent : ∀ image rest, s.streams.input = image.encode ++ rest → offered image)
    (loaded : systemAppLoad rounds uartSetup uartStreamGet s = .ok 0 s') : Vouched offered s' := by
  obtain ⟨image, d, d', ready, yields, free, rfl⟩ :=
    systemAppLoad_ok (framed_pure 0) uart_framed uart_certain loaded
  cases ready
  intro _
  exact ⟨image, sent image d'.input (yields_uart yields).1, taken_holds image d' s free⟩

/-- Behind a load from the flash the executable is the one that the flash offers, or
there is none. -/
theorem flash_vouched {offered : AppImage → Prop} {s s' : Boot σ} {status : Int}
    (stored : ∀ image, FlashOffers spi available s.streams image → offered image)
    (returned : loadFlash spi available rounds s = .ok status s') :
    Vouched offered s' ∧ (status = 0 → ∃ image, offered image ∧ Intact image s') := by
  have initialized : Framed (spiFlashSetup spi available) := setup_framed available
  by_cases loaded : status = 0
  · subst loaded
    obtain ⟨image, d, d', ready, yields, free, rfl⟩ :=
      systemAppLoad_ok initialized streamGet_framed streamGet_certain returned
    have known := stored image ⟨{ s with exeSize := 0 }, d, d', rfl, ready, yields⟩
    have holds := taken_holds image d' s free
    exact ⟨fun _ => ⟨image, known, holds⟩, fun _ => ⟨image, known, holds⟩⟩
  · refine ⟨?_, fun done => absurd done loaded⟩
    intro some
    exact absurd (load_refused initialized streamGet_framed loaded returned) some

/-- What a command can do. -/
inductive Carried (spi : Slave σ) (available : Bool) (rounds : Nat) (s s' : Boot σ) : UInt8 → Verdict → Prop where
  | ended {cmd : UInt8} {verdict : Verdict} (ended : verdict = .halt ∨ verdict = .restart) :
      Carried spi available rounds s s' cmd verdict
  | kept {cmd : UInt8} (same : s'.executable = s.executable) : Carried spi available rounds s s' cmd .next
  | uploaded {s₁ : Boot σ} (same : s₁.streams = s.streams)
      (loaded : systemAppLoad rounds uartSetup uartStreamGet s₁ = .ok 0 s') :
      Carried spi available rounds s s' (byte 'u') .next
  | reloaded {s₁ : Boot σ} {status : Int} (same : s₁.streams = s.streams)
      (loaded : loadFlash spi available rounds s₁ = .ok status s') :
      Carried spi available rounds s s' (byte 'l') .next
  | booted {addr : UInt32} (started : systemAppBoot s = .ok (some addr) s') :
      Carried spi available rounds s s' (byte 'e') (.boot addr)

/-- A command that keeps the executable and then goes on is one of the harmless
commands. -/
theorem kept_carried {α : Type} {first : Loader σ α} {cmd : UInt8} {verdict : Verdict} {s s' : Boot σ}
    (preserves : Run.Preserves Boot.executable first)
    (returned : (first >>= fun _ => pure Verdict.next) s = .ok verdict s') :
    Carried spi available rounds s s' cmd verdict := by
  obtain ⟨value, s₁, ran, returned⟩ := Run.bind_ok returned
  rw [Run.pure_apply, Outcome.ok.injEq] at returned
  obtain ⟨rfl, rfl⟩ := returned
  exact Carried.kept (preserves _ _ _ ran)

/-- The command `u` takes an executable from the input, or stops the bootloader. -/
theorem upload_carried {text : List UInt8} {verdict : Verdict} {s s' : Boot σ}
    (returned : (do
      uartPuts text
      let status ← systemAppLoad rounds uartSetup uartStreamGet
      if status ≠ 0 then pure .halt else pure .next : Loader σ Verdict) s = .ok verdict s') :
    Carried spi available rounds s s' (byte 'u') verdict := by
  obtain ⟨⟨⟩, s₁, said, returned⟩ := Run.bind_ok returned
  obtain ⟨status, s₂, loaded, returned⟩ := Run.bind_ok returned
  by_cases failed : status ≠ 0
  · rw [if_pos failed, Run.pure_apply, Outcome.ok.injEq] at returned
    exact Carried.ended (Or.inl returned.1.symm)
  · rw [if_neg failed, Run.pure_apply, Outcome.ok.injEq] at returned
    obtain ⟨rfl, rfl⟩ := returned
    rw [not_not.mp failed] at loaded
    exact Carried.uploaded (text_streams _ _ _ _ said) loaded

/-- The command `l` takes an executable from the flash, or leaves none. -/
theorem reload_carried {text : List UInt8} {verdict : Verdict} {s s' : Boot σ}
    (returned : (do
      uartPuts text
      let _ ← loadFlash spi available rounds
      pure .next : Loader σ Verdict) s = .ok verdict s') :
    Carried spi available rounds s s' (byte 'l') verdict := by
  obtain ⟨⟨⟩, s₁, said, returned⟩ := Run.bind_ok returned
  obtain ⟨status, s₂, loaded, returned⟩ := Run.bind_ok returned
  rw [Run.pure_apply, Outcome.ok.injEq] at returned
  obtain ⟨rfl, rfl⟩ := returned
  exact Carried.reloaded (text_streams _ _ _ _ said) loaded

/-- Every command keeps the executable, loads one or starts it. There is one case for
each letter, and one for all the others. -/
theorem bootCommand_carried {cmd : UInt8} {verdict : Verdict} {s s' : Boot σ}
    (returned : bootCommand spi available polls rounds info cmd s = .ok verdict s') :
    Carried spi available rounds s s' cmd verdict := by
  rw [bootCommand] at returned
  by_cases restart : cmd = byte 'r'
  · rw [if_pos restart, Run.pure_apply, Outcome.ok.injEq] at returned
    exact Carried.ended (Or.inr returned.1.symm)
  rw [if_neg restart] at returned
  by_cases upload : cmd = byte 'u'
  · rw [if_pos upload] at returned
    rw [upload]
    exact upload_carried returned
  rw [if_neg upload] at returned
  by_cases execute : cmd = byte 'e'
  · rw [if_pos execute] at returned
    obtain ⟨started, s₁, booted, returned⟩ := Run.bind_ok returned
    cases started with
    | none =>
      simp only [Run.pure_apply, Outcome.ok.injEq] at returned
      obtain ⟨rfl, rfl⟩ := returned
      exact Carried.kept (systemAppBoot_ok booted).1
    | some addr =>
      simp only [Run.pure_apply, Outcome.ok.injEq] at returned
      obtain ⟨rfl, rfl⟩ := returned
      rw [execute]
      exact Carried.booted booted
  rw [if_neg execute] at returned
  by_cases exit : cmd = byte 'x'
  · rw [if_pos exit, Run.pure_apply, Outcome.ok.injEq] at returned
    exact Carried.ended (Or.inl returned.1.symm)
  rw [if_neg exit] at returned
  by_cases help : cmd = byte 'h'
  · rw [if_pos help] at returned
    exact kept_carried (text_preserves _) returned
  rw [if_neg help] at returned
  by_cases system : cmd = byte 'i'
  · rw [if_pos system] at returned
    exact kept_carried info_preserves returned
  rw [if_neg system] at returned
  by_cases program : cmd = byte 's'
  · rw [if_pos program] at returned
    exact kept_carried store_preserves returned
  rw [if_neg program] at returned
  by_cases load : cmd = byte 'l'
  · rw [if_pos load] at returned
    rw [load]
    exact reload_carried returned
  · rw [if_neg load, Run.pure_apply, Outcome.ok.injEq] at returned
    obtain ⟨rfl, rfl⟩ := returned
    exact Carried.kept (Eq.refl _)

/-- A round of the console takes a command from the input and carries it out, and
changes nothing before that. -/
theorem consoleRound_ok {verdict : Verdict} {s s' : Boot σ}
    (returned : consoleRound spi available polls rounds info s = .ok verdict s') :
    ∃ cmd u, s.streams.input = cmd :: u.streams.input ∧ u.executable = s.executable ∧
      u.streams = { s.streams with input := u.streams.input } ∧
      bootCommand spi available polls rounds info cmd u = .ok verdict s' := by
  obtain ⟨⟨⟩, s₁, said, returned⟩ := Run.bind_ok returned
  obtain ⟨cmd, s₂, key, returned⟩ := Run.bind_ok returned
  obtain ⟨⟨⟩, s₃, echoed, returned⟩ := Run.bind_ok returned
  obtain ⟨⟨⟩, s₄, ended, returned⟩ := Run.bind_ok returned
  obtain ⟨received, same⟩ := uartGetc_ok key
  have silent : s₄.streams = s₂.streams := (putc_streams _ _ _ _ ended).trans (putc_streams _ _ _ _ echoed)
  have still : s₄.executable = s₂.executable := (putc_preserves _ _ _ _ ended).trans (putc_preserves _ _ _ _ echoed)
  have prompted := text_streams _ _ _ _ said
  refine ⟨cmd, s₄, ?_, ?_, ?_, returned⟩
  · rw [silent, ← prompted, received]
  · rw [still, key_preserves _ _ _ key, text_preserves _ _ _ _ said]
  · rw [silent, ← prompted]
    exact congrArg Boot.streams same

variable {date : List UInt8} {clint aborted : Bool}

/-- The bootloader at a prompt of its console, some commands after its start. -/
inductive AtPrompt (spi : Slave σ) (available : Bool) (polls rounds : Nat) (info : SystemInfo)
    (date : List UInt8) (clint aborted : Bool) (s : Boot σ) : Boot σ → Prop where
  | first {t : Boot σ}
      (unbooted : autoBoot spi available rounds clint aborted (s.say (bootIntro date)) = .ok .next t) :
      AtPrompt spi available polls rounds info date clint aborted s (t.say (bytes "Type 'h' for help.\n"))
  | next {t t' : Boot σ} (prompt : AtPrompt spi available polls rounds info date clint aborted s t)
      (round : consoleRound spi available polls rounds info t = .ok .next t') :
      AtPrompt spi available polls rounds info date clint aborted s t'

/-- The executable has come in at a load of the session, as a whole. -/
inductive Offered (spi : Slave σ) (available : Bool) (polls rounds : Nat) (info : SystemInfo)
    (date : List UInt8) (clint aborted : Bool) (s : Boot σ) (image : AppImage) : Prop where
  | automatic (waited : (clint && aborted) = false) (stored : FlashOffers spi available s.streams image)
  | uploaded {t : Boot σ} {rest : List UInt8}
      (prompt : AtPrompt spi available polls rounds info date clint aborted s t)
      (sent : t.streams.input = byte 'u' :: (image.encode ++ rest))
  | reloaded {t : Boot σ} {rest : List UInt8}
      (prompt : AtPrompt spi available polls rounds info date clint aborted s t)
      (typed : t.streams.input = byte 'l' :: rest)
      (stored : FlashOffers spi available { t.streams with input := rest } image)

/-- A round that comes back to the prompt keeps the bootloader vouched for: each command
either keeps the executable or takes a new one that has come in. -/
theorem consoleRound_vouched {s t t' : Boot σ}
    (prompt : AtPrompt spi available polls rounds info date clint aborted s t)
    (vouched : Vouched (Offered spi available polls rounds info date clint aborted s) t)
    (round : consoleRound spi available polls rounds info t = .ok .next t') :
    Vouched (Offered spi available polls rounds info date clint aborted s) t' := by
  obtain ⟨cmd, u, received, same, streams, returned⟩ := consoleRound_ok round
  cases bootCommand_carried returned with
  | ended ended => simp at ended
  | kept unchanged => exact vouched_same (unchanged.trans same) vouched
  | @uploaded s₁ silent loaded =>
    refine upload_vouched ?_ loaded
    intro image rest sent
    rw [silent] at sent
    rw [sent] at received
    exact Offered.uploaded prompt received
  | @reloaded s₁ status silent loaded =>
    refine (flash_vouched ?_ loaded).1
    intro image stored
    rw [silent, streams] at stored
    exact Offered.reloaded prompt received stored

/-- An application is started at a prompt, behind rounds that keep the bootloader
vouched for. By induction on the commands. -/
theorem bootConsole_boots {commands : Nat} {addr : UInt32} {s t s' : Boot σ}
    (prompt : AtPrompt spi available polls rounds info date clint aborted s t)
    (vouched : Vouched (Offered spi available polls rounds info date clint aborted s) t)
    (booted : bootConsole spi available polls rounds info commands t = .ok (.boot addr) s') :
    (∃ image, Offered spi available polls rounds info date clint aborted s image ∧ Intact image s' ∧
      addr = image.base) ∨
    ∃ t rest, AtPrompt spi available polls rounds info date clint aborted s t ∧ t.exeSize = 0 ∧
      addr = t.exeBase ∧ t.streams.input = byte 'e' :: byte 'y' :: rest := by
  induction commands generalizing t with
  | zero => simp [bootConsole] at booted
  | succ commands ih =>
    obtain ⟨verdict, t', round, booted⟩ := Run.bind_ok booted
    cases verdict with
    | halt => simp at booted
    | restart => simp at booted
    | next => exact ih (AtPrompt.next prompt round) (consoleRound_vouched prompt vouched round) booted
    | boot addr' =>
      simp only [Run.pure_apply, Outcome.ok.injEq, Verdict.boot.injEq] at booted
      obtain ⟨rfl, rfl⟩ := booted
      obtain ⟨cmd, u, received, same, streams, returned⟩ := consoleRound_ok round
      cases bootCommand_carried returned with
      | ended ended => simp at ended
      | booted started =>
        obtain ⟨unchanged, -, told⟩ := systemAppBoot_ok started
        obtain ⟨base, confirmed⟩ := told addr' rfl
        have size : u.exeSize = t.exeSize := congrArg (fun exe => exe.2.2.2) same
        have base' : u.exeBase = t.exeBase := congrArg (fun exe => exe.2.2.1) same
        by_cases absent : t.exeSize = 0
        · obtain ⟨rest, yes⟩ := confirmed (size.trans absent)
          rw [yes] at received
          exact Or.inr ⟨t, rest, prompt, absent, base.trans base', received⟩
        · have after : t'.exeBase = t.exeBase := congrArg (fun exe => exe.2.2.1) (unchanged.trans same)
          have some : t'.exeSize ≠ 0 := by
            rwa [show t'.exeSize = t.exeSize from congrArg (fun exe => exe.2.2.2) (unchanged.trans same)]
          obtain ⟨image, known, holds⟩ := vouched_same (unchanged.trans same) vouched some
          refine Or.inl ⟨image, known, holds, ?_⟩
          rw [base, base', ← after, holds.1]

/-- The automatic sequence starts an executable from the flash, or leaves the console
without one. -/
theorem autoBoot_ok {verdict : Verdict} {s s' : Boot σ} (cleared : s.exeSize = 0)
    (returned : autoBoot spi available rounds clint aborted s = .ok verdict s') :
    (verdict = .next ∧ s'.exeSize = 0) ∨
    ∃ image addr, verdict = .boot addr ∧ (clint && aborted) = false ∧
      FlashOffers spi available s.streams image ∧ Intact image s' ∧ addr = image.base := by
  have size_text (text : List UInt8) : Run.Preserves Boot.exeSize (uartPuts text : Loader σ PUnit) :=
    puts_preserves (fun _ _ => rfl) text
  obtain ⟨⟨⟩, s₁, said, returned⟩ := Run.bind_ok returned
  by_cases given_up : (clint && aborted) = true
  · rw [if_pos given_up] at returned
    obtain ⟨⟨⟩, s₂, said', returned⟩ := Run.bind_ok returned
    obtain ⟨key, s₃, pressed, returned⟩ := Run.bind_ok returned
    obtain ⟨⟨⟩, s₄, said'', returned⟩ := Run.bind_ok returned
    rw [Run.pure_apply, Outcome.ok.injEq] at returned
    obtain ⟨rfl, rfl⟩ := returned
    have pressed_size : s₃.exeSize = s₂.exeSize := congrArg (fun exe => exe.2.2.2) (key_preserves _ _ _ pressed)
    refine Or.inl ⟨rfl, ?_⟩
    rw [size_text _ _ _ _ said'', pressed_size, size_text _ _ _ _ said', size_text _ _ _ _ said, cleared]
  · rw [if_neg given_up] at returned
    obtain ⟨⟨⟩, s₂, said', returned⟩ := Run.bind_ok returned
    obtain ⟨⟨⟩, s₃, ended, returned⟩ := Run.bind_ok returned
    obtain ⟨⟨⟩, s₄, said'', returned⟩ := Run.bind_ok returned
    obtain ⟨status, s₅, loaded, returned⟩ := Run.bind_ok returned
    have silent : s₄.streams = s.streams := by
      rw [text_streams _ _ _ _ said'', putc_streams _ _ _ _ ended, text_streams _ _ _ _ said',
        text_streams _ _ _ _ said]
    by_cases done : status = 0
    · rw [if_pos done] at returned
      obtain ⟨started, s₆, booted, returned⟩ := Run.bind_ok returned
      obtain ⟨unchanged, refused, told⟩ := systemAppBoot_ok booted
      obtain ⟨image, stored, holds⟩ := (flash_vouched (fun _ stored => stored) loaded).2 done
      rw [silent] at stored
      cases started with
      | none =>
        simp only [Run.pure_apply, Outcome.ok.injEq] at returned
        obtain ⟨rfl, rfl⟩ := returned
        have size : s₆.exeSize = s₅.exeSize := congrArg (fun exe => exe.2.2.2) unchanged
        exact Or.inl ⟨rfl, size.trans (refused rfl)⟩
      | some addr =>
        simp only [Run.pure_apply, Outcome.ok.injEq] at returned
        obtain ⟨rfl, rfl⟩ := returned
        have waited : (clint && aborted) = false := Bool.eq_false_iff.mpr given_up
        have addr_base : addr = image.base := (told addr rfl).1.trans holds.1
        exact Or.inr ⟨image, addr, rfl, waited, stored, holds_same unchanged holds, addr_base⟩
    · rw [if_neg done, Run.pure_apply, Outcome.ok.injEq] at returned
      obtain ⟨rfl, rfl⟩ := returned
      exact Or.inl ⟨rfl, load_refused (setup_framed available) streamGet_framed done loaded⟩

end

/-- What the bootloader starts. However a session goes, whatever is typed and whatever
the flash answers, an application is started only if it is an executable that has come in
whole at some load of the session and is still in the memory as it has come in, clear of
the bootloader's own variables and stack, or else at a prompt at which there is none and
the user has answered that it is to be started anyway. A session in which a load reaches
over what the bootloader needs for itself, or over a device, is not one of these runs. -/
theorem bootMain_boots {σ : Type} (spi : Slave σ) (available : Bool) (polls rounds : Nat) (info : SystemInfo)
    (date : List UInt8) (clint aborted : Bool) (commands : Nat) (addr : UInt32) (s s' : Boot σ)
    (cleared : s.exeSize = 0)
    (booted : bootMain spi available polls rounds info date clint aborted commands s = .ok (.boot addr) s') :
    (∃ image, Offered spi available polls rounds info date clint aborted s image ∧ Intact image s' ∧
      addr = image.base) ∨
    ∃ t rest, AtPrompt spi available polls rounds info date clint aborted s t ∧ t.exeSize = 0 ∧
      addr = t.exeBase ∧ t.streams.input = byte 'e' :: byte 'y' :: rest := by
  obtain ⟨⟨⟩, s₁, said, booted⟩ := Run.bind_ok booted
  rw [uartPuts_apply, Outcome.ok.injEq] at said
  obtain ⟨-, rfl⟩ := said
  obtain ⟨verdict, s₂, waited, booted⟩ := Run.bind_ok booted
  obtain ⟨rfl, empty⟩ | ⟨image, addr', rfl, given, stored, holds, base⟩ :=
    autoBoot_ok (s := s.say (bootIntro date)) cleared waited
  · obtain ⟨⟨⟩, s₃, said, booted⟩ := Run.bind_ok booted
    rw [uartPuts_apply, Outcome.ok.injEq] at said
    obtain ⟨-, rfl⟩ := said
    exact bootConsole_boots (AtPrompt.first waited) (fun some => absurd empty some) booted
  · simp only [Run.pure_apply, Outcome.ok.injEq, Verdict.boot.injEq] at booted
    obtain ⟨rfl, rfl⟩ := booted
    exact Or.inl ⟨image, Offered.automatic given stored, holds, base⟩

/-! ## An upload that is started -/

section

variable {σ : Type} (spi : Slave σ) (available : Bool) (polls rounds : Nat) (info : SystemInfo)

/-- A key pressed in time ends the automatic sequence; it is discarded, and the memory
stays as it is. -/
theorem autoBoot_aborted {key : UInt8} {input : List UInt8} {s : Boot σ}
    (received : s.streams.input = key :: input) :
    ∃ output, autoBoot spi available rounds true true s =
      .ok .next { s with output := output, streams := { s.streams with input := input } } := by
  have waiting (output : List UInt8) : uartGetc { s with output := output } =
      .ok key { s with output := output, streams := { s.streams with input := input } } :=
    uartGetc_apply received
  simp only [autoBoot, Bool.and_self, if_true, Run.bind_apply, uartPuts_apply, Run.andThen_ok, waiting,
    Run.pure_apply]
  exact ⟨_, rfl⟩

/-- A round with a letter typed carries out its command on the input behind it. -/
theorem consoleRound_typed {cmd : UInt8} {input : List UInt8} {t : Boot σ}
    (received : t.streams.input = cmd :: input) :
    ∃ output, consoleRound spi available polls rounds info t =
      bootCommand spi available polls rounds info cmd
        { t with output := output, streams := { t.streams with input := input } } := by
  have waiting (output : List UInt8) : uartGetc { t with output := output } =
      .ok cmd { t with output := output, streams := { t.streams with input := input } } :=
    uartGetc_apply received
  simp only [consoleRound, uartPutc, Run.bind_apply, uartPuts_apply, Run.andThen_ok, waiting, Run.modify_apply]
  exact ⟨_, rfl⟩

/-- An image sent behind `u` is taken if its place is free memory. -/
theorem bootCommand_upload (image : AppImage) (rest : List UInt8) {t : Boot σ}
    (sent : t.streams.input = image.encode ++ rest) (free : FreeWords t.region image.base image.words.length)
    (enough : t.streams.input.length < rounds) :
    ∃ output, bootCommand spi available polls rounds info (byte 'u') t =
      .ok .next ({ t with output := output }.upload image rest) := by
  have loaded (output : List UInt8) := upload_taken image rest rounds { t with output := output } sent free enough
  rw [bootCommand, if_neg (by decide), if_pos rfl]
  simp only [Run.bind_apply, uartPuts_apply, Run.andThen_ok, loaded, ne_eq, not_true_eq_false, if_false,
    Run.pure_apply]
  exact ⟨_, rfl⟩

/-- With an executable `e` starts it at its recorded base, without a question. -/
theorem bootCommand_execute {t : Boot σ} (some : t.exeSize ≠ 0) :
    ∃ t', bootCommand spi available polls rounds info (byte 'e') t = .ok (.boot t.exeBase) t' ∧
      t'.executable = t.executable := by
  have confirmed : bootConfirmed t = .ok true t := by
    rw [bootConfirmed, Run.bind_apply, Run.get_apply, Run.andThen_ok, if_neg some, Run.pure_apply]
  rw [bootCommand, if_neg (by decide), if_neg (by decide), if_pos rfl]
  simp only [systemAppBoot, Run.bind_apply, confirmed, Run.andThen_ok, if_true, Run.get_apply, uartPuts_apply,
    uartPuth_apply, Run.pure_apply]
  exact ⟨_, rfl, rfl⟩

/-- A round that ends at the prompt leads to the rounds that are left. -/
theorem bootConsole_next (commands : Nat) {t t' : Boot σ}
    (round : consoleRound spi available polls rounds info t = .ok .next t') :
    bootConsole spi available polls rounds info (commands + 1) t =
      bootConsole spi available polls rounds info commands t' := by
  rw [bootConsole, Run.bind_apply, round, Run.andThen_ok]

/-- A round that starts an application ends the console. -/
theorem bootConsole_boot (commands : Nat) {addr : UInt32} {t t' : Boot σ}
    (round : consoleRound spi available polls rounds info t = .ok (.boot addr) t') :
    bootConsole spi available polls rounds info (commands + 1) t = .ok (.boot addr) t' := by
  rw [bootConsole, Run.bind_apply, round, Run.andThen_ok]
  exact Run.pure_apply _ _

/-- An executable that is uploaded to free memory can be started, so the hypotheses of
the session theorem are met by real sessions. -/
theorem bootMain_uploads (image : AppImage) (key : UInt8) (rest date : List UInt8) (commands : Nat)
    {s : Boot σ} (some : image.size ≠ 0)
    (sent : s.streams.input = key :: byte 'u' :: (image.encode ++ byte 'e' :: rest))
    (free : FreeWords s.region image.base image.words.length) (enough : s.streams.input.length < rounds) :
    ∃ s', bootMain spi available polls rounds info date true true (commands + 2) s =
      .ok (.boot image.base) s' ∧ Intact image s' := by
  have fewer : (image.encode ++ byte 'e' :: rest).length < rounds := by
    rw [sent, List.length_cons, List.length_cons] at enough
    omega
  obtain ⟨output, begun⟩ := autoBoot_aborted spi available rounds (s := s.say (bootIntro date)) sent
  obtain ⟨output₁, typed⟩ := consoleRound_typed spi available polls rounds info
    (t := { s with
      output := output ++ crlf (bytes "Type 'h' for help.\n")
      streams := { s.streams with input := byte 'u' :: (image.encode ++ byte 'e' :: rest) } }) rfl
  obtain ⟨output₂, uploaded⟩ := bootCommand_upload spi available polls rounds info image (byte 'e' :: rest)
    (t := { s with output := output₁, streams := { s.streams with input := image.encode ++ byte 'e' :: rest } })
    rfl free fewer
  obtain ⟨output₃, typed'⟩ := consoleRound_typed spi available polls rounds info
    (t := Boot.upload image (byte 'e' :: rest)
      { s with output := output₂, streams := { s.streams with input := image.encode ++ byte 'e' :: rest } }) rfl
  obtain ⟨s', started, same⟩ := bootCommand_execute spi available polls rounds info
    (t := { Boot.upload image rest s with output := output₃ }) some
  refine ⟨s', ?_, holds_same same (taken_holds image { s.streams with input := rest } s free)⟩
  have first_round := bootConsole_next spi available polls rounds info (commands + 1) (typed.trans uploaded)
  have second_round := bootConsole_boot spi available polls rounds info commands (typed'.trans started)
  rw [Boot.say] at begun
  simp only [bootMain, Run.bind_apply, uartPuts_apply, Run.andThen_ok, begun]
  rw [first_round]
  exact second_round

end

/-- A bus on which nothing answers. -/
def silentSlave : Slave PUnit where
  select := id
  release := id
  exchange _ state := (0, state)

/-- The automatic sequence is aborted; an executable is uploaded and started. -/
def uploadSession : Boot PUnit where
  region := smallSystem
  memory := fun a => a.toUInt8
  streams := {
    input := byte ' ' :: byte 'u' :: (smallImage.encode ++ [byte 'e'])
    spi := { dev := ⟨⟩ } }

/-- A session in which an executable is uploaded to address zero and started. -/
theorem bootMain_boots_uploadSession :
    ∃ s', bootMain silentSlave false 1 30 ⟨0, 27000000, 0, 0, 0, 0, 0⟩ [] true true 2 uploadSession =
        .ok (.boot 0) s' ∧
      ((∃ image, Offered silentSlave false 1 30 ⟨0, 27000000, 0, 0, 0, 0, 0⟩ [] true true uploadSession image ∧
          Intact image s' ∧ 0 = image.base) ∨
        ∃ t rest, AtPrompt silentSlave false 1 30 ⟨0, 27000000, 0, 0, 0, 0, 0⟩ [] true true uploadSession t ∧
          t.exeSize = 0 ∧ 0 = t.exeBase ∧ t.streams.input = byte 'e' :: byte 'y' :: rest) := by
  obtain ⟨s', booted, -⟩ := bootMain_uploads silentSlave false 1 30 ⟨0, 27000000, 0, 0, 0, 0, 0⟩ smallImage
    (byte ' ') [] [] 0 (s := uploadSession) (by decide) rfl (smallSystem_free 0 2 (by decide)) (by decide)
  exact ⟨s', booted, bootMain_boots _ _ _ _ _ _ _ _ _ _ _ _ rfl booted⟩

end NeoSfp
