import NeoSfp.Uploads
import NeoSfp.BootFlashChip

/-!
# Storing an executable

The bootloader erases as many blocks as the executable fills, then programs its words
and the header in front of them. It does not count the header, so that an executable
that nearly fills its last block ends in a block that has not been erased.
-/

namespace NeoSfp

open Checked NorFlash

/-! ## Contents -/

/-- Blocks erased from an address on. -/
def erasedFrom (block : Nat) : Nat → UInt32 → Cells → Cells
  | 0, _, cells => cells
  | count + 1, flashAddr, cells =>
    erasedFrom block count (flashAddr + bootSectorSize) (erase block (cellOf flashAddr) cells)

/-- The cell so many bytes behind an address. -/
def cellBehind (flashAddr : UInt32) (k : Nat) : Nat := cellOf (flashAddr + UInt32.ofNat k)

/-- The words of the memory from an address on. -/
def memoryWords (m : MainMemory) : Nat → UInt32 → List UInt32
  | 0, _ => []
  | count + 1, addr => m.word addr :: memoryWords m count (addr + 4)

/-- Bytes burned one after another are burned in two parts, the second behind the
first. -/
theorem burn_append (place : Nat → Nat) (k : Nat) (first second : List UInt8) (cells : Cells) :
    burn place k (first ++ second) cells = burn place (k + first.length) second (burn place k first cells) := by
  induction first generalizing k cells with
  | nil => rfl
  | cons b first ih =>
    have later : k + 1 + first.length = k + (b :: first).length := by
      rw [List.length_cons]
      omega
    rw [List.cons_append, burn, burn, ih, later]

/-- The address one byte behind the first so many, as the driver counts it up. -/
theorem succ_addr (flashAddr : UInt32) (k : Nat) :
    flashAddr + UInt32.ofNat k + 1 = flashAddr + UInt32.ofNat (k + 1) := by
  rw [UInt32.ofNat_add, UInt32.add_assoc]
  rfl

section

variable (chip : BlockChip) {polls : Nat} {cells : Cells} {d : DriverState Flash}

/-! ## The driver -/

/-- The erase loop erases block after block from the running address on. By induction on
the blocks, each with one operation of the chip. -/
theorem eraseLoop_at (count left : Nat) (flashAddr : UInt32) (now : FlashAt chip.chip polls (count + left) cells d) :
    ∃ d' flashAddr', FlashAt chip.chip polls left (erasedFrom chip.block count flashAddr cells) d' ∧
      ∀ s : Boot Flash, s.streams.spi = d → s.streams.flashAddr = flashAddr →
        eraseLoop chip.slave polls count s = .ok ⟨⟩
          { s with streams := { s.streams with flashAddr := flashAddr', spi := d' } } := by
  induction count generalizing flashAddr cells d with
  | zero =>
    rw [Nat.zero_add] at now
    refine ⟨d, flashAddr, now, ?_⟩
    rintro s rfl rfl
    rfl
  | succ count ih =>
    rw [Nat.add_right_comm, Nat.add_comm] at now
    obtain ⟨d₁, at₁, ran⟩ := onFlash_at (refines_eraseFrame chip flashAddr) now
    have erased : FlashAt chip.chip polls (count + left) (erase chip.block (cellOf flashAddr) cells) d₁ := at₁
    obtain ⟨d', flashAddr', at', ran'⟩ := ih (flashAddr + bootSectorSize) erased
    refine ⟨d', flashAddr', ?_, ?_⟩
    · rw [erasedFrom]
      exact at'
    rintro s at_rest rfl
    rw [eraseLoop, Run.bind_apply, Run.get_apply, Run.andThen_ok, Run.bind_apply, ran s at_rest, Run.andThen_ok,
      Run.bind_apply, setFlashAddr, Run.modify_apply, Run.andThen_ok]
    exact ran' { s with streams := { s.streams with flashAddr := s.streams.flashAddr + bootSectorSize, spi := d₁ } }
      rfl rfl

/-- Bytes programmed one after another are burned into the cells behind the running
address. By induction on the bytes. -/
theorem putLoop_at (bytes : List UInt8) (left k : Nat) (flashAddr : UInt32)
    (now : FlashAt chip.chip polls (bytes.length + left) cells d) :
    ∃ d', FlashAt chip.chip polls left (burn (cellBehind flashAddr) k bytes cells) d' ∧
      ∀ s : Boot Flash, s.streams.spi = d → s.streams.flashAddr = flashAddr + UInt32.ofNat k →
        putLoop chip.slave polls bytes s = .ok ⟨⟩
          { s with streams := { s.streams with
              flashAddr := flashAddr + UInt32.ofNat (k + bytes.length), spi := d' } } := by
  induction bytes generalizing k cells d with
  | nil =>
    rw [List.length_nil, Nat.zero_add] at now
    refine ⟨d, now, ?_⟩
    rintro s rfl addr
    rw [List.length_nil, Nat.add_zero, ← addr]
    rfl
  | cons byte bytes ih =>
    rw [List.length_cons, Nat.add_right_comm, Nat.add_comm] at now
    obtain ⟨d₁, at₁, ran⟩ := onFlash_at (refines_programFrame chip (flashAddr + UInt32.ofNat k) byte) now
    obtain ⟨d', at', ran'⟩ := ih (k + 1) at₁
    refine ⟨d', at', ?_⟩
    intro s at_rest addr
    have later : k + 1 + bytes.length = k + (byte :: bytes).length := by
      rw [List.length_cons]
      omega
    simp only [putLoop, Run.bind_apply, Run.get_apply, Run.andThen_ok, addr, ran s at_rest, setFlashAddr,
      Run.modify_apply, succ_addr, ← later]
    exact ran' { s with streams := { s.streams with flashAddr := flashAddr + UInt32.ofNat (k + 1), spi := d₁ } }
      rfl rfl

/-- Programming a word burns its four bytes, as they stand in memory, and moves the
address behind them. -/
theorem streamPut_at (wdata : UInt32) (left k : Nat) (flashAddr : UInt32)
    (now : FlashAt chip.chip polls (4 + left) cells d) :
    ∃ d', FlashAt chip.chip polls left (burn (cellBehind flashAddr) k (wordBytes wdata) cells) d' ∧
      ∀ s : Boot Flash, s.streams.spi = d → s.streams.flashAddr = flashAddr + UInt32.ofNat k →
        spiFlashStreamPut chip.slave polls wdata s = .ok 0
          { s with streams := { s.streams with
              flashAddr := flashAddr + UInt32.ofNat (k + 4), spi := d' } } := by
  obtain ⟨d', at', ran⟩ := putLoop_at chip (wordBytes wdata) left k flashAddr now
  refine ⟨d', at', ?_⟩
  intro s at_rest addr
  rw [spiFlashStreamPut, Run.bind_apply, ran s at_rest addr]
  rfl

/-- Reading a word leaves the contents and moves the address behind it. -/
theorem streamGet_at (left : Nat) (flashAddr : UInt32) (now : FlashAt chip.chip polls left cells d) :
    ∃ d', FlashAt chip.chip polls left cells d' ∧
      ∀ s : Boot Flash, s.streams.spi = d → s.streams.flashAddr = flashAddr →
        spiFlashStreamGet chip.slave s = .ok (0, wordAt flashAddr cells)
          { s with streams := { s.streams with flashAddr := flashAddr + 4, spi := d' } } := by
  rw [← Nat.zero_add left] at now
  obtain ⟨d', at', ran⟩ := onFlash_at (refines_readFrame chip flashAddr) now
  refine ⟨d', at', ?_⟩
  rintro s at_rest rfl
  simp only [spiFlashStreamGet, Run.bind_apply, Run.get_apply, Run.andThen_ok, ran s at_rest, setFlashAddr,
    Run.modify_apply, Run.pure_apply]
  rfl

/-- The latch is what bit 1 of the status shows on a chip at rest. -/
theorem status_enabled (cells : Cells) (wel : Bool) (begun : Nat) :
    status (rest cells wel begun) &&& 2 = 0 ↔ wel = false := by
  cases wel <;> simp [status, rest]

/-- The setup finds a chip that answers, leaves its contents and sets the address to the
base. -/
theorem spiFlashSetup_at (left : Nat) (now : FlashAt chip.chip polls left cells d) :
    ∃ d', FlashAt chip.chip polls left cells d' ∧
      ∀ s : Boot Flash, s.streams.spi = d → spiFlashSetup chip.slave true s = .ok 0
        { s with streams := { s.streams with flashAddr := bootFlashBase, spi := d' } } := by
  obtain ⟨wel, begun, calls, reads, rfl, patient⟩ := now
  have read (wel : Bool) (calls : List SpiCall) :
      spiFlashReadStatus chip.slave ⟨rest cells wel begun, calls, reads⟩ =
        .ok (status (rest cells wel begun))
          ⟨rest cells wel begun, calls ++ frameCalls [0x05, 0], reads⟩ := spiFlashReadStatus_apply chip
  refine ⟨⟨rest cells false begun, calls ++ frameCalls [0xAB] ++ frameCalls [0x06] ++ frameCalls [0x05, 0] ++
    frameCalls [0x04] ++ frameCalls [0x05, 0], reads⟩, ⟨_, _, _, _, rfl, patient⟩, ?_⟩
  intro s at_rest
  simp only [spiFlashSetup, setFlashAddr, Bool.not_true, Bool.false_eq_true, if_false, Run.bind_apply,
    Run.modify_apply, Run.andThen_ok, onFlash, at_rest, bootWake_apply, bootWriteEnable_apply,
    bootWriteDisable_apply, read, status_enabled, Run.ite_apply, Bool.true_eq_false, ne_eq, not_true_eq_false,
    Run.pure_apply]

/-- The erase takes as many blocks as the data fills and one more, counted without the
header, and sets the address back to the base. -/
theorem spiFlashErase_at (left : Nat) (size : UInt32)
    (now : FlashAt chip.chip polls ((size / bootSectorSize + 1).toNat + left) cells d) :
    ∃ d', FlashAt chip.chip polls left
        (erasedFrom chip.block (size / bootSectorSize + 1).toNat bootFlashBase cells) d' ∧
      ∀ s : Boot Flash, s.streams.spi = d → s.exeSize = size → spiFlashErase chip.slave polls s = .ok 0
        { s with streams := { s.streams with flashAddr := bootFlashBase, spi := d' } } := by
  obtain ⟨d', flashAddr', at', ran⟩ := eraseLoop_at chip (size / bootSectorSize + 1).toNat left bootFlashBase now
  refine ⟨d', at', ?_⟩
  rintro s at_rest rfl
  have erased := ran { s with streams := { s.streams with flashAddr := bootFlashBase } } at_rest rfl
  simp only [spiFlashErase, setFlashAddr, Run.bind_apply, Run.modify_apply, Run.get_apply, Run.andThen_ok,
    erased, Run.pure_apply]

/-! ## Words -/

/-- A word of free memory at an aligned address is read, and nothing changes. -/
theorem load_apply (addr : UInt32) (s : Boot Flash) (aligned : addr.toNat % 4 = 0)
    (free : s.region addr = .ram) : loadUnsignedWord addr s = .ok (s.memory.word addr) s := by
  have word : addr % 4 = 0 := by
    rw [← UInt32.toNat_inj, UInt32.toNat_mod]
    exact aligned
  simp only [loadUnsignedWord, Run.bind_apply, Run.get_apply, Run.andThen_ok, if_pos word, free,
    Run.pure_apply]

/-- The words left are programmed one after another and added to the sum. By induction
on their number: each takes one round, and its position does not wrap. -/
theorem flashLoop_at (region : UInt32 → Region) (m : MainMemory)
    (base size i checksum flashAddr : UInt32) (count left k rounds : Nat)
    (now : FlashAt chip.chip polls (4 * count + left) cells d)
    (counted : count = (size.toNat - i.toNat + 3) / 4) (reached : size.toNat ≤ 2 ^ 32 - 4)
    (multiple : i.toNat % 4 = 0) (aligned : base.toNat % 4 = 0) (free : FreeWords region (base + i) count)
    (enough : count < rounds) :
    ∃ d' flashAddr', FlashAt chip.chip polls left
        (burn (cellBehind flashAddr) k ((memoryWords m count (base + i)).flatMap wordBytes) cells) d' ∧
      ∀ s : Boot Flash, s.region = region → s.memory = m → s.streams.spi = d →
        s.streams.flashAddr = flashAddr + UInt32.ofNat k →
        flashLoop (spiFlashStreamPut chip.slave polls) base size rounds i checksum s =
          .ok (false, checksum + (memoryWords m count (base + i)).sum)
            { s with streams := { s.streams with flashAddr := flashAddr', spi := d' } } := by
  obtain ⟨rounds, rfl⟩ := Nat.exists_eq_add_one_of_ne_zero (show rounds ≠ 0 by omega)
  induction count generalizing i checksum rounds k cells d with
  | zero =>
    have done : ¬ i < size := by
      rw [UInt32.lt_iff_toNat_lt]
      omega
    rw [Nat.mul_zero, Nat.zero_add] at now
    refine ⟨d, flashAddr + UInt32.ofNat k, now, ?_⟩
    rintro s rfl rfl rfl addr
    rw [flashLoop, if_neg done, ← addr]
    simp [memoryWords]
  | succ count ih =>
    have inside : i < size := by
      rw [UInt32.lt_iff_toNat_lt]
      omega
    have less := UInt32.lt_iff_toNat_lt.mp inside
    have next := next_position reached multiple inside
    have place : (base + i).toNat % 4 = 0 := by
      rw [UInt32.toNat_add]
      omega
    have fewer : 4 * (count + 1) + left = 4 + (4 * count + left) := by omega
    rw [freeWords_succ] at free
    obtain ⟨here, free⟩ := free
    have moved : base + (i + 4) = base + i + 4 := (UInt32.add_assoc base i 4).symm
    rw [fewer] at now
    obtain ⟨d₁, at₁, ran⟩ := streamPut_at chip (m.word (base + i)) _ k flashAddr now
    obtain ⟨rounds, rfl⟩ := Nat.exists_eq_add_one_of_ne_zero (show rounds ≠ 0 by omega)
    obtain ⟨d', flashAddr', at', ran'⟩ := ih (i + 4) (checksum + m.word (base + i)) (k + 4) at₁ (by omega)
      (by omega) (by rwa [moved]) rounds (by omega)
    rw [moved] at at' ran'
    refine ⟨d', flashAddr', ?_, ?_⟩
    · rw [memoryWords, List.flatMap_cons, burn_append]
      exact at'
    · rintro s rfl rfl at_rest addr
      rw [flashLoop, if_pos inside, memoryWords, List.sum_cons, ← UInt32.add_assoc]
      simp only [Run.bind_apply, load_apply _ _ place here, Run.andThen_ok, ran s at_rest addr, ne_eq,
        not_true_eq_false, if_false]
      exact ran' { s with streams := { s.streams with
        flashAddr := flashAddr + UInt32.ofNat (k + 4), spi := d₁ } } rfl rfl rfl rfl

/-- The contents behind a store. -/
def storedCells (block : Nat) (m : MainMemory) (base size : UInt32) (count : Nat) (cells : Cells) : Cells :=
  burn (cellBehind bootFlashBase) 0
    ([binSignature, base, size, ~~~ (memoryWords m count base).sum].flatMap wordBytes)
    (burn (cellBehind (bootFlashBase + 16)) 0 ((memoryWords m count base).flatMap wordBytes)
      (erasedFrom block (size / bootSectorSize + 1).toNat bootFlashBase cells))

/-- The header stands in front of the data and is programmed word by word after it. -/
theorem storedCells_words (block : Nat) (m : MainMemory) (base size : UInt32) (count : Nat) (cells : Cells) :
    storedCells block m base size count cells =
      burn (cellBehind bootFlashBase) 12 (wordBytes (~~~ (memoryWords m count base).sum))
        (burn (cellBehind bootFlashBase) 8 (wordBytes size)
          (burn (cellBehind bootFlashBase) 4 (wordBytes base)
            (burn (cellBehind bootFlashBase) 0 (wordBytes binSignature)
              (burn (cellBehind (bootFlashBase + 16)) 0 ((memoryWords m count base).flatMap wordBytes)
                (erasedFrom block (size / bootSectorSize + 1).toNat bootFlashBase cells))))) := by
  have four (word : UInt32) : (wordBytes word).length = 4 := by rw [wordBytes]; rfl
  rw [storedCells, List.flatMap_cons, burn_append, List.flatMap_cons, burn_append, List.flatMap_cons, burn_append,
    List.flatMap_singleton, four, four, four]

/-- A confirmed store succeeds and leaves the contents that `storedCells` describes:
blocks erased, data programmed, and then the header. -/
theorem systemAppStore_at {s : Boot Flash} {base size : UInt32} {rest : List UInt8} {count left rounds : Nat}
    (now : FlashAt chip.chip polls ((size / bootSectorSize + 1).toNat + (4 * count + (16 + left))) cells
      s.streams.spi)
    (based : s.exeBase = base) (sized : s.exeSize = size) (some : size ≠ 0)
    (confirmed : s.streams.input = byte 'y' :: rest) (counted : count = (size.toNat + 3) / 4)
    (reached : size.toNat ≤ 2 ^ 32 - 4) (aligned : base.toNat % 4 = 0) (free : FreeWords s.region base count)
    (enough : count < rounds) :
    ∃ s', systemAppStore rounds (spiFlashSetup chip.slave true) (spiFlashErase chip.slave polls)
        (spiFlashStreamPut chip.slave polls) s = .ok 0 s' ∧
      FlashAt chip.chip polls left (storedCells chip.block s.memory base size count cells) s'.streams.spi ∧
      s'.region = s.region ∧ s'.memory = s.memory ∧ s'.exeBase = base ∧ s'.exeSize = size ∧
      s'.streams.input = rest := by
  obtain ⟨d₁, at₁, set⟩ := spiFlashSetup_at chip _ now
  obtain ⟨d₂, at₂, erased⟩ := spiFlashErase_at chip _ size at₁
  rw [← UInt32.add_zero base] at free
  obtain ⟨d₃, flashAddr, at₃, written⟩ := flashLoop_at chip s.region s.memory base size 0 0
    (bootFlashBase + 16) count (16 + left) 0 rounds at₂ counted reached rfl aligned free enough
  rw [UInt32.add_zero] at at₃
  have split : 16 + left = 4 + (4 + (4 + (4 + left))) := by omega
  rw [split] at at₃
  obtain ⟨d₄, at₄, put₀⟩ := streamPut_at chip binSignature _ 0 bootFlashBase at₃
  obtain ⟨d₅, at₅, put₁⟩ := streamPut_at chip base _ 4 bootFlashBase at₄
  obtain ⟨d₆, at₆, put₂⟩ := streamPut_at chip size _ 8 bootFlashBase at₅
  obtain ⟨d₇, at₇, put₃⟩ := streamPut_at chip (~~~ (memoryWords s.memory count base).sum) _ 12 bootFlashBase at₆
  have start : bootFlashBase + UInt32.ofNat 0 = bootFlashBase := UInt32.add_zero _
  have data_start : bootFlashBase + 16 + UInt32.ofNat 0 = bootFlashBase + 16 := UInt32.add_zero _
  rw [start] at put₀
  rw [data_start, UInt32.add_zero, UInt32.zero_add] at written
  have answered (t : Boot Flash) (same : t.streams.input = s.streams.input) :=
    uartGetc_apply (same.trans confirmed)
  have offset : binOffsetData = 16 := rfl
  simp only [systemAppStore, Run.bind_apply, Run.get_apply, Run.modify_apply, Run.pure_apply, Run.andThen_ok,
    sized, based, if_neg some, set, ne_eq, not_true_eq_false, if_false, uartPuts_apply, uartPuth_apply, answered,
    erased, offset, written, put₀, put₁, put₂, put₃, decide_false, Bool.or_false, Bool.false_eq_true]
  rw [storedCells_words]
  exact ⟨_, rfl, at₇, rfl, rfl, rfl, rfl, rfl⟩

end

end NeoSfp
