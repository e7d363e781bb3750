import NeoSfp.BootStore

/-!
# Loading what has been stored

An executable that has been stored is loaded again, from the chip and into any memory.
What comes back is what has been stored, exactly if no bit was in the way in the part of
the last block that has not been erased.
-/

namespace NeoSfp

open Checked NorFlash

/-! ## Words in memory and on the flash -/

/-- As many words are read as were asked for. -/
theorem memoryWords_length (m : MainMemory) (count : Nat) (addr : UInt32) :
    (memoryWords m count addr).length = count := by
  induction count generalizing addr with
  | zero => rfl
  | succ count ih => rw [memoryWords, List.length_cons, ih]

/-- Words read from an address on are the first ones and then those behind them. -/
theorem memoryWords_add (m : MainMemory) (first second : Nat) (addr : UInt32) :
    memoryWords m (first + second) addr =
      memoryWords m first addr ++ memoryWords m second (addr + UInt32.ofNat (4 * first)) := by
  induction first generalizing addr with
  | zero =>
    rw [Nat.zero_add]
    simp [memoryWords]
  | succ first ih =>
    have moved : addr + 4 + UInt32.ofNat (4 * first) = addr + UInt32.ofNat (4 * (first + 1)) := by
      rw [UInt32.add_assoc, Nat.mul_succ, Nat.add_comm, UInt32.ofNat_add]
      rfl
    rw [Nat.add_right_comm, memoryWords, memoryWords, ih, moved, List.cons_append]

/-- The bytes of the words read from an address on are the bytes of the memory there, in
order. -/
theorem memoryWords_bytes (m : MainMemory) (count : Nat) (addr : UInt32) :
    (memoryWords m count addr).flatMap wordBytes =
      (List.range (4 * count)).map fun k => m (addr + UInt32.ofNat k) := by
  induction count with
  | zero => rfl
  | succ count ih =>
    have last : memoryWords m 1 (addr + UInt32.ofNat (4 * count)) =
        [m.word (addr + UInt32.ofNat (4 * count))] := rfl
    have bytes : wordBytes (m.word (addr + UInt32.ofNat (4 * count))) =
        (List.range 4).map fun k => m (addr + UInt32.ofNat (4 * count + k)) := by
      rw [MainMemory.word, wordBytes_read32 _ (by simp)]
      simp [List.range_succ, UInt32.ofNat_add, UInt32.add_assoc]
    rw [memoryWords_add, List.flatMap_append, ih, last, List.flatMap_singleton, bytes, Nat.mul_succ,
      List.range_add, List.map_append, List.map_map]
    rfl

/-- Words with the same bytes are the same: each word is read back from its four
bytes. -/
theorem wordBytes_inj (first second : List UInt32) (same : first.flatMap wordBytes = second.flatMap wordBytes) :
    first = second := by
  induction first generalizing second with
  | nil =>
    have length := congrArg List.length same
    rw [wordBytes_length, wordBytes_length, List.length_nil] at length
    exact (List.length_eq_zero_iff.mp (by omega)).symm
  | cons word first ih =>
    cases second with
    | nil =>
      have length := congrArg List.length same
      rw [wordBytes_length, wordBytes_length, List.length_nil, List.length_cons] at length
      omega
    | cons word' second =>
      rw [List.flatMap_cons, List.flatMap_cons] at same
      obtain ⟨head, tail⟩ := List.append_inj same rfl
      have words := congrArg read32 head
      rw [← List.append_nil (wordBytes word), ← List.append_nil (wordBytes word'), read32_wordBytes,
        read32_wordBytes] at words
      rw [words, ih second tail]

/-- The flash as the driver's addresses see it. -/
def flashView (cells : Cells) : MainMemory := fun a => cells (cellOf a)

/-- A word read by the driver is a word of the memory that the flash looks like under
32-bit addresses. -/
theorem wordAt_view (cells : Cells) (flashAddr : UInt32) :
    wordAt flashAddr cells = (flashView cells).word flashAddr := by
  have around (i : Nat) : (cellOf flashAddr + i) % 2 ^ 24 = cellOf (flashAddr + UInt32.ofNat i) := by
    rw [cellOf, cellOf, UInt32.toNat_add, UInt32.toNat_ofNat']
    omega
  simp only [wordAt, around]
  simp [MainMemory.word, flashView, List.range_succ]

section

variable (chip : BlockChip) {polls : Nat} {cells : Cells}

/-- The flash at rest yields the words behind the running address, one with each call.
By induction on how many are read. -/
theorem flash_yields (count left : Nat) (d : Streams Flash) (now : FlashAt chip.chip polls left cells d.spi) :
    ∃ d', Yields (spiFlashStreamGet chip.slave) d (memoryWords (flashView cells) count d.flashAddr) d' := by
  induction count generalizing d with
  | zero => exact ⟨d, Yields.nil d⟩
  | succ count ih =>
    obtain ⟨spi, at_rest, ran⟩ := streamGet_at chip left d.flashAddr now
    obtain ⟨d', rest⟩ := ih { d with flashAddr := d.flashAddr + 4, spi := spi } at_rest
    refine ⟨d', Yields.cons ?_ rest⟩
    rintro s rfl
    rw [ran s rfl rfl, wordAt_view]

/-! ## Stored contents -/

/-- The cells from the base address on do not wrap around while they stay inside the 24
bits of the chip. -/
theorem cellBehind_base (k : Nat) (inside : k < 0xC00000) : cellBehind bootFlashBase k = 0x400000 + k := by
  have base : bootFlashBase.toNat = 0x400000 := rfl
  rw [cellBehind, cellOf, UInt32.toNat_add, UInt32.toNat_ofNat', base]
  omega

/-- The cells behind the header, which is sixteen bytes long. -/
theorem cellBehind_data (k : Nat) (inside : 16 + k < 0xC00000) :
    cellBehind (bootFlashBase + 16) k = 0x400010 + k := by
  have base : (bootFlashBase + 16).toNat = 0x400010 := rfl
  rw [cellBehind, cellOf, UInt32.toNat_add, UInt32.toNat_ofNat', base]
  omega

/-- The blocks from the base address on are blank, and nothing else has changed. -/
theorem erasedFrom_cells (start count x : Nat) (cells : Cells) (fits : start + count ≤ 192) :
    erasedFrom 65536 count (bootFlashBase + UInt32.ofNat (65536 * start)) cells x =
      if 64 + start ≤ x / 65536 ∧ x / 65536 < 64 + start + count then 0xFF else cells x := by
  induction count generalizing start cells with
  | zero => rw [erasedFrom, if_neg (by omega)]
  | succ count ih =>
    have place : cellOf (bootFlashBase + UInt32.ofNat (65536 * start)) / 65536 = 64 + start := by
      have cell := cellBehind_base (65536 * start) (by omega)
      rw [cellBehind] at cell
      omega
    have moved : bootFlashBase + UInt32.ofNat (65536 * start) + bootSectorSize =
        bootFlashBase + UInt32.ofNat (65536 * (start + 1)) := by
      rw [UInt32.add_assoc, Nat.mul_succ, UInt32.ofNat_add]
      rfl
    rw [erasedFrom, moved, ih (start + 1) _ (by omega)]
    by_cases later : 64 + (start + 1) ≤ x / 65536 ∧ x / 65536 < 64 + (start + 1) + count
    · rw [if_pos later, if_pos (by omega)]
    · rw [if_neg later]
      by_cases here : x / 65536 = 64 + start
      · rw [if_pos (by omega), erase_inside _ _ _ (by rw [place, here])]
      · rw [if_neg (by omega), erase_outside _ _ _ (by rw [place]; exact here)]

/-- Words may be shown to be in a memory byte by byte. -/
theorem memoryWords_eq {m : MainMemory} {addr : UInt32} (words : List UInt32)
    (same : ∀ (k : Nat) (inside : k < (words.flatMap wordBytes).length),
      m (addr + UInt32.ofNat k) = (words.flatMap wordBytes)[k]) :
    memoryWords m words.length addr = words := by
  apply wordBytes_inj
  rw [memoryWords_bytes]
  apply List.ext_getElem
  · rw [List.length_map, List.length_range, wordBytes_length]
  · intro k _ inside
    rw [List.getElem_map, List.getElem_range, same k inside]

/-- The stored bytes of an executable that fits behind the base address. -/
structure StoredExecutable (m : MainMemory) (base size : UInt32) (count : Nat) (cells stored : Cells) : Prop where
  header : ∀ k < 16, stored (0x400000 + k) =
    ([binSignature, base, size, ~~~ (memoryWords m count base).sum].flatMap wordBytes).getD k 0
  data : ∀ k < 4 * count, stored (0x400010 + k) =
    if 16 + k < (size.toNat / 65536 + 1) * 65536 then m (base + UInt32.ofNat k)
    else cells (0x400010 + k) &&& m (base + UInt32.ofNat k)

/-- What a store leaves has the bytes of the executable where the loader looks for them:
header and data do not overlap, and the data are cleared bits of what stood there. -/
theorem storedCells_stored (m : MainMemory) (base size : UInt32) (count : Nat) (cells : Cells)
    (counted : count = (size.toNat + 3) / 4) (room : 16 + 4 * count ≤ 0xC00000) :
    StoredExecutable m base size count cells (storedCells 65536 m base size count cells) := by
  have blocks : (size / bootSectorSize + 1).toNat = size.toNat / 65536 + 1 := by
    have sector : bootSectorSize.toNat = 65536 := rfl
    have one : (1 : UInt32).toNat = 1 := rfl
    have small := size.toNat_lt
    rw [UInt32.toNat_add, UInt32.toNat_div, sector, one]
    omega
  have erased (x : Nat) := erasedFrom_cells 0 (size.toNat / 65536 + 1) x cells (by omega)
  have start : bootFlashBase + UInt32.ofNat (65536 * 0) = bootFlashBase := UInt32.add_zero _
  rw [start] at erased
  have data_length : ((memoryWords m count base).flatMap wordBytes).length = 4 * count := by
    rw [wordBytes_length, memoryWords_length]
  have header_length : ([binSignature, base, size, ~~~ (memoryWords m count base).sum].flatMap
      wordBytes).length = 16 := rfl
  constructor
  · intro k inside
    have distinct (j j' : Nat) (less : j < j') (small : j' < 16) :
        cellBehind bootFlashBase j ≠ cellBehind bootFlashBase j' := by
      rw [cellBehind_base j (by omega), cellBehind_base j' (by omega)]
      omega
    have within : k < ([binSignature, base, size, ~~~ (memoryWords m count base).sum].flatMap
        wordBytes).length := inside
    rw [List.getD_eq_getElem _ _ within, ← cellBehind_base k (by omega), storedCells, blocks,
      burn_cleared k _ _ within distinct, burn_outside, erased, if_pos, erased_and]
    · rw [cellBehind_base k (by omega)]
      omega
    · intro j _ small
      rw [data_length] at small
      rw [cellBehind_data j (by omega), cellBehind_base k (by omega)]
      omega
  · intro k inside
    have distinct (j j' : Nat) (less : j < j') (small : j' < ((memoryWords m count base).flatMap wordBytes).length) :
        cellBehind (bootFlashBase + 16) j ≠ cellBehind (bootFlashBase + 16) j' := by
      rw [data_length] at small
      rw [cellBehind_data j (by omega), cellBehind_data j' (by omega)]
      omega
    have within : k < ((memoryWords m count base).flatMap wordBytes).length := by omega
    have byte_k : ((memoryWords m count base).flatMap wordBytes)[k] = m (base + UInt32.ofNat k) := by
      simp only [memoryWords_bytes, List.getElem_map, List.getElem_range]
    rw [storedCells, blocks, burn_outside, ← cellBehind_data k (by omega),
      burn_cleared k _ _ within distinct, erased, byte_k, cellBehind_data k (by omega)]
    · by_cases covered : 16 + k < (size.toNat / 65536 + 1) * 65536
      · rw [if_pos covered, if_pos (by omega), erased_and]
      · rw [if_neg covered, if_neg (by omega)]
    · intro j _ small
      rw [header_length] at small
      rw [cellBehind_base j (by omega)]
      omega

/-- What the loader reads from stored contents: the header, and as many words. -/
theorem stored_words {m : MainMemory} {base size : UInt32} {count : Nat} {cells stored : Cells}
    (holds : StoredExecutable m base size count cells stored) :
    memoryWords (flashView stored) (4 + count) bootFlashBase =
      [binSignature, base, size, ~~~ (memoryWords m count base).sum] ++
        memoryWords (flashView stored) count (bootFlashBase + 16) := by
  have header : memoryWords (flashView stored) 4 bootFlashBase =
      [binSignature, base, size, ~~~ (memoryWords m count base).sum] := by
    apply memoryWords_eq [binSignature, base, size, ~~~ (memoryWords m count base).sum]
    intro k within
    have small : k < 16 := within
    rw [← List.getD_eq_getElem _ 0 within, ← holds.header k small, ← cellBehind_base k (by omega)]
    rfl
  rw [memoryWords_add, header]
  rfl

/-- Words of the memory put back where they were: inside the range the memory has the
old bytes, and outside its own. -/
theorem place_words (m m' : MainMemory) (base : UInt32) (count : Nat) (a : UInt32) :
    m'.place base ((memoryWords m count base).flatMap wordBytes) a =
      if (a - base).toNat < 4 * count then m a else m' a := by
  rw [MainMemory.place, wordBytes_length, memoryWords_length]
  by_cases inside : (a - base).toNat < 4 * count
  · have back : base + UInt32.ofNat (a - base).toNat = a := by
      rw [UInt32.ofNat_toNat, UInt32.add_comm, UInt32.sub_add_cancel]
    rw [if_pos inside, if_pos inside, memoryWords_bytes,
      List.getD_eq_getElem _ _ (by rwa [List.length_map, List.length_range]), List.getElem_map,
      List.getElem_range, back]
  · rw [if_neg inside, if_neg inside]

/-- Loading from stored contents: the checksum decides, and the data goes where the
header says. -/
theorem reload_at {m : MainMemory} {base size : UInt32} {count left rounds : Nat} {cells stored : Cells}
    (holds : StoredExecutable m base size count cells stored) (t : Boot Flash)
    (now : FlashAt chip.chip polls left stored t.streams.spi) (counted : count = (size.toNat + 3) / 4)
    (reached : size.toNat ≤ 2 ^ 32 - 4) (aligned : base.toNat % 4 = 0) (free : FreeWords t.region base count)
    (enough : count < rounds) :
    ∃ d', systemAppLoad rounds (spiFlashSetup chip.slave true) (spiFlashStreamGet chip.slave) t =
      if ~~~ (memoryWords m count base).sum =
          ~~~ (memoryWords (flashView stored) count (bootFlashBase + 16)).sum then
        .ok 0 ({ t.placed base (memoryWords (flashView stored) count (bootFlashBase + 16)) d' with
          exeSize := size }.say (bytes "OK\n"))
      else .ok 1 ((t.placed base (memoryWords (flashView stored) count (bootFlashBase + 16)) d').say
        (bytes "\x07ERROR_CHECKSUM\n")) := by
  obtain ⟨d₁, at₁, ready⟩ := spiFlashSetup_at chip left now
  obtain ⟨d', yields⟩ := flash_yields chip (4 + count) left
    { t.streams with flashAddr := bootFlashBase, spi := d₁ } at₁
  rw [stored_words holds] at yields
  exact ⟨d', systemAppLoad_yields (ready { t with exeSize := 0 } rfl) yields
    ((memoryWords_length _ _ _).trans counted) reached (fun _ => aligned)
    (by rwa [memoryWords_length]) (by rwa [memoryWords_length])⟩

/-- The words come back exactly if the bytes behind the erased blocks could be
programmed, since those in front come back in any case. -/
theorem reloaded_iff {m : MainMemory} {base size : UInt32} {count : Nat} {cells stored : Cells}
    (holds : StoredExecutable m base size count cells stored) (room : 16 + 4 * count ≤ 0xC00000) :
    memoryWords (flashView stored) count (bootFlashBase + 16) = memoryWords m count base ↔
      ∀ k < 4 * count, (size.toNat / 65536 + 1) * 65536 ≤ 16 + k →
        cells (0x400010 + k) &&& m (base + UInt32.ofNat k) = m (base + UInt32.ofNat k) := by
  have read (k : Nat) (inside : k < 4 * count) :
      flashView stored (bootFlashBase + 16 + UInt32.ofNat k) = stored (0x400010 + k) := by
    rw [← cellBehind_data k (by omega)]
    rfl
  constructor
  · intro same k inside beyond
    have bytes := congrArg (List.flatMap wordBytes) same
    rw [memoryWords_bytes, memoryWords_bytes] at bytes
    have byte_k := List.map_inj_left.mp bytes k (List.mem_range.mpr inside)
    rwa [read k inside, holds.data k inside, if_neg (by omega)] at byte_k
  · intro kept
    apply wordBytes_inj
    rw [memoryWords_bytes, memoryWords_bytes]
    apply List.map_inj_left.mpr
    intro k member
    have inside := List.mem_range.mp member
    rw [read k inside, holds.data k inside]
    split
    · rfl
    · exact kept k inside (by omega)

end

/-- Storing and loading. An executable in memory that the bootloader does not need itself is
stored on any chip with the bootloader's blocks, whatever it holds. Then, in any later run
in which its place is such memory, it is loaded to where it was, exactly if each byte of it
that lies behind the erased blocks only needs bits that its cell still has. -/
theorem systemAppStore_reloads (chip : BlockChip) (s : Boot Flash) (rest : List UInt8) (rounds : Nat)
    (blocks : chip.block = 65536) (idle : Idle s.streams.spi.dev) (some : s.exeSize ≠ 0)
    (aligned : s.exeBase.toNat % 4 = 0) (confirmed : s.streams.input = byte 'y' :: rest)
    (room : 16 + (s.exeSize.toNat + 3) / 4 * 4 ≤ 0xC00000)
    (free : FreeWords s.region s.exeBase ((s.exeSize.toNat + 3) / 4)) (enough : (s.exeSize.toNat + 3) / 4 < rounds) :
    ∃ patience, ∀ polls ≥ patience, ∃ s',
      systemAppStore rounds (spiFlashSetup chip.slave true) (spiFlashErase chip.slave polls)
        (spiFlashStreamPut chip.slave polls) s = .ok 0 s' ∧ Idle s'.streams.spi.dev ∧
      ((∀ t : Boot Flash, t.streams.spi = s'.streams.spi →
          FreeWords t.region s.exeBase ((s.exeSize.toNat + 3) / 4) → ∃ t',
          systemAppLoad rounds (spiFlashSetup chip.slave true) (spiFlashStreamGet chip.slave) t = .ok 0 t' ∧
          t'.exeBase = s.exeBase ∧ t'.exeSize = s.exeSize ∧
          ∀ a, t'.memory a =
            if (a - s.exeBase).toNat < (s.exeSize.toNat + 3) / 4 * 4 then s.memory a else t.memory a) ↔
        ∀ k < (s.exeSize.toNat + 3) / 4 * 4, (s.exeSize.toNat / 65536 + 1) * 65536 ≤ 16 + k →
          s.streams.spi.dev.cells (0x400010 + k) &&& s.memory (s.exeBase + UInt32.ofNat k) =
            s.memory (s.exeBase + UInt32.ofNat k)) := by
  generalize counted : (s.exeSize.toNat + 3) / 4 = count at room free enough ⊢
  obtain ⟨patience, patient⟩ := patient_enough chip.chip.delay (s.streams.spi.dev.begun +
    ((s.exeSize / bootSectorSize + 1).toNat + (4 * count + (16 + 0))))
  refine ⟨patience, ?_⟩
  intro polls large
  have now : FlashAt chip.chip polls ((s.exeSize / bootSectorSize + 1).toNat + (4 * count + (16 + 0)))
      s.streams.spi.dev.cells s.streams.spi :=
    ⟨_, _, s.streams.spi.calls, s.streams.spi.reads, by rw [← idle_rest idle], patient polls large⟩
  obtain ⟨s', stored, now', same_region, -, -, -, -⟩ := systemAppStore_at chip now rfl rfl some confirmed counted.symm
    (by omega) aligned free enough
  have holds := storedCells_stored s.memory s.exeBase s.exeSize count s.streams.spi.dev.cells counted.symm
    (by omega)
  rw [blocks] at now'
  refine ⟨s', stored, ?_, ?_⟩
  · obtain ⟨wel, begun, calls, reads, at_rest, -⟩ := now'
    rw [at_rest]
    exact rest_idle _ _ _
  · rw [Nat.mul_comm count 4, ← reloaded_iff holds (by omega)]
    constructor
    · intro reloads
      rw [← same_region] at free
      obtain ⟨t', loaded, -, -, back⟩ := reloads s' rfl free
      obtain ⟨d', result⟩ := reload_at chip holds s' now' counted.symm (by omega) aligned free enough
      rw [result] at loaded
      split at loaded
      · obtain ⟨-, rfl⟩ := Outcome.ok.inj loaded
        apply wordBytes_inj
        rw [memoryWords_bytes s.memory]
        apply List.ext_getElem
        · rw [wordBytes_length, memoryWords_length, List.length_map, List.length_range]
        · intro k within inside
          have small : k < 4 * count := by rwa [List.length_map, List.length_range] at inside
          have placed := back (s.exeBase + UInt32.ofNat k)
          rw [distance_behind s.exeBase k (by omega), if_pos (by omega)] at placed
          rw [List.getElem_map, List.getElem_range, ← placed, ← List.getD_eq_getElem _ 0 within]
          exact (place_at s.exeBase _ s'.memory k within
            (by rw [wordBytes_length, memoryWords_length]; omega)).symm
      · exact absurd (Outcome.ok.inj loaded).1 (by decide)
    · intro same t at_rest free'
      rw [← at_rest] at now'
      obtain ⟨d', result⟩ := reload_at chip holds t now' counted.symm (by omega) aligned free' enough
      rw [same, if_pos rfl] at result
      exact ⟨_, result, rfl, rfl, place_words s.memory t.memory s.exeBase count⟩

def blockChip : BlockChip where
  chip := norChip fun begun => begun % 7
  block := 65536

/-- An executable that ends in the block behind the erased one, to be stored on a flash that
is not blank. -/
def storingBoot : Boot Flash where
  exeBase := 0x100
  exeSize := 65532
  region := smallSystem
  memory := fun a => a.toUInt8
  streams := { input := [byte 'y'], spi := { dev := rest (fun _ => 0x0F) true 3 } }

/-- An executable that ends twelve bytes behind the erased block, on a flash that holds
something there. -/
theorem systemAppStore_reloads_storingBoot :
    ∃ patience, ∀ polls ≥ patience, ∃ s',
      systemAppStore 16384 (spiFlashSetup blockChip.slave true) (spiFlashErase blockChip.slave polls)
        (spiFlashStreamPut blockChip.slave polls) storingBoot = .ok 0 s' ∧ Idle s'.streams.spi.dev ∧
      ((∀ t : Boot Flash, t.streams.spi = s'.streams.spi →
          FreeWords t.region storingBoot.exeBase ((storingBoot.exeSize.toNat + 3) / 4) → ∃ t',
          systemAppLoad 16384 (spiFlashSetup blockChip.slave true) (spiFlashStreamGet blockChip.slave) t =
            .ok 0 t' ∧
          t'.exeBase = storingBoot.exeBase ∧ t'.exeSize = storingBoot.exeSize ∧
          ∀ a, t'.memory a =
            if (a - storingBoot.exeBase).toNat < (storingBoot.exeSize.toNat + 3) / 4 * 4 then
              storingBoot.memory a
            else t.memory a) ↔
        ∀ k < (storingBoot.exeSize.toNat + 3) / 4 * 4,
          (storingBoot.exeSize.toNat / 65536 + 1) * 65536 ≤ 16 + k →
            storingBoot.streams.spi.dev.cells (0x400010 + k) &&&
                storingBoot.memory (storingBoot.exeBase + UInt32.ofNat k) =
              storingBoot.memory (storingBoot.exeBase + UInt32.ofNat k)) :=
  systemAppStore_reloads blockChip storingBoot [] 16384 rfl (rest_idle _ _ _) (by decide) (by decide) rfl
    (by decide) (smallSystem_free 0x100 16383 (by decide)) (by decide)

end NeoSfp
