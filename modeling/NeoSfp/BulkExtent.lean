import NeoSfp.BulkTrace

/-!
# The extent of a bulk write

A bulk write works in whole pages. It stays inside its range and its buffer if the
length is a whole number of pages; otherwise its last page reads behind the buffer's
end, or programs behind the range's, or both.
-/

namespace NeoSfp

open Checked NorFlash History

/-- The cells an operation programs. -/
def FlashOp.programmed : FlashOp → List Nat
  | .erase _ => []
  | .program x size => walk spiFlashPageSize x size

/-- An operation among some others programs this cell. -/
def Programs (ops : List FlashOp) (x : Nat) : Prop := ∃ op ∈ ops, x ∈ op.programmed

/-- An erase in front of some operations programs no cell, so it does not count towards
the extent. -/
theorem programs_erase (a x : Nat) (ops : List FlashOp) :
    Programs (.erase a :: ops) x ↔ Programs ops x := by
  simp [Programs, FlashOp.programmed]

/-- A page from a page boundary on programs the 256 cells from its address on, without a
wrap; the others come from what follows. -/
theorem programs_page (a x : Nat) (ops : List FlashOp) (aligned : a % 256 = 0) :
    Programs (.program a spiFlashPageSize :: ops) x ↔ (a ≤ x ∧ x < a + 256) ∨ Programs ops x := by
  have cells : x ∈ walk spiFlashPageSize a spiFlashPageSize ↔ a ≤ x ∧ x < a + 256 := by
    apply mem_walk
    simp only [spiFlashPageSize]
    omega
  simp only [Programs, List.exists_mem_cons_iff, FlashOp.programmed, cells]

/-- The turns program the pages from their address on, where that wraps around at
the end of the flash. -/
theorem turnOps_programs (left : Nat) (addr prev : UInt32) (x : Nat) (aligned : addr.toNat % 256 = 0) :
    Programs (turnOps left addr prev) x ↔
      ∃ k < left, (addr.toNat + 256 * k) % 2 ^ 24 ≤ x ∧ x < (addr.toNat + 256 * k) % 2 ^ 24 + 256 := by
  induction left generalizing addr prev with
  | zero => simp [turnOps, Programs]
  | succ left ih =>
    have onward : (addr + UInt32.ofNat spiFlashPageSize).toNat = (addr.toNat + 256) % 2 ^ 32 := by
      rw [UInt32.toNat_add]
      simp [spiFlashPageSize]
    have page : ∀ prev, Programs (.program (addr.toNat % 2 ^ 24) spiFlashPageSize ::
        turnOps left (addr + UInt32.ofNat spiFlashPageSize) prev) x ↔
        ∃ k < left + 1, (addr.toNat + 256 * k) % 2 ^ 24 ≤ x ∧
          x < (addr.toNat + 256 * k) % 2 ^ 24 + 256 := by
      intro prev
      rw [programs_page _ _ _ (by omega), ih _ prev (by omega), onward]
      constructor
      · rintro (⟨low, high⟩ | ⟨k, inside, low, high⟩)
        · exact ⟨0, Nat.succ_pos left, by omega, by omega⟩
        · exact ⟨k + 1, by omega, by omega, by omega⟩
      · rintro ⟨k, inside, low, high⟩
        cases k with
        | zero => exact Or.inl ⟨by omega, by omega⟩
        | succ k => exact Or.inr ⟨k, by omega, by omega, by omega⟩
    rw [turnOps]
    split
    · rw [programs_erase, page]
    · rw [page]

/-- The pages of a write stay inside its range if and only if they fill it, in front
of the end of the flash. -/
theorem pages_inside (addr length : Nat) (aligned : addr % 256 = 0) (positive : 0 < length)
    (bounded : length ≤ spiFlashBlockSize * 10) :
    (∀ x, (∃ k < pagesLeft length 0, (addr + 256 * k) % 2 ^ 24 ≤ x ∧
        x < (addr + 256 * k) % 2 ^ 24 + 256) → addr ≤ x ∧ x < addr + length) ↔
      length % 256 = 0 ∧ addr + length ≤ 2 ^ 24 := by
  simp only [spiFlashBlockSize] at bounded
  have pages : 256 * pagesLeft length 0 < length + 256 ∧ length ≤ 256 * pagesLeft length 0 := by
    simp only [pagesLeft]
    omega
  generalize pagesLeft length 0 = n at pages ⊢
  obtain ⟨near, covers⟩ := pages
  constructor
  · intro inside
    obtain ⟨low, -⟩ := inside (addr % 2 ^ 24) ⟨0, by omega, by omega, by omega⟩
    obtain ⟨k, last⟩ : ∃ k, n = k + 1 := ⟨n - 1, by omega⟩
    obtain ⟨low', high⟩ := inside ((addr + 256 * k) % 2 ^ 24 + 255) ⟨k, by omega, by omega, by omega⟩
    omega
  · rintro ⟨whole, room⟩ x ⟨k, inside, low, high⟩
    omega

/-- The places of the buffer that some page writes read are those of its first page,
however many the writes are. -/
theorem mem_places (n i : Nat) (positive : 0 < n) :
    i ∈ (List.replicate n (List.range spiFlashPageSize)).flatten ↔ i < spiFlashPageSize := by
  rw [List.mem_flatten]
  constructor
  · rintro ⟨places, member, inside⟩
    rw [List.eq_of_mem_replicate member] at inside
    exact List.mem_range.mp inside
  · intro inside
    exact ⟨_, List.mem_replicate.mpr ⟨Nat.ne_of_gt positive, rfl⟩, List.mem_range.mpr inside⟩

section

variable (chip : Chip) (addr : UInt32) (length : Nat) (pData : Memory) (s : DriverState Flash)

/-- From a page boundary on, a bulk write stays inside its buffer and its range if and
only if the length is a whole number of pages and the range does not pass the end of the
flash. The frames begin exactly the operations of the turns, and each of them reads and
programs a whole page. -/
theorem neoSpiFlashWriteHuge_inside (idle : Idle s.dev)
    (aligned : addr.toNat % spiFlashPageSize = 0) (positive : 0 < length)
    (bounded : length ≤ spiFlashBlockSize * 10) :
    ∃ enough, ∀ polls ≥ enough, ∃ s' places, ∃ frames : List (List UInt8),
      neoSpiFlashWriteHuge chip.slave polls addr length (some pData) s = .ok ⟨⟩ s' ∧
      s'.calls = s.calls ++ frames.flatMap frameCalls ∧ s'.reads = s.reads ++ places ∧
      (((∀ i ∈ places, i < length) ∧ ∀ x, Programs (frames.filterMap flashOp) x →
          addr.toNat ≤ x ∧ x < addr.toNat + length) ↔
        length % spiFlashPageSize = 0 ∧ addr.toNat + length ≤ 2 ^ 24) := by
  obtain ⟨enough, runs⟩ := neoSpiFlashWriteHuge_emits chip addr length pData s idle positive bounded
  refine ⟨enough, ?_⟩
  intro polls large
  obtain ⟨s', frames, ran, calls, reads, ops⟩ := runs polls large
  refine ⟨s', _, frames, ran, calls, reads, ?_⟩
  have more : 0 < pagesLeft length 0 := by
    simp only [pagesLeft]
    omega
  simp only [ops, programs_erase, turnOps_programs _ _ _ _ aligned, mem_places _ _ more,
    pages_inside addr.toNat length aligned positive bounded]
  simp only [spiFlashPageSize]
  constructor
  · rintro ⟨-, holds⟩
    exact holds
  · rintro ⟨whole, room⟩
    refine ⟨?_, whole, room⟩
    intro i inside
    omega

end

/-- The range of 257 bytes from the beginning of the flash, whose second page goes
beyond it. -/
theorem neoSpiFlashWriteHuge_inside_secondPage :
    ∃ enough, ∀ polls ≥ enough, ∃ s' places, ∃ frames : List (List UInt8),
      neoSpiFlashWriteHuge (norChip fun _ => 3).slave polls 0 257 (some secondPage) blankFlash =
        .ok ⟨⟩ s' ∧
      s'.calls = blankFlash.calls ++ frames.flatMap frameCalls ∧
      s'.reads = blankFlash.reads ++ places ∧
      (((∀ i ∈ places, i < 257) ∧ ∀ x, Programs (frames.filterMap flashOp) x →
          (0 : UInt32).toNat ≤ x ∧ x < (0 : UInt32).toNat + 257) ↔
        257 % spiFlashPageSize = 0 ∧ (0 : UInt32).toNat + 257 ≤ 2 ^ 24) :=
  neoSpiFlashWriteHuge_inside (norChip fun _ => 3) 0 257 secondPage blankFlash (rest_idle _ _ _) rfl
    (by omega) (by simp [spiFlashBlockSize])

/-- A write of one byte reads a whole page of the buffer and programs a whole page of
the flash. -/
theorem oneByte_outside :
    ∃ enough, ∀ polls ≥ enough, ∃ s' places, ∃ frames : List (List UInt8),
      neoSpiFlashWriteHuge (norChip fun _ => 3).slave polls 0 1 (some secondPage) blankFlash =
        .ok ⟨⟩ s' ∧
      s'.calls = blankFlash.calls ++ frames.flatMap frameCalls ∧
      s'.reads = blankFlash.reads ++ places ∧
      (∃ i ∈ places, ¬ i < 1) ∧
      ∃ x, Programs (frames.filterMap flashOp) x ∧ ¬ x < (0 : UInt32).toNat + 1 := by
  obtain ⟨enough, runs⟩ := neoSpiFlashWriteHuge_emits (norChip fun _ => 3) 0 1 secondPage
    blankFlash (rest_idle _ _ _) (by omega) (by simp [spiFlashBlockSize])
  refine ⟨enough, ?_⟩
  intro polls large
  obtain ⟨s', frames, ran, calls, reads, ops⟩ := runs polls large
  refine ⟨s', _, frames, ran, calls, reads, ⟨1, ?_, by omega⟩, 1, ?_, by decide⟩
  · exact (mem_places _ 1 (by decide)).mpr (by decide)
  · rw [ops, programs_erase, turnOps_programs _ _ _ _ rfl]
    exact ⟨0, by decide, by decide, by decide⟩

end NeoSfp
