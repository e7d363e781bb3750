import NeoSfp.BulkTrace

/-!
# Erase before program

A page is programmed only behind an erase of its sector, and no erase of the sector
comes behind it. The bulk write looks at the distance to its last erase, not at
sector boundaries: it keeps the order from a sector's first page on, or while it
stays inside the sector where it starts. Anywhere else it programs the next sector
as it is.
-/

namespace NeoSfp

open Checked NorFlash History

/-- The sector of an address. -/
def sectorOf (x : Nat) : Nat := x / spiFlashSectorSize

/-- What an operation asks of the operations before it. -/
def eraseRule (past : List FlashOp) : FlashOp → Prop
  | .erase a => ∀ x size, .program x size ∈ past → sectorOf x ≠ sectorOf a
  | .program x _ => ∃ a, .erase a ∈ past ∧ sectorOf a = sectorOf x

/-- Every page is programmed behind an erase of its sector, and none before one. -/
def EraseFirst (ops : List FlashOp) : Prop := Along eraseRule [] ops

/-! ## Turns that keep the order -/

/-- Before a turn with `left` pages left: the last erase is known, all pages lie
behind the running address, and either both count from a sector boundary or the
pages that are left fit into the sector of the last erase. -/
structure Prepared (past : List FlashOp) (left : Nat) (addr prev : UInt32) : Prop where
  erased : .erase prev.toNat ∈ past
  behind : ∀ x size, .program x size ∈ past → x < addr.toNat
  page : addr.toNat % 256 = 0
  reached : prev.toNat ≤ addr.toNat
  room : addr.toNat + 256 * left ≤ 2 ^ 24
  inside : prev.toNat % 4096 = 0 ∧ addr.toNat ≤ prev.toNat + 4096 ∨
    addr.toNat + 256 * left ≤ prev.toNat / 4096 * 4096 + 4096

section

variable {past : List FlashOp} {left : Nat} {addr prev : UInt32}

/-- An erase that is due is at a sector boundary, ahead of every page. -/
theorem prepared_erase (prepared : Prepared past (left + 1) addr prev)
    (due : prev.toNat + 4096 ≤ addr.toNat) :
    eraseRule past (.erase addr.toNat) ∧
      Prepared (past ++ [.erase addr.toNat]) (left + 1) addr addr := by
  have room := prepared.room
  have boundary : addr.toNat % 4096 = 0 := by
    rcases prepared.inside with ⟨first, near⟩ | inside
    · omega
    · omega
  constructor
  · intro x size member
    have before := prepared.behind x size member
    simp only [sectorOf, spiFlashSectorSize]
    omega
  · refine
      { erased := by simp
        behind := ?_
        page := prepared.page
        reached := Nat.le_refl _
        room := room
        inside := Or.inl ⟨boundary, Nat.le_add_right _ _⟩ }
    intro x size member
    exact prepared.behind x size (by simpa using member)

/-- A page less than a sector behind the last erase is in its sector. -/
theorem prepared_program (prepared : Prepared past (left + 1) addr prev)
    (near : addr.toNat < prev.toNat + 4096) :
    eraseRule past (.program addr.toNat spiFlashPageSize) ∧
      Prepared (past ++ [.program addr.toNat spiFlashPageSize]) left
        (addr + UInt32.ofNat spiFlashPageSize) prev := by
  have page := prepared.page
  have reached := prepared.reached
  have room := prepared.room
  have onward := page_onward addr (by omega)
  constructor
  · refine ⟨prev.toNat, prepared.erased, ?_⟩
    simp only [sectorOf, spiFlashSectorSize]
    rcases prepared.inside with ⟨first, -⟩ | inside
    · omega
    · omega
  · refine
      { erased := by simp [prepared.erased]
        behind := ?_
        page := by omega
        reached := by omega
        room := by omega
        inside := ?_ }
    · intro x size member
      rcases List.mem_append.mp member with earlier | now
      · have before := prepared.behind x size earlier
        omega
      · obtain ⟨same, -⟩ := FlashOp.program.inj (List.mem_singleton.mp now)
        omega
    · rcases prepared.inside with ⟨first, -⟩ | inside
      · exact Or.inl ⟨first, by omega⟩
      · exact Or.inr (by omega)

/-- The turns of a prepared write keep the order. By induction on the pages left: each
turn leaves the write prepared for the next. -/
theorem turnOps_along (prepared : Prepared past left addr prev) :
    Along eraseRule past (turnOps left addr prev) := by
  induction left generalizing past addr prev with
  | zero => exact along_nil past
  | succ left ih =>
    have room := prepared.room
    have reached := prepared.reached
    have low : addr.toNat % 2 ^ 24 = addr.toNat := by omega
    rw [turnOps, low]
    by_cases due : prev.toNat + 4096 ≤ addr.toNat
    · obtain ⟨allowed, ahead⟩ := prepared_erase prepared due
      obtain ⟨allowed', onward⟩ := prepared_program ahead (by omega)
      rw [if_pos ((erase_due (by omega)).mpr due), along_cons, along_cons]
      exact ⟨allowed, allowed', ih onward⟩
    · obtain ⟨allowed, onward⟩ := prepared_program prepared (by omega)
      rw [if_neg (fun more => due ((erase_due (by omega)).mp more)), along_cons]
      exact ⟨allowed, ih onward⟩

/-! ## Turns without an erase -/

/-- Up to a sector's length behind the last erase there are only pages. -/
theorem turnOps_pages (left count : Nat) (addr prev : UInt32) (low : prev.toNat < 2 ^ 24)
    (room : addr.toNat + 256 * count ≤ 2 ^ 24)
    (near : addr.toNat + 256 * count < prev.toNat + 4096 + 256) :
    ∃ pages next, turnOps (count + left) addr prev = pages ++ turnOps left next prev ∧
      next.toNat = addr.toNat + 256 * count ∧ ∀ a, .erase a ∉ pages := by
  induction count generalizing addr with
  | zero => exact ⟨[], addr, by simp, by simp, by simp⟩
  | succ count ih =>
    have onward := page_onward addr (by omega)
    obtain ⟨pages, next, same, place, none⟩ :=
      ih (addr + UInt32.ofNat spiFlashPageSize) (by omega) (by omega)
    have here : ¬ addr ≥ prev + UInt32.ofNat spiFlashSectorSize := by
      rw [erase_due low]
      omega
    refine ⟨.program (addr.toNat % 2 ^ 24) spiFlashPageSize :: pages, next, ?_, by omega, ?_⟩
    · rw [Nat.succ_add, turnOps, if_neg here, same, List.cons_append]
    · intro a member
      exact none a (by simpa using member)

/-- The first page of the next sector follows no erase of it: up to there the turns are
pages, and the only erase is that of the sector before. -/
theorem turnOps_stale (count : Nat) (room : addr.toNat + 256 * (count + 1) ≤ 2 ^ 24)
    (near : 256 * count < 4096) (next : sectorOf (addr.toNat + 256 * count) ≠ sectorOf addr.toNat) :
    ¬ Along eraseRule [.erase addr.toNat] (turnOps (count + (left + 1)) addr addr) := by
  obtain ⟨pages, stale, same, place, none⟩ :=
    turnOps_pages (left + 1) count addr addr (by omega) (by omega) (by omega)
  have here : ¬ stale ≥ addr + UInt32.ofNat spiFlashSectorSize := by
    rw [erase_due (by omega)]
    omega
  rw [same, turnOps, if_neg here, along_append, along_cons]
  rintro ⟨-, ⟨a, member, sector⟩, -⟩
  have first : a = addr.toNat := by
    rcases List.mem_append.mp member with erase | page
    · exact FlashOp.erase.inj (List.mem_singleton.mp erase)
    · exact absurd page (none a)
  have low : stale.toNat % 2 ^ 24 = addr.toNat + 256 * count := by omega
  rw [first, low] at sector
  exact next sector.symm

end

/-! ## A whole write -/

section

variable (chip : Chip) (addr : UInt32) (length : Nat) (pData : Memory) (s : DriverState Flash)

/-- Behind the first erase, the turns of a write keep the order if and only if it
starts at a sector boundary or ends in the sector where it starts. -/
theorem turnOps_eraseFirst (aligned : addr.toNat % 256 = 0) (positive : 0 < length)
    (fits : addr.toNat + length ≤ 2 ^ 24) :
    EraseFirst (.erase addr.toNat :: turnOps (pagesLeft length 0) addr addr) ↔
      addr.toNat % 4096 = 0 ∨ addr.toNat % 4096 + length ≤ 4096 := by
  have first : eraseRule [] (.erase addr.toNat) := by
    intro x size member
    simp at member
  rw [EraseFirst, along_cons, List.nil_append]
  constructor
  · rintro ⟨-, along⟩
    by_contra neither
    rw [not_or] at neither
    obtain ⟨offset, beyond⟩ := neither
    obtain ⟨count, turn⟩ : ∃ count, addr.toNat % 4096 + 256 * count = 4096 :=
      ⟨(4096 - addr.toNat % 4096) / 256, by omega⟩
    obtain ⟨left, pages⟩ : ∃ left, pagesLeft length 0 = count + (left + 1) :=
      ⟨pagesLeft length 0 - count - 1, by simp only [pagesLeft]; omega⟩
    rw [pages] at along
    refine turnOps_stale count ?_ ?_ ?_ along
    · omega
    · omega
    · simp only [sectorOf, spiFlashSectorSize]
      omega
  · intro holds
    refine ⟨first, turnOps_along ?_⟩
    refine
      { erased := by simp
        behind := by simp
        page := aligned
        reached := Nat.le_refl _
        room := ?_
        inside := ?_ }
    · simp only [pagesLeft]
      omega
    · simp only [pagesLeft]
      omega

/-- From a page boundary on, a bulk write keeps the order of erases and programs if and
only if it starts at a sector boundary or ends in the sector where it starts. The frames
begin exactly the operations of the turns, so this is the statement about turns. -/
theorem neoSpiFlashWriteHuge_eraseFirst (idle : Idle s.dev)
    (aligned : addr.toNat % spiFlashPageSize = 0) (positive : 0 < length)
    (bounded : length ≤ spiFlashBlockSize * 10) (fits : addr.toNat + length ≤ 2 ^ 24) :
    ∃ enough, ∀ polls ≥ enough, ∃ s', ∃ frames : List (List UInt8),
      neoSpiFlashWriteHuge chip.slave polls addr length (some pData) s = .ok ⟨⟩ s' ∧
      s'.calls = s.calls ++ frames.flatMap frameCalls ∧
      (EraseFirst (frames.filterMap flashOp) ↔
        addr.toNat % spiFlashSectorSize = 0 ∨
          addr.toNat % spiFlashSectorSize + length ≤ spiFlashSectorSize) := by
  obtain ⟨enough, runs⟩ := neoSpiFlashWriteHuge_emits chip addr length pData s idle positive bounded
  refine ⟨enough, ?_⟩
  intro polls large
  obtain ⟨s', frames, ran, calls, -, ops⟩ := runs polls large
  refine ⟨s', frames, ran, calls, ?_⟩
  have low : addr.toNat % 2 ^ 24 = addr.toNat := by omega
  rw [ops, low]
  exact turnOps_eraseFirst addr length aligned positive fits

end

/-- Two pages from the last page of a sector on, so that the second lies in the next
sector. -/
theorem neoSpiFlashWriteHuge_eraseFirst_secondPage :
    ∃ enough, ∀ polls ≥ enough, ∃ s', ∃ frames : List (List UInt8),
      neoSpiFlashWriteHuge (norChip fun _ => 3).slave polls 0xF00 257 (some secondPage) blankFlash =
        .ok ⟨⟩ s' ∧
      s'.calls = blankFlash.calls ++ frames.flatMap frameCalls ∧
      (EraseFirst (frames.filterMap flashOp) ↔
        (0xF00 : UInt32).toNat % spiFlashSectorSize = 0 ∨
          (0xF00 : UInt32).toNat % spiFlashSectorSize + 257 ≤ spiFlashSectorSize) :=
  neoSpiFlashWriteHuge_eraseFirst (norChip fun _ => 3) 0xF00 257 secondPage blankFlash
    (rest_idle _ _ _) (by decide) (by omega) (by simp [spiFlashBlockSize]) (by decide)

/-- From the last page of a sector, the second page lands in a sector that was not
erased. -/
theorem lastPage_stale :
    ∃ enough, ∀ polls ≥ enough, ∃ s', ∃ frames : List (List UInt8),
      neoSpiFlashWriteHuge (norChip fun _ => 3).slave polls 0xF00 257 (some secondPage) blankFlash =
        .ok ⟨⟩ s' ∧
      s'.calls = blankFlash.calls ++ frames.flatMap frameCalls ∧
      frames.filterMap flashOp = [.erase 0xF00, .program 0xF00 256, .program 0x1000 256] ∧
      ¬ EraseFirst (frames.filterMap flashOp) := by
  obtain ⟨enough, runs⟩ := neoSpiFlashWriteHuge_emits (norChip fun _ => 3) 0xF00 257 secondPage
    blankFlash (rest_idle _ _ _) (by omega) (by simp [spiFlashBlockSize])
  refine ⟨enough, ?_⟩
  intro polls large
  obtain ⟨s', frames, ran, calls, -, ops⟩ := runs polls large
  have emitted : frames.filterMap flashOp =
      [.erase 0xF00, .program 0xF00 256, .program 0x1000 256] := by
    rw [ops]
    decide
  refine ⟨s', frames, ran, calls, emitted, ?_⟩
  intro order
  rw [emitted] at order
  obtain ⟨a, member, sector⟩ := order [.erase 0xF00, .program 0xF00 256] (.program 0x1000 256) [] rfl
  have first : a = 0xF00 := by simpa using member
  rw [first] at sector
  exact absurd sector (by decide)

end NeoSfp
