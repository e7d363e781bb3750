import NeoSfp.NorFlash

/-!
# What happens to a cell

Contents change by erases and programs, one after the other. A cell keeps its byte
while nothing reaches it, and until its sector is erased it only loses bits.
-/

namespace NorFlash

/-- One operation on the contents. -/
inductive Change where
  | erase (a : Nat)
  | program (a : Nat) (data : List UInt8)
deriving DecidableEq, Repr

section

variable (page sector : Nat)

/-- What a change does to the contents. -/
def Change.apply : Change → Cells → Cells
  | .erase a => NorFlash.erase sector a
  | .program a data => NorFlash.program page a data

/-- The contents behind a sequence of changes. -/
def changed (changes : List Change) (cells : Cells) : Cells :=
  changes.foldl (fun cells change => change.apply page sector cells) cells

/-- The change may give the cell another byte. -/
def Change.Reaches (x : Nat) : Change → Prop
  | .erase a => x / sector = a / sector
  | .program a data => x ∈ walk page a data.length

/-- The change sets the bits of the cell. -/
def Change.Erases (x : Nat) : Change → Prop
  | .erase a => x / sector = a / sector
  | .program _ _ => False

end

/-- A byte has no bit that the other one lacks. -/
def Within (b c : UInt8) : Prop := b &&& c = b

/-- A byte has no bit that it lacks itself. -/
theorem within_refl (b : UInt8) : Within b b := UInt8.and_self

/-- Bits are lost for good, so that losses add up. -/
theorem within_trans {b c d : UInt8} (first : Within b c) (second : Within c d) : Within b d := by
  unfold Within at *
  rw [← first, UInt8.and_assoc, second]

/-- What is left of a byte behind programming is a part of it, whatever byte is
programmed. -/
theorem within_and (b c : UInt8) : Within (c &&& b) c := by
  unfold Within
  rw [UInt8.and_comm c b, UInt8.and_assoc, UInt8.and_self]

section

variable {page sector x : Nat}

/-- Changes that follow others work on the contents that those leave. -/
theorem changed_append (first second : List Change) (cells : Cells) :
    changed page sector (first ++ second) cells =
      changed page sector second (changed page sector first cells) := List.foldl_append

/-- Programming clears bits and sets none, in every cell and for any data. By induction
on the data: the first byte clears bits in one cell, and the others keep to what is
left. -/
theorem program_within (a : Nat) (data : List UInt8) (cells : Cells) :
    Within (program page a data cells x) (cells x) := by
  induction data generalizing a cells with
  | nil => exact within_refl _
  | cons b data ih =>
    rw [program]
    refine within_trans (ih (next page a) _) ?_
    by_cases here : x = a
    · subst here
      rw [Function.update_self]
      exact within_and b (cells x)
    · rw [Function.update_of_ne here]
      exact within_refl _

/-- Until its sector is erased, a cell only loses bits. By induction on the changes, of
which the erases are those of other sectors. -/
theorem changed_within (changes : List Change) (cells : Cells)
    (kept : ∀ change ∈ changes, ¬ change.Erases sector x) :
    Within (changed page sector changes cells x) (cells x) := by
  induction changes generalizing cells with
  | nil => exact within_refl _
  | cons change changes ih =>
    obtain ⟨first, others⟩ := List.forall_mem_cons.mp kept
    refine within_trans (ih (change.apply page sector cells) others) ?_
    cases change with
    | erase a =>
      rw [Change.apply, erase_outside a x cells first]
      exact within_refl _
    | program a data => exact program_within a data cells

/-- A change leaves every cell alone that it does not reach: an erase those of other
sectors, a program those off its walk. -/
theorem change_outside (change : Change) (cells : Cells) (apart : ¬ change.Reaches page sector x) :
    change.apply page sector cells x = cells x := by
  cases change with
  | erase a => exact erase_outside a x cells apart
  | program a data => exact program_outside a x data cells apart

/-- A cell that nothing reaches keeps its byte over any number of changes. -/
theorem changed_outside (changes : List Change) (cells : Cells)
    (apart : ∀ change ∈ changes, ¬ change.Reaches page sector x) :
    changed page sector changes cells x = cells x := by
  induction changes generalizing cells with
  | nil => rfl
  | cons change changes ih =>
    obtain ⟨first, others⟩ := List.forall_mem_cons.mp apart
    exact (ih (change.apply page sector cells) others).trans (change_outside change cells first)

/-- A cell that is erased and then programmed holds its byte for as long as nothing else
reaches it. The changes in between leave it blank for the program, and those behind
leave the byte. -/
theorem changed_stored (page sector a s k : Nat) (data : List UInt8) (quiet later : List Change) (cells : Cells)
    (fits : a % page + data.length ≤ page) (inside : k < data.length)
    (erased : (a + k) / sector = s / sector)
    (apart : ∀ change ∈ quiet ++ later, ¬ change.Reaches page sector (a + k)) :
    changed page sector (.erase s :: quiet ++ .program a data :: later) cells (a + k) = data[k] := by
  obtain ⟨before, behind⟩ := List.forall_mem_append.mp apart
  have blank : changed page sector (.erase s :: quiet) cells (a + k) = 0xFF :=
    (changed_outside quiet (erase sector s cells) before).trans (erase_inside s (a + k) cells erased)
  rw [changed_append]
  calc changed page sector (.program a data :: later) (changed page sector (.erase s :: quiet) cells) (a + k)
      = program page a data (changed page sector (.erase s :: quiet) cells) (a + k) :=
        changed_outside later _ behind
    _ = data[k] := program_erased a k data _ fits inside blank

end

end NorFlash
