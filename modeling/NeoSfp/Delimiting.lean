import Mathlib

/-!
# Self-delimiting texts

A text for each item is self-delimiting if it tells where it ends, whatever is
written behind it. Items written one after the other can then be read back: one
by one if their number is known, and up to the end of the text if no item is
written as nothing.
-/

namespace Delimiting

variable {α β : Type}

/-- On the items of a set, equal beginnings come from equal items and leave equal
texts behind. -/
def SelfDelimiting (items : Set α) (encode : α → List β) : Prop :=
  ∀ a ∈ items, ∀ b ∈ items, ∀ u v, encode a ++ u = encode b ++ v → a = b ∧ u = v

/-- Distinct texts of one width are self-delimiting: the width tells where the first
text ends, and the texts are then equal letter by letter. -/
theorem fixed_width (items : Set α) (encode : α → List β) (width : Nat)
    (wide : ∀ a, (encode a).length = width) (injective : Function.Injective encode) :
    SelfDelimiting items encode := by
  intro a _ b _ u v same
  obtain ⟨first, rest⟩ := List.append_inj same ((wide a).trans (wide b).symm)
  exact ⟨injective first, rest⟩

/-- Texts ended by a mark that does not occur in them are self-delimiting, since the
first mark is the end. By induction on the first text, against the cases of the
second. -/
theorem terminated (mark : β) :
    SelfDelimiting { text : List β | mark ∉ text } (fun text => text ++ [mark]) := by
  intro a absent
  induction a with
  | nil =>
    intro b absent' u v same
    cases b with
    | nil => exact ⟨rfl, (List.cons.inj same).2⟩
    | cons first b =>
      have equal : mark = first := (List.cons.inj same).1
      exact absurd (List.mem_cons.mpr (Or.inl equal)) absent'
  | cons head a ih =>
    intro b absent' u v same
    cases b with
    | nil =>
      have equal : head = mark := (List.cons.inj same).1
      exact absurd (List.mem_cons.mpr (Or.inl equal.symm)) absent
    | cons first b =>
      obtain ⟨equal, behind⟩ := List.cons.inj same
      obtain ⟨others, rest⟩ := ih (fun member => absent (List.mem_cons_of_mem head member)) b
        (fun member => absent' (List.mem_cons_of_mem first member)) u v behind
      exact ⟨by rw [equal, others], rest⟩

/-- The text of an item that may be missing: a mark alone, or the item's text with
the mark behind it. -/
def markedText (mark : β) (encode : α → List β) : Option α → List β
  | none => [mark]
  | some a => encode a ++ [mark]

/-- A missing item is told from a present one if no item's text is empty or begins with
the mark; a present item ends where its own text does, and the mark behind it carries
nothing. -/
theorem marked (mark : β) {encode : α → List β} (delimited : SelfDelimiting Set.univ encode)
    (distinct : ∀ a, ∃ first rest, encode a = first :: rest ∧ first ≠ mark) :
    SelfDelimiting Set.univ (markedText mark encode) := by
  intro a _ b _ u v same
  cases a with
  | none =>
    cases b with
    | none => exact ⟨rfl, (List.cons.inj same).2⟩
    | some b =>
      obtain ⟨first, rest, text, other⟩ := distinct b
      rw [markedText, markedText, text] at same
      exact absurd (List.cons.inj same).1.symm other
  | some a =>
    cases b with
    | none =>
      obtain ⟨first, rest, text, other⟩ := distinct a
      rw [markedText, markedText, text] at same
      exact absurd (List.cons.inj same).1 other
    | some b =>
      simp only [markedText, List.append_assoc] at same
      obtain ⟨equal, behind⟩ := delimited a trivial b trivial _ _ same
      exact ⟨congrArg some equal, (List.cons.inj behind).2⟩

/-- Equally many items in a row can be read back one by one, and what is left behind
them is the same. By induction on the items, each of which tells where it ends. -/
theorem row_injective {items : Set α} {encode : α → List β}
    (delimited : SelfDelimiting items encode) (as bs : List α) (u v : List β)
    (inside : ∀ a ∈ as, a ∈ items) (inside' : ∀ b ∈ bs, b ∈ items)
    (many : as.length = bs.length) (same : as.flatMap encode ++ u = bs.flatMap encode ++ v) :
    as = bs ∧ u = v := by
  induction as generalizing bs with
  | nil =>
    have empty : bs = [] := List.eq_nil_of_length_eq_zero many.symm
    subst empty
    exact ⟨rfl, same⟩
  | cons a as ih =>
    cases bs with
    | nil => simp at many
    | cons b bs =>
      obtain ⟨first, others⟩ := List.forall_mem_cons.mp inside
      obtain ⟨first', others'⟩ := List.forall_mem_cons.mp inside'
      simp only [List.flatMap_cons, List.append_assoc] at same
      obtain ⟨equal, behind⟩ := delimited a first b first' _ _ same
      obtain ⟨rest, ends⟩ := ih bs others others' (Nat.succ.inj many) behind
      exact ⟨by rw [equal, rest], ends⟩

/-- Items in a row up to the end of the text can be read back without their number: as
no item is written as nothing, the text is used up exactly when the items are. -/
theorem text_injective {items : Set α} {encode : α → List β}
    (delimited : SelfDelimiting items encode) (nonempty : ∀ a, encode a ≠ []) (as bs : List α)
    (inside : ∀ a ∈ as, a ∈ items) (inside' : ∀ b ∈ bs, b ∈ items)
    (same : as.flatMap encode = bs.flatMap encode) : as = bs := by
  induction as generalizing bs with
  | nil =>
    cases bs with
    | nil => rfl
    | cons b bs =>
      rw [List.flatMap_nil, List.flatMap_cons] at same
      exact absurd (List.append_eq_nil_iff.mp same.symm).1 (nonempty b)
  | cons a as ih =>
    cases bs with
    | nil =>
      rw [List.flatMap_nil, List.flatMap_cons] at same
      exact absurd (List.append_eq_nil_iff.mp same).1 (nonempty a)
    | cons b bs =>
      obtain ⟨first, others⟩ := List.forall_mem_cons.mp inside
      obtain ⟨first', others'⟩ := List.forall_mem_cons.mp inside'
      rw [List.flatMap_cons, List.flatMap_cons] at same
      obtain ⟨equal, behind⟩ := delimited a first b first' _ _ same
      rw [equal, ih bs others others' behind]

end Delimiting
