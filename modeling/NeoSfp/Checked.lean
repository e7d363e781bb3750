import Mathlib

/-!
# Stateful computations with reported errors and faults

A run ends in one of three ways: with a value, with an error that the program
itself reports and whose state is kept, or with a fault, an action that has no
defined meaning and after which no state remains. A program is safe when no run
of it faults; the distinction between errors and faults keeps that statement
apart from the question of which inputs the program rejects.
-/

namespace Checked

universe u v

inductive Outcome (φ : Type u) (σ : Type u) (α : Type u) where
  | ok (value : α) (state : σ)
  | err (state : σ)
  | fault (reason : φ)

/-- A computation over states `σ` that may fault with a reason in `φ`. -/
def Run (φ : Type u) (σ : Type u) (α : Type u) := σ → Outcome φ σ α

variable {φ σ α β : Type u}

/-- Continue after a value; errors and faults end the run. -/
def Outcome.andThen (result : Outcome φ σ α) (next : α → Run φ σ β) : Outcome φ σ β :=
  match result with
  | .ok value state => next value state
  | .err state => .err state
  | .fault reason => .fault reason

instance : Monad (Run φ σ) where
  pure value := fun state => .ok value state
  bind first next := fun state => (first state).andThen next

namespace Run

def get : Run φ σ σ := fun state => .ok state state

def modify (update : σ → σ) : Run φ σ PUnit := fun state => .ok ⟨⟩ (update state)

/-- A partial read of the state; its absence is the given fault. -/
def read (reason : φ) (query : σ → Option α) : Run φ σ α := fun state =>
  match query state with
  | some value => .ok value state
  | none => .fault reason

/-- A partial update of the state; its absence is the given fault. -/
def update (reason : φ) (change : σ → Option σ) : Run φ σ PUnit := fun state =>
  match change state with
  | some next => .ok ⟨⟩ next
  | none => .fault reason

/-- Report an error after recording it in the state. -/
def reject (record : σ → σ) : Run φ σ α := fun state => .err (record state)

def fault (reason : φ) : Run φ σ α := fun _ => .fault reason

/-- Behind a value the computation goes on. -/
@[simp] theorem andThen_ok (value : α) (state : σ) (next : α → Run φ σ β) :
    (Outcome.ok value state).andThen next = next value state := rfl

/-- A reported error ends the run, and its state is kept. -/
@[simp] theorem andThen_err (state : σ) (next : α → Run φ σ β) :
    (Outcome.err state : Outcome φ σ α).andThen next = .err state := rfl

/-- A fault ends the run, and no state is left. -/
@[simp] theorem andThen_fault (reason : φ) (next : α → Run φ σ β) :
    (Outcome.fault reason : Outcome φ σ α).andThen next = .fault reason := rfl

/-- A value is returned without a change of the state. -/
@[simp] theorem pure_apply (value : α) (state : σ) :
    (pure value : Run φ σ α) state = .ok value state := rfl

/-- A sequence runs its first part and goes on from the result. -/
@[simp] theorem bind_apply (first : Run φ σ α) (next : α → Run φ σ β) (state : σ) :
    (first >>= next) state = (first state).andThen next := rfl

/-- The state is returned as it is. -/
@[simp] theorem get_apply (state : σ) : (get : Run φ σ σ) state = .ok state state := rfl

/-- An update returns nothing but the updated state. -/
@[simp] theorem modify_apply (change : σ → σ) (state : σ) :
    (modify change : Run φ σ PUnit) state = .ok ⟨⟩ (change state) := rfl

/-- An error is reported behind what it records in the state. -/
@[simp] theorem reject_apply (record : σ → σ) (state : σ) :
    (reject record : Run φ σ α) state = .err (record state) := rfl

/-- A fault has no state. -/
@[simp] theorem fault_apply (reason : φ) (state : σ) :
    (fault reason : Run φ σ α) state = .fault reason := rfl

/-- A choice that does not depend on the state is made before the state is looked at. -/
@[simp] theorem ite_apply (condition : Prop) [Decidable condition] (yes no : Run φ σ α)
    (state : σ) :
    (if condition then yes else no) state = if condition then yes state else no state := by
  split <;> rfl

/-- A sequence that returns has returned from its first part, and then from its second
one behind it. Proofs about a run that is known to return take it apart with this lemma,
part by part, without unfolding anything. -/
theorem bind_ok {first : Run φ σ α} {next : α → Run φ σ β} {state state' : σ} {value : β}
    (returned : (first >>= next) state = .ok value state') :
    ∃ result middle, first state = .ok result middle ∧ next result middle = .ok value state' := by
  rw [bind_apply] at returned
  cases ran : first state with
  | err stopped => simp [ran] at returned
  | fault reason => simp [ran] at returned
  | ok result middle =>
    rw [ran, andThen_ok] at returned
    exact ⟨result, middle, rfl, returned⟩

/-- What a computation leaves alone whenever it returns. -/
def Preserves {γ : Type*} (view : σ → γ) (program : Run φ σ α) : Prop :=
  ∀ state value state', program state = .ok value state' → view state' = view state

section

variable {γ : Type*} {view : σ → γ}

/-- To return a value leaves everything alone. -/
theorem preserves_pure (value : α) : Preserves view (pure value : Run φ σ α) := by
  intro state result state' returned
  rw [pure_apply, Outcome.ok.injEq] at returned
  rw [returned.2]

/-- A sequence leaves alone what both of its parts leave alone. -/
theorem preserves_bind {first : Run φ σ α} {next : α → Run φ σ β} (head : Preserves view first)
    (tail : ∀ value, Preserves view (next value)) : Preserves view (first >>= next) := by
  intro state value state' returned
  obtain ⟨result, middle, ran, continued⟩ := bind_ok returned
  rw [tail result middle value state' continued, head state result middle ran]

/-- So does a choice between two computations that both leave it alone. -/
theorem preserves_ite {condition : Prop} [Decidable condition] {yes no : Run φ σ α}
    (left : Preserves view yes) (right : Preserves view no) :
    Preserves view (if condition then yes else no) := by
  split
  · exact left
  · exact right

/-- To look at the state leaves everything alone. -/
theorem preserves_get : Preserves view (get : Run φ σ σ) := by
  intro state result state' returned
  rw [get_apply, Outcome.ok.injEq] at returned
  rw [returned.2]

/-- An update leaves alone what it does not change in any state. -/
theorem preserves_modify {change : σ → σ} (same : ∀ state, view (change state) = view state) :
    Preserves view (modify change : Run φ σ PUnit) := by
  intro state result state' returned
  rw [modify_apply, Outcome.ok.injEq] at returned
  rw [← returned.2, same]

/-- A fault never returns, so that there is nothing to show. -/
theorem preserves_fault (reason : φ) : Preserves view (fault reason : Run φ σ α) := by
  intro state result state' returned
  rw [fault_apply] at returned
  cases returned

end

end Run

end Checked
