import NeoSfp.Checked

/-!
# Two runs in step

Two computations over different states run in step under a relation on their
states when, from related states, they fault alike, report errors in related
states, or give the same value in related states. The rules follow the way
computations are built, so two instances of one program over different
primitives run in step as soon as their primitives do.
-/

namespace Checked

universe u

variable {φ σ τ α β : Type u}

/-- Two results of runs in step. -/
def Outcome.InStep (related : σ → τ → Prop) : Outcome φ σ α → Outcome φ τ α → Prop
  | .ok value state, .ok value' state' => value = value' ∧ related state state'
  | .err state, .err state' => related state state'
  | .fault reason, .fault reason' => reason = reason'
  | _, _ => False

/-- The two computations run in step. -/
def InStep (related : σ → τ → Prop) (left : Run φ σ α) (right : Run φ τ α) : Prop :=
  ∀ state state', related state state' → (left state).InStep related (right state')

variable {related : σ → τ → Prop}

/-- The same value is returned in the states as they are, which are still related. -/
theorem inStep_pure (value : α) :
    InStep related (pure value : Run φ σ α) (pure value : Run φ τ α) := by
  intro state state' start
  exact ⟨rfl, start⟩

/-- Sequences run in step if their first parts do and if, behind every value, their
second parts do. The first parts end alike: with a fault, with an error, or with one
value in related states from which the second parts go on. -/
theorem inStep_bind {first : Run φ σ α} {first' : Run φ τ α} {next : α → Run φ σ β}
    {next' : α → Run φ τ β} (starts : InStep related first first')
    (follows : ∀ value, InStep related (next value) (next' value)) :
    InStep related (first >>= next) (first' >>= next') := by
  intro state state' start
  have reached := starts state state' start
  rw [Run.bind_apply, Run.bind_apply]
  generalize first state = left at reached ⊢
  generalize first' state' = right at reached ⊢
  cases left with
  | ok value state =>
    cases right with
    | ok value' state' =>
      obtain ⟨same, reached⟩ := reached
      cases same
      exact follows value state state' reached
    | err state' => exact reached.elim
    | fault reason => exact reached.elim
  | err state =>
    cases right with
    | ok value' state' => exact reached.elim
    | err state' => exact reached
    | fault reason => exact reached.elim
  | fault reason =>
    cases right with
    | ok value' state' => exact reached.elim
    | err state' => exact reached.elim
    | fault reason' => exact reached

/-- A choice on one and the same condition runs in step if both branches do. -/
theorem inStep_ite {condition : Prop} [Decidable condition] {yes no : Run φ σ α}
    {yes' no' : Run φ τ α} (onYes : InStep related yes yes') (onNo : InStep related no no') :
    InStep related (if condition then yes else no) (if condition then yes' else no') := by
  split
  · exact onYes
  · exact onNo

/-- The same fault ends both runs. -/
theorem inStep_fault (reason : φ) :
    InStep related (Run.fault reason : Run φ σ α) (Run.fault reason : Run φ τ α) := by
  intro state state' _
  exact rfl

/-- Updates run in step if they lead from related states to related states. -/
theorem inStep_modify {change : σ → σ} {change' : τ → τ}
    (kept : ∀ state state', related state state' → related (change state) (change' state')) :
    InStep related (Run.modify change : Run φ σ PUnit) (Run.modify change') := by
  intro state state' start
  exact ⟨rfl, kept state state' start⟩

/-- Partial reads run in step if they see the same in related states, and so are missing
there together. -/
theorem inStep_read {reason : φ} {query : σ → Option α} {query' : τ → Option α}
    (same : ∀ state state', related state state' → query state = query' state') :
    InStep related (Run.read reason query) (Run.read reason query') := by
  intro state state' start
  have seen := same state state' start
  simp only [Run.read, seen]
  cases query' state' with
  | none => exact rfl
  | some value => exact ⟨rfl, start⟩

/-- Partial updates run in step if in related states they fail together or lead to
related states. -/
theorem inStep_update {reason : φ} {change : σ → Option σ} {change' : τ → Option τ}
    (kept : ∀ state state', related state state' →
      (change state = none ∧ change' state' = none) ∨
        ∃ next next', change state = some next ∧ change' state' = some next' ∧ related next next') :
    InStep related (Run.update reason change : Run φ σ PUnit) (Run.update reason change') := by
  intro state state' start
  rcases kept state state' start with ⟨left, right⟩ | ⟨next, next', left, right, reached⟩
  · simp only [Run.update, left, right]
    exact rfl
  · simp only [Run.update, left, right]
    exact ⟨rfl, reached⟩

end Checked
