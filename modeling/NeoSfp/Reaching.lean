import Mathlib

/-!
# Reaching a goal step by step

Runs of a deterministic step up to a goal, with something that holds on the way.
-/

namespace Reaching

variable {α : Type} {step : α → α} {hold goal goal' : α → Prop}

/-- The goal is so many steps away, and in front of it something holds. -/
def Until (step : α → α) (hold goal : α → Prop) (n : Nat) (s : α) : Prop :=
  (∀ m < n, hold (step^[m] s)) ∧ goal (step^[n] s)

/-- The goal is reached, and in front of it something holds. -/
def Eventually (step : α → α) (hold goal : α → Prop) (s : α) : Prop := ∃ n, Until step hold goal n s

/-- A goal that holds already is reached in no step, and nothing has to hold on the
way. -/
theorem eventually_now {s : α} (here : goal s) : Eventually step hold goal s :=
  ⟨0, fun m before => absurd before (Nat.not_lt_zero m), here⟩

/-- A goal that is reached from the next state is reached from this one, if this one has
what is to hold on the way. -/
theorem eventually_next {s : α} (held : hold s) (later : Eventually step hold goal (step s)) :
    Eventually step hold goal s := by
  obtain ⟨n, holds, reached⟩ := later
  refine ⟨n + 1, ?_, reached⟩
  intro m before
  cases m with
  | zero => exact held
  | succ m => exact holds m (Nat.lt_of_succ_lt_succ before)

/-- A run from one goal to the next is a run to the second goal, as long as every state
of the first goal leads there. The counts of steps add up. -/
theorem eventually_then {s : α} (first : Eventually step hold goal s)
    (second : ∀ g, goal g → Eventually step hold goal' g) : Eventually step hold goal' s := by
  obtain ⟨n, holds, reached⟩ := first
  obtain ⟨n', holds', reached'⟩ := second _ reached
  refine ⟨n' + n, ?_, ?_⟩
  · intro m before
    by_cases early : m < n
    · exact holds m early
    · have split : m = m - n + n := by omega
      rw [split, Function.iterate_add_apply]
      exact holds' (m - n) (by omega)
  · rw [Function.iterate_add_apply]
    exact reached'

/-- A goal may be replaced by one that follows from it, at the end of the run only. -/
theorem eventually_weaken {s : α} (first : Eventually step hold goal s)
    (weaker : ∀ g, goal g → goal' g) : Eventually step hold goal' s :=
  eventually_then first fun g reached => eventually_now (weaker g reached)

/-- An invariant leads to a trigger that comes some time, if it is kept as long as the
trigger is not there. The run goes to the first state with the trigger, which the
invariant reaches by induction on the steps before it. -/
theorem eventually_trigger {trigger : α → Prop} [DecidablePred trigger] {s : α} (start : goal s)
    (keeps : ∀ s, goal s → ¬ trigger s → goal (step s)) (holds : ∀ s, goal s → hold s)
    (comes : ∃ n, trigger (step^[n] s)) : Eventually step hold (fun s => goal s ∧ trigger s) s := by
  have kept : ∀ m ≤ Nat.find comes, goal (step^[m] s) := by
    intro m
    induction m with
    | zero => exact fun _ => start
    | succ m ih =>
      intro within
      rw [Function.iterate_succ_apply']
      exact keeps _ (ih (by omega)) (Nat.find_min comes (by omega))
  exact ⟨Nat.find comes, fun m before => holds _ (kept m (by omega)), kept _ (Nat.le_refl _),
    Nat.find_spec comes⟩

/-- Some steps later the goal is still ahead, by so many steps fewer, or it has been
passed, and the state is the goal's so many steps later. The driver, which looks only
now and then, is reasoned about in this way. -/
theorem until_skip {n : Nat} {s : α} (ahead : Until step hold goal n s) (k : Nat) :
    (k ≤ n ∧ Until step hold goal (n - k) (step^[k] s)) ∨
      n ≤ k ∧ ∃ g, goal g ∧ step^[k] s = step^[k - n] g := by
  obtain ⟨holds, reached⟩ := ahead
  by_cases within : k ≤ n
  · refine Or.inl ⟨within, ?_, ?_⟩
    · intro m before
      rw [← Function.iterate_add_apply]
      exact holds (m + k) (by omega)
    · rw [← Function.iterate_add_apply, Nat.sub_add_cancel within]
      exact reached
  · have past : n ≤ k := by omega
    refine Or.inr ⟨past, _, reached, ?_⟩
    rw [← Function.iterate_add_apply, Nat.sub_add_cancel past]

end Reaching
