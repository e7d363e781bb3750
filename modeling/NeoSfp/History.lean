import Mathlib

/-!
# Events and what came before them

A rule for a sequence of events may look back at everything that happened before
an event. Sequences that keep such a rule compose, the second one with the first
as its past.
-/

namespace History

variable {ε : Type} {allowed : List ε → ε → Prop}

/-- Behind a given past, every event is allowed after what came before it. -/
def Along (allowed : List ε → ε → Prop) (past events : List ε) : Prop :=
  ∀ before event after, events = before ++ event :: after → allowed (past ++ before) event

/-- There is no event in the empty sequence that could break a rule. -/
theorem along_nil (past : List ε) : Along allowed past [] := by
  intro before event after split
  simp at split

/-- A sequence keeps a rule exactly if both of its parts do, the second one with the
first as part of its past. Every event of the whole lies in one of the two parts. -/
theorem along_append {past first second : List ε} :
    Along allowed past (first ++ second) ↔
      Along allowed past first ∧ Along allowed (past ++ first) second := by
  constructor
  · intro both
    constructor
    · rintro before event after rfl
      exact both before event (after ++ second) (by simp)
    · rintro before event after rfl
      simpa using both (first ++ before) event after (by simp)
  · rintro ⟨left, right⟩ before event after split
    rcases List.append_eq_append_iff.mp split with ⟨between, middle, rest⟩ | ⟨between, middle, rest⟩
    · rw [middle, ← List.append_assoc]
      exact right between event after rest
    · cases between with
      | nil =>
        rw [List.append_nil] at middle
        simpa [middle] using right [] event after (by simpa using rest.symm)
      | cons head between =>
        obtain ⟨same, -⟩ := List.cons.inj rest
        exact left before event between (by rw [middle, same])

/-- A single event keeps a rule exactly if it is allowed behind the past. -/
theorem along_single {past : List ε} {event : ε} : Along allowed past [event] ↔ allowed past event := by
  constructor
  · intro along
    simpa using along [] event [] rfl
  · intro holds before other after split
    cases before with
    | nil =>
      obtain ⟨same, -⟩ := List.cons.inj split
      simpa [← same] using holds
    | cons head before => simp at split

/-- The first event has to be allowed, and the others behind it. Together with the rule
for appended sequences this is how a program's events are checked one command at a
time. -/
theorem along_cons {past : List ε} {event : ε} {events : List ε} :
    Along allowed past (event :: events) ↔
      allowed past event ∧ Along allowed (past ++ [event]) events := by
  change Along allowed past ([event] ++ events) ↔ _
  rw [along_append, along_single]

/-- Events that are allowed behind anything keep the rule in every order, whatever the
past is. -/
theorem along_always {past events : List ε} (always : ∀ event ∈ events, ∀ past, allowed past event) :
    Along allowed past events := by
  rintro before event after rfl
  exact always event (by simp) (past ++ before)

end History
