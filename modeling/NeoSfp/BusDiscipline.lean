import Mathlib

/-!
# Discipline of a start/stop bus

A bus is claimed by a start and released by a stop; bytes may be transferred only
while it is claimed. A start on a claimed bus keeps it claimed. The discipline is
a property of a finite sequence of events of any type, once each event is known
as a start, a stop, a transfer or none of these. It is decided by one pass, and
disciplined sequences compose.
-/

namespace Bus

inductive Kind where
  | start
  | stop
  | transfer
  | other
deriving DecidableEq, Repr

variable {ε : Type} (kind : ε → Kind)

/-- Whether the bus is claimed behind an event. A transfer on a released bus has
no successor. -/
def step (claimed : Bool) (event : ε) : Option Bool :=
  match kind event with
  | .start => some true
  | .stop => some false
  | .transfer => if claimed then some true else none
  | .other => some claimed

def run : Bool → List ε → Option Bool
  | claimed, [] => some claimed
  | claimed, event :: events => (step kind claimed event).bind fun next => run next events

/-- Every transfer lies behind a start with no stop in between. -/
def Guarded (events : List ε) : Prop :=
  ∀ before event after, events = before ++ event :: after → kind event = .transfer →
    ∃ earlier start between, before = earlier ++ start :: between ∧ kind start = .start ∧
      ∀ e ∈ between, kind e ≠ .stop

/-- Behind every start there is a stop. -/
def Released (events : List ε) : Prop :=
  ∀ before event after, events = before ++ event :: after → kind event = .start →
    ∃ e ∈ after, kind e = .stop

/-- A pass over two sequences one behind the other is the pass over the second one from
wherever the first one has led. By induction on the first sequence; a transfer on a
released bus ends both passes alike. -/
theorem run_append (claimed : Bool) (first second : List ε) :
    run kind claimed (first ++ second) =
      (run kind claimed first).bind fun next => run kind next second := by
  induction first generalizing claimed with
  | nil => rfl
  | cons event first ih =>
    simp only [List.cons_append, run]
    cases step kind claimed event with
    | none => rfl
    | some next => exact ih next

/-- A sequence that is passed from a released bus back to a released bus. -/
def Closed (events : List ε) : Prop := run kind false events = some false

/-- Nothing happens in the empty sequence, so that the bus stays released. -/
theorem closed_nil : Closed kind [] := rfl

/-- Sequences that each find the bus released and leave it released can follow one
another, since the second one starts where the first one has ended. -/
theorem closed_append {first second : List ε} (left : Closed kind first)
    (right : Closed kind second) : Closed kind (first ++ second) := by
  rw [Closed, run_append, left]
  exact right

/-- A list of values of which each leads to a closed sequence leads to a closed sequence
as a whole, by induction on the list and composition at each value. -/
theorem closed_flatMap {α : Type} (part : α → List ε) (values : List α)
    (closed : ∀ value ∈ values, Closed kind (part value)) : Closed kind (values.flatMap part) := by
  induction values with
  | nil => exact closed_nil kind
  | cons value values ih =>
    obtain ⟨first, others⟩ := List.forall_mem_cons.mp closed
    rw [List.flatMap_cons]
    exact closed_append kind first (ih others)

/-- Transfers keep a claimed bus claimed, however many there are. This is the one place
where a transfer is allowed. -/
theorem run_transfers (events : List ε) (all : ∀ e ∈ events, kind e = .transfer) :
    run kind true events = some true := by
  induction events with
  | nil => rfl
  | cons event events ih =>
    obtain ⟨first, others⟩ := List.forall_mem_cons.mp all
    simp only [run, step, first, if_true, Option.bind_some]
    exact ih others

/-- A start, any number of transfers and a stop are closed: the start claims the bus for
the transfers, and the stop releases it again. -/
theorem closed_frame (start stop : ε) (events : List ε) (starts : kind start = .start)
    (stops : kind stop = .stop) (all : ∀ e ∈ events, kind e = .transfer) :
    Closed kind (start :: (events ++ [stop])) := by
  simp only [Closed, run, step, starts, Option.bind_some, run_append,
    run_transfers kind events all, stops]

/-- A bus that is claimed behind a sequence has a start in it behind which no stop has
come yet. By induction from the end: the last event is that start, or it has kept the
claim that stood before it. -/
theorem run_claimed (events : List ε) (claimed : run kind false events = some true) :
    ∃ earlier start between, events = earlier ++ start :: between ∧ kind start = .start ∧
      ∀ e ∈ between, kind e ≠ .stop := by
  induction events using List.reverseRecOn with
  | nil => simp [run] at claimed
  | append_singleton events event ih =>
    rw [run_append] at claimed
    cases reached : run kind false events with
    | none => simp [reached] at claimed
    | some held =>
      simp only [reached, Option.bind_some, run, step] at claimed
      -- an event other than a stop keeps the start that claimed the bus
      have keeps : held = true → kind event ≠ .stop → ∃ earlier start between,
          events ++ [event] = earlier ++ start :: between ∧ kind start = .start ∧
            ∀ e ∈ between, kind e ≠ .stop := by
        rintro rfl other
        obtain ⟨earlier, start, between, split, starts, quiet⟩ := ih reached
        refine ⟨earlier, start, between ++ [event], by simp [split], starts, ?_⟩
        intro e member
        rcases List.mem_append.mp member with inside | last
        · exact quiet e inside
        · rwa [List.mem_singleton.mp last]
      cases named : kind event with
      | start => exact ⟨events, event, [], rfl, named, by simp⟩
      | stop => simp [named] at claimed
      | transfer =>
        cases held with
        | false => simp [named] at claimed
        | true => exact keeps rfl (by simp [named])
      | other =>
        cases held with
        | false => simp [named] at claimed
        | true => exact keeps rfl (by simp [named])

/-- In a closed sequence every transfer lies behind a start. The pass has reached the
transfer, which only a claimed bus lets through, and so the start is found in what came
before. -/
theorem closed_guarded (events : List ε) (closed : Closed kind events) : Guarded kind events := by
  intro before event after split transfer
  rw [Closed, split, run_append] at closed
  cases reached : run kind false before with
  | none => simp [reached] at closed
  | some held =>
    cases held with
    | false => simp [reached, run, step, transfer] at closed
    | true => exact run_claimed kind before reached

/-- A bus that is claimed at first and released in the end has been stopped. By
induction on the events, up to the first stop. -/
theorem run_released (claimed : Bool) (events : List ε)
    (released : run kind claimed events = some false) (held : claimed = true) :
    ∃ e ∈ events, kind e = .stop := by
  induction events generalizing claimed with
  | nil => simp [run, held] at released
  | cons event events ih =>
    subst held
    by_cases stops : kind event = .stop
    · exact ⟨event, List.mem_cons_self, stops⟩
    · have kept : step kind true event = some true := by
        unfold step
        cases named : kind event with
        | stop => exact absurd named stops
        | start => rfl
        | transfer => rfl
        | other => rfl
      rw [run, kept] at released
      obtain ⟨e, member, found⟩ := ih true released rfl
      exact ⟨e, List.mem_cons_of_mem _ member, found⟩

/-- In a closed sequence a stop comes behind every start, because what follows the start
leads from a claimed bus to a released one. -/
theorem closed_released (events : List ε) (closed : Closed kind events) :
    Released kind events := by
  intro before event after split starts
  rw [Closed, split, run_append] at closed
  cases reached : run kind false before with
  | none => simp [reached] at closed
  | some held =>
    simp only [reached, Option.bind_some, run, step, starts] at closed
    exact run_released kind true after closed rfl

end Bus
