import Mathlib

/-!
# Listening to a two-wire bus

A host drives a clock line and a data line, and others may pull them low. Under a high
clock the data line falls at a start and rises at a stop; where it stays, the clock's pulse
carries a bit. Whoever follows the levels alone can tell what was sent: the levels that
the host drives always tell what the host does, and those of the lines themselves tell the
same where the others keep to the rules of the bus.
-/

namespace TwoWire

/-- The levels that the host drives, and whether the others leave the lines alone. -/
structure Level where
  scl : Bool
  sda : Bool
  sclFree : Bool := true
  sdaFree : Bool := true
deriving DecidableEq, Repr

namespace Level

variable (x : Level)

/-- The clock line: like the data line it is an open drain, and high if nobody pulls it low. -/
def clock : Bool := x.scl && x.sclFree

/-- The data line. -/
def line : Bool := x.sda && x.sdaFree

/-- The levels for someone who sees the two lines and cannot tell who pulls them low. -/
def onLines : Level := { scl := x.clock, sda := x.line }

end Level

/-- A bit comes with every level that the data line had during its pulse. -/
inductive Event where
  | start
  | stop
  | bit (driven : Bool) (seen : List Bool)
deriving DecidableEq, Repr

/-- What a listener knows: the last levels, whether the data line has moved during this
pulse, its levels during the pulse, and what has been said so far. -/
structure Listener where
  scl : Bool
  sda : Bool
  moved : Bool
  seen : List Bool := []
  events : List Event := []
deriving DecidableEq, Repr

/-- The listener hears the next levels: under a high clock a moving data line is a start
or a stop, and a falling clock ends the pulse. -/
def Listener.hear (l : Listener) (x : Level) : Listener :=
  match l.scl, x.scl with
  | true, true =>
    if l.sda = x.sda then { l with seen := l.seen ++ [x.line] }
    else
      { l with
        sda := x.sda
        moved := true
        seen := l.seen ++ [x.line]
        events := l.events ++ [if x.sda then .stop else .start] }
  | true, false =>
    { scl := false
      sda := x.sda
      moved := false
      seen := []
      events := if l.moved then l.events else l.events ++ [.bit l.sda l.seen] }
  | false, true => { l with scl := true, sda := x.sda, moved := false, seen := [x.line] }
  | false, false => { l with sda := x.sda }

/-- The listener hears levels one after the other. -/
def Listener.hears (l : Listener) (levels : List Level) : Listener := levels.foldl Listener.hear l

/-- On a bus at rest: whoever holds the clock low holds the data line low. -/
def Listener.tuned (high : Bool) : Listener := { scl := high, sda := high, moved := high }

/-- A start, a bit that another pulls low, another start and a stop. -/
example : ((Listener.tuned true).hears [⟨true, false, true, true⟩, ⟨false, true, true, true⟩,
    ⟨true, true, true, false⟩, ⟨false, true, true, true⟩, ⟨true, true, true, true⟩,
    ⟨true, false, true, true⟩, ⟨true, true, true, true⟩]).events =
      [.start, .bit true [false], .start, .stop] := by
  decide

namespace Listener

variable (l : Listener) (x : Level)

/-- Levels heard in two parts are heard one after the other. -/
theorem hears_append (first second : List Level) :
    l.hears (first ++ second) = (l.hears first).hears second := List.foldl_append

/-- The listener is up to date with the clock. -/
@[simp] theorem hear_scl : (l.hear x).scl = x.scl := by
  unfold hear
  split
  · split
    all_goals simp_all
  all_goals simp_all

/-- The listener is up to date with the data line as the host drives it. -/
@[simp] theorem hear_sda : (l.hear x).sda = x.sda := by
  unfold hear
  split
  · split
    all_goals simp_all
  all_goals rfl

/-- During a pulse the level of the line has been seen. -/
theorem hear_seen (high : x.scl = true) : x.line ∈ (l.hear x).seen := by
  unfold hear
  split
  · split
    all_goals simp
  all_goals simp_all

variable {l x}

/-- While the host keeps its levels nothing is said, and no level that was seen is
forgotten. -/
theorem hear_still (scl : l.scl = x.scl) (sda : l.sda = x.sda) :
    (l.hear x).moved = l.moved ∧ (l.hear x).events = l.events ∧ ∀ level ∈ l.seen, level ∈ (l.hear x).seen := by
  unfold hear
  cases high : x.scl with
  | true =>
    rw [high] at scl
    simp only [scl, sda, if_true]
    exact ⟨trivial, trivial, fun _ member => List.mem_append_left _ member⟩
  | false =>
    rw [high] at scl
    simp only [scl]
    exact ⟨trivial, trivial, fun _ member => member⟩

/-- The data line may move under a low clock, and nothing is said. -/
theorem hear_low (before : l.scl = false) (after : x.scl = false) :
    (l.hear x).moved = l.moved ∧ (l.hear x).events = l.events := by
  simp [hear, before, after]

/-- A pulse begins, in which nothing has moved and nothing has been said. -/
theorem hear_rise (before : l.scl = false) (after : x.scl = true) :
    (l.hear x).moved = false ∧ (l.hear x).events = l.events := by
  simp [hear, before, after]

/-- A pulse ends, and what it carried is said, unless the data line has moved in it. -/
theorem hear_fall (before : l.scl = true) (after : x.scl = false) :
    (l.hear x).moved = false ∧
      (l.hear x).events = if l.moved then l.events else l.events ++ [.bit l.sda l.seen] := by
  simp [hear, before, after]

/-- The data line moves during a pulse: up is a stop, and down is a start. -/
theorem hear_move (before : l.scl = true) (after : x.scl = true) (other : l.sda ≠ x.sda) :
    (l.hear x).moved = true ∧
      (l.hear x).events = l.events ++ [if x.sda then .stop else .start] := by
  simp [hear, before, after, other]

end Listener

/-! ## The lines themselves -/

/-- The others keep to the rules from one level to the next: they leave the clock to the
host, do not move under a high clock, and keep off the data line while the host moves it
there. -/
structure Polite (x y : Level) : Prop where
  clock : y.sclFree = true
  still : x.scl = true → y.scl = true → y.sdaFree = x.sdaFree
  apart : x.scl = true → y.scl = true → x.sda ≠ y.sda → x.sdaFree = true

/-- A bus on which nobody does anything. -/
def Level.idle : Level := { scl := true, sda := true }

/-- Others who never touch the bus are polite. By induction on the levels. -/
theorem polite_free (x : Level) (levels : List Level) (here : x.sdaFree = true)
    (free : ∀ y ∈ levels, y.sclFree = true ∧ y.sdaFree = true) : List.IsChain Polite (x :: levels) := by
  induction levels generalizing x with
  | nil => exact List.isChain_singleton x
  | cons y levels ih =>
    obtain ⟨clock, data⟩ := free y List.mem_cons_self
    refine List.isChain_cons_cons.mpr ⟨⟨clock, fun _ _ => data.trans here.symm, fun _ _ _ => here⟩, ?_⟩
    exact ih y data fun z member => free z (List.mem_cons_of_mem _ member)

/-- What the lines tell of something that the host does. Starts and stops are the same; a
pulse carries the one level that the data line had in it, which is high only if it was
driven high. -/
inductive OnLines : Event → Event → Prop where
  | start : OnLines .start .start
  | stop : OnLines .stop .stop
  | bit (driven level : Bool) (seen seen' : List Bool) (below : level = true → driven = true)
      (steady : ∀ v ∈ seen, v = level) (steady' : ∀ v ∈ seen', v = level) :
      OnLines (.bit driven seen) (.bit level seen')

/-- Behind the level `x`, listener `m` on the lines knows what listener `l` on the driven
levels does. -/
structure Tracks (x : Level) (l m : Listener) : Prop where
  clock : x.sclFree = true
  scl : l.scl = x.scl
  sda : l.sda = x.sda
  scl' : m.scl = x.scl
  sda' : m.sda = x.line
  moved : m.moved = l.moved
  seen : x.scl = true → l.moved = false → ∀ v ∈ l.seen, v = x.line
  seen' : x.scl = true → l.moved = false → ∀ v ∈ m.seen, v = x.line
  events : List.Forall₂ OnLines l.events m.events

/-- On a bus at rest both listeners know the same. -/
theorem tracks_idle : Tracks Level.idle (Listener.tuned true) (Listener.tuned true) where
  clock := rfl
  scl := rfl
  sda := rfl
  scl' := rfl
  sda' := rfl
  moved := rfl
  seen _ still := Bool.noConfusion still
  seen' _ still := Bool.noConfusion still
  events := .nil

section

variable {x y : Level} {l m : Listener}

/-- If the others leave the clock alone it is as the host drives it. -/
theorem clock_free (free : y.sclFree = true) : y.clock = y.scl := by
  rw [Level.clock, free, Bool.and_true]

/-- For someone who only sees the lines the data line is the same line. -/
theorem line_onLines (y : Level) : y.onLines.line = y.line := Bool.and_true _

/-- The host holds its levels under a high clock: then the others hold theirs, and
neither listener says anything. -/
theorem tracks_still (tracks : Tracks x l m) (polite : Polite x y) (before : x.scl = true)
    (after : y.scl = true) (same : x.sda = y.sda) : Tracks y (l.hear y) (m.hear y.onLines) := by
  have line : y.line = x.line := by rw [Level.line, Level.line, polite.still before after, same]
  have clock : y.onLines.scl = true := (clock_free polite.clock).trans after
  have heard : l.hear y = { l with seen := l.seen ++ [y.line] } := by
    simp only [Listener.hear, tracks.scl, before, after, tracks.sda, same, if_true]
  have heard' : m.hear y.onLines = { m with seen := m.seen ++ [y.line] } := by
    have here : y.onLines.sda = x.line := line
    simp only [Listener.hear, tracks.scl', before, clock, tracks.sda', here, if_true, line_onLines]
  have steady (seen : List Bool) (old : ∀ v ∈ seen, v = x.line) : ∀ v ∈ seen ++ [y.line], v = y.line := by
    intro v member
    rcases List.mem_append.mp member with earlier | last
    · exact (old v earlier).trans line.symm
    · exact List.mem_singleton.mp last
  rw [heard, heard']
  exact {
    clock := polite.clock
    scl := tracks.scl.trans (before.trans after.symm)
    sda := tracks.sda.trans same
    scl' := tracks.scl'.trans (before.trans after.symm)
    sda' := tracks.sda'.trans line.symm
    moved := tracks.moved
    seen := fun _ unmoved => steady l.seen (tracks.seen before unmoved)
    seen' := fun _ unmoved => steady m.seen (tracks.seen' before unmoved)
    events := tracks.events }

/-- The host moves the data line under a high clock: the others keep off it, so that it
moves on the line as well. -/
theorem tracks_move (tracks : Tracks x l m) (polite : Polite x y) (before : x.scl = true)
    (after : y.scl = true) (other : x.sda ≠ y.sda) : Tracks y (l.hear y) (m.hear y.onLines) := by
  have off := polite.apart before after other
  have old : x.line = x.sda := by rw [Level.line, off, Bool.and_true]
  have new : y.line = y.sda := by rw [Level.line, polite.still before after, off, Bool.and_true]
  have clock : y.onLines.scl = true := (clock_free polite.clock).trans after
  have heard : l.hear y = { l with
      sda := y.sda
      moved := true
      seen := l.seen ++ [y.line]
      events := l.events ++ [if y.sda then .stop else .start] } := by
    simp only [Listener.hear, tracks.scl, before, after, tracks.sda, other, if_false]
  have heard' : m.hear y.onLines = { m with
      sda := y.line
      moved := true
      seen := m.seen ++ [y.line]
      events := m.events ++ [if y.sda then .stop else .start] } := by
    have here : y.onLines.sda = y.line := rfl
    have moves : ¬ x.line = y.line := by rwa [old, new]
    simp only [Listener.hear, tracks.scl', before, clock, tracks.sda', here, moves, if_false, line_onLines]
    rw [new]
  rw [heard, heard']
  refine ⟨polite.clock, tracks.scl.trans (before.trans after.symm), rfl,
    tracks.scl'.trans (before.trans after.symm), rfl, rfl, nofun, nofun, ?_⟩
  refine List.rel_append tracks.events (.cons ?_ .nil)
  cases y.sda with
  | true => exact .stop
  | false => exact .start

/-- A pulse ends, and has carried the level of the line, which is the same for both
listeners as it has not moved. -/
theorem tracks_fall (tracks : Tracks x l m) (polite : Polite x y) (before : x.scl = true)
    (after : y.scl = false) : Tracks y (l.hear y) (m.hear y.onLines) := by
  have clock : y.onLines.scl = false := (clock_free polite.clock).trans after
  have heard : l.hear y = {
      scl := false
      sda := y.sda
      moved := false
      seen := []
      events := if l.moved then l.events else l.events ++ [.bit l.sda l.seen] } := by
    simp only [Listener.hear, tracks.scl, before, after]
  have heard' : m.hear y.onLines = {
      scl := false
      sda := y.line
      moved := false
      seen := []
      events := if l.moved then m.events else m.events ++ [.bit m.sda m.seen] } := by
    have here : y.onLines.sda = y.line := rfl
    simp only [Listener.hear, tracks.scl', before, clock, tracks.moved, here]
  rw [heard, heard']
  refine ⟨polite.clock, after.symm, rfl, after.symm, rfl, rfl, fun _ _ => nofun, fun _ _ => nofun, ?_⟩
  cases unmoved : l.moved with
  | true => exact tracks.events
  | false =>
    refine List.rel_append tracks.events (.cons ?_ .nil)
    rw [tracks.sda, tracks.sda']
    refine .bit _ _ _ _ ?_ (tracks.seen before unmoved) (tracks.seen' before unmoved)
    intro high
    rw [Level.line, Bool.and_eq_true] at high
    exact high.1

/-- Under a low clock, and where a pulse begins, nothing is said by either listener. -/
theorem tracks_low (tracks : Tracks x l m) (polite : Polite x y) (before : x.scl = false) :
    Tracks y (l.hear y) (m.hear y.onLines) := by
  have clock : y.onLines.scl = y.scl := clock_free polite.clock
  have here : y.onLines.sda = y.line := rfl
  cases after : y.scl with
  | true =>
    simp only [Listener.hear, tracks.scl, tracks.scl', before, after, clock, here, line_onLines]
    refine ⟨polite.clock, after.symm, rfl, after.symm, rfl, rfl, fun _ _ => ?_, fun _ _ => ?_, tracks.events⟩
    · exact fun v member => List.mem_singleton.mp member
    · exact fun v member => List.mem_singleton.mp member
  | false =>
    simp only [Listener.hear, tracks.scl, tracks.scl', before, after, clock, here]
    refine ⟨polite.clock, after.symm, rfl, after.symm, rfl, tracks.moved, ?_, ?_, tracks.events⟩
    · exact fun high => absurd (after.symm.trans high) Bool.false_ne_true
    · exact fun high => absurd (after.symm.trans high) Bool.false_ne_true

/-- A further level keeps the listeners together, if the others are polite. The cases
are those of the clock. -/
theorem tracks_hear (tracks : Tracks x l m) (polite : Polite x y) :
    Tracks y (l.hear y) (m.hear y.onLines) := by
  cases before : x.scl with
  | false => exact tracks_low tracks polite before
  | true =>
    cases after : y.scl with
    | false => exact tracks_fall tracks polite before after
    | true =>
      by_cases same : x.sda = y.sda
      · exact tracks_still tracks polite before after same
      · exact tracks_move tracks polite before after same

/-- Where the others are polite, the lines tell what the host does. By induction on the
levels, each of which keeps the two listeners together. -/
theorem hears_onLines {levels : List Level} (tracks : Tracks x l m)
    (polite : List.IsChain Polite (x :: levels)) :
    List.Forall₂ OnLines (l.hears levels).events (m.hears (levels.map Level.onLines)).events := by
  induction levels generalizing x l m with
  | nil => exact tracks.events
  | cons y levels ih =>
    obtain ⟨next, later⟩ := List.isChain_cons_cons.mp polite
    exact ih (tracks_hear tracks next) later

end

end TwoWire
