import NeoSfp.TwiCycles

/-!
# Phases of an operation

While a phase stands, the levels stand and a listener is told nothing. When the clock
ticks, the engine takes the phase's step, and the next phase stands.
-/

namespace NeoSfp

open Checked TwoWire Reaching

/-- What a listener has been told, with levels it has seen during this pulse. -/
structure Talk where
  moved : Bool
  events : List Event
  kept : List Bool := []

section

variable {awidth : Nat} (w : World) (l : Listener)

/-- A listener who follows what the controller drives, behind the levels so far. -/
def Bench.listener (b : Bench awidth) : Listener := l.hears b.trace

/-- A listener on the two lines. -/
def Bench.onLines (b : Bench awidth) : Listener := l.hears (b.trace.map Level.onLines)

/-- What has been recorded of the others is what they have done. -/
def Recorded (b : Bench awidth) : Prop :=
  ∀ x ∈ b.trace, ∃ t, x.sclFree = w.scl t ∧ x.sdaFree = w.sda t

/-- The listener is up to date, and this is what it knows. -/
structure Telling (t : Talk) (b : Bench awidth) : Prop where
  scl : (b.listener l).scl = b.twi.engine.sclOut
  sda : (b.listener l).sda = b.twi.engine.sdaOut
  moved : (b.listener l).moved = t.moved
  events : (b.listener l).events = t.events
  seen : b.twi.engine.sclOut = true → ∀ level ∈ (b.level w).line :: t.kept, level ∈ (b.listener l).seen
  recorded : Recorded w b

/-- Phase `i` of an operation stands. When it is over, the level that will be sampled
belongs to the present pulse. -/
structure Working (i : Fin 4) (op : TwiOp) (bitcnt : BitVec 4) (sreg : BitVec 9) (scl sda : Bool)
    (t : Talk) (b : Bench awidth) : Prop where
  ctrl : b.twi.ctrl = appCtrl
  engine : b.twi.engine = driving op bitcnt sreg scl sda
  gen : b.twi.clkGen.phaseGen = oneHot i
  genFf : b.twi.clkGen.phaseGenFf = oneHot i
  spaced : b.twi.clkGen.tick = true → b.twi.clkGen.cnt = 0
  tx : Bare b.twi.tx
  rx : Bare b.twi.rx
  telling : Telling w l t b
  synced : b.twi.clkGen.tick = true → scl = true → b.twi.sdaSync.getLsbD 0 ∈ (b.listener l).seen

/-- The step of a phase has been taken, and the next one stands. -/
structure Turned (i : Fin 4) (e : Engine) (t : Talk) (b : Bench awidth) : Prop where
  ctrl : b.twi.ctrl = appCtrl
  gen : b.twi.clkGen.phaseGen = oneHot (i + 1)
  genFf : b.twi.clkGen.phaseGenFf = oneHot (i + 1)
  silent : b.twi.clkGen.tick = false
  tx : Bare b.twi.tx
  rx : Bare b.twi.rx
  stepped : ∃ (sample : Bool) (before : Listener), b.twi.engine = e.act i sample ∧
    before.scl = e.sclOut ∧ before.sda = e.sdaOut ∧ before.moved = t.moved ∧
    before.events = t.events ∧ (e.sclOut = true → ∀ level ∈ sample :: t.kept, level ∈ before.seen) ∧
    b.listener l = before.hear (b.level w)
  recorded : Recorded w b

end

section

variable {awidth : Nat} {w : World} {l : Listener} {b : Bench awidth} {i : Fin 4} {op : TwiOp}
  {bitcnt : BitVec 4} {sreg : BitVec 9} {scl sda : Bool} {t : Talk}

/-- A cycle is heard as its levels: the listener behind it has heard what the controller
drives in it. -/
theorem cycle_listener (req : BusReq) (b : Bench awidth) :
    (b.cycle w req).listener l = (b.listener l).hear ((b.cycle w req).level w) := by
  rw [Bench.listener, Bench.cycle, Listener.hears_append]
  rfl

/-- A cycle records what the others do in it, so the record stays complete. -/
theorem recorded_cycle (req : BusReq) (recorded : Recorded w b) : Recorded w (b.cycle w req) := by
  intro x member
  rcases List.mem_append.mp member with before | last
  · exact recorded x before
  · rw [List.mem_singleton.mp last]
    exact ⟨_, rfl, rfl⟩

/-- While the controller keeps its levels a listener stays up to date and is told
nothing. -/
theorem telling_still (req : BusReq) (telling : Telling w l t b)
    (scl : (b.cycle w req).twi.engine.sclOut = b.twi.engine.sclOut)
    (sda : (b.cycle w req).twi.engine.sdaOut = b.twi.engine.sdaOut) :
    Telling w l { t with kept := (b.level w).line :: t.kept } (b.cycle w req) := by
  have still := Listener.hear_still (l := b.listener l) (x := (b.cycle w req).level w)
    (telling.scl.trans scl.symm) (telling.sda.trans sda.symm)
  obtain ⟨moved, events, seen⟩ := still
  rw [← cycle_listener] at moved events seen
  constructor
  · rw [cycle_listener, Listener.hear_scl]
    rfl
  · rw [cycle_listener, Listener.hear_sda]
    rfl
  · exact moved.trans telling.moved
  · exact events.trans telling.events
  · intro high level member
    rcases List.mem_cons.mp member with rfl | before
    · rw [cycle_listener]
      exact Listener.hear_seen _ _ high
    · exact seen level (telling.seen (scl.symm.trans high) level before)
  · exact recorded_cycle req telling.recorded

/-- The cycle of a clock that ticks, or stands: the engine keeps its operation, and only
the generator may have moved. -/
theorem phase_cycle (working : op ≠ .nop) (ctrl : b.twi.ctrl = appCtrl)
    (engine : b.twi.engine = driving op bitcnt sreg scl sda) (gen : b.twi.clkGen.phaseGen = oneHot i)
    (genFf : b.twi.clkGen.phaseGenFf = oneHot i) (telling : Telling w l t b) :
    let b' := b.cycle w .none
    b'.twi.engine = driving op bitcnt sreg scl sda ∧
      b'.twi.clkGen.phaseGen = (if b.twi.clkGen.tick then oneHot (i + 1) else oneHot i) ∧
      Telling w l { t with kept := (b.level w).line :: t.kept } b' := by
  have next : (b.cycle w .none).twi.engine = driving op bitcnt sreg scl sda := by
    simp only [Bench.cycle, Twi.step, engine, ctrl, appCtrl]
    exact next_still working (phase_still _ (gen.trans genFf.symm)) _ _ _ _
  refine ⟨next, ?_, ?_⟩
  · have halted : b.twi.halt = false := by simp [Twi.halt, ctrl, appCtrl]
    simp only [Bench.cycle, Twi.step, ClkGen.next, engine, driving_busy working, ctrl, appCtrl, halted,
      gen, oneHot_rotate]
    simp
  · exact telling_still .none telling (by rw [next, engine]) (by rw [next, engine])

/-- A cycle inside a phase leaves the engine and its levels as they are. -/
theorem working_cycle (working : op ≠ .nop) (stands : Working w l i op bitcnt sreg scl sda t b) :
    let b' := b.cycle w .none
    b'.twi.engine = driving op bitcnt sreg scl sda ∧
      b'.twi.clkGen.phaseGen = (if b.twi.clkGen.tick then oneHot (i + 1) else oneHot i) ∧
      Bare b'.twi.tx ∧ Bare b'.twi.rx ∧
      Telling w l { t with kept := (b.level w).line :: t.kept } b' := by
  obtain ⟨engine, gen, telling⟩ :=
    phase_cycle working stands.ctrl stands.engine stands.gen stands.genFf stands.telling
  have unwritten : (b.twi.rxPorts .none).we = false := by
    simp [Twi.rxPorts, stands.engine, driving]
  exact ⟨engine, gen, bare_step stands.tx rfl, bare_step stands.rx unwritten, telling⟩

/-- A listener that has kept levels has kept fewer of them as well. -/
theorem telling_less {kept : List Bool} (telling : Telling w l { t with kept := kept } b)
    (less : ∀ level ∈ t.kept, level ∈ kept) : Telling w l t b where
  scl := telling.scl
  sda := telling.sda
  moved := telling.moved
  events := telling.events
  seen := by
    intro high level member
    apply telling.seen high level
    rcases List.mem_cons.mp member with rfl | before
    · exact List.mem_cons_self
    · exact List.mem_cons_of_mem _ (less level before)
  recorded := telling.recorded

/-- The data line that has been taken into the synchronizer is the line of this cycle,
with that of the last one behind it. -/
theorem cycle_sync (b : Bench awidth) :
    (b.cycle w .none).twi.sdaSync.getLsbD 0 = (b.level w).line ∧
      (b.cycle w .none).twi.sdaSync.getLsbD 1 = b.twi.sdaSync.getLsbD 0 := by
  simp [Bench.cycle, Twi.step]

/-- Without a tick the phase stands for another cycle. -/
theorem working_wait (working : op ≠ .nop) (stands : Working w l i op bitcnt sreg scl sda t b)
    (silent : b.twi.clkGen.tick = false) :
    Working w l i op bitcnt sreg scl sda t (b.cycle w .none) := by
  obtain ⟨engine, gen, tx, rx, telling⟩ := working_cycle working stands
  obtain ⟨tick, cnt⟩ := cycle_clock (w := w) stands.ctrl .none
  rw [silent] at gen
  refine ⟨stands.ctrl, engine, gen, stands.gen, ?_, tx, rx,
    telling_less telling fun level => List.mem_cons_of_mem _, ?_⟩
  · intro ticks
    rw [tick, Bool.and_eq_true, beq_iff_eq] at ticks
    rw [cnt, if_pos ticks.1, ticks.2]
    rfl
  · intro _ high
    rw [(cycle_sync b).1]
    exact telling.seen (by rw [engine]; exact high) _ (List.mem_cons_of_mem _ List.mem_cons_self)

/-- The cycle in which the engine takes the step: the generator moved in the cycle
before, and the level sampled is one that the line had during the pulse. -/
theorem turn_cycle (working : op ≠ .nop) (ctrl : b.twi.ctrl = appCtrl)
    (engine : b.twi.engine = driving op bitcnt sreg scl sda)
    (gen : b.twi.clkGen.phaseGen = oneHot (i + 1)) (genFf : b.twi.clkGen.phaseGenFf = oneHot i)
    (silent : b.twi.clkGen.tick = false) (small : b.twi.clkGen.cnt ≠ 15) (tx : Bare b.twi.tx)
    (rx : Bare b.twi.rx) (telling : Telling w l t b)
    (sampled : scl = true → b.twi.sdaSync.getLsbD 1 ∈ (b.listener l).seen) :
    Turned w l i (driving op bitcnt sreg scl sda) t (b.cycle w .none) := by
  have high : (driving op bitcnt sreg scl sda).sclOut = scl := rfl
  refine ⟨ctrl, ?_, gen, ?_, bare_step tx rfl, ?_, ⟨b.twi.sdaSync.getLsbD 1, b.listener l, ?_, ?_, ?_,
    telling.moved, telling.events, ?_, cycle_listener _ _⟩, recorded_cycle .none telling.recorded⟩
  · simp only [Bench.cycle, Twi.step, ClkGen.next, engine, driving_busy working, ctrl, appCtrl, silent,
      gen]
    simp
  · rw [(cycle_clock ctrl .none).1, beq_eq_false_iff_ne.mpr small, Bool.and_false]
  · have unwritten : (b.twi.rxPorts .none).we = false := by
      simp [Twi.rxPorts, engine, driving]
    exact bare_step rx unwritten
  · simp only [Bench.cycle, Twi.step, engine, ctrl, appCtrl]
    exact next_act working (phase_only _ i gen genFf) _ _ _ _
  · rw [telling.scl, engine]
  · rw [telling.sda, engine]
  · intro pulse level member
    rcases List.mem_cons.mp member with rfl | before
    · exact sampled (high ▸ pulse)
    · exact telling.seen (by rw [engine, pulse]) level (List.mem_cons_of_mem _ before)

/-- Two cycles behind the tick the step of the phase has been taken. -/
theorem working_turn (working : op ≠ .nop) (stands : Working w l i op bitcnt sreg scl sda t b)
    (ticks : b.twi.clkGen.tick = true) :
    Turned w l i (driving op bitcnt sreg scl sda) t (b.idle w 2) := by
  obtain ⟨engine, gen, tx, rx, telling⟩ := working_cycle working stands
  obtain ⟨tick, cnt⟩ := cycle_clock (w := w) stands.ctrl .none
  rw [ticks] at gen
  have silent : (b.cycle w .none).twi.clkGen.tick = false := by
    rw [tick, stands.spaced ticks]
    simp
  have small : (b.cycle w .none).twi.clkGen.cnt ≠ 15 := by
    rw [cnt, stands.spaced ticks]
    split <;> decide
  have sampled : scl = true → (b.cycle w .none).twi.sdaSync.getLsbD 1 ∈
      ((b.cycle w .none).listener l).seen := by
    intro high
    have still := (Listener.hear_still (l := b.listener l) (x := (b.cycle w .none).level w)
      (by rw [stands.telling.scl, Bench.level, engine, stands.engine])
      (by rw [stands.telling.sda, Bench.level, engine, stands.engine])).2.2
    rw [(cycle_sync b).2, cycle_listener]
    exact still _ (stands.synced ticks high)
  exact turn_cycle working stands.ctrl engine gen stands.gen silent small tx rx
    (telling_less telling fun level => List.mem_cons_of_mem _) sampled

def Busy (b : Bench awidth) : Prop := b.twi.ctrlBusy = true

/-- In an operation the controller is busy. -/
theorem busy_driving (working : op ≠ .nop) (engine : b.twi.engine = driving op bitcnt sreg scl sda) :
    Busy b := by
  simp [Busy, Twi.ctrlBusy, engine, driving_busy working]

/-- Sooner or later a phase is over, and the controller is busy until then. -/
theorem working_passes (recurs : w.Recurs) (working : op ≠ .nop)
    (stands : Working w l i op bitcnt sreg scl sda t b) :
    Eventually (Bench.cycle w .none) Busy (Turned w l i (driving op bitcnt sreg scl sda) t) b := by
  have ticks : Eventually (Bench.cycle w .none) Busy
      (fun b => Working w l i op bitcnt sreg scl sda t b ∧ b.twi.clkGen.tick = true) b :=
    eventually_trigger stands
      (fun _ stands silent => working_wait working stands (Bool.eq_false_iff.mpr silent))
      (fun _ stands => busy_driving working stands.engine) (tick_comes recurs stands.ctrl)
  refine eventually_then ticks ?_
  rintro b ⟨stands, ticks⟩
  have next := (working_cycle working stands).1
  exact eventually_next (busy_driving working stands.engine)
    (eventually_next (busy_driving working next) (eventually_now (working_turn working stands ticks)))

/-- What a listener makes of the levels that a step leaves. The steps below differ only
in which of the two lines moves. -/
theorem turned_working {e : Engine} (turned : Turned w l i e t b) {op' : TwiOp} {bitcnt' : BitVec 4}
    {sreg' : Bool → BitVec 9} {scl' sda' : Bool}
    (acts : ∀ sample, e.act i sample = driving op' bitcnt' (sreg' sample) scl' sda') :
    ∃ (sample : Bool) (before : Listener), before.scl = e.sclOut ∧ before.sda = e.sdaOut ∧
      before.moved = t.moved ∧ before.events = t.events ∧
      (e.sclOut = true → ∀ level ∈ sample :: t.kept, level ∈ before.seen) ∧
      (b.level w).scl = scl' ∧ (b.level w).sda = sda' ∧
      ∀ t' : Talk, (before.hear (b.level w)).moved = t'.moved →
        (before.hear (b.level w)).events = t'.events →
        (∀ level ∈ t'.kept, level ∈ (before.hear (b.level w)).seen) →
        Working w l (i + 1) op' bitcnt' (sreg' sample) scl' sda' t' b := by
  obtain ⟨sample, before, engine, scl, sda, moved, events, seen, hears⟩ := turned.stepped
  rw [acts] at engine
  have high : (b.level w).scl = scl' := by rw [Bench.level, engine]; rfl
  have data : (b.level w).sda = sda' := by rw [Bench.level, engine]; rfl
  refine ⟨sample, before, scl, sda, moved, events, seen, high, data, ?_⟩
  intro t' moved' events' kept
  have silent : ∀ {p : Prop}, b.twi.clkGen.tick = true → p := by
    intro p ticks
    rw [turned.silent] at ticks
    exact absurd ticks Bool.false_ne_true
  refine ⟨turned.ctrl, engine, turned.gen, turned.genFf, silent, turned.tx, turned.rx,
    ⟨?_, ?_, ?_, ?_, ?_, turned.recorded⟩, silent⟩
  · rw [hears, Listener.hear_scl]
    rfl
  · rw [hears, Listener.hear_sda]
    rfl
  · rw [hears, moved']
  · rw [hears, events']
  · intro pulse level member
    rw [hears]
    rcases List.mem_cons.mp member with rfl | before
    · exact Listener.hear_seen _ _ pulse
    · exact kept level before

/-! ## The ways to step -/

variable {op' : TwiOp} {bitcnt' : BitVec 4} {sreg' : Bool → BitVec 9} {scl' sda' : Bool}

/-- The levels stay: nothing is said, and under a high clock the level sampled has been
seen. -/
theorem turned_still (turned : Turned w l i (driving op bitcnt sreg scl sda) t b)
    (acts : ∀ sample, (driving op bitcnt sreg scl sda).act i sample =
      driving op' bitcnt' (sreg' sample) scl sda) :
    ∃ sample, Working w l (i + 1) op' bitcnt' (sreg' sample) scl sda
      { t with kept := if scl then sample :: t.kept else [] } b := by
  obtain ⟨sample, before, scl, sda, moved, events, seen, high, data, stands⟩ := turned_working turned acts
  obtain ⟨moved', events', seen'⟩ := Listener.hear_still (l := before) (x := b.level w)
    (scl.trans high.symm) (sda.trans data.symm)
  refine ⟨sample, stands _ (moved'.trans moved) (events'.trans events) ?_⟩
  intro level member
  apply seen'
  split at member
  case isTrue pulse => exact seen pulse level member
  case isFalse => exact absurd member List.not_mem_nil

/-- The data line moves under a low clock, where nothing is said. -/
theorem turned_low (turned : Turned w l i (driving op bitcnt sreg false sda) t b)
    (acts : ∀ sample, (driving op bitcnt sreg false sda).act i sample =
      driving op' bitcnt' (sreg' sample) false sda') :
    ∃ sample, Working w l (i + 1) op' bitcnt' (sreg' sample) false sda' { t with kept := [] } b := by
  obtain ⟨sample, before, scl, sda, moved, events, seen, high, data, stands⟩ := turned_working turned acts
  obtain ⟨moved', events'⟩ := Listener.hear_low scl high
  exact ⟨sample, stands _ (moved'.trans moved) (events'.trans events) fun _ member =>
    absurd member List.not_mem_nil⟩

/-- The clock rises: a pulse begins, in which nothing has moved. -/
theorem turned_rise (turned : Turned w l i (driving op bitcnt sreg false sda) t b)
    (acts : ∀ sample, (driving op bitcnt sreg false sda).act i sample =
      driving op' bitcnt' (sreg' sample) true sda') :
    ∃ sample, Working w l (i + 1) op' bitcnt' (sreg' sample) true sda'
      { moved := false, events := t.events } b := by
  obtain ⟨sample, before, scl, sda, moved, events, seen, high, data, stands⟩ := turned_working turned acts
  obtain ⟨moved', events'⟩ := Listener.hear_rise scl high
  exact ⟨sample, stands _ moved' (events'.trans events) fun _ member => absurd member List.not_mem_nil⟩

/-- The clock falls, and what the pulse carried has been said: its bit with the levels
of the line, unless the data line has moved. -/
theorem turned_fall (turned : Turned w l i (driving op bitcnt sreg true sda) t b)
    (acts : ∀ sample, (driving op bitcnt sreg true sda).act i sample =
      driving op' bitcnt' (sreg' sample) false sda') :
    ∃ sample seen, (∀ level ∈ t.kept, level ∈ seen) ∧
      Working w l (i + 1) op' bitcnt' (sreg' sample) false sda'
        { moved := false, events := if t.moved then t.events else t.events ++ [.bit sda seen] } b := by
  obtain ⟨sample, before, scl, sda, moved, events, seen, high, data, stands⟩ := turned_working turned acts
  obtain ⟨moved', events'⟩ := Listener.hear_fall scl high
  rw [moved, events, sda] at events'
  exact ⟨sample, before.seen, fun level member => seen rfl level (List.mem_cons_of_mem _ member),
    stands _ moved' events' fun _ member => absurd member List.not_mem_nil⟩

/-- The data line moves during a pulse, which is a start or a stop by the direction it
moves in. -/
theorem turned_move (turned : Turned w l i (driving op bitcnt sreg true sda) t b)
    (acts : ∀ sample, (driving op bitcnt sreg true sda).act i sample =
      driving op' bitcnt' (sreg' sample) true sda') (other : sda ≠ sda') :
    ∃ sample, Working w l (i + 1) op' bitcnt' (sreg' sample) true sda'
      { moved := true, events := t.events ++ [if sda' then .stop else .start] } b := by
  obtain ⟨sample, before, scl, sda, moved, events, seen, high, data, stands⟩ := turned_working turned acts
  obtain ⟨moved', events'⟩ := Listener.hear_move scl high (by rwa [sda, data])
  rw [events, data] at events'
  exact ⟨sample, stands _ moved' events' fun _ member => absurd member List.not_mem_nil⟩

end

end NeoSfp
