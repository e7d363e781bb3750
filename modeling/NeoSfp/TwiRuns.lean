import NeoSfp.BusTransactions
import NeoSfp.TwiTransfers

/-!
# Runs of the controller

The executor's calls go through the driver and the controller to the bus. From whatever
state the controller powers up in, the application's setup brings it to rest, and then
every sequence of calls is served: what the controller drives are exactly these calls, and
the answers are what the data line carried. Where the other devices keep to the rules of
the bus, a listener on the two lines is told the same.
-/

namespace NeoSfp

open Checked TwoWire Reaching

/-! ## Calls -/

section

variable {awidth : Nat} (w : World) (polls : Nat)

/-- `neo_exec_hal_neorv32`: what a transfer returns, and nothing otherwise. The GPIO calls
go to another controller. -/
def HalCall.serve : HalCall → TwiDriver awidth (Option (Int × UInt8))
  | .twiStart => do
    neorv32TwiGenerateStart w polls
    pure none
  | .twiStop => do
    neorv32TwiGenerateStop w polls
    pure none
  | .twiTrans byte hostAck => do
    let answer ← neorv32TwiTransfer w polls byte hostAck
    pure (some answer)
  | .gpioWriteByte _ => pure none
  | .gpioReadByte => pure none

/-- Calls of the executor in a row, with their answers. -/
def serveHal : List HalCall → TwiDriver awidth (List (Option (Int × UInt8)))
  | [] => pure []
  | call :: calls => do
    let answer ← call.serve w polls
    let answers ← serveHal calls
    pure (answer :: answers)

/-- From now on someone listens. -/
def Bench.listen (b : Bench awidth) : Bench awidth := { b with trace := [b.level w] }

/-- The application's setup, and then calls. -/
def setupServe (calls : List HalCall) : TwiDriver awidth (List (Option (Int × UInt8))) := do
  neorv32TwiSetup w 6 15 0
  Run.modify (Bench.listen w)
  serveHal w polls calls

end

/-- What calls with their answers say on the bus. A transfer that returns `rc` and `v`
carries its byte and an acknowledge bit against them, in nine pulses. -/
inductive Told (carries : List Bool → List Bool → List Event → Prop) :
    List HalCall → List (Option (Int × UInt8)) → List Event → Prop where
  | nil : Told carries [] [] []
  | start {calls : List HalCall} {answers : List (Option (Int × UInt8))} {events : List Event}
      (rest : Told carries calls answers events) :
      Told carries (.twiStart :: calls) (none :: answers) (.start :: events)
  | stop {calls : List HalCall} {answers : List (Option (Int × UInt8))} {events : List Event}
      (rest : Told carries calls answers events) :
      Told carries (.twiStop :: calls) (none :: answers) (.stop :: events)
  | trans (byte : UInt8) (hostAck : Nat) (rc : Int) (v : UInt8) (pulses : List Event)
      {calls : List HalCall} {answers : List (Option (Int × UInt8))} {events : List Event}
      (status : rc = 0 ∨ rc = 1)
      (exchanged : carries (sentBits byte hostAck) (receivedBits rc v) pulses)
      (rest : Told carries calls answers events) :
      Told carries (.twiTrans byte hostAck :: calls) (some (rc, v) :: answers) (pulses ++ events)
  | gpio (call : HalCall) {calls : List HalCall} {answers : List (Option (Int × UInt8))}
      {events : List Event} (other : call.kind = .other) (rest : Told carries calls answers events) :
      Told carries (call :: calls) (none :: answers) events

/-- Calls that the controller has driven are told on the lines. By induction on the calls:
a start and a stop are the same there, and the pulses of a transfer are those on the line. -/
theorem told_onLines {calls : List HalCall} {answers : List (Option (Int × UInt8))}
    {events lines : List Event} (told : Told Exchanged calls answers events)
    (seen : List.Forall₂ OnLines events lines) : Told Conveyed calls answers lines := by
  induction told generalizing lines with
  | nil =>
    cases seen
    exact .nil
  | start _ ih =>
    cases seen with
    | cons here behind =>
      cases here
      exact .start (ih behind)
  | stop _ ih =>
    cases seen with
    | cons here behind =>
      cases here
      exact .stop (ih behind)
  | trans byte hostAck rc v pulses status exchanged _ ih =>
    obtain ⟨pulses', rest, rfl, carried, behind⟩ := exchanged_onLines exchanged seen
    exact .trans byte hostAck rc v pulses' status carried (ih behind)
  | gpio call other _ ih => exact .gpio call other (ih seen)

section

variable {awidth : Nat} {w : World} {l : Listener} {b : Bench awidth} {high : Bool}
  {events : List Event}

/-- One call, which leaves the controller at rest: what it drives is told in front of
whatever the next calls tell. There is one case for each kind of call. -/
theorem serve_told (recurs : w.Recurs) (rests : Resting w l high events b) (call : HalCall) :
    ∃ enough answer b' high' pulses, Resting w l high' (events ++ pulses) b' ∧
      (∀ {calls answers events'}, Told Exchanged calls answers events' →
        Told Exchanged (call :: calls) (answer :: answers) (pulses ++ events')) ∧
      ∀ polls ≥ enough, call.serve w polls b = .ok answer b' := by
  cases call with
  | twiStart =>
    obtain ⟨enough, b', rests', runs⟩ := generateStart_told recurs rests
    refine ⟨enough, none, b', false, [.start], rests', Told.start, fun polls large => ?_⟩
    rw [HalCall.serve, Run.bind_apply, runs polls large]
    rfl
  | twiStop =>
    obtain ⟨enough, b', rests', runs⟩ := generateStop_told recurs rests
    refine ⟨enough, none, b', true, [.stop], rests', Told.stop, fun polls large => ?_⟩
    rw [HalCall.serve, Run.bind_apply, runs polls large]
    rfl
  | twiTrans byte hostAck =>
    obtain ⟨enough, rc, v, told, b', status, exchanged, rests', runs⟩ :=
      transfer_told recurs rests byte hostAck
    refine ⟨enough, some (rc, v), b', false, told, rests',
      Told.trans byte hostAck rc v told status exchanged, fun polls large => ?_⟩
    rw [HalCall.serve, Run.bind_apply, runs polls large]
    rfl
  | gpioWriteByte v =>
    exact ⟨0, none, b, high, [], by rwa [List.append_nil], Told.gpio _ rfl, fun polls _ => rfl⟩
  | gpioReadByte =>
    exact ⟨0, none, b, high, [], by rwa [List.append_nil], Told.gpio _ rfl, fun polls _ => rfl⟩

/-- Any sequence of calls: by induction on them, with the controller at rest between
two. -/
theorem calls_told (recurs : w.Recurs) (calls : List HalCall) (rests : Resting w l high events b) :
    ∃ enough answers b' high' told, Resting w l high' (events ++ told) b' ∧
      Told Exchanged calls answers told ∧
      ∀ polls ≥ enough, serveHal w polls calls b = .ok answers b' := by
  induction calls generalizing b high events with
  | nil => exact ⟨0, [], b, high, [], by rwa [List.append_nil], Told.nil, fun polls _ => rfl⟩
  | cons call calls ih =>
    obtain ⟨enough, answer, b₁, high₁, pulses, rests₁, said, runs⟩ := serve_told recurs rests call
    obtain ⟨enough', answers, b', high', told, rests', rest, runs'⟩ := ih rests₁
    rw [List.append_assoc] at rests'
    refine ⟨max enough enough', answer :: answers, b', high', pulses ++ told, rests', said rest, ?_⟩
    intro polls large
    rw [serveHal, Run.bind_apply, runs polls (by omega), Run.andThen_ok, Run.bind_apply,
      runs' polls (by omega)]
    rfl

/-! ## Setup -/

/-- A disabled controller, a cycle later. -/
structure Cleared (b : Bench awidth) : Prop where
  disabled : b.twi.ctrl.enable = false
  offline : b.twi.engine.online = false
  tx : b.twi.tx.Holds []
  rx : b.twi.rx.Holds []
  silent : b.twi.clkGen.tick = false
  cnt : b.twi.clkGen.cnt = 0
  gen : b.twi.clkGen.phaseGen = oneHot 0

/-- The same, and one more cycle later, whatever was asked then. -/
structure Settled (b : Bench awidth) : Prop where
  engine : ∃ bitcnt sreg, b.twi.engine = { driving .nop bitcnt sreg true true with online := false }
  tx : Bare b.twi.tx
  rx : Bare b.twi.rx
  silent : b.twi.clkGen.tick = false
  cnt : b.twi.clkGen.cnt = 0
  gen : b.twi.clkGen.phaseGen = oneHot 0
  genFf : b.twi.clkGen.phaseGenFf = oneHot 0

/-- A buffer that is cleared is empty, whatever it held. -/
theorem clear_holds {α : Type} (f : PrimFifo awidth α) {p : FifoPorts α} (clear : p.clear = true) :
    (f.step p).Holds [] :=
  PrimFifo.holds_clear (by simp [PrimFifo.step, clear])

/-- The engine is online exactly if it was enabled in the last cycle. -/
theorem next_online (e : Engine) (enable txAvail tick sample : Bool) (txRdata : BitVec 11)
    (phase : Nat → Bool) : (e.next enable txAvail txRdata tick phase sample).online = enable := by
  unfold Engine.next
  cases e.online with
  | false => rfl
  | true =>
    dsimp only
    cases e.op
    all_goals
      dsimp only
      repeat' split
      all_goals rfl

/-- A cycle with the controller disabled clears it: engine, generator and buffers. -/
theorem disabled_cycle (disabled : b.twi.ctrl.enable = false) (req : BusReq)
    (same : (b.cycle w req).twi.ctrl.enable = false) : Cleared (b.cycle w req) where
  disabled := same
  offline := by
    simp only [Bench.cycle, Twi.step, disabled, next_online]
  tx := clear_holds _ (by simp [Twi.txPorts, disabled])
  rx := clear_holds _ (by simp [Twi.rxPorts, disabled])
  silent := by simp [Bench.cycle, Twi.step, ClkGen.next, disabled]
  cnt := by simp [Bench.cycle, Twi.step, ClkGen.next, disabled]
  gen := by simp [Bench.cycle, Twi.step, ClkGen.next, disabled, oneHot]

/-- A cleared controller stays cleared while it is disabled. By induction on the
cycles. -/
theorem cleared_idle (n : Nat) (cleared : Cleared b) : Cleared (b.idle w n) := by
  induction n with
  | zero => exact cleared
  | succ n ih =>
    rw [idle_succ]
    exact disabled_cycle ih.disabled .none ih.disabled

/-- A buffer that is empty and cleared once more shows nothing. -/
theorem clear_bare {α : Type} {f : PrimFifo awidth α} {p : FifoPorts α} (holds : f.Holds [])
    (clear : p.clear = true) : Bare (f.step p) := by
  have after := clear_holds f clear
  refine ⟨after, ?_⟩
  by_cases small : awidth = 0
  · simp [PrimFifo.small_avail after small]
  · simp [PrimFifo.step_avail p holds small]

/-- One more cycle settles a cleared controller, whatever is asked of it then. -/
theorem cleared_cycle (cleared : Cleared b) (req : BusReq) : Settled (b.cycle w req) where
  engine := by
    refine ⟨b.twi.engine.bitcnt, b.twi.engine.sreg, ?_⟩
    simp only [Bench.cycle, Twi.step, Engine.next, cleared.offline, cleared.disabled]
    rfl
  tx := clear_bare cleared.tx (by simp [Twi.txPorts, cleared.disabled])
  rx := clear_bare cleared.rx (by simp [Twi.rxPorts, cleared.disabled])
  silent := by simp [Bench.cycle, Twi.step, ClkGen.next, cleared.disabled]
  cnt := by simp [Bench.cycle, Twi.step, ClkGen.next, cleared.disabled]
  gen := by simp [Bench.cycle, Twi.step, ClkGen.next, cleared.disabled, oneHot]
  genFf := cleared.gen

/-- A settled controller that has been configured goes to rest on a free bus. -/
theorem settled_cycle (settled : Settled b) (ctrl : b.twi.ctrl = appCtrl) :
    Resting w (Listener.tuned true) true [] ((b.cycle w .none).listen w) := by
  obtain ⟨bitcnt, sreg, engine⟩ := settled.engine
  have next : (b.cycle w .none).twi.engine = driving .nop bitcnt sreg true true := by
    simp only [Bench.cycle, Twi.step, engine, ctrl, appCtrl, Engine.next]
    rfl
  have free : b.twi.engine.busy = false := by simp [engine, Engine.busy]
  have gen : (b.cycle w .none).twi.clkGen.phaseGen = oneHot 0 := by
    simp only [Bench.cycle, Twi.step, ClkGen.next, free]
    simp [oneHot]
  have level : (b.cycle w .none).level w =
      { scl := true
        sda := true
        sclFree := w.scl (b.cycle w .none).now
        sdaFree := w.sda (b.cycle w .none).now } := by
    rw [Bench.level, next]
    rfl
  have heard : ((b.cycle w .none).listen w).listener (Listener.tuned true) =
      { Listener.tuned true with seen := [((b.cycle w .none).level w).line] } := by
    rw [Bench.listener, Bench.listen]
    dsimp only
    rw [level]
    rfl
  refine ⟨⟨ctrl, ⟨_, _, next⟩, gen, settled.gen, cycle_spaced ctrl .none, ?_⟩, bare_step settled.tx rfl,
    bare_step settled.rx (by simp [Twi.rxPorts, engine, driving])⟩
  constructor
  · rw [heard]
    exact (congrArg Engine.sclOut next).symm
  · rw [heard]
    exact (congrArg Engine.sdaOut next).symm
  · rw [heard]
    rfl
  · rw [heard]
    rfl
  · intro _ line member
    rw [heard]
    exact member
  · intro x member
    rw [List.mem_singleton.mp member]
    exact ⟨_, rfl, rfl⟩

/-- From any state whatever, the application's setup brings the controller to rest: it
is disabled first, for longer than it takes to settle, and then configured. -/
theorem setup_rests (b : Bench awidth) : ∃ b', neorv32TwiSetup w 6 15 0 b = .ok ⟨⟩ b' ∧
    Resting w (Listener.tuned true) true [] (b'.listen w) := by
  have disabled : ((b.idle w (w.gap b.now)).cycle w (.writeCtrl 0)).twi.ctrl.enable = false := rfl
  have cleared := disabled_cycle (w := w) disabled .none rfl
  have later := cleared_idle (w := w)
    (w.gap (((b.idle w (w.gap b.now)).cycle w (.writeCtrl 0)).cycle w .none).now) cleared
  exact ⟨_, rfl, settled_cycle (cleared_cycle later _) rfl⟩

end

/-- The setup and the calls behind it are one run. -/
theorem setup_serve {awidth : Nat} {w : World} {b b₁ b' : Bench awidth} {polls : Nat}
    {calls : List HalCall} {answers : List (Option (Int × UInt8))}
    (setup : neorv32TwiSetup w 6 15 0 b = .ok ⟨⟩ b₁)
    (runs : serveHal w polls calls (b₁.listen w) = .ok answers b') :
    setupServe w polls calls b = .ok answers b' := by
  rw [setupServe, Run.bind_apply, setup, Run.andThen_ok, Run.bind_apply, Run.modify_apply,
    Run.andThen_ok]
  exact runs

/-- Whatever state the controller powers up in, however long the CPU takes for each access
and whatever others do to the bus: the application's setup and then any calls of the
executor return, each transfer has its own answer, and what the controller drives are these
calls and nothing else, from the start to the stop. If the other devices have kept to the
rules of the bus since the setup, a listener on the two lines is told these calls, too, with
the bits that the transfers have returned. -/
theorem setupServe_told {awidth : Nat} (w : World) (recurs : w.Recurs) (b : Bench awidth)
    (calls : List HalCall) :
    ∃ enough answers b', Told Exchanged calls answers (b'.listener (Listener.tuned true)).events ∧
      (List.IsChain Polite (Level.idle :: b'.trace) →
        Told Conveyed calls answers (b'.onLines (Listener.tuned true)).events) ∧
      Recorded w b' ∧ ∀ polls ≥ enough, setupServe w polls calls b = .ok answers b' := by
  obtain ⟨b₁, setup, rests⟩ := setup_rests (w := w) b
  obtain ⟨enough, answers, b', high, told, rests', said, runs⟩ := calls_told recurs calls rests
  rw [List.nil_append] at rests'
  have driven : Told Exchanged calls answers (b'.listener (Listener.tuned true)).events := by
    rw [rests'.telling.events]
    exact said
  exact ⟨enough, answers, b', driven,
    fun polite => told_onLines driven (hears_onLines tracks_idle polite), rests'.telling.recorded,
    fun polls large => setup_serve setup (runs polls large)⟩

/-- Clock enables in every other cycle, and a bus on which nobody else does anything. -/
def freeWorld : World where
  clkgen t := if t % 2 = 0 then 0 else 255
  sda _ := true
  scl _ := true
  gap t := t % 3

/-- A controller in the middle of a transmission, with words in both FIFOs. -/
def poweredUp : Bench 1 where
  twi :=
    { ctrl := { enable := true, prsc := 3, cdiv := 9, clkstr := true }
      tx := { fifo := fun _ => 0x7ff, wPnt := 2, rPnt := 1, availFf := true, rdataFf := 0x5a }
      rx := { fifo := fun _ => 0x1aa, wPnt := 3, rPnt := 0, availFf := false, rdataFf := 0 }
      clkGen := { tick := true, cnt := 7, phaseGen := 0b0100, phaseGenFf := 0b0010 }
      engine :=
        { online := true, op := .rtx, bitcnt := 5, sreg := 0x0f, txRe := true, rxWe := true
          sdaOut := false, sclOut := false }
      sdaSync := 0b10
      sclSync := 0b01 }
  now := 40

/-- In this world the clock enable comes again and again. -/
theorem freeWorld_recurs : freeWorld.Recurs := by
  intro t
  exact ⟨2 * t + 1, by omega, by simp [freeWorld]⟩

/-- Others who do nothing keep to the rules, whatever the controller drives. -/
theorem freeWorld_polite {awidth : Nat} {b : Bench awidth} (recorded : Recorded freeWorld b) :
    List.IsChain Polite (Level.idle :: b.trace) := by
  apply polite_free Level.idle b.trace rfl
  intro x member
  obtain ⟨t, clock, data⟩ := recorded x member
  exact ⟨clock, data⟩

/-- A start, two transfers and a stop, from a controller that powers up inside a
transmission. -/
theorem setupServe_told_poweredUp :
    ∃ enough answers b', Told Exchanged [.twiStart, .twiTrans 0xa0 0, .twiTrans 0xff 1, .twiStop] answers
        (b'.listener (Listener.tuned true)).events ∧
      Told Conveyed [.twiStart, .twiTrans 0xa0 0, .twiTrans 0xff 1, .twiStop] answers
        (b'.onLines (Listener.tuned true)).events ∧
      ∀ polls ≥ enough, setupServe freeWorld polls
        [.twiStart, .twiTrans 0xa0 0, .twiTrans 0xff 1, .twiStop] poweredUp = .ok answers b' := by
  obtain ⟨enough, answers, b', driven, lines, recorded, runs⟩ :=
    setupServe_told freeWorld freeWorld_recurs poweredUp
      [.twiStart, .twiTrans 0xa0 0, .twiTrans 0xff 1, .twiStop]
  exact ⟨enough, answers, b', driven, lines (freeWorld_polite recorded), runs⟩

end NeoSfp
