import NeoSfp.TwiOperations

/-!
# Between two operations

At rest the controller stays at rest. A command that is written waits in its FIFO for
the next tick; the answer of a transmission waits in the other one for the CPU.
-/

namespace NeoSfp

open Checked TwoWire Reaching

section

variable {awidth : Nat} {w : World} {l : Listener} {b : Bench awidth} {high : Bool}
  {events : List Event} {word : BitVec 11} {answer : BitVec 9}

/-! ## What stays -/

/-- In a cycle with a tick the counter begins anew, so ticks are spaced. -/
theorem cycle_spaced (ctrl : b.twi.ctrl = appCtrl) (req : BusReq) :
    (b.cycle w req).twi.clkGen.tick = true → (b.cycle w req).twi.clkGen.cnt = 0 := by
  obtain ⟨tick, cnt⟩ := cycle_clock (w := w) ctrl req
  intro ticks
  rw [tick, Bool.and_eq_true, beq_iff_eq] at ticks
  rw [cnt, if_pos ticks.1, ticks.2]
  rfl

/-- A counter that has just begun does not come round in the next cycle. -/
theorem cycle_few {n : Nat} (ctrl : b.twi.ctrl = appCtrl) (few : b.twi.clkGen.cnt.toNat ≤ n)
    (below : n < 15) : (b.cycle w .none).twi.clkGen.tick = false ∧
      (b.cycle w .none).twi.clkGen.cnt.toNat ≤ n + 1 := by
  obtain ⟨tick, cnt⟩ := cycle_clock (w := w) ctrl .none
  constructor
  · have small : b.twi.clkGen.cnt ≠ 15 := by
      intro last
      rw [last] at few
      exact absurd (Nat.lt_of_le_of_lt few below) (by decide)
    rw [tick, beq_eq_false_iff_ne.mpr small, Bool.and_false]
  · rw [cnt]
    split
    · rw [BitVec.toNat_add]
      have one : (1 : BitVec 4).toNat = 1 := rfl
      omega
    · omega

/-- Between two operations the engine stands, as long as no command is seen with a
tick. -/
theorem nop_still {e : Engine} (online : e.online = true) (nop : e.op = .nop) (txAvail tick : Bool)
    (txRdata : BitVec 11) (phase : Nat → Bool) (sample : Bool) (idle : (txAvail && tick) = false) :
    e.next true txAvail txRdata tick phase sample = driving .nop 0
      (txRdata.extractLsb' 0 8 ++ BitVec.ofBool !(txRdata.getLsbD 8)) e.sclOut e.sdaOut := by
  simp [Engine.next, driving, online, nop, idle]

/-- A cycle between two operations, in which no command is taken: the levels stay, and a
listener is told nothing. -/
theorem nop_cycle {t : Talk} (req : BusReq) (ctrl : b.twi.ctrl = appCtrl)
    (online : b.twi.engine.online = true) (nop : b.twi.engine.op = .nop)
    (idle : (b.twi.tx.availO && b.twi.clkGen.tick) = false) (telling : Telling w l t b) :
    let b' := b.cycle w req
    (∃ bitcnt sreg, b'.twi.engine =
      driving .nop bitcnt sreg b.twi.engine.sclOut b.twi.engine.sdaOut) ∧
      b'.twi.clkGen.phaseGen = oneHot 0 ∧ Telling w l t b' := by
  have next : (b.cycle w req).twi.engine = driving .nop 0
      (b.twi.tx.rdataO.extractLsb' 0 8 ++ BitVec.ofBool !(b.twi.tx.rdataO.getLsbD 8))
      b.twi.engine.sclOut b.twi.engine.sdaOut := by
    simp only [Bench.cycle, Twi.step, ctrl, appCtrl]
    exact nop_still online nop _ _ _ _ _ idle
  refine ⟨⟨_, _, next⟩, ?_, ?_⟩
  · have free : b.twi.engine.busy = false := by simp [Engine.busy, nop]
    simp only [Bench.cycle, Twi.step, ClkGen.next, free]
    simp [oneHot]
  · exact telling_less (telling_still req telling (by rw [next]; rfl) (by rw [next]; rfl))
      fun _ => List.mem_cons_of_mem _

/-- A controller that waits still waits after a cycle, whatever the CPU asks of it. -/
theorem waiting_cycle (waiting : Waiting w l high events b) (req : BusReq)
    (configured : (b.cycle w req).twi.ctrl = appCtrl)
    (idle : (b.twi.tx.availO && b.twi.clkGen.tick) = false) :
    Waiting w l high events (b.cycle w req) := by
  obtain ⟨bitcnt, sreg, engine⟩ := waiting.engine
  obtain ⟨next, gen, telling⟩ := nop_cycle req waiting.ctrl (by rw [engine]; rfl) (by rw [engine]; rfl)
    idle waiting.telling
  rw [engine] at next
  exact ⟨configured, next, gen, waiting.gen, cycle_spaced waiting.ctrl req, telling⟩

/-- A controller at rest stays at rest for a cycle without a request. -/
theorem resting_cycle (rests : Resting w l high events b) : Resting w l high events (b.cycle w .none) where
  toWaiting := waiting_cycle rests.toWaiting .none rests.ctrl (by rw [rests.tx.dark, Bool.false_and])
  tx := by
    obtain ⟨bitcnt, sreg, engine⟩ := rests.engine
    exact bare_step rests.tx rfl
  rx := by
    obtain ⟨bitcnt, sreg, engine⟩ := rests.engine
    exact bare_step rests.rx (by simp [Twi.rxPorts, engine, driving])

/-- A controller at rest stays at rest. By induction on the cycles. -/
theorem resting_idle (n : Nat) (rests : Resting w l high events b) :
    Resting w l high events (b.idle w n) := by
  induction n with
  | zero => exact rests
  | succ n ih =>
    rw [idle_succ]
    exact resting_cycle ih

/-! ## A command in the FIFO -/

/-- A command has been written, and has not been taken yet. -/
structure Queued (w : World) (l : Listener) (word : BitVec 11) (high : Bool) (events : List Event)
    (b : Bench awidth) : Prop extends Waiting w l high events b where
  tx : b.twi.tx.Holds [word]
  shown : b.twi.tx.availO = true → b.twi.tx.rdataO = word
  rx : Bare b.twi.rx

/-- The engine has taken the command, and takes it out of the FIFO now. -/
structure Popped (w : World) (l : Listener) (word : BitVec 11) (high : Bool) (events : List Event)
    (b : Bench awidth) : Prop where
  ctrl : b.twi.ctrl = appCtrl
  engine : b.twi.engine =
    { driving (.ofCode (word.extractLsb' 9 2)) 0
        (word.extractLsb' 0 8 ++ BitVec.ofBool !(word.getLsbD 8)) high high with txRe := true }
  gen : b.twi.clkGen.phaseGen = oneHot 0
  genFf : b.twi.clkGen.phaseGenFf = oneHot 0
  silent : b.twi.clkGen.tick = false
  few : b.twi.clkGen.cnt.toNat ≤ 1
  tx : b.twi.tx.Holds [word]
  rx : Bare b.twi.rx
  telling : Telling w l { moved := high, events := events } b

/-- A buffer of one word that is neither read nor written shows the word in the next
cycle. -/
theorem shows_step {α : Type} {f : PrimFifo awidth α} {p : FifoPorts α} {word : α}
    (holds : f.Holds [word]) (keeps : p.clear = false) (unread : p.re = false) (unwritten : p.we = false) :
    (f.step p).Holds [word] ∧ (f.step p).availO = true ∧ (f.step p).rdataO = word := by
  have after := PrimFifo.step_holds p holds
  have same : PrimFifo.moved (2 ^ awidth) p [word] = [word] := by
    simp [PrimFifo.moved, keeps, unread, unwritten]
  rw [same] at after
  refine ⟨after, ?_⟩
  by_cases small : awidth = 0
  · exact ⟨by simp [PrimFifo.small_avail after small], PrimFifo.small_rdata after small⟩
  · exact ⟨by simp [PrimFifo.step_avail p holds small], PrimFifo.step_rdata p holds small⟩

/-- A command written to a controller at rest is in its buffer behind the cycle. -/
theorem resting_writes (rests : Resting w l high events b) (data : BitVec 32) :
    Queued w l (data.setWidth 11) high events (b.cycle w (.writeDcmd data)) := by
  obtain ⟨bitcnt, sreg, engine⟩ := rests.engine
  have pushed : PrimFifo.moved (2 ^ awidth) (b.twi.txPorts (.writeDcmd data)) [] =
      [data.setWidth 11] := by
    simp [PrimFifo.moved, Twi.txPorts, rests.ctrl, appCtrl]
  have tx := PrimFifo.step_holds (b.twi.txPorts (.writeDcmd data)) rests.tx.holds
  have shows := PrimFifo.step_shows (p := b.twi.txPorts (.writeDcmd data)) rests.tx.holds
    (by simp [Twi.txPorts, rests.ctrl, appCtrl]) (by simp [Twi.txPorts, engine, driving])
  rw [pushed] at tx shows
  refine ⟨waiting_cycle rests.toWaiting _ rests.ctrl (by rw [rests.tx.dark, Bool.false_and]), tx, ?_,
    bare_step rests.rx (by simp [Twi.rxPorts, engine, driving])⟩
  intro avail
  obtain ⟨rest, split⟩ := shows avail
  exact (List.head_eq_of_cons_eq split).symm

/-- The command is seen at the latest one cycle behind, and stays where it is until a
tick. -/
theorem queued_cycle (queued : Queued w l word high events b)
    (idle : (b.twi.tx.availO && b.twi.clkGen.tick) = false) :
    Queued w l word high events (b.cycle w .none) ∧ (b.cycle w .none).twi.tx.availO = true := by
  obtain ⟨bitcnt, sreg, engine⟩ := queued.engine
  obtain ⟨tx, avail, rdata⟩ := shows_step (p := b.twi.txPorts .none) queued.tx
    (by simp [Twi.txPorts, queued.ctrl, appCtrl]) (by simp [Twi.txPorts, engine, driving]) rfl
  exact ⟨⟨waiting_cycle queued.toWaiting .none queued.ctrl idle, tx, fun _ => rdata,
    bare_step queued.rx (by simp [Twi.rxPorts, engine, driving])⟩, avail⟩

/-- The tick at which the command is taken: the engine begins the operation and reads
the buffer. -/
theorem queued_pops (queued : Queued w l word high events b) (avail : b.twi.tx.availO = true)
    (ticks : b.twi.clkGen.tick = true) : Popped w l word high events (b.cycle w .none) := by
  obtain ⟨bitcnt, sreg, engine⟩ := queued.engine
  have zero := queued.spaced ticks
  obtain ⟨tick, cnt⟩ := cycle_clock (w := w) queued.ctrl .none
  have next : (b.cycle w .none).twi.engine =
      { driving (.ofCode (word.extractLsb' 9 2)) 0
          (word.extractLsb' 0 8 ++ BitVec.ofBool !(word.getLsbD 8)) high high with txRe := true } := by
    simp only [Bench.cycle, Twi.step, engine, queued.ctrl, appCtrl, avail, ticks, queued.shown avail]
    rfl
  refine ⟨queued.ctrl, next, ?_, queued.gen, ?_, ?_, ?_, ?_, ?_⟩
  · have free : (driving .nop bitcnt sreg high high).busy = false := by simp [Engine.busy, driving]
    simp only [Bench.cycle, Twi.step, ClkGen.next, engine, free]
    simp [oneHot]
  · rw [tick, zero]
    simp
  · rw [cnt, zero]
    split <;> decide
  · exact (shows_step queued.tx (by simp [Twi.txPorts, queued.ctrl, appCtrl])
      (by simp [Twi.txPorts, engine, driving]) rfl).1
  · exact bare_step queued.rx (by simp [Twi.rxPorts, engine, driving])
  · exact telling_less (telling_still .none queued.telling (by rw [next, engine]; rfl)
      (by rw [next, engine]; rfl)) fun _ member => absurd member List.not_mem_nil

/-- A command that has just been taken stands while there is no phase. -/
theorem popped_still {op : TwiOp} {bitcnt : BitVec 4} {sreg : BitVec 9} (working : op ≠ .nop)
    {phase : Nat → Bool} (still : ∀ k, phase k = false) (txAvail tick sample : Bool)
    (txRdata : BitVec 11) :
    ({ driving op bitcnt sreg high high with txRe := true } : Engine).next true txAvail txRdata tick
      phase sample = driving op bitcnt sreg high high := by
  cases op with
  | nop => exact absurd rfl working
  | _ => simp [Engine.next, driving, still]

/-- The operation begins two cycles behind, with its first phase standing and the buffer
empty. -/
theorem popped_works (popped : Popped w l word high events b)
    (working : TwiOp.ofCode (word.extractLsb' 9 2) ≠ .nop) :
    Busy b ∧ Busy (b.cycle w .none) ∧
      Working w l 0 (.ofCode (word.extractLsb' 9 2)) 0
        (word.extractLsb' 0 8 ++ BitVec.ofBool !(word.getLsbD 8)) high high
        { moved := high, events := events } (b.idle w 2) := by
  have now : Busy b := by
    simp [Busy, Twi.ctrlBusy, popped.engine, Engine.busy, driving, working]
  have engine : (b.cycle w .none).twi.engine = driving (.ofCode (word.extractLsb' 9 2)) 0
      (word.extractLsb' 0 8 ++ BitVec.ofBool !(word.getLsbD 8)) high high := by
    simp only [Bench.cycle, Twi.step, popped.engine, popped.ctrl, appCtrl]
    exact popped_still working (phase_still _ (popped.gen.trans popped.genFf.symm)) _ _ _ _
  have telling : Telling w l { moved := high, events := events } (b.cycle w .none) :=
    telling_less (telling_still .none popped.telling (by rw [engine, popped.engine])
      (by rw [engine, popped.engine])) fun _ member => absurd member List.not_mem_nil
  have gen : (b.cycle w .none).twi.clkGen.phaseGen = oneHot 0 := by
    simp only [Bench.cycle, Twi.step, ClkGen.next, popped.ctrl, appCtrl, popped.silent, popped.gen,
      Bool.false_and, Bool.false_eq_true, if_false]
    split <;> rfl
  have tx : (b.cycle w .none).twi.tx.Holds [] := by
    have after := PrimFifo.step_holds (b.twi.txPorts .none) popped.tx
    have taken : PrimFifo.moved (2 ^ awidth) (b.twi.txPorts .none) [word] = [] := by
      simp [PrimFifo.moved, Twi.txPorts, popped.ctrl, appCtrl, popped.engine]
    rw [taken] at after
    exact after
  have rx : Bare (b.cycle w .none).twi.rx :=
    bare_step popped.rx (by simp [Twi.rxPorts, popped.engine, driving])
  -- the counter cannot come round in these two cycles
  obtain ⟨silent, few⟩ := cycle_few popped.ctrl popped.few (by decide)
  obtain ⟨silent', -⟩ := cycle_few (b := b.cycle w .none) popped.ctrl few (by decide)
  obtain ⟨engine', gen', telling'⟩ :=
    phase_cycle (b := b.cycle w .none) working popped.ctrl engine gen popped.gen telling
  rw [silent] at gen'
  refine ⟨now, busy_driving working engine, popped.ctrl, engine', gen', gen, ?_, holds_bare tx rfl,
    bare_step rx (by simp [Twi.rxPorts, engine, driving]),
    telling_less telling' fun _ member => absurd member List.not_mem_nil, ?_⟩
  · intro ticks
    exact absurd (silent'.symm.trans ticks) Bool.false_ne_true
  · intro ticks
    exact absurd (silent'.symm.trans ticks) Bool.false_ne_true

/-- A command that has been written: it is in the FIFO for the engine to see, or taken. -/
def Pending (w : World) (l : Listener) (word : BitVec 11) (high : Bool) (events : List Event)
    (b : Bench awidth) : Prop :=
  (Queued w l word high events b ∧ b.twi.tx.availO = true) ∨ Popped w l word high events b

/-- A write access leaves the command pending, to be seen or taken already. -/
theorem resting_pending (rests : Resting w l high events b) (data : BitVec 32) :
    Pending w l (data.setWidth 11) high events ((b.cycle w (.writeDcmd data)).cycle w .none) := by
  have queued := resting_writes rests data
  by_cases taken : ((b.cycle w (.writeDcmd data)).twi.tx.availO &&
      (b.cycle w (.writeDcmd data)).twi.clkGen.tick) = true
  · rw [Bool.and_eq_true] at taken
    exact Or.inr (queued_pops queued taken.1 taken.2)
  · exact Or.inl (queued_cycle queued (Bool.eq_false_iff.mpr taken))

/-- A pending command begins at the next tick, and the controller is busy until then. -/
theorem pending_works (recurs : w.Recurs) (working : TwiOp.ofCode (word.extractLsb' 9 2) ≠ .nop)
    (pending : Pending w l word high events b) :
    Eventually (Bench.cycle w .none) Busy
      (Working w l 0 (.ofCode (word.extractLsb' 9 2)) 0
        (word.extractLsb' 0 8 ++ BitVec.ofBool !(word.getLsbD 8)) high high
        { moved := high, events := events }) b := by
  have popped : ∀ b : Bench awidth, Popped w l word high events b → Eventually (Bench.cycle w .none)
      Busy (Working w l 0 (.ofCode (word.extractLsb' 9 2)) 0
        (word.extractLsb' 0 8 ++ BitVec.ofBool !(word.getLsbD 8)) high high
        { moved := high, events := events }) b := by
    intro b popped
    obtain ⟨now, next, works⟩ := popped_works popped working
    exact eventually_next now (eventually_next next (eventually_now works))
  rcases pending with ⟨queued, avail⟩ | taken
  · have lit : ∀ b : Bench awidth, b.twi.tx.availO = true → Busy b := by
      intro b avail
      simp [Busy, Twi.ctrlBusy, avail]
    have ticks : Eventually (Bench.cycle w .none) Busy (fun b =>
        (Queued w l word high events b ∧ b.twi.tx.availO = true) ∧ b.twi.clkGen.tick = true) b :=
      eventually_trigger ⟨queued, avail⟩
        (fun _ held silent => queued_cycle held.1 (by rw [Bool.eq_false_iff.mpr silent, Bool.and_false]))
        (fun b held => lit b held.2) (tick_comes recurs queued.ctrl)
    refine eventually_then ticks ?_
    rintro b ⟨⟨queued, avail⟩, ticks⟩
    exact eventually_next (lit b avail) (popped _ (queued_pops queued avail ticks))
  · exact popped b taken

/-! ## An answer in the FIFO -/

/-- The answer is there to be read. -/
structure Answered (w : World) (l : Listener) (answer : BitVec 9) (events : List Event)
    (b : Bench awidth) : Prop extends Waiting w l false events b where
  tx : Bare b.twi.tx
  rx : b.twi.rx.Holds [answer]
  avail : b.twi.rx.availO = true
  rdata : b.twi.rx.rdataO = answer

/-- What the engine writes: the last sample behind the others. -/
def answerOf (sreg : BitVec 9) : BitVec 9 :=
  BitVec.ofBool (sreg.getLsbD 0) ++ sreg.extractLsb' 1 8

/-- The last phase of a transmission leaves the answer in the register, from where it is
written to the buffer. -/
theorem turned_answers {sreg : BitVec 9} {sda : Bool}
    (turned : Turned w l 0 (driving .rtx 9 sreg false sda) { moved := false, events := events } b) :
    b.twi.engine = { driving .nop 9 sreg false false with rxWe := true } ∧
      Telling w l { moved := false, events := events } b := by
  obtain ⟨sample, before, engine, scl, -, moved, said, -, hears⟩ := turned.stepped
  have last : b.twi.engine = { driving .nop 9 sreg false false with rxWe := true } := engine
  have low : (b.level w).scl = false := by rw [Bench.level, last]; rfl
  obtain ⟨moved', said'⟩ := Listener.hear_low scl low
  refine ⟨last, ?_, ?_, ?_, ?_, ?_, turned.recorded⟩
  · rw [hears, Listener.hear_scl]
    rfl
  · rw [hears, Listener.hear_sda]
    rfl
  · rw [hears]
    exact moved'.trans moved
  · rw [hears]
    exact said'.trans said
  · intro pulse
    rw [last] at pulse
    exact absurd pulse Bool.false_ne_true

/-- Two cycles later the answer is at the read port, and the controller waits. -/
theorem turned_answered {sreg : BitVec 9} {sda : Bool}
    (turned : Turned w l 0 (driving .rtx 9 sreg false sda) { moved := false, events := events } b) :
    ¬ Busy b ∧ ¬ Busy (b.cycle w .none) ∧
      Answered w l (answerOf sreg) events (b.idle w 2) := by
  obtain ⟨engine, telling⟩ := turned_answers turned
  have dark : (b.twi.tx.availO && b.twi.clkGen.tick) = false := by rw [turned.tx.dark, Bool.false_and]
  obtain ⟨⟨bitcnt, shifted, next⟩, gen, telling'⟩ := nop_cycle .none turned.ctrl (by rw [engine]; rfl)
    (by rw [engine]; rfl) dark telling
  rw [engine] at next
  have tx : Bare (b.cycle w .none).twi.tx := bare_step turned.tx rfl
  have dark' : ((b.cycle w .none).twi.tx.availO && (b.cycle w .none).twi.clkGen.tick) = false := by
    rw [tx.dark, Bool.false_and]
  obtain ⟨⟨bitcnt', shifted', next'⟩, gen', telling''⟩ := nop_cycle .none
    (show (b.cycle w .none).twi.ctrl = appCtrl from turned.ctrl) (by rw [next]; rfl) (by rw [next]; rfl)
    dark' telling'
  rw [next] at next'
  have rx : (b.cycle w .none).twi.rx.Holds [answerOf sreg] := by
    have after := PrimFifo.step_holds (b.twi.rxPorts .none) turned.rx.holds
    have room : 0 < 2 ^ awidth := Nat.two_pow_pos awidth
    have pushed : PrimFifo.moved (2 ^ awidth) (b.twi.rxPorts .none) [] = [answerOf sreg] := by
      simp [PrimFifo.moved, Twi.rxPorts, turned.ctrl, appCtrl, engine, driving, answerOf]
    rw [pushed] at after
    exact after
  obtain ⟨rx', avail, rdata⟩ := shows_step (p := (b.cycle w .none).twi.rxPorts .none) rx
    (by simp [Twi.rxPorts, show (b.cycle w .none).twi.ctrl = appCtrl from turned.ctrl, appCtrl]) rfl
    (by simp [Twi.rxPorts, next, driving])
  refine ⟨?_, ?_, ⟨turned.ctrl, ⟨_, _, next'⟩, gen', gen,
    cycle_spaced (b := b.cycle w .none) turned.ctrl .none, telling''⟩, bare_step tx rfl, rx', avail, rdata⟩
  · simp [Busy, Twi.ctrlBusy, engine, Engine.busy, driving, turned.tx.dark]
  · simp [Busy, Twi.ctrlBusy, next, Engine.busy, driving, tx.dark]

/-- An answer that is not read stays for another cycle. -/
theorem answered_cycle (answered : Answered w l answer events b) :
    Answered w l answer events (b.cycle w .none) := by
  obtain ⟨bitcnt, sreg, engine⟩ := answered.engine
  obtain ⟨rx, avail, rdata⟩ := shows_step (p := b.twi.rxPorts .none) answered.rx
    (by simp [Twi.rxPorts, answered.ctrl, appCtrl]) rfl (by simp [Twi.rxPorts, engine, driving])
  exact ⟨waiting_cycle answered.toWaiting .none answered.ctrl (by rw [answered.tx.dark, Bool.false_and]),
    bare_step answered.tx rfl, rx, avail, rdata⟩

/-- An answer that is not read stays. By induction on the cycles. -/
theorem answered_idle (n : Nat) (answered : Answered w l answer events b) :
    Answered w l answer events (b.idle w n) := by
  induction n with
  | zero => exact answered
  | succ n ih =>
    rw [idle_succ]
    exact answered_cycle ih

/-- Once it has been read, the controller is at rest: the buffer is empty again. -/
theorem answered_reads (answered : Answered w l answer events b) :
    Resting w l false events ((b.cycle w .readDcmd).cycle w .none) := by
  obtain ⟨bitcnt, sreg, engine⟩ := answered.engine
  have dark : (b.twi.tx.availO && b.twi.clkGen.tick) = false := by rw [answered.tx.dark, Bool.false_and]
  have waiting := waiting_cycle answered.toWaiting .readDcmd answered.ctrl dark
  obtain ⟨bitcnt', sreg', engine'⟩ := waiting.engine
  have tx : Bare (b.cycle w .readDcmd).twi.tx := bare_step answered.tx rfl
  have rx : (b.cycle w .readDcmd).twi.rx.Holds [] := by
    have after := PrimFifo.step_holds (b.twi.rxPorts .readDcmd) answered.rx
    have taken : PrimFifo.moved (2 ^ awidth) (b.twi.rxPorts .readDcmd) [answer] = [] := by
      simp [PrimFifo.moved, Twi.rxPorts, answered.ctrl, appCtrl, engine, driving]
    rw [taken] at after
    exact after
  exact ⟨waiting_cycle waiting .none waiting.ctrl (by rw [tx.dark, Bool.false_and]), bare_step tx rfl,
    holds_bare rx (by simp [Twi.rxPorts, engine', driving])⟩

end

end NeoSfp
