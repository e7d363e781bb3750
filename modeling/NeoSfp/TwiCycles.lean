import NeoSfp.Reaching
import NeoSfp.Twi

/-!
# Cycles of the controller

What a clock cycle does to a configured controller: the clock comes round again and
again, a phase of an operation stands until it does, and then its step is taken two
cycles later.
-/

namespace NeoSfp

open Checked TwoWire Reaching

/-- The configuration the application makes: prescaler 2048, divider 15, no stretching. -/
def appCtrl : TwiCtrl := { enable := true, prsc := 6, cdiv := 15, clkstr := false }

/-- The prescaled clock enable comes again and again. -/
def World.Recurs (w : World) : Prop := ∀ t, ∃ t' ≥ t, (w.clkgen t').getLsbD 6 = true

section

variable {awidth : Nat} {w : World} {b : Bench awidth}

/-! ## The clock -/

/-- One more cycle without a request is a cycle behind the others. -/
theorem idle_succ (n : Nat) (b : Bench awidth) : b.idle w (n + 1) = (b.idle w n).cycle w .none :=
  Function.iterate_succ_apply' _ _ _

/-- Cycles without a request in two parts. By induction on the second. -/
theorem idle_add (m n : Nat) (b : Bench awidth) : b.idle w (m + n) = (b.idle w n).idle w m :=
  Function.iterate_add_apply _ _ _ _

/-- Every cycle advances the clock by one. -/
theorem idle_now (n : Nat) (b : Bench awidth) : (b.idle w n).now = b.now + n := by
  induction n with
  | zero => rfl
  | succ n ih =>
    rw [idle_succ]
    exact congrArg (· + 1) ih

/-- Without a request the configuration stays as it is. -/
theorem idle_ctrl (n : Nat) (b : Bench awidth) : (b.idle w n).twi.ctrl = b.twi.ctrl := by
  induction n with
  | zero => rfl
  | succ n ih =>
    rw [idle_succ]
    exact ih

/-- A cycle of the configured clock: where it is enabled the counter moves, and it ticks
when the counter is at its end. -/
theorem cycle_clock (ctrl : b.twi.ctrl = appCtrl) (req : BusReq) :
    ((b.cycle w req).twi.clkGen.tick = ((w.clkgen b.now).getLsbD 6 && b.twi.clkGen.cnt == 15)) ∧
    (b.cycle w req).twi.clkGen.cnt =
      if (w.clkgen b.now).getLsbD 6 then b.twi.clkGen.cnt + 1 else b.twi.clkGen.cnt := by
  have six : (6 : BitVec 3).toNat = 6 := rfl
  constructor
  · simp [Bench.cycle, Twi.step, ClkGen.next, ctrl, appCtrl]
  · simp only [Bench.cycle, Twi.step, ClkGen.next, ctrl, appCtrl, six, Bool.not_true,
      Bool.false_eq_true, if_false]
    split
    · split
      case isTrue last => rw [last]; rfl
      case isFalse => rfl
    · rfl

/-- While the clock is not enabled the counter stands. By induction on the cycles. -/
theorem waiting_cnt (ctrl : b.twi.ctrl = appCtrl) (n : Nat)
    (still : ∀ m < n, (w.clkgen (b.now + m)).getLsbD 6 = false) :
    (b.idle w n).twi.clkGen.cnt = b.twi.clkGen.cnt := by
  induction n with
  | zero => rfl
  | succ n ih =>
    have before := ih fun m below => still m (by omega)
    have configured : (b.idle w n).twi.ctrl = appCtrl := (idle_ctrl n b).trans ctrl
    have step := (cycle_clock (w := w) configured .none).2
    rw [idle_now, still n (Nat.lt_succ_self n)] at step
    rw [idle_succ, step]
    exact before

/-- The next cycle with the clock enabled, in front of which nothing is counted. -/
theorem enable_comes (recurs : w.Recurs) (ctrl : b.twi.ctrl = appCtrl) :
    ∃ n, (w.clkgen (b.idle w n).now).getLsbD 6 = true ∧
      (b.idle w n).twi.clkGen.cnt = b.twi.clkGen.cnt := by
  have comes : ∃ n, (w.clkgen (b.now + n)).getLsbD 6 = true := by
    obtain ⟨t, later, enabled⟩ := recurs b.now
    exact ⟨t - b.now, by rwa [Nat.add_sub_cancel' later]⟩
  refine ⟨Nat.find comes, ?_, ?_⟩
  · rw [idle_now]
    exact Nat.find_spec comes
  · apply waiting_cnt ctrl
    intro m before
    exact Bool.eq_false_iff.mpr (Nat.find_min comes before)

/-- The clock ticks some time. By induction on what is left of the count, with one
enabled cycle for each step. -/
theorem tick_comes (recurs : w.Recurs) (ctrl : b.twi.ctrl = appCtrl) :
    ∃ n, (b.idle w n).twi.clkGen.tick = true := by
  -- by induction on what the counter still has to count
  generalize left : 15 - b.twi.clkGen.cnt.toNat = count
  induction count generalizing b with
  | zero =>
    obtain ⟨n, enabled, same⟩ := enable_comes recurs ctrl
    have last : b.twi.clkGen.cnt = 15 := by
      apply BitVec.eq_of_toNat_eq
      have small := b.twi.clkGen.cnt.isLt
      change _ = 15
      omega
    have configured : (b.idle w n).twi.ctrl = appCtrl := (idle_ctrl n b).trans ctrl
    refine ⟨n + 1, ?_⟩
    rw [idle_succ, (cycle_clock configured .none).1, enabled, same, last]
    rfl
  | succ count ih =>
    obtain ⟨n, enabled, same⟩ := enable_comes recurs ctrl
    have configured : (b.idle w n).twi.ctrl = appCtrl := (idle_ctrl n b).trans ctrl
    have counted := (cycle_clock (w := w) configured .none).2
    rw [enabled, if_pos rfl, same, ← idle_succ] at counted
    have one : (b.twi.clkGen.cnt + 1).toNat = b.twi.clkGen.cnt.toNat + 1 := by
      have below : b.twi.clkGen.cnt.toNat + 1 < 2 ^ 4 := by omega
      rw [BitVec.toNat_add]
      exact Nat.mod_eq_of_lt below
    obtain ⟨m, ticks⟩ := ih (b := b.idle w (n + 1)) ((idle_ctrl _ b).trans ctrl) (by
      rw [counted, one]
      omega)
    exact ⟨m + (n + 1), by rwa [idle_add]⟩

/-! ## The FIFOs -/

/-- Empty, and its read port shows it. -/
structure Bare {α : Type} (f : PrimFifo awidth α) : Prop where
  holds : f.Holds []
  dark : f.availO = false

/-- An empty buffer that is not written shows nothing in the next cycle. -/
theorem holds_bare {α : Type} {f : PrimFifo awidth α} {p : FifoPorts α} (holds : f.Holds [])
    (unwritten : p.we = false) : Bare (f.step p) := by
  have kept : PrimFifo.moved (2 ^ awidth) p [] = [] := by
    simp [PrimFifo.moved, unwritten]
  have after := PrimFifo.step_holds p holds
  rw [kept] at after
  refine ⟨after, ?_⟩
  by_cases small : awidth = 0
  · simp [PrimFifo.small_avail after small]
  · simp [PrimFifo.step_avail p holds small]

/-- An empty buffer stays bare while nothing is written. -/
theorem bare_step {α : Type} {f : PrimFifo awidth α} {p : FifoPorts α} (bare : Bare f)
    (unwritten : p.we = false) : Bare (f.step p) := holds_bare bare.holds unwritten

/-! ## The engine -/

/-- The engine in an operation or between two, with nothing to read or write. -/
def driving (op : TwiOp) (bitcnt : BitVec 4) (sreg : BitVec 9) (scl sda : Bool) : Engine :=
  { online := true, op := op, bitcnt := bitcnt, sreg := sreg, txRe := false, rxWe := false,
    sdaOut := sda, sclOut := scl }

/-- What the engine does in a phase. -/
def Engine.act (e : Engine) (i : Fin 4) (sample : Bool) : Engine :=
  e.next true false 0 false (fun k => k == i) sample

variable {op : TwiOp} {bitcnt : BitVec 4} {sreg : BitVec 9} {scl sda : Bool}

/-- In an operation the engine shows that it is busy. -/
theorem driving_busy (working : op ≠ .nop) : (driving op bitcnt sreg scl sda).busy = true := by
  simp [Engine.busy, driving, working]

/-- Without a phase the engine stands, whatever else it sees. -/
theorem next_still (working : op ≠ .nop) {phase : Nat → Bool} (still : ∀ k, phase k = false)
    (txAvail : Bool) (txRdata : BitVec 11) (tick sample : Bool) :
    (driving op bitcnt sreg scl sda).next true txAvail txRdata tick phase sample =
      driving op bitcnt sreg scl sda := by
  cases op with
  | nop => exact absurd rfl working
  | _ => simp [Engine.next, driving, still]

/-- In a phase the engine does what the phase asks for, and nothing else. -/
theorem next_act (working : op ≠ .nop) {phase : Nat → Bool} {i : Fin 4} (only : ∀ k, phase k = (k == i))
    (txAvail : Bool) (txRdata : BitVec 11) (tick sample : Bool) :
    (driving op bitcnt sreg scl sda).next true txAvail txRdata tick phase sample =
      (driving op bitcnt sreg scl sda).act i sample := by
  have same : phase = fun k => k == i.val := funext only
  cases op with
  | nop => exact absurd rfl working
  | _ => rw [same]; rfl

/-! ## Phases -/

def oneHot (i : Fin 4) : BitVec 4 := 1#4 <<< i.val

/-- Rotating the generator leads to the next phase, and from the last one to the
first. -/
theorem oneHot_rotate (i : Fin 4) : (oneHot i).rotateLeft 1 = oneHot (i + 1) := by
  revert i
  decide

/-- While the generator stands there is no phase, because a phase is the change of one
of its bits. -/
theorem phase_still (g : ClkGen) (still : g.phaseGen = g.phaseGenFf) (k : Nat) : g.phase k = false := by
  rw [ClkGen.phase, still, Bool.and_not_self]

/-- A cycle behind its step there is the one phase, as the bit that has changed
shows. -/
theorem phase_only (g : ClkGen) (i : Fin 4) (gen : g.phaseGen = oneHot (i + 1))
    (genFf : g.phaseGenFf = oneHot i) (k : Nat) : g.phase k = (k == i.val) := by
  rw [ClkGen.phase, gen, genFf]
  by_cases inside : k < 4
  · have all : ∀ i k : Fin 4, ((oneHot i).getLsbD k.val && !(oneHot (i + 1)).getLsbD k.val) =
        (k.val == i.val) := by decide
    exact all i ⟨k, inside⟩
  · have high : (oneHot i).getLsbD k = false := BitVec.getLsbD_of_ge _ _ (by omega)
    have other : ¬ k = i.val := by omega
    rw [high, Bool.false_and, beq_eq_false_iff_ne.mpr other]

end

end NeoSfp
