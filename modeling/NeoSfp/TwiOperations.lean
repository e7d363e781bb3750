import NeoSfp.TwiPhases

/-!
# Operations of the controller

Each operation is a sequence of phases: four for a start or a stop, four for every bit
of a transmission. Whatever the timing, a listener is told exactly the operation, and
what a transmission has sampled are levels of the data line during its pulses.
-/

namespace NeoSfp

open Checked TwoWire Reaching

/-- Exchanged driven and levels received, pulse by pulse. -/
inductive Exchanged : List Bool → List Bool → List Event → Prop where
  | nil : Exchanged [] [] []
  | cons (driven got : Bool) (seen : List Bool) {sent received : List Bool} {events : List Event}
      (sampled : got ∈ seen) (rest : Exchanged sent received events) :
      Exchanged (driven :: sent) (got :: received) (.bit driven seen :: events)

/-- The same on the data line itself: a pulse carries the level received, which can be high
only if it has been driven high. -/
inductive Conveyed : List Bool → List Bool → List Event → Prop where
  | nil : Conveyed [] [] []
  | cons (driven got : Bool) (seen : List Bool) {sent received : List Bool} {events : List Event}
      (below : got = true → driven = true) (steady : ∀ level ∈ seen, level = got)
      (rest : Conveyed sent received events) :
      Conveyed (driven :: sent) (got :: received) (.bit got seen :: events)

/-- The pulses of a transfer, seen on the lines. By induction on them: the level that has
been sampled in a pulse is the one that the line had all through it. -/
theorem exchanged_onLines {sent received : List Bool} {pulses events lines : List Event}
    (exchanged : Exchanged sent received pulses) (seen : List.Forall₂ OnLines (pulses ++ events) lines) :
    ∃ pulses' rest, lines = pulses' ++ rest ∧ Conveyed sent received pulses' ∧
      List.Forall₂ OnLines events rest := by
  induction exchanged generalizing lines with
  | nil => exact ⟨[], lines, rfl, .nil, seen⟩
  | @cons driven got levels _ _ _ sampled _ ih =>
    cases seen with
    | cons here behind =>
      obtain ⟨pulses', rest, rfl, carried, same⟩ := ih behind
      cases here with
      | bit _ level _ levels' below steady steady' =>
        obtain rfl := steady got sampled
        exact ⟨_ :: pulses', rest, rfl, .cons _ _ _ below steady' carried, same⟩

section

variable {awidth : Nat} {w : World} {l : Listener} {b : Bench awidth} {bitcnt : BitVec 4}
  {sreg : BitVec 9} {scl sda high : Bool} {events : List Event} {kept : List Bool}

/-- Between two operations, on a bus that is free or claimed; the FIFOs may hold anything. -/
structure Waiting (w : World) (l : Listener) (high : Bool) (events : List Event) (b : Bench awidth) :
    Prop where
  ctrl : b.twi.ctrl = appCtrl
  engine : ∃ bitcnt sreg, b.twi.engine = driving .nop bitcnt sreg high high
  gen : b.twi.clkGen.phaseGen = oneHot 0
  genFf : b.twi.clkGen.phaseGenFf = oneHot 0
  spaced : b.twi.clkGen.tick = true → b.twi.clkGen.cnt = 0
  telling : Telling w l { moved := high, events := events } b

/-- With nothing left to do. -/
structure Resting (w : World) (l : Listener) (high : Bool) (events : List Event) (b : Bench awidth) :
    Prop extends Waiting w l high events b where
  tx : Bare b.twi.tx
  rx : Bare b.twi.rx

/-- Between two operations, with both lines released, the controller has nothing left to
do. -/
theorem working_rests (stands : Working w l 0 .nop bitcnt sreg high high
    { moved := high, events := events, kept := kept } b) : Resting w l high events b where
  ctrl := stands.ctrl
  engine := ⟨_, _, stands.engine⟩
  gen := stands.gen
  genFf := stands.genFf
  spaced := stands.spaced
  telling := telling_less stands.telling fun _ member => absurd member List.not_mem_nil
  tx := stands.tx
  rx := stands.rx

/-! ## The steps of the phases -/

variable (sample : Bool)

/-- The first phase of a start releases both lines. -/
theorem start_first : (driving .start bitcnt sreg scl sda).act 0 sample =
    driving .start bitcnt sreg true true := rfl

/-- The second phase of a start leaves the lines as they are. -/
theorem start_second : (driving .start bitcnt sreg scl sda).act 1 sample =
    driving .start bitcnt sreg scl sda := rfl

/-- The third phase of a start pulls the data line down under a high clock, which is the
start itself. -/
theorem start_third : (driving .start bitcnt sreg scl sda).act 2 sample =
    driving .start bitcnt sreg scl false := rfl

/-- The last phase of a start pulls the clock down and ends the operation. -/
theorem start_last : (driving .start bitcnt sreg scl sda).act 3 sample =
    driving .nop bitcnt sreg false sda := rfl

/-- The first phase of a stop pulls both lines down. -/
theorem stop_first : (driving .stop bitcnt sreg scl sda).act 0 sample =
    driving .stop bitcnt sreg false false := rfl

/-- The second phase of a stop releases the clock. -/
theorem stop_second : (driving .stop bitcnt sreg scl sda).act 1 sample =
    driving .stop bitcnt sreg true sda := rfl

/-- The third phase of a stop leaves the lines as they are. -/
theorem stop_third : (driving .stop bitcnt sreg scl sda).act 2 sample =
    driving .stop bitcnt sreg scl sda := rfl

/-- The last phase of a stop releases the data line under a high clock, which is the
stop itself, and ends the operation. -/
theorem stop_last : (driving .stop bitcnt sreg scl sda).act 3 sample =
    driving .nop bitcnt sreg scl true := rfl

/-- The first phase of a bit puts it on the data line under a low clock, as long as one
is left. -/
theorem rtx_first (notLast : bitcnt ≠ 0b1001) : (driving .rtx bitcnt sreg scl sda).act 0 sample =
    driving .rtx bitcnt sreg false (sreg.getLsbD 8) := by
  have other : ¬ bitcnt = 9#4 := notLast
  simp [Engine.act, Engine.next, driving, other]

/-- The second phase of a bit releases the clock. -/
theorem rtx_second : (driving .rtx bitcnt sreg scl sda).act 1 sample =
    driving .rtx bitcnt sreg true sda := by
  simp [Engine.act, Engine.next, driving]

/-- The third phase of a bit samples the data line into the register. -/
theorem rtx_third : (driving .rtx bitcnt sreg scl sda).act 2 sample =
    driving .rtx bitcnt (sreg.shiftConcat sample) scl sda := by
  simp [Engine.act, Engine.next, driving]

/-- The fourth phase of a bit pulls the clock down and counts the bit. -/
theorem rtx_fourth : (driving .rtx bitcnt sreg scl sda).act 3 sample =
    driving .rtx (bitcnt + 1) sreg false sda := by
  simp [Engine.act, Engine.next, driving]

/-! ## Start and stop -/

/-- A start takes its four phases, and a listener hears a start. It hears nothing else,
because the data line moves once while the clock is high. -/
theorem start_runs (recurs : w.Recurs)
    (stands : Working w l 0 .start bitcnt sreg high high { moved := high, events := events } b) :
    Eventually (Bench.cycle w .none) Busy (Resting w l false (events ++ [.start])) b := by
  have working : TwiOp.start ≠ .nop := by decide
  refine eventually_then (working_passes recurs working stands) ?_
  intro b turned
  have released : ∃ kept, Working w l 1 .start bitcnt sreg true true
      { moved := high, events := events, kept := kept } b := by
    cases high with
    | true =>
      obtain ⟨_, stands⟩ := turned_still turned start_first
      exact ⟨_, stands⟩
    | false =>
      obtain ⟨_, stands⟩ := turned_rise turned start_first
      exact ⟨_, stands⟩
  obtain ⟨_, stands⟩ := released
  refine eventually_then (working_passes recurs working stands) ?_
  intro b turned
  obtain ⟨_, stands⟩ := turned_still turned start_second
  refine eventually_then (working_passes recurs working stands) ?_
  intro b turned
  obtain ⟨_, stands⟩ := turned_move turned start_third (by decide)
  refine eventually_weaken (working_passes recurs working stands) ?_
  intro b turned
  obtain ⟨_, _, _, stands⟩ := turned_fall turned start_last
  exact working_rests stands

/-- A stop takes its four phases, and a listener hears a stop. -/
theorem stop_runs (recurs : w.Recurs)
    (stands : Working w l 0 .stop bitcnt sreg high high { moved := high, events := events } b) :
    Eventually (Bench.cycle w .none) Busy (Resting w l true (events ++ [.stop])) b := by
  have working : TwiOp.stop ≠ .nop := by decide
  refine eventually_then (working_passes recurs working stands) ?_
  intro b turned
  have claimed : Working w l 1 .stop bitcnt sreg false false { moved := false, events := events } b := by
    cases high with
    | true =>
      obtain ⟨_, _, _, stands⟩ := turned_fall turned stop_first
      exact stands
    | false =>
      obtain ⟨_, stands⟩ := turned_still turned stop_first
      exact stands
  refine eventually_then (working_passes recurs working claimed) ?_
  intro b turned
  obtain ⟨_, stands⟩ := turned_rise turned stop_second
  refine eventually_then (working_passes recurs working stands) ?_
  intro b turned
  obtain ⟨_, stands⟩ := turned_still turned stop_third
  refine eventually_weaken (working_passes recurs working stands) ?_
  intro b turned
  obtain ⟨_, stands⟩ := turned_move turned stop_last (by decide)
  exact working_rests stands

/-! ## Transmission -/

/-- One bit: it is put out under a low clock, and the line is sampled during the pulse. -/
theorem bit_runs (recurs : w.Recurs) (notLast : bitcnt ≠ 0b1001)
    (stands : Working w l 0 .rtx bitcnt sreg scl sda { moved := scl, events := events } b) :
    Eventually (Bench.cycle w .none) Busy (fun b => ∃ sample seen, sample ∈ seen ∧
      Working w l 0 .rtx (bitcnt + 1) (sreg.shiftConcat sample) false (sreg.getLsbD 8)
        { moved := false, events := events ++ [.bit (sreg.getLsbD 8) seen] } b) b := by
  have working : TwiOp.rtx ≠ .nop := by decide
  refine eventually_then (working_passes recurs working stands) ?_
  intro b turned
  have put : Working w l 1 .rtx bitcnt sreg false (sreg.getLsbD 8)
      { moved := false, events := events } b := by
    cases scl with
    | true =>
      obtain ⟨_, _, _, stands⟩ := turned_fall turned fun sample => rtx_first sample notLast
      exact stands
    | false =>
      obtain ⟨_, stands⟩ := turned_low turned fun sample => rtx_first sample notLast
      exact stands
  refine eventually_then (working_passes recurs working put) ?_
  intro b turned
  obtain ⟨_, stands⟩ := turned_rise turned rtx_second
  refine eventually_then (working_passes recurs working stands) ?_
  intro b turned
  obtain ⟨sample, stands⟩ := turned_still turned rtx_third
  refine eventually_weaken (working_passes recurs working stands) ?_
  intro b turned
  obtain ⟨_, seen, within, stands⟩ := turned_fall turned rtx_fourth
  exact ⟨sample, seen, within sample List.mem_cons_self, stands⟩

/-- The bits of a register that are put out, the highest one first. -/
def leading (n : Nat) (sreg : BitVec 9) : List Bool := (List.range n).map fun k => sreg.getLsbD (8 - k)

/-- The bits put out are the highest one and then those of the register behind the
shift. -/
theorem leading_succ (n : Nat) (sreg : BitVec 9) (sample : Bool) (room : n ≤ 8) :
    leading (n + 1) sreg = sreg.getLsbD 8 :: leading n (sreg.shiftConcat sample) := by
  rw [leading, List.range_succ_eq_map, List.map_cons, List.map_map, leading]
  congr 1
  apply List.map_congr_left
  intro k member
  have below : k < 8 := Nat.lt_of_lt_of_le (List.mem_range.mp member) room
  have inside : 8 - k < 9 := by omega
  have positive : ¬ 8 - k = 0 := by omega
  rw [Function.comp_apply, BitVec.getLsbD_shiftConcat, decide_eq_true inside, Bool.true_and,
    if_neg positive, Nat.sub_sub]

/-- Several bits are put out one after another, and as many levels are received. By
induction on how many are left. -/
theorem bits_run (recurs : w.Recurs) (n : Nat) (room : bitcnt.toNat + n ≤ 9) (less : n ≤ 9)
    (stands : Working w l 0 .rtx bitcnt sreg scl sda { moved := scl, events := events } b)
    (some : 0 < n) :
    Eventually (Bench.cycle w .none) Busy (fun b => ∃ samples told sda',
      Exchanged (leading n sreg) samples told ∧
      Working w l 0 .rtx (bitcnt + BitVec.ofNat 4 n) (samples.foldl BitVec.shiftConcat sreg) false sda'
        { moved := false, events := events ++ told } b) b := by
  induction n generalizing b bitcnt sreg scl sda events with
  | zero => exact absurd some (Nat.lt_irrefl 0)
  | succ n ih =>
    have notLast : bitcnt ≠ 0b1001 := by
      rintro rfl
      have nine : (0b1001 : BitVec 4).toNat = 9 := rfl
      omega
    refine eventually_then (bit_runs recurs notLast stands) ?_
    rintro b ⟨sample, seen, sampled, stands⟩
    cases n with
    | zero =>
      refine eventually_now ⟨[sample], [.bit (sreg.getLsbD 8) seen], _, ?_, stands⟩
      exact Exchanged.cons _ sample seen sampled Exchanged.nil
    | succ n =>
      have counted : (bitcnt + 1).toNat = bitcnt.toNat + 1 := by
        have below : bitcnt.toNat + 1 < 2 ^ 4 := by omega
        rw [BitVec.toNat_add]
        exact Nat.mod_eq_of_lt below
      refine eventually_weaken (ih (by omega) (by omega) stands (Nat.zero_lt_succ n)) ?_
      rintro b ⟨samples, told, sda', bits, stands⟩
      refine ⟨sample :: samples, .bit (sreg.getLsbD 8) seen :: told, sda', ?_, ?_⟩
      · rw [leading_succ (n + 1) sreg sample (by omega)]
        exact Exchanged.cons _ sample seen sampled bits
      · have total : bitcnt + 1 + BitVec.ofNat 4 (n + 1) = bitcnt + BitVec.ofNat 4 (n + 1 + 1) := by
          rw [BitVec.ofNat_add (n + 1) 1, BitVec.add_assoc, BitVec.add_comm 1]
          rfl
        rw [total, List.append_assoc] at stands
        exact stands

/-- A transmission, up to the cycle in which the answer is written: nine bits are put
out, and the levels received are in the register. -/
theorem rtx_runs (recurs : w.Recurs)
    (stands : Working w l 0 .rtx 0 sreg high high { moved := high, events := events } b) :
    Eventually (Bench.cycle w .none) Busy (fun b => ∃ samples told sda',
      Exchanged (leading 9 sreg) samples told ∧
      Turned w l 0 (driving .rtx 9 (samples.foldl BitVec.shiftConcat sreg) false sda')
        { moved := false, events := events ++ told } b) b := by
  refine eventually_then (bits_run recurs 9 (by decide) (Nat.le_refl 9) stands (by decide)) ?_
  rintro b ⟨samples, told, sda', bits, stands⟩
  have working : TwiOp.rtx ≠ .nop := by decide
  refine eventually_weaken (working_passes recurs working stands) ?_
  intro b turned
  exact ⟨samples, told, sda', bits, turned⟩

end

end NeoSfp
