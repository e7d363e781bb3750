import NeoSfp.TwiRest

/-!
# The driver on the controller

The driver's functions, called on a controller at rest, return, leave it at rest, and
tell a listener what they were called for. They need no more than that the clock comes
round; how long the CPU takes for its accesses, and what others do to the bus, does not
matter.
-/

namespace NeoSfp

open Checked TwoWire Reaching

section

variable {awidth : Nat} {w : World} {l : Listener} {b : Bench awidth} {high : Bool}
  {events : List Event} {word : BitVec 11} {answer : BitVec 9}

/-! ## Registers -/

/-- The busy bit of the control register is that of the engine. -/
theorem response_busy (s : Twi awidth) :
    (s.response .readCtrl).getLsbD twiCtrlBusy = s.ctrlBusy := by
  simp only [Twi.response, twiCtrlBusy, BitVec.getLsbD_append]
  simp

/-- The receive bit of the control register is that of the receive buffer. -/
theorem response_avail (s : Twi awidth) :
    (s.response .readCtrl).getLsbD twiCtrlRxAvail = s.rx.availO := by
  simp only [Twi.response, twiCtrlRxAvail, BitVec.getLsbD_append]
  simp

/-- The full bit of the control register is that of the transmit buffer. -/
theorem response_full (s : Twi awidth) :
    (s.response .readCtrl).getLsbD twiCtrlTxFull = !s.tx.freeO := by
  simp only [Twi.response, twiCtrlTxFull, BitVec.getLsbD_append]
  simp

/-! ## Accesses -/

/-- A read of the control register changes nothing: it takes its cycles, and returns the
flags of one of them. -/
theorem access_ctrl (b : Bench awidth) : access w .readCtrl b =
    .ok ((b.idle w (w.gap b.now)).twi.response .readCtrl) (b.idle w (w.gap b.now + 2)) := by
  rw [Nat.add_comm, idle_add]
  rfl

/-- A poll reads the flag once and goes on while it is set. -/
theorem pollCtrl_succ (bit polls : Nat) (b : Bench awidth) : pollCtrl w bit (polls + 1) b =
    if ((b.idle w (w.gap b.now)).twi.response .readCtrl).getLsbD bit
    then pollCtrl w bit polls (b.idle w (w.gap b.now + 2))
    else .ok ⟨⟩ (b.idle w (w.gap b.now + 2)) := by
  rw [pollCtrl, Run.bind_apply, access_ctrl, Run.andThen_ok, Run.ite_apply]
  rfl

/-- Polls that are left over change nothing. By induction on those that were needed. -/
theorem pollCtrl_more (bit polls : Nat) (b : Bench awidth) {b' : Bench awidth}
    (polled : pollCtrl w bit polls b = .ok ⟨⟩ b') (more : Nat) (enough : polls ≤ more) :
    pollCtrl w bit more b = .ok ⟨⟩ b' := by
  induction polls generalizing b more with
  | zero => exact absurd polled nofun
  | succ polls ih =>
    obtain ⟨left, rfl⟩ : ∃ left, more = left + 1 := ⟨more - 1, by omega⟩
    rw [pollCtrl_succ] at polled ⊢
    split
    case isTrue set =>
      rw [if_pos set] at polled
      exact ih _ polled left (by omega)
    case isFalse clear =>
      rw [if_neg clear] at polled
      exact polled

/-- Behind the goal, where nothing is going on, polling ends at once, however many
cycles the access takes. -/
theorem poll_past {goal : Bench awidth → Prop} {g : Bench awidth} (reached : goal g)
    (quiet : ∀ g m, goal g → ¬ Busy (g.idle w m)) (polls m : Nat) :
    ∃ m', pollCtrl w twiCtrlBusy (polls + 1) (g.idle w m) = .ok ⟨⟩ (g.idle w (m' + 2)) := by
  have none : ¬ ((g.idle w m).idle w (w.gap (g.idle w m).now)).twi.ctrlBusy = true := by
    rw [← idle_add]
    exact quiet g _ reached
  refine ⟨w.gap (g.idle w m).now + m, ?_⟩
  rw [pollCtrl_succ, response_busy, if_neg none, ← idle_add]
  congr 2
  omega

/-- Polling returns some cycles behind the goal, wherever the polls fall. By induction
on the cycles up to the goal. -/
theorem poll_reaches {goal : Bench awidth → Prop} (quiet : ∀ g m, goal g → ¬ Busy (g.idle w m))
    (n : Nat) (ahead : Until (Bench.cycle w .none) Busy goal n b) (polls : Nat) (enough : n + 2 ≤ polls) :
    ∃ g m, goal g ∧ pollCtrl w twiCtrlBusy polls b = .ok ⟨⟩ (g.idle w (m + 2)) := by
  induction n using Nat.strong_induction_on generalizing b polls with
  | _ n ih =>
    obtain ⟨left, rfl⟩ : ∃ left, polls = left + 1 := ⟨polls - 1, by omega⟩
    rw [pollCtrl_succ, response_busy]
    split
    case isTrue busy =>
      rcases until_skip ahead (w.gap b.now + 2) with ⟨within, ahead'⟩ | ⟨past, g, reached, same⟩
      · exact ih _ (by omega) ahead' left (by omega)
      · obtain ⟨more, rfl⟩ : ∃ more, left = more + 1 := ⟨left - 1, by omega⟩
        have here : b.idle w (w.gap b.now + 2) = g.idle w (w.gap b.now + 2 - n) := same
        obtain ⟨m', returned⟩ := poll_past reached quiet more (w.gap b.now + 2 - n)
        exact ⟨g, m', reached, by rw [here, returned]⟩
    case isFalse free =>
      -- the goal cannot be ahead, since in front of it the controller is busy
      have past : n ≤ w.gap b.now := by
        by_contra before
        exact free (ahead.1 _ (Nat.lt_of_not_le before))
      refine ⟨b.idle w n, w.gap b.now - n, ahead.2, ?_⟩
      rw [← idle_add]
      congr 2
      omega

/-! ## Commands -/

/-- A controller at rest has room for a command, so the first poll finds it. -/
theorem poll_free (rests : Resting w l high events b) (polls : Nat) :
    pollCtrl w twiCtrlTxFull (polls + 1) b = .ok ⟨⟩ (b.idle w (w.gap b.now + 2)) := by
  have later := resting_idle (w.gap b.now) rests
  have free : (b.idle w (w.gap b.now)).twi.tx.freeO = true := by
    rw [PrimFifo.holds_free later.tx.holds, decide_eq_true_iff]
    exact Nat.two_pow_pos awidth
  have none : ¬ ((b.idle w (w.gap b.now)).twi.response .readCtrl).getLsbD twiCtrlTxFull = true := by
    rw [response_full, free]
    decide
  rw [pollCtrl_succ, if_neg none]

/-- A command is pending behind its write access, whatever the CPU does in between. -/
theorem write_pends (rests : Resting w l high events b) (data : BitVec 32) :
    ∃ b', access w (.writeDcmd data) b = .ok 0 b' ∧ Pending w l (data.setWidth 11) high events b' :=
  ⟨_, rfl, resting_pending (resting_idle (w.gap b.now) rests) data⟩

/-- At rest the controller is not busy. -/
theorem resting_quiet (rests : Resting w l high events b) : ¬ Busy b := by
  obtain ⟨bitcnt, sreg, engine⟩ := rests.engine
  simp [Busy, Twi.ctrlBusy, engine, Engine.busy, driving, rests.tx.dark]

/-- A command is taken, and it has run when the driver goes on. -/
theorem command_runs {goal : Bench awidth → Prop} (recurs : w.Recurs)
    (rests : Resting w l high events b) (data : BitVec 32) {op : TwiOp}
    (code : TwiOp.ofCode ((data.setWidth 11).extractLsb' 9 2) = op) (working : op ≠ .nop)
    (runs : ∀ b : Bench awidth, Working w l 0 op 0
      ((data.setWidth 11).extractLsb' 0 8 ++ BitVec.ofBool !((data.setWidth 11).getLsbD 8)) high high
      { moved := high, events := events } b → Eventually (Bench.cycle w .none) Busy goal b)
    (quiet : ∀ (g : Bench awidth) m, goal g → ¬ Busy (g.idle w m)) :
    ∃ enough b₁ b₂ g m, goal g ∧ access w (.writeDcmd data) b₁ = .ok 0 b₂ ∧ ∀ polls ≥ enough,
      pollCtrl w twiCtrlTxFull polls b = .ok ⟨⟩ b₁ ∧
      pollCtrl w twiCtrlBusy polls b₂ = .ok ⟨⟩ (g.idle w (m + 2)) := by
  subst code
  obtain ⟨b₂, written, pending⟩ := write_pends (resting_idle (w.gap b.now + 2) rests) data
  obtain ⟨n, ahead⟩ := eventually_then (pending_works recurs working pending) runs
  obtain ⟨g, m, reached, polled⟩ := poll_reaches quiet n ahead (n + 2) (Nat.le_refl _)
  refine ⟨n + 2, _, b₂, g, m, reached, written, ?_⟩
  intro polls large
  exact ⟨pollCtrl_more _ _ _ (poll_free rests 0) polls (by omega), pollCtrl_more _ _ _ polled polls large⟩

/-! ## Start and stop -/

/-- The driver's start returns, and a start has been told. -/
theorem generateStart_told (recurs : w.Recurs) (rests : Resting w l high events b) :
    ∃ enough b', Resting w l false (events ++ [.start]) b' ∧ ∀ polls ≥ enough,
      neorv32TwiGenerateStart w polls b = .ok ⟨⟩ b' := by
  obtain ⟨enough, b₁, b₂, g, m, reached, written, polled⟩ := command_runs recurs rests
    (TwiOp.start.code.setWidth 32 <<< 9) rfl (by decide) (fun _ stands => start_runs recurs stands)
    fun g m rests => resting_quiet (resting_idle m rests)
  refine ⟨enough, _, resting_idle (m + 2) reached, ?_⟩
  intro polls large
  obtain ⟨free, done⟩ := polled polls large
  rw [neorv32TwiGenerateStart, Run.bind_apply, free, Run.andThen_ok, Run.bind_apply,
    neorv32TwiGenerateStartNonblocking, Run.bind_apply, written]
  exact done

/-- The driver's stop returns, and a stop has been told. -/
theorem generateStop_told (recurs : w.Recurs) (rests : Resting w l high events b) :
    ∃ enough b', Resting w l true (events ++ [.stop]) b' ∧ ∀ polls ≥ enough,
      neorv32TwiGenerateStop w polls b = .ok ⟨⟩ b' := by
  obtain ⟨enough, b₁, b₂, g, m, reached, written, polled⟩ := command_runs recurs rests
    (TwiOp.stop.code.setWidth 32 <<< 9) rfl (by decide) (fun _ stands => stop_runs recurs stands)
    fun g m rests => resting_quiet (resting_idle m rests)
  refine ⟨enough, _, resting_idle (m + 2) reached, ?_⟩
  intro polls large
  obtain ⟨free, done⟩ := polled polls large
  rw [neorv32TwiGenerateStop, Run.bind_apply, free, Run.andThen_ok, Run.bind_apply,
    neorv32TwiGenerateStopNonblocking, Run.bind_apply, written]
  exact done

/-! ## Transfers -/

/-- The bits of a byte, the highest one first. -/
def byteBits (b : UInt8) : List Bool := (List.range 8).map fun k => b.toBitVec.getLsbD (7 - k)

/-- What the host sends: a byte, and whether it leaves the acknowledge bit to others. -/
def sentBits (data : UInt8) (mack : Nat) : List Bool := byteBits data ++ [decide (mack % 2 = 0)]

/-- What the host has received: a byte, and whether nobody acknowledged. -/
def receivedBits (rc : Int) (b : UInt8) : List Bool := byteBits b ++ [decide (rc ≠ 0)]

/-- The low bits of a register, the highest one first. -/
def trailing (n : Nat) (sreg : BitVec 9) : List Bool :=
  (List.range n).map fun k => sreg.getLsbD (n - 1 - k)

/-- The low bits of a shifted register are those before the shift and the sample. -/
theorem trailing_succ (n : Nat) (sreg : BitVec 9) (sample : Bool) (room : n + 1 ≤ 9) :
    trailing (n + 1) (sreg.shiftConcat sample) = trailing n sreg ++ [sample] := by
  rw [trailing, List.range_succ, List.map_append, trailing]
  congr 1
  · apply List.map_congr_left
    intro k member
    have below : k < n := List.mem_range.mp member
    have inside : n + 1 - 1 - k < 9 := by omega
    have positive : ¬ n + 1 - 1 - k = 0 := by omega
    have index : n + 1 - 1 - k - 1 = n - 1 - k := by omega
    rw [BitVec.getLsbD_shiftConcat, decide_eq_true inside, Bool.true_and, if_neg positive, index]
  · simp [BitVec.getLsbD_shiftConcat]

/-- The samples that have been shifted in are the low bits of the register. By induction
on the samples. -/
theorem trailing_shifted (samples : List Bool) (sreg : BitVec 9) (room : samples.length ≤ 9) :
    trailing samples.length (samples.foldl BitVec.shiftConcat sreg) = samples := by
  induction samples using List.reverseRecOn with
  | nil => rfl
  | append_singleton samples sample ih =>
    rw [List.length_append, List.length_singleton] at room ⊢
    rw [List.foldl_append, List.foldl_cons, List.foldl_nil, trailing_succ _ _ _ room, ih (by omega)]

/-- As many levels are received as were driven. -/
theorem exchanged_length {sent received : List Bool} {told : List Event}
    (exchanged : Exchanged sent received told) : received.length = sent.length := by
  induction exchanged with
  | nil => rfl
  | cons driven got seen sampled rest ih => rw [List.length_cons, List.length_cons, ih]

/-- The command of a transmission bit by bit: the data, the acknowledge and the code. -/
theorem rtxCmd_bits (data : UInt8) (mack k : Nat) (inside : k < 11) :
    ((rtxCmd data mack).setWidth 11).getLsbD k =
      if k < 8 then data.toBitVec.getLsbD k else if k = 8 then decide (mack % 2 = 1) else true := by
  have parity : mack % 2 = 0 ∨ mack % 2 = 1 := by omega
  rcases parity with even | odd
  · rw [rtxCmd, even]
    interval_cases k
    all_goals simp [TwiOp.code]
  · rw [rtxCmd, odd]
    interval_cases k
    all_goals simp [TwiOp.code]

/-- The command's code is that of a transmission. -/
theorem rtxCmd_code (data : UInt8) (mack : Nat) :
    TwiOp.ofCode (((rtxCmd data mack).setWidth 11).extractLsb' 9 2) = .rtx := by
  have code : ((rtxCmd data mack).setWidth 11).extractLsb' 9 2 = 0b11 := by
    apply BitVec.eq_of_getLsbD_eq
    intro i inside
    have all : ∀ i < 2, (0b11 : BitVec 2).getLsbD i = true := by decide
    rw [BitVec.getLsbD_extractLsb', rtxCmd_bits data mack (9 + i) (by omega), if_neg (by omega),
      if_neg (by omega), all i inside, decide_eq_true inside, Bool.true_and]
  rw [code]
  rfl

/-- The bits that the engine puts out are the byte, the highest bit first, and the
acknowledge bit. -/
theorem rtxCmd_leading (data : UInt8) (mack : Nat) :
    leading 9 (((rtxCmd data mack).setWidth 11).extractLsb' 0 8 ++
      BitVec.ofBool !(((rtxCmd data mack).setWidth 11).getLsbD 8)) = sentBits data mack := by
  rw [leading, List.range_succ, List.map_append, sentBits, byteBits]
  congr 1
  · apply List.map_congr_left
    intro k member
    have below : k < 8 := List.mem_range.mp member
    have high : ¬ 8 - k < 1 := by omega
    have index : 8 - k - 1 = 7 - k := by omega
    rw [BitVec.getLsbD_append, if_neg high, BitVec.getLsbD_extractLsb', index, Nat.zero_add,
      rtxCmd_bits data mack _ (by omega), if_pos (by omega), decide_eq_true (by omega), Bool.true_and]
  · rw [List.map_singleton, BitVec.getLsbD_append, if_pos (by decide), rtxCmd_bits data mack 8 (by decide)]
    have odd : mack % 2 = 0 ∨ mack % 2 = 1 := by omega
    rcases odd with even | odd
    · simp [even]
    · simp [odd]

/-- What the CPU makes of an answer, read as bits again, is what the register holds. -/
theorem answer_received (sreg : BitVec 9) :
    receivedBits (if ((answerOf sreg).setWidth 32).getLsbD 8 then 1 else 0)
      ⟨((answerOf sreg).setWidth 32).setWidth 8⟩ = trailing 9 sreg := by
  rw [trailing, List.range_succ, List.map_append, receivedBits, byteBits]
  congr 1
  · apply List.map_congr_left
    intro k member
    have below : k < 8 := List.mem_range.mp member
    have low : 7 - k < 8 := by omega
    have index : 1 + (7 - k) = 9 - 1 - k := by omega
    simp only [answerOf, BitVec.getLsbD_setWidth, BitVec.getLsbD_append, BitVec.getLsbD_extractLsb',
      low, decide_true, Bool.true_and, if_true, index]
    simp
    omega
  · have last : ((answerOf sreg).setWidth 32).getLsbD 8 = sreg.getLsbD 0 := by
      simp only [answerOf, BitVec.getLsbD_setWidth, BitVec.getLsbD_append, BitVec.getLsbD_ofBool]
      simp
    rw [List.map_singleton, last]
    cases sreg.getLsbD 0 <;> rfl

/-- Nine samples shifted in are what the CPU makes of the answer, whatever the register
held before. -/
theorem answer_shifted (samples : List Bool) (sreg : BitVec 9) (nine : samples.length = 9) :
    let answer := answerOf (samples.foldl BitVec.shiftConcat sreg)
    receivedBits (if (answer.setWidth 32).getLsbD 8 then 1 else 0) ⟨(answer.setWidth 32).setWidth 8⟩ =
      samples := by
  have shifted := trailing_shifted samples sreg (Nat.le_of_eq nine)
  rw [nine] at shifted
  exact (answer_received _).trans shifted

/-- The answer is read, and it is not missing; the controller is at rest behind it. -/
theorem get_answers (answered : Answered w l answer events b) (data : UInt8) :
    ∃ b', neorv32TwiGet w data b = .ok (if (answer.setWidth 32).getLsbD 8 then 1 else 0,
        ⟨(answer.setWidth 32).setWidth 8⟩) b' ∧ Resting w l false events b' := by
  have asked := answered_idle (w.gap b.now) answered
  have kept := answered_idle (w.gap b.now + 2) answered
  have read := answered_idle (w.gap (b.idle w (w.gap b.now + 2)).now) kept
  refine ⟨_, ?_, answered_reads read⟩
  rw [neorv32TwiGet, Run.bind_apply, access_ctrl, Run.andThen_ok, response_avail, asked.avail, if_pos rfl,
    Run.bind_apply, access, Run.andThen_ok, Twi.response, read.rdata]
  rfl

/-- Behind the last phase of a transmission the controller is no longer busy. -/
theorem turned_quiet {sreg : BitVec 9} {sda : Bool} (m : Nat)
    (turned : Turned w l 0 (driving .rtx 9 sreg false sda) { moved := false, events := events } b) :
    ¬ Busy (b.idle w m) := by
  obtain ⟨now, next, answered⟩ := turned_answered turned
  rcases m with _ | _ | m
  · exact now
  · exact next
  · have later := answered_idle m answered
    rw [← idle_add] at later
    obtain ⟨bitcnt, sreg, engine⟩ := later.engine
    simp [Busy, Twi.ctrlBusy, engine, Engine.busy, driving, later.tx.dark]

/-- A transfer tells the byte and the acknowledge bit, and returns levels that the data
line had in each of the nine pulses. -/
theorem transfer_told (recurs : w.Recurs) (rests : Resting w l high events b) (data : UInt8) (mack : Nat) :
    ∃ enough rc v told b', (rc = 0 ∨ rc = 1) ∧
      Exchanged (sentBits data mack) (receivedBits rc v) told ∧ Resting w l false (events ++ told) b' ∧
      ∀ polls ≥ enough, neorv32TwiTransfer w polls data mack b = .ok (rc, v) b' := by
  obtain ⟨enough, b₁, b₂, g, m, ⟨samples, told, sda', exchanged, turned⟩, written, polled⟩ :=
    command_runs recurs rests (rtxCmd data mack) (rtxCmd_code data mack) (by decide)
      (fun _ stands => rtx_runs recurs stands) (by
        rintro g m ⟨samples, told, sda', -, turned⟩
        exact turned_quiet m turned)
  have answered := answered_idle m (turned_answered turned).2.2
  rw [← idle_add] at answered
  obtain ⟨b', got, rests'⟩ := get_answers answered data
  rw [rtxCmd_leading] at exchanged
  have nine : samples.length = 9 := (exchanged_length exchanged).trans rfl
  have received := answer_shifted samples (((rtxCmd data mack).setWidth 11).extractLsb' 0 8 ++
    BitVec.ofBool !(((rtxCmd data mack).setWidth 11).getLsbD 8)) nine
  refine ⟨enough, _, _, told, b', ?_, received.symm ▸ exchanged, rests', ?_⟩
  · split
    · exact Or.inr rfl
    · exact Or.inl rfl
  · intro polls large
    obtain ⟨free, done⟩ := polled polls large
    rw [neorv32TwiTransfer, Run.bind_apply, free, Run.andThen_ok, Run.bind_apply,
      neorv32TwiSendNonblocking, Run.bind_apply, written]
    simp only [Run.andThen_ok, Run.pure_apply, Run.bind_apply, done]
    exact got

end

end NeoSfp
