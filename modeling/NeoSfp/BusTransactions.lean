import NeoSfp.ExecutorTrace
import NeoSfp.ParserGrammar

/-!
# Lines on the bus

An accepted line of TWI commands, parsed and executed. Its calls are the frames
of the commands the grammar derives from it, whatever the hardware answers. Each
frame ends in a STOP of its own: the executor refines the decoded commands, but
only a line of a single command is one bus transaction.
-/

namespace NeoSfp

open Checked

/-- The part a call plays on the bus. -/
def HalCall.kind : HalCall → Bus.Kind
  | .twiStart => .start
  | .twiStop => .stop
  | .twiTrans _ _ => .transfer
  | .gpioWriteByte _ => .other
  | .gpioReadByte => .other

/-- The `twi_start` and `twi_trans` calls. -/
def HalCall.startsOrTransfers (c : HalCall) : Bool :=
  c.kind = .start || c.kind = .transfer

/-- The call directly behind each START. -/
def behindStarts : List HalCall → List HalCall
  | [] => []
  | .twiStart :: rest => rest.head?.toList ++ behindStarts rest
  | _ :: rest => behindStarts rest

/-- The calls are one bus transaction for the commands of a record: a START in
front of each command's control byte, and a single STOP, behind everything. -/
structure OneTransaction (txn : NeoTxn) (calls : List HalCall) : Prop where
  starts : calls.count .twiStart = txn.count
  ctrl : behindStarts calls =
    (txn.cmds.toList.take txn.count).map fun cmd => .twiTrans cmd.ctrlByte 0
  oneStop : calls.count .twiStop = 1
  stopLast : calls.getLast? = some .twiStop

/-! ## Frames -/

/-- A record's entry has the control byte of the command it stands for. -/
theorem encode_ctrl (c : TwiCmd) (off : Nat) : (c.encode off).ctrlByte = c.ctrl := by
  cases c <;> rfl

/-- A command's transfers begin with its control byte, which the host sends without an
acknowledge of its own. -/
theorem transfers_ctrl (c : TwiCmd) : ∃ rest, c.transfers = .twiTrans c.ctrl 0 :: rest := by
  cases c with
  | write ctrl addr payload => exact ⟨_, rfl⟩
  | read ctrl addr len fmt => exact ⟨_, rfl⟩

/-- Between its START and its STOP a command makes only transfers. -/
theorem transfers_kind (c : TwiCmd) : ∀ e ∈ c.transfers, e.kind = .transfer := by
  intro e member
  cases c with
  | write ctrl addr payload =>
    simp only [TwiCmd.transfers, sendTransfers, List.mem_map] at member
    obtain ⟨v, -, same⟩ := member
    rw [← same]
    rfl
  | read ctrl addr len fmt =>
    simp only [TwiCmd.transfers, sendTransfers, receiveTransfers, List.mem_append,
      List.mem_map] at member
    rcases member with ⟨v, -, same⟩ | ⟨i, -, same⟩
    · rw [← same]
      rfl
    · rw [← same]
      rfl

/-- A command's frame is closed: whatever it starts it also stops. -/
theorem frame_closed (c : TwiCmd) : Bus.Closed HalCall.kind c.frame :=
  Bus.closed_frame HalCall.kind .twiStart .twiStop c.transfers rfl rfl (transfers_kind c)

/-- A command's frame has no other START or STOP than its own, because its transfers are
neither. -/
theorem transfers_count (c : TwiCmd) (call : HalCall) (other : call.kind ≠ .transfer) :
    c.transfers.count call = 0 := by
  rw [List.count_eq_zero]
  intro member
  exact other (transfers_kind c call member)

/-- There is one START in a command's frame. -/
theorem frame_starts (c : TwiCmd) : c.frame.count .twiStart = 1 := by
  simp [TwiCmd.frame, transfers_count c .twiStart (by decide)]

/-- There is one STOP in a command's frame. -/
theorem frame_stops (c : TwiCmd) : c.frame.count .twiStop = 1 := by
  simp [TwiCmd.frame, transfers_count c .twiStop (by decide)]

/-- A call that every frame makes once is made once for each command of a chain. By
induction on the commands. -/
theorem frames_count (cs : List TwiCmd) (call : HalCall)
    (once : ∀ c : TwiCmd, c.frame.count call = 1) :
    (cs.flatMap TwiCmd.frame).count call = cs.length := by
  induction cs with
  | nil => rfl
  | cons c cs ih => rw [List.flatMap_cons, List.count_append, once, ih, List.length_cons, Nat.add_comm]

/-- Without its STOP a frame is a START and the command's transfers. -/
theorem frame_filter (c : TwiCmd) :
    c.frame.filter HalCall.startsOrTransfers = .twiStart :: c.transfers := by
  have all : c.transfers.filter HalCall.startsOrTransfers = c.transfers := by
    rw [List.filter_eq_self]
    intro e member
    simp [HalCall.startsOrTransfers, transfers_kind c e member]
  have stop : HalCall.startsOrTransfers .twiStop = false := rfl
  have start : HalCall.startsOrTransfers .twiStart = true := rfl
  simp [TwiCmd.frame, all, stop, start]

/-- Transfers up to a STOP hold no START, so the calls behind STARTs are those that
follow. -/
theorem behindStarts_transfers (events rest : List HalCall)
    (all : ∀ e ∈ events, e.kind = .transfer) :
    behindStarts (events ++ .twiStop :: rest) = behindStarts rest := by
  induction events with
  | nil => rfl
  | cons event events ih =>
    obtain ⟨first, others⟩ := List.forall_mem_cons.mp all
    cases event with
    | twiTrans v hostAck => exact ih others
    | twiStart => simp [HalCall.kind] at first
    | twiStop => simp [HalCall.kind] at first
    | gpioWriteByte v => simp [HalCall.kind] at first
    | gpioReadByte => simp [HalCall.kind] at first

/-- Behind every START of a chain's calls comes its command's control byte. By induction
on the commands, one frame at a time. -/
theorem frames_behindStarts (cs : List TwiCmd) :
    behindStarts (cs.flatMap TwiCmd.frame) = cs.map fun c => .twiTrans c.ctrl 0 := by
  induction cs with
  | nil => rfl
  | cons c cs ih =>
    obtain ⟨rest, first⟩ := transfers_ctrl c
    have passed := behindStarts_transfers c.transfers (cs.flatMap TwiCmd.frame) (transfers_kind c)
    rw [List.flatMap_cons, TwiCmd.frame, List.cons_append, List.append_assoc,
      List.singleton_append, behindStarts, passed, ih, first]
    rfl

/-- The calls of a chain that is not empty end with a STOP. -/
theorem frames_last (cs : List TwiCmd) (nonempty : cs ≠ []) :
    (cs.flatMap TwiCmd.frame).getLast? = some .twiStop := by
  obtain ⟨before, last, split⟩ := (List.eq_nil_or_concat cs).resolve_left nonempty
  have ends : cs.flatMap TwiCmd.frame =
      (before.flatMap TwiCmd.frame ++ .twiStart :: last.transfers) ++ [.twiStop] := by
    simp [split, TwiCmd.frame]
  rw [ends, List.getLast?_concat]

/-- The control bytes of a record's entries are those of the commands it holds. -/
theorem encodeAll_ctrl (off : Nat) (cs : List TwiCmd) :
    (encodeAll off cs).map (fun cmd => HalCall.twiTrans cmd.ctrlByte 0) =
      cs.map fun c => .twiTrans c.ctrl 0 := by
  induction cs generalizing off with
  | nil => rfl
  | cons c cs ih => rw [encodeAll, List.map_cons, List.map_cons, encode_ctrl, ih]

/-- The frames of a chain are one transaction exactly if there is one of them. -/
theorem frames_oneTransaction {txn : NeoTxn} {cs : List TwiCmd} (decoded : Decoded txn cs) :
    OneTransaction txn (cs.flatMap TwiCmd.frame) ↔ cs.length = 1 := by
  constructor
  · intro one
    rw [← frames_count cs .twiStop frame_stops]
    exact one.oneStop
  · intro single
    have some : cs ≠ [] := by
      intro none
      simp [none] at single
    refine
      { starts := ?_
        ctrl := ?_
        oneStop := ?_
        stopLast := frames_last cs some }
    · rw [frames_count cs .twiStart frame_starts, decoded.count]
    · rw [frames_behindStarts, decoded.count, decoded.cmds,
        List.take_left' (encodeAll_length 0 cs), encodeAll_ctrl]
    · rw [frames_count cs .twiStop frame_stops, single]

/-! ## Accepted lines -/

/-- Hardware on which every device acknowledges. -/
def acknowledging : Hal where
  twiTrans := fun _ v _ => (0, v)
  gpioReadByte := fun _ => 0

/-- The executor refines the decoded line. Behind any earlier calls, and whatever the
hardware answers, its `twi_start` and `twi_trans` calls are those of the commands that
the grammar derives from the line. Transfers stay inside claims of the bus, the bus ends
released, and no GPIO call is made. The run is the sequence of the commands' frames,
each of which is closed, so every statement is one about frames and then an induction
over the commands. -/
theorem neoExecRun_refines (line : CString) (out next : NeoTxn)
    (accepted : neoParseTransaction (some line) out = .ok (0, next))
    (start : CmdStart (skipBlanks line.chars)) :
    ∃ cs calls, Chain (skipBlanks line.chars) cs ∧ Decoded next cs ∧
      (∀ hal s, ∃ s', neoExecRun hal next s = .ok ⟨⟩ s' ∧ s'.calls = s.calls ++ calls) ∧
      calls.filter HalCall.startsOrTransfers = cs.flatMap (fun c => .twiStart :: c.transfers) ∧
      Bus.Guarded HalCall.kind calls ∧ Bus.Released HalCall.kind calls ∧
      calls.getLast? = some .twiStop ∧ ∀ c ∈ calls, c.kind ≠ .other := by
  obtain ⟨cs, derived, decoded⟩ := accepted_chain accepted start
  have closed := Bus.closed_flatMap HalCall.kind TwiCmd.frame cs fun c _ => frame_closed c
  cases derived with
  | chain derived fits =>
    refine ⟨cs, cs.flatMap TwiCmd.frame, derived, decoded, ?_, ?_, ?_, ?_, ?_, ?_⟩
    · intro hal s
      exact ⟨_, neoExecRun_chain hal next cs s (decoded_holds decoded), rfl⟩
    · rw [List.filter_flatMap]
      simp only [frame_filter]
    · exact Bus.closed_guarded HalCall.kind _ closed
    · exact Bus.closed_released HalCall.kind _ closed
    · exact frames_last cs (chain_nonempty derived)
    · intro call member
      obtain ⟨c, -, inside⟩ := List.mem_flatMap.mp member
      simp only [TwiCmd.frame, List.mem_cons, List.mem_append, List.not_mem_nil, or_false] at inside
      rcases inside with first | between | last
      · simp [first, HalCall.kind]
      · simp [transfers_kind c call between]
      · simp [last, HalCall.kind]

/-- A write with payload and a read in one line: the bytes go out in order, and the
last byte received is the one that is not acknowledged. -/
theorem neoExecRun_refines_writeRead : ∃ next,
    neoParseTransaction (some writeRead) NeoTxn.zero = .ok (0, next) ∧ Decoded next writeReadCmds ∧
    ∃ calls, (∀ hal s, ∃ s', neoExecRun hal next s = .ok ⟨⟩ s' ∧ s'.calls = s.calls ++ calls) ∧
      calls.filter HalCall.startsOrTransfers =
        [.twiStart, .twiTrans 0xA0 0, .twiTrans 0x01 0, .twiTrans 0x02 0, .twiTrans 0x03 0,
          .twiStart, .twiTrans 0xA1 0, .twiTrans 0x50 0, .twiTrans 0xFF 1, .twiTrans 0xFF 0] ∧
      Bus.Guarded HalCall.kind calls ∧ Bus.Released HalCall.kind calls ∧
      calls.getLast? = some .twiStop ∧ ∀ c ∈ calls, c.kind ≠ .other := by
  obtain ⟨next, accepted, decoded⟩ := writeRead_accepted NeoTxn.zero
  obtain ⟨cs, calls, derived, own, made, sent, guarded, released, last, noGpio⟩ :=
    neoExecRun_refines writeRead NeoTxn.zero next accepted writeRead_start
  obtain rfl : cs = writeReadCmds := decoded_unique own decoded
  exact ⟨next, accepted, decoded, calls, made, sent, guarded, released, last, noGpio⟩

/-- The calls of an accepted line are one bus transaction if and only if the line spells
a single command. The calls are the frames of its commands, each with a STOP of its own,
so there is one transaction only if there is one command; and the grammar gives a line
no other meaning. -/
theorem neoExecRun_oneTransaction (line : CString) (out next : NeoTxn)
    (accepted : neoParseTransaction (some line) out = .ok (0, next))
    (start : CmdStart (skipBlanks line.chars)) (hal : Hal) (s : ExecState) :
    ∃ s' calls, neoExecRun hal next s = .ok ⟨⟩ s' ∧ s'.calls = s.calls ++ calls ∧
      (OneTransaction next calls ↔ ∃ c, Line (skipBlanks line.chars) (.chain [c])) := by
  obtain ⟨cs, derived, decoded⟩ := accepted_chain accepted start
  refine ⟨_, cs.flatMap TwiCmd.frame, neoExecRun_chain hal next cs s (decoded_holds decoded), rfl, ?_⟩
  rw [frames_oneTransaction decoded, List.length_eq_one_iff]
  constructor
  · rintro ⟨c, single⟩
    exact ⟨c, single ▸ derived⟩
  · rintro ⟨c, single⟩
    have same := line_unique derived single
    cases same
    exact ⟨c, rfl⟩

/-- A line of two writes: its calls come in two frames, and the line spells no single
command. -/
theorem neoExecRun_oneTransaction_twoWrites : ∃ next,
    neoParseTransaction (some twoWrites) NeoTxn.zero = .ok (0, next) ∧
    ∃ s' calls, neoExecRun acknowledging next {} = .ok ⟨⟩ s' ∧ s'.calls = [] ++ calls ∧
      (OneTransaction next calls ↔ ∃ c, Line (skipBlanks twoWrites.chars) (.chain [c])) := by
  obtain ⟨next, cs, accepted, -⟩ := twoWrites_accepted
  exact ⟨next, accepted, neoExecRun_oneTransaction twoWrites NeoTxn.zero next accepted
    twoWrites_start acknowledging {}⟩

/-- A chain of two writes is two transactions: its calls have two STOPs. -/
theorem twoWrites_twoStops : ∃ next,
    neoParseTransaction (some twoWrites) NeoTxn.zero = .ok (0, next) ∧
    CmdStart (skipBlanks twoWrites.chars) ∧
    ∃ s, neoExecRun acknowledging next {} = .ok ⟨⟩ s ∧ s.calls.count .twiStop = 2 ∧
      ¬ OneTransaction next s.calls := by
  obtain ⟨next, cs, accepted, decoded, two⟩ := twoWrites_accepted
  refine ⟨next, accepted, twoWrites_start, _,
    neoExecRun_chain acknowledging next cs {} (decoded_holds decoded), ?_, ?_⟩
  · rw [List.nil_append, frames_count cs .twiStop frame_stops, two]
  · intro one
    have single := (frames_oneTransaction decoded).mp one
    omega

end NeoSfp
