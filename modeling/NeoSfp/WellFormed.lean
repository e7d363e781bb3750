import NeoSfp.ExecutorTrace
import NeoSfp.ParserGrammar

/-!
# Well-formed records

What every call of the parser leaves behind, accepted or rejected: a record whose
counted entries are consistent with one another and with the pool. The executor
needs nothing more to stay inside the used part of the pool.
-/

namespace NeoSfp

open Checked

/-- The entry describes a TWI command. -/
def NeoCmd.IsTwi (cmd : NeoCmd) : Prop := cmd.kind = .twiWrite ∨ cmd.kind = .twiRead

/-- The entry describes a special command. -/
def NeoCmd.IsSpecial (cmd : NeoCmd) : Prop :=
  cmd.kind = .gpioOut ∨ cmd.kind = .gpioIn ∨ cmd.kind = .help

/-- The fields of a TWI command agree with each other and with the limits. -/
structure TwiEntry (cmd : NeoCmd) : Prop where
  ctrl : cmd.ctrlByte ∈ ctrlBytes
  write : cmd.kind = .twiWrite ↔ cmd.ctrlByte = 0xA0 ∨ cmd.ctrlByte = 0xA2
  read : cmd.kind = .twiRead ↔ cmd.ctrlByte = 0xA1 ∨ cmd.ctrlByte = 0xA3
  payloadLen : cmd.payloadLen ≤ 1022
  rdLen : cmd.rdLen ≤ 0x3FE
  rdFmt : 0 < cmd.rdLen → cmd.rdFmt ≠ .none

/-- The record that a call with this result leaves. -/
structure WellFormed (rc : Int) (out : NeoTxn) : Prop where
  result : rc = 0 ∨ rc = -1
  error : rc = 0 ↔ out.error = none
  count : out.count ≤ 160
  used : out.payloadUsed ≤ 2044
  entry : ∀ i < out.count, ∀ cmd, out.cmds[i]? = some cmd → cmd.IsTwi → TwiEntry cmd
  first : ∀ cmd, 0 < out.count → out.cmds[0]? = some cmd → cmd.payloadOff = 0
  next : ∀ i cmd cmd', i + 1 < out.count → out.cmds[i]? = some cmd →
    out.cmds[i + 1]? = some cmd' → cmd'.payloadOff = cmd.payloadOff + cmd.payloadLen
  last : ∀ i cmd, i + 1 = out.count → out.cmds[i]? = some cmd →
    cmd.payloadOff + cmd.payloadLen ≤ out.payloadUsed
  full : rc = 0 → ∀ i cmd, i + 1 = out.count → out.cmds[i]? = some cmd →
    cmd.payloadOff + cmd.payloadLen = out.payloadUsed
  nonempty : rc = 0 → 1 ≤ out.count
  kinds : rc = 0 → (∀ i < out.count, ∀ cmd, out.cmds[i]? = some cmd → cmd.IsTwi) ∨
    (out.count = 1 ∧ ∀ cmd, out.cmds[0]? = some cmd → cmd.IsSpecial)

/-! ## Commands -/

/-- A command that the grammar can derive, within the limits. -/
def TwiCmd.Valid : TwiCmd → Prop
  | .write ctrl _ payload => (ctrl = 0xA0 ∨ ctrl = 0xA2) ∧ payload.length ≤ 1022
  | .read ctrl _ len fmt => (ctrl = 0xA1 ∨ ctrl = 0xA3) ∧ len ≤ 0x3FE ∧ (0 < len → fmt ≠ .none)

/-- A tail of the grammar has a count in range, and a format where bytes are to be
received. -/
theorem tail_valid {p q : Text} {n : Nat} {fmt : NeoFmt} (derived : Tail p (n, fmt) q) :
    n ≤ 0x3FE ∧ (0 < n → fmt ≠ .none) := by
  cases derived with
  | empty => simp
  | count q count letter =>
    refine ⟨count.bound, ?_⟩
    intro _
    cases letter <;> decide
  | zero q count zero => simp

/-- A derived command is valid, if its payload is not too long; its control byte and its
count are by the grammar. -/
theorem cmd_valid {p q : Text} {c : TwiCmd} (derived : Cmd p c q)
    (short : c.payload.length ≤ 1022) : c.Valid := by
  cases derived with
  | write named iaddr payload =>
    simp only [writeCtrls, List.mem_cons, Prod.mk.injEq, List.not_mem_nil, or_false] at named
    exact ⟨named.imp And.right And.right, short⟩
  | read named iaddr bars tail =>
    simp only [readCtrls, List.mem_cons, Prod.mk.injEq, List.not_mem_nil, or_false] at named
    exact ⟨named.imp And.right And.right, tail_valid tail⟩

/-- Completed commands are valid, also when the chain is rejected behind them. By
induction along the scan. -/
theorem scanChain_valid (count used : Nat) (p : Text) (room : used ≤ 2044) :
    ∀ c ∈ (scanChain count used p).1, c.Valid := by
  fun_induction scanChain count used p with
  | case1 => simp
  | case2 => simp
  | case3 count used p ch rest behind start cmd q scanned more ih =>
    obtain ⟨derived, -, short, total⟩ := scanCmd_sound count used _ q cmd room scanned
    exact List.forall_mem_cons.mpr ⟨cmd_valid derived short, ih total⟩
  | case4 => simp

/-- The entry of a command has the kind of a TWI command. -/
theorem encode_twi (c : TwiCmd) (off : Nat) : (c.encode off).IsTwi := by
  cases c with
  | write => exact Or.inl rfl
  | read => exact Or.inr rfl

/-- The fields of a valid command's entry agree with each other and with the limits. -/
theorem encode_entry {c : TwiCmd} (valid : c.Valid) (off : Nat) : TwiEntry (c.encode off) := by
  cases c with
  | write ctrl addr payload =>
    obtain ⟨named | named, short⟩ := valid
    · subst named
      exact ⟨by simp [TwiCmd.encode, ctrlBytes], by simp [TwiCmd.encode], by simp [TwiCmd.encode],
        short, Nat.zero_le _, fun positive => absurd positive (Nat.lt_irrefl 0)⟩
    · subst named
      exact ⟨by simp [TwiCmd.encode, ctrlBytes], by simp [TwiCmd.encode], by simp [TwiCmd.encode],
        short, Nat.zero_le _, fun positive => absurd positive (Nat.lt_irrefl 0)⟩
  | read ctrl addr len fmt =>
    obtain ⟨named | named, bound, format⟩ := valid
    · subst named
      exact ⟨by simp [TwiCmd.encode, ctrlBytes], by simp [TwiCmd.encode], by simp [TwiCmd.encode],
        Nat.zero_le _, bound, format⟩
    · subst named
      exact ⟨by simp [TwiCmd.encode, ctrlBytes], by simp [TwiCmd.encode], by simp [TwiCmd.encode],
        Nat.zero_le _, bound, format⟩

/-- The entry has the offset that it was made for. -/
theorem encode_off (c : TwiCmd) (off : Nat) : (c.encode off).payloadOff = off := by
  cases c <;> rfl

/-- The entry has the length of the command's payload. -/
theorem encode_len (c : TwiCmd) (off : Nat) : (c.encode off).payloadLen = c.payload.length := by
  cases c <;> rfl

/-! ## Records -/

/-- A counted entry is that of the command at its place, with the payloads before it as
its offset. -/
theorem holds_entry {out : NeoTxn} {cs : List TwiCmd} (holds : Holds out cs) {i : Nat}
    {cmd : NeoCmd} (inside : i < cs.length) (found : out.cmds[i]? = some cmd) :
    ∃ before c after, cs = before ++ c :: after ∧ before.length = i ∧
      cmd = c.encode (payloadTotal before) := by
  have split : cs = cs.take i ++ cs[i] :: cs.drop (i + 1) := by
    rw [List.cons_getElem_drop_succ, List.take_append_drop]
  have place : (cs.take i).length = i := by
    rw [List.length_take, Nat.min_eq_left (Nat.le_of_lt inside)]
  have stored := holds_cmd (split ▸ holds : Holds out (cs.take i ++ cs[i] :: cs.drop (i + 1)))
  rw [place, found] at stored
  exact ⟨cs.take i, cs[i], cs.drop (i + 1), split, place, Option.some.inj stored⟩

/-- The offset of a counted entry is the size of the payloads before it. -/
theorem holds_offset {out : NeoTxn} {cs : List TwiCmd} (holds : Holds out cs) {i : Nat}
    {cmd : NeoCmd} (inside : i < cs.length) (found : out.cmds[i]? = some cmd) :
    cmd.payloadOff = payloadTotal (cs.take i) ∧
      cmd.payloadOff + cmd.payloadLen = payloadTotal (cs.take (i + 1)) := by
  obtain ⟨before, c, after, split, place, same⟩ := holds_entry holds inside found
  have earlier : cs.take i = before := by rw [split, List.take_left' place]
  have through : cs.take (i + 1) = before ++ [c] := by
    have longer : (before ++ [c]).length = i + 1 := by simp [place]
    rw [split, ← List.append_cancel_left_eq before, List.append_cons, List.take_left' longer]
  rw [same, encode_off, encode_len, earlier, through, payloadTotal_append, payloadTotal_cons,
    payloadTotal_nil]
  exact ⟨rfl, rfl⟩

/-- What the consistency of the counted entries comes down to: the commands are valid,
and their payloads fit into the used part of the pool. -/
theorem holds_wellFormed {out : NeoTxn} {cs : List TwiCmd} {rc : Int} (holds : Holds out cs)
    (valid : ∀ c ∈ cs, c.Valid) (result : rc = 0 ∨ rc = -1) (error : rc = 0 ↔ out.error = none)
    (count : cs.length ≤ 160) (used : out.payloadUsed ≤ 2044)
    (room : payloadTotal cs ≤ out.payloadUsed)
    (accepted : rc = 0 → cs ≠ [] ∧ payloadTotal cs = out.payloadUsed) : WellFormed rc out := by
  have counted := holds.count
  refine
    { result := result
      error := error
      count := counted ▸ count
      used := used
      entry := ?_
      first := ?_
      next := ?_
      last := ?_
      full := ?_
      nonempty := ?_
      kinds := ?_ }
  · intro i inside cmd found _
    obtain ⟨before, c, after, split, -, same⟩ := holds_entry holds (counted ▸ inside) found
    rw [same]
    apply encode_entry
    apply valid
    rw [split]
    exact List.mem_append_right before List.mem_cons_self
  · intro cmd inside found
    exact (holds_offset holds (counted ▸ inside) found).1
  · intro i cmd cmd' inside found found'
    have here := holds_offset holds (by omega) found
    have behind := holds_offset holds (by omega) found'
    rw [behind.1, here.2]
  · intro i cmd inside found
    have here := holds_offset holds (by omega) found
    rw [here.2, inside, counted, List.take_length]
    exact room
  · intro zero i cmd inside found
    have here := holds_offset holds (by omega) found
    rw [here.2, inside, counted, List.take_length]
    exact (accepted zero).2
  · intro zero
    rw [counted]
    exact List.length_pos_iff.mpr (accepted zero).1
  · intro _
    left
    intro i inside cmd found
    obtain ⟨before, c, after, -, -, same⟩ := holds_entry holds (counted ▸ inside) found
    rw [same]
    exact encode_twi c _

/-- The record of a special command is well formed, its only entry having no payload. -/
theorem special_wellFormed {out : NeoTxn} {entry : NeoCmd} (special : Special out entry)
    (kind : entry.IsSpecial) (off : entry.payloadOff = 0) (len : entry.payloadLen = 0) :
    WellFormed 0 out := by
  have stored : out.cmds[0]? = some entry := by
    rw [← Vector.getElem?_toList, special.cmds]
    rfl
  have only : ∀ i cmd, i < out.count → out.cmds[i]? = some cmd → cmd = entry := by
    intro i cmd inside found
    have zero : i = 0 := by
      have := special.count
      omega
    rw [zero, stored] at found
    exact (Option.some.inj found).symm
  have used := special.used
  have single := special.count
  refine
    { result := Or.inl rfl
      error := ⟨fun _ => special.noError, fun _ => rfl⟩
      count := by omega
      used := by omega
      entry := ?_
      first := ?_
      next := ?_
      last := ?_
      full := ?_
      nonempty := ?_
      kinds := ?_ }
  · intro i inside cmd found twi
    rw [only i cmd inside found] at twi
    rcases kind with out | inp | help
    · simp [NeoCmd.IsTwi, out] at twi
    · simp [NeoCmd.IsTwi, inp] at twi
    · simp [NeoCmd.IsTwi, help] at twi
  · intro cmd inside found
    rw [only 0 cmd inside found, off]
  · intro i cmd cmd' inside
    omega
  · intro i cmd inside found
    rw [only i cmd (by omega) found, off, len]
    exact Nat.zero_le _
  · intro _ i cmd inside found
    rw [only i cmd (by omega) found, off, len, used]
  · intro _
    omega
  · intro _
    right
    refine ⟨single, ?_⟩
    intro cmd found
    rw [only 0 cmd (by omega) found]
    exact kind

/-! ## Calls of the parser -/

/-- What a line's scan gives is valid, whether the line is accepted or not. -/
theorem scanLine_valid (p : Text) :
    match scanLine p with
    | .ok (.chain cs) => cs ≠ [] ∧ ∀ c ∈ cs, c.Valid
    | .ok (.special entry) => entry.IsSpecial ∧ entry.payloadOff = 0 ∧ entry.payloadLen = 0
    | .error (cs, _) => ∀ c ∈ cs, c.Valid := by
  cases scanned : scanLine p with
  | ok parsed =>
    have derived := (scanLine_exact p parsed).mp scanned
    cases derived with
    | @chain cs derived fits =>
      have chain := (scanChain_exact p (chain_start derived) cs).mpr ⟨derived, fits⟩
      have valid := scanChain_valid 0 0 p (Nat.zero_le _)
      rw [chain] at valid
      exact ⟨chain_nonempty derived, valid⟩
    | special derived =>
      have kind := scanSpecial_kind ((scanSpecial_exact _ _).mpr derived)
      refine ⟨kind, ?_⟩
      cases derived <;> exact ⟨rfl, rfl⟩
  | error stopped =>
    obtain ⟨cs, s⟩ := stopped
    unfold scanLine at scanned
    split at scanned
    · cases scanned
      simp
    · split at scanned
      · split at scanned
        · simp at scanned
        · next more t chain =>
          cases scanned
          have valid := scanChain_valid 0 0 p (Nat.zero_le _)
          rwa [chain] at valid
      · split at scanned
        · simp at scanned
        · cases scanned
          simp

/-- The executor reads only places of the pool that some payload fills, which are all in
its used part. -/
theorem neoExecRun_reads {out : NeoTxn} {cs : List TwiCmd} (holds : Holds out cs)
    (room : payloadTotal cs ≤ out.payloadUsed) (hal : Hal) (s : ExecState) :
    ∃ s' reads, neoExecRun hal out s = .ok ⟨⟩ s' ∧ s'.reads = s.reads ++ reads ∧
      ∀ i ∈ reads, i < out.payloadUsed := by
  refine ⟨_, List.range (payloadTotal cs), neoExecRun_chain hal out cs s holds, rfl, ?_⟩
  intro i member
  exact Nat.lt_of_lt_of_le (List.mem_range.mp member) room

/-- For every line and whatever the record held before, a call of the parser returns: it
reads nothing past the NUL and stores nothing outside the arrays. It leaves a
well-formed record, on which the executor stays inside the used part of the pool. The
parser performs the scan, and what the scan has decoded is valid, also in front of an
error. -/
theorem neoParseTransaction_wellFormed (line : CString) (out : NeoTxn) :
    ∃ rc next, neoParseTransaction (some line) out = .ok (rc, next) ∧ WellFormed rc next ∧
      ∀ hal s, ∃ s' reads, neoExecRun hal next s = .ok ⟨⟩ s' ∧ s'.reads = s.reads ++ reads ∧
        ∀ i ∈ reads, i < next.payloadUsed := by
  have parses := neoParseTransaction_scan line out
  have valid := scanLine_valid (skipBlanks line.chars)
  cases scanned : scanLine (skipBlanks line.chars) with
  | ok parsed =>
    rw [scanned] at parses valid
    obtain ⟨next, returned, left⟩ := parses
    refine ⟨0, next, returned, ?_⟩
    cases parsed with
    | chain cs =>
      have decoded : Decoded next cs := left
      have holds := decoded_holds decoded
      obtain ⟨nonempty, valid⟩ := valid
      constructor
      · apply holds_wellFormed holds valid (Or.inl rfl) _ (decoded_free decoded) decoded.room decoded.used.ge
        · exact fun _ => ⟨nonempty, decoded.used.symm⟩
        · exact ⟨fun _ => decoded.noError, fun _ => rfl⟩
      · exact neoExecRun_reads holds decoded.used.ge
    | special entry =>
      obtain ⟨kind, off, len⟩ := valid
      have special : Special next entry := left
      refine ⟨special_wellFormed special kind off len, ?_⟩
      intro hal s
      obtain ⟨s', ran, -, reads⟩ := neoExecRun_special hal next entry s special kind
      exact ⟨s', [], ran, by rw [reads, List.append_nil], by simp⟩
  | error stopped =>
    obtain ⟨cs, stop⟩ := stopped
    rw [scanned] at parses valid
    obtain ⟨next, returned, rejected⟩ := parses
    have holds := rejected_holds rejected
    refine ⟨-1, next, returned, ?_, neoExecRun_reads holds rejected.used⟩
    apply holds_wellFormed holds valid (Or.inr rfl) _ rejected.free rejected.room rejected.used
    · intro accepted
      exact absurd accepted (by decide)
    · rw [rejected.error]
      simp

end NeoSfp
