import NeoSfp.Dialogue

/-!
# Submitted texts

A stream of characters submits texts, whatever anybody answers: each one is what is
left of the characters typed since the last one when a line ends or the buffer is
full. A dialogue's calls are those of its texts, one after the other, each on its
own. So a correction made while a line is typed leaves no trace in what is called,
and the bus is released whenever a line has been handled.
-/

namespace NeoSfp

/-- The texts that a stream of characters submits behind those held. -/
def submissions : List UInt8 → List UInt8 → List (List UInt8)
  | _, [] => []
  | held, c :: input =>
    if endsLine c then held :: submissions [] input
    else if (editChar held c).length = neoParserLineMax then
      editChar held c :: submissions [] input
    else submissions (editChar held c) input

/-! ## Calls of a dialogue -/

/-- A character that continues the line edits the stack of the dialogue. -/
theorem edit_held (s : Dialogue) {c : UInt8} (continues : endsLine c = false) :
    (s.edit c).held = editChar s.held c := by
  unfold Dialogue.edit editChar
  rw [continues, if_neg Bool.false_ne_true]
  split_ifs with drops empty
  · rw [empty]
    rfl
  · rfl
  · rfl

/-- A character that continues the line makes no call. -/
theorem edit_calls (s : Dialogue) (c : UInt8) : (s.edit c).calls = s.calls := by
  unfold Dialogue.edit
  split_ifs <;> rfl

/-- Behind a line that is submitted the stack is empty. -/
theorem submit_held (hal : Hal) (s : Dialogue) : (s.submit hal).held = [] := by
  unfold Dialogue.submit
  split_ifs with empty
  · exact empty
  · rfl

/-- The text of an empty line leads to no calls. -/
theorem textCalls_empty : textCalls (CString.ofBuffer []) = [] := rfl

/-- A line that is submitted makes the calls of its text. -/
theorem submit_calls (hal : Hal) (s : Dialogue) :
    (s.submit hal).calls = s.calls ++ textCalls (CString.ofBuffer s.held) := by
  unfold Dialogue.submit
  split_ifs with empty
  · rw [empty, textCalls_empty, List.append_nil]
    rfl
  · rfl

/-- What a dialogue calls is fixed by the texts submitted. By induction on the
characters typed. -/
theorem takes_calls (hal : Hal) (s : Dialogue) (input : List UInt8) :
    (s.takes hal input).calls = s.calls ++
      (submissions s.held input).flatMap fun text => textCalls (CString.ofBuffer text) := by
  induction input generalizing s with
  | nil => simp [Dialogue.takes, submissions]
  | cons c input ih =>
    rw [Dialogue.takes_cons, ih, submissions]
    unfold Dialogue.take
    cases ends : endsLine c with
    | true =>
      rw [if_pos rfl, if_pos rfl, submit_held, submit_calls, List.flatMap_cons, List.append_assoc]
      rfl
    | false =>
      have held := edit_held s ends
      rw [if_neg Bool.false_ne_true, if_neg Bool.false_ne_true, held]
      split_ifs with full
      · rw [submit_held, submit_calls, held, edit_calls, List.flatMap_cons, List.append_assoc]
      · rw [held, edit_calls]

/-! ## Runs of any length -/

/-- The machine only adds to what it has printed, whichever character comes. -/
theorem take_output (hal : Hal) (s : Dialogue) (c : UInt8) : s.output <+: (s.take hal c).output := by
  have submits (u : Dialogue) : u.output <+: (u.submit hal).output := by
    unfold Dialogue.submit
    split_ifs
    · exact List.prefix_append _ _
    · exact List.prefix_append _ _
  have edits : s.output <+: (s.edit c).output := by
    unfold Dialogue.edit
    split_ifs
    · exact List.prefix_rfl
    · exact List.prefix_append _ _
    · exact List.prefix_append _ _
  unfold Dialogue.take
  split_ifs
  · exact (List.prefix_append _ _).trans (submits (s.put [byte '\n']))
  · exact edits.trans (submits _)
  · exact edits

/-- Any number of characters only add to what has been printed. By induction on them. -/
theorem takes_output (hal : Hal) (s : Dialogue) (input : List UInt8) :
    s.output <+: (s.takes hal input).output := by
  induction input generalizing s with
  | nil => exact List.prefix_rfl
  | cons c input ih => exact (take_output hal s c).trans (ih _)

/-- Between two prompts the shell has added what the machine has, since both have
printed the same but for a prompt. -/
theorem prompted_output {s s' : Shell} {t t' : Dialogue} (first : Prompted s t)
    (second : Prompted s' t') (adds : t.output <+: t'.output) : s.exec.output <+: s'.exec.output := by
  rw [first.output, second.output] at adds
  have shorter := adds.length_le
  refine List.prefix_of_prefix_length_le ((List.prefix_append _ _).trans adds)
    (List.prefix_append _ _) ?_
  simp only [List.length_append] at shorter
  omega

/-- After any number of rounds the shell has made the calls of the machine behind
what it has read, and has printed nothing that the machine has not. -/
theorem appLoop_reaches (hal : Hal) (rounds : Nat) {s : Shell} {t : Dialogue}
    (prompted : Prompted s t) :
    ∃ p s', appLoop hal rounds s = .ok s' ∧ s.input = p ++ s'.input ∧
      s'.exec.calls = (t.takes hal p).calls ∧ s'.exec.output <+: (t.takes hal p).output ∧
      s.exec.output <+: s'.exec.output := by
  induction rounds generalizing s t with
  | zero =>
    refine ⟨[], s, rfl, rfl, prompted.calls.symm, ?_, List.prefix_rfl⟩
    rw [Dialogue.takes, List.foldl_nil, prompted.output]
    exact List.prefix_append _ _
  | succ rounds ih =>
    rw [appLoop]
    rcases appRound_dialogue hal prompted with ⟨s', round, drained, calls, output⟩ |
        ⟨p, s', split, -, round, reached⟩
    · refine ⟨s.input, s', by rw [round], ?_, calls, by rw [output], ?_⟩
      · rw [drained, List.append_nil]
      · rw [output]
        have printed : s.exec.output <+: t.output := by
          rw [prompted.output]
          exact List.prefix_append _ _
        exact printed.trans (takes_output hal t s.input)
    · obtain ⟨q, last, loop, split', calls, output, adds⟩ := ih reached
      have whole := t.takes_append hal p q
      refine ⟨p ++ q, last, ?_, ?_, ?_, ?_, ?_⟩
      · rw [round]
        exact loop
      · rw [split, split', List.append_assoc]
      · rw [calls, whole]
      · rw [whole]
        exact output
      · exact (prompted_output prompted reached (takes_output hal t p)).trans adds

/-- The calls of any number of rounds, on any stream: those that each text submitted so
far would lead to on its own, whatever the hardware has answered. The shell follows the
machine, and the machine's calls are those of its texts. -/
theorem neoAppRun_submissions (hal fresh : Hal) (twiAvailable gpioAvailable : Bool) (line : Memory)
    (txn : NeoTxn) (exec : ExecState) (input : List UInt8) (rounds : Nat) :
    ∃ s p, neoAppRun hal twiAvailable gpioAvailable rounds
        { line := line, txn := txn, exec := exec, input := input } = .ok s ∧
      input = p ++ s.input ∧
      s.exec.calls = exec.calls ++
        (submissions [] p).flatMap fun text => freshCalls fresh (CString.ofBuffer text) := by
  obtain ⟨p, s, loop, split, calls, -⟩ := appLoop_reaches hal rounds
    (start_prompted twiAvailable gpioAvailable line txn exec input)
  refine ⟨s, p, loop, split, ?_⟩
  simp only [calls, takes_calls, freshCalls_text]
  rfl

/-! ## The bus between lines -/

/-- The calls of a text are closed: every START has its STOP, and nothing is transferred
outside. -/
theorem textCalls_closed (text : CString) : Bus.Closed HalCall.kind (textCalls text) := by
  unfold textCalls
  cases scanned : scanLine (skipBlanks text.chars) with
  | error stopped => exact Bus.closed_nil _
  | ok parsed =>
    cases parsed with
    | chain cs => exact Bus.closed_flatMap _ _ cs fun c _ => frame_closed c
    | special entry =>
      rw [scannedCalls, specialCalls]
      cases entry.kind <;> rfl

/-- After any number of rounds, on any stream, the shell is still running; no byte has
been transferred but behind a START with no STOP in between, and behind every START
there has been a STOP. The calls are those of the texts submitted so far, each of which
is closed. -/
theorem neoAppRun_released (hal : Hal) (twiAvailable gpioAvailable : Bool) (line : Memory)
    (txn : NeoTxn) (exec : ExecState) (input : List UInt8) (rounds : Nat) :
    ∃ s made, neoAppRun hal twiAvailable gpioAvailable rounds
        { line := line, txn := txn, exec := exec, input := input } = .ok s ∧
      s.exec.calls = exec.calls ++ made ∧
      Bus.Guarded HalCall.kind made ∧ Bus.Released HalCall.kind made := by
  obtain ⟨p, s, loop, -, calls, -⟩ := appLoop_reaches hal rounds
    (start_prompted twiAvailable gpioAvailable line txn exec input)
  have closed : Bus.Closed HalCall.kind
      ((submissions [] p).flatMap fun text => textCalls (CString.ofBuffer text)) :=
    Bus.closed_flatMap _ _ _ fun text _ => textCalls_closed _
  refine ⟨s, _, loop, ?_, Bus.closed_guarded _ _ closed, Bus.closed_released _ _ closed⟩
  rw [calls, takes_calls]
  rfl

/-! ## Corrections -/

end NeoSfp
