import NeoSfp.Spelling
import NeoSfp.Submissions

/-!
# Driving the shell

A host that types lines can do to the bus and the port whatever it wants. Each of its
actions is a line; the shell echoes it, carries the action out and answers, and the
next action finds it as the first one did.
-/

namespace NeoSfp

/-- What a host can ask for in one line. -/
inductive Action where
  | bus (cs : List TwiCmd)
  | set (b : UInt8)
  | get
  | help
deriving DecidableEq, Repr

namespace Action

/-- The line to type. -/
def text : Action → Text
  | .bus cs => spelled cs
  | .set b => bytes "out_" ++ bitsText b 8
  | .get => bytes "inp"
  | .help => bytes "help"

def calls : Action → List HalCall
  | .bus cs => cs.flatMap TwiCmd.frame
  | .set b => [.gpioWriteByte b]
  | .get => [.gpioReadByte]
  | .help => []

/-- What is answered behind a history of calls. -/
def answer (hal : Hal) (h : List HalCall) : Action → List UInt8
  | .bus cs => chainReport hal h cs
  | .set b => bytes "gpio <= " ++ bitsText b 8 ++ [byte '\n']
  | .get => bytes "gpio => " ++ bitsText (hal.gpioReadByte h) 8 ++ [byte '\n']
  | .help => bytes helpText

/-- A chain has to be one that can be expressed, in a line that can be typed. -/
def Admissible : Action → Prop
  | .bus cs => Expressible cs ∧ (spelled cs).length < neoParserLineMax
  | _ => True

/-- The calls and the output behind an action: its line is echoed, carried out and
answered, and the prompt printed. -/
def perform (hal : Hal) (s : List HalCall × List UInt8) (a : Action) : List HalCall × List UInt8 :=
  (s.1 ++ a.calls, s.2 ++ (a.text ++ byte '\n' :: (a.answer hal s.1 ++ bytes "> ")))

end Action

/-- The lines of some actions, each with the newline behind it. -/
def script (actions : List Action) : List UInt8 := actions.flatMap fun a => a.text ++ [byte '\n']

/-! ## A line typed -/

/-- A character of the grammar is no NUL, ends no line and erases nothing, so it arrives
as it is typed. -/
theorem allowed_typed {c : UInt8} (fine : allowed c = true) :
    c ≠ 0 ∧ endsLine c = false ∧ erases c = false := by
  refine ⟨?_, ?_, ?_⟩
  · rintro rfl
    exact absurd fine (by decide)
  · rw [endsLine, Bool.or_eq_false_iff, beq_eq_false_iff_ne, beq_eq_false_iff_ne]
    constructor <;> rintro rfl <;> exact absurd fine (by decide)
  · rw [erases, Bool.or_eq_false_iff, beq_eq_false_iff_ne, beq_eq_false_iff_ne]
    constructor <;> rintro rfl <;> exact absurd fine (by decide)

/-- What a line denotes is called and answered when the line is handled. -/
theorem line_textReport {text : Text} {parsed : Parsed} (start : skipBlanks text = text)
    (nulFree : 0 ∉ text) (derived : Line text parsed) (hal : Hal) (h : List HalCall) :
    textCalls (CString.ofBuffer text) = scannedCalls (.ok parsed) ∧
      textReport hal h (CString.ofBuffer text) = scannedReport hal h text (.ok parsed) := by
  have whole : (CString.ofBuffer text).chars = text := by
    rw [← ofBuffer_line text []]
    exact ofBuffer_chars text [] nulFree
  have scanned := (scanLine_exact text parsed).mpr derived
  rw [textCalls, textReport, whole, start, scanned]
  exact ⟨rfl, rfl⟩

/-- A special line begins with its word, so no blank is skipped. -/
theorem special_skipBlanks {p : Text} {entry : NeoCmd} (derived : SpecialLine p entry) :
    skipBlanks p = p := by
  cases derived with
  | out length digits blanks =>
    rw [bytes_out]
    rfl
  | inp blanks =>
    rw [bytes_inp]
    rfl
  | help blanks =>
    rw [bytes_help]
    rfl
  | mark blanks =>
    rw [bytes_mark]
    rfl

namespace Action

/-- The line of an action is spelled with characters of the grammar. There is one case
for each action. -/
theorem text_allowed (a : Action) : ∀ ch ∈ a.text, allowed ch = true := by
  have out : (bytes "out_").all allowed = true := by decide
  have inp : (bytes "inp").all allowed = true := by decide
  have help : (bytes "help").all allowed = true := by decide
  cases a with
  | bus cs => exact spelled_allowed cs
  | set b =>
    exact List.forall_mem_append.mpr ⟨List.all_eq_true.mp out,
      fun ch member => allowed_bin (bitsText_digits b 8 ch member)⟩
  | get => exact List.all_eq_true.mp inp
  | help => exact List.all_eq_true.mp help

/-- The line of an admissible action fits the shell's buffer. -/
theorem text_short {a : Action} (admissible : a.Admissible) : a.text.length < neoParserLineMax := by
  cases a with
  | bus cs => exact admissible.2
  | set b =>
    simp [text, bytes_out, bitsText_length, neoParserLineMax]
  | get =>
    simp [text, bytes_inp, neoParserLineMax]
  | help =>
    simp [text, bytes_help, neoParserLineMax]

/-- The line of an admissible action is not empty. -/
theorem text_nonempty {a : Action} (admissible : a.Admissible) : a.text ≠ [] := by
  cases a with
  | bus cs =>
    intro empty
    have start := chain_start (chain_spelled admissible.1.nonempty admissible.1.spellable)
    have empty : spelled cs = [] := empty
    simp [empty, startsCmd] at start
  | set b =>
    rw [text, bytes_out]
    exact List.cons_ne_nil _ _
  | get =>
    rw [text, bytes_inp]
    exact List.cons_ne_nil _ _
  | help =>
    rw [text, bytes_help]
    exact List.cons_ne_nil _ _

/-- An action's line leads to its calls and its answer, because the grammar derives from
it what the action asks for. -/
theorem text_denotes {a : Action} (admissible : a.Admissible) (hal : Hal) (h : List HalCall) :
    textCalls (CString.ofBuffer a.text) = a.calls ∧
      textReport hal h (CString.ofBuffer a.text) = a.answer hal h := by
  have nulFree : 0 ∉ a.text := fun member => (allowed_typed (a.text_allowed 0 member)).1 rfl
  cases a with
  | bus cs =>
    obtain ⟨⟨nonempty, spellable, fits⟩, -⟩ := admissible
    have derived := chain_spelled nonempty spellable
    exact line_textReport (skipBlanks_start (chain_start derived)) nulFree (.chain derived fits) hal h
  | set b =>
    have derived := SpecialLine.out (bitsText_length b 8) (bitsText_digits b 8) (show Blanks [] by simp [Blanks])
    have value : UInt8.ofNat (numeral 2 (bitsText b 8)) = b := by
      rw [numeral_bitsText, Nat.mod_eq_of_lt (UInt8.toNat_lt b), UInt8.ofNat_toNat]
    rw [List.append_nil, value] at derived
    exact line_textReport (special_skipBlanks derived) nulFree (.special derived) hal h
  | get =>
    have derived := SpecialLine.inp (show Blanks [] by simp [Blanks])
    rw [List.append_nil] at derived
    exact line_textReport (special_skipBlanks derived) nulFree (.special derived) hal h
  | help =>
    have derived := SpecialLine.help (show Blanks [] by simp [Blanks])
    rw [List.append_nil] at derived
    exact line_textReport (special_skipBlanks derived) nulFree (.special derived) hal h

end Action

/-! ## Scripts -/

/-- Characters of a line that is not full are echoed and held. By induction on them. -/
theorem takes_plain (hal : Hal) (s : Dialogue) (text : List UInt8)
    (plain : ∀ c ∈ text, endsLine c = false ∧ erases c = false)
    (room : (s.held ++ text).length < neoParserLineMax) :
    s.takes hal text = { s with held := s.held ++ text, output := s.output ++ text } := by
  induction text generalizing s with
  | nil => simp [Dialogue.takes]
  | cons c text ih =>
    obtain ⟨⟨continues, stores⟩, others⟩ := List.forall_mem_cons.mp plain
    have grouped : s.held ++ c :: text = (s.held ++ [c]) ++ text := by simp
    have edited : s.edit c = { s with held := s.held ++ [c], output := s.output ++ [c] } := by
      rw [Dialogue.edit, stores]
      rfl
    rw [grouped] at room
    have shorter : (s.held ++ [c]).length < neoParserLineMax := by
      rw [List.length_append] at room
      omega
    have step : s.take hal c = s.edit c := by
      rw [Dialogue.take, continues, if_neg Bool.false_ne_true, edited, if_neg (Nat.ne_of_lt shorter)]
    rw [Dialogue.takes_cons, step, edited, ih _ others room]
    simp

/-- Submitting the line of an action makes its calls, prints its answer and then the
prompt. -/
theorem submit_action (hal : Hal) {a : Action} (admissible : a.Admissible) (s : Dialogue)
    (typed : s.held = a.text) : s.submit hal =
      { held := []
        calls := s.calls ++ a.calls
        output := s.output ++ (a.answer hal s.calls ++ bytes "> ") } := by
  obtain ⟨called, answered⟩ := Action.text_denotes admissible hal s.calls
  rw [Dialogue.submit, typed, if_neg (Action.text_nonempty admissible)]
  simp only [called, answered]

/-- A host's line takes the dialogue from one prompt to the next, which is what lets
actions follow one another. -/
theorem takes_action (hal : Hal) {a : Action} (admissible : a.Admissible) (s : Dialogue)
    (prompt : s.held = []) :
    s.takes hal (a.text ++ [byte '\n']) =
      { held := []
        calls := (a.perform hal (s.calls, s.output)).1
        output := (a.perform hal (s.calls, s.output)).2 } := by
  have plain : ∀ c ∈ a.text, endsLine c = false ∧ erases c = false :=
    fun c member => (allowed_typed (a.text_allowed c member)).2
  have room : (s.held ++ a.text).length < neoParserLineMax := by
    rw [prompt]
    exact Action.text_short admissible
  have typed := takes_plain hal s a.text plain room
  rw [prompt, List.nil_append] at typed
  rw [Dialogue.takes_append, typed, Dialogue.takes, List.foldl_cons, List.foldl_nil, Dialogue.take,
    if_pos endsLine_lf, submit_action hal admissible _ rfl]
  simp [Dialogue.put, Action.perform]

/-- A script is carried out action by action. By induction on the actions, from prompt
to prompt. -/
theorem takes_script (hal : Hal) (actions : List Action) (admissible : ∀ a ∈ actions, a.Admissible)
    (s : Dialogue) (prompt : s.held = []) :
    ((s.takes hal (script actions)).calls, (s.takes hal (script actions)).output) =
      actions.foldl (Action.perform hal) (s.calls, s.output) := by
  induction actions generalizing s with
  | nil => rfl
  | cons a actions ih =>
    obtain ⟨first, others⟩ := List.forall_mem_cons.mp admissible
    rw [script, List.flatMap_cons, ← script, Dialogue.takes_append, takes_action hal first s prompt,
      ih others _ rfl, List.foldl_cons]

/-- Every script that a host types is carried out, action by action: the shell makes the
calls of its actions and no others, and prints for each one its line, its answer and a
prompt. The shell follows the machine, which an action's line takes from prompt to
prompt. -/
theorem neoAppRun_script (hal : Hal) (twiAvailable gpioAvailable : Bool) (actions : List Action)
    (admissible : ∀ a ∈ actions, a.Admissible) (line : Memory) (txn : NeoTxn) (exec : ExecState)
    (rounds : Nat) (enough : (script actions).length < rounds) :
    ∃ s, neoAppRun hal twiAvailable gpioAvailable rounds
        { line := line, txn := txn, exec := exec, input := script actions } = .ok s ∧
      s.input = [] ∧
      (s.exec.calls, s.exec.output) = actions.foldl (Action.perform hal)
        (exec.calls, exec.output ++ (greeting twiAvailable gpioAvailable ++ bytes "> ")) := by
  obtain ⟨s, loop, drained, calls, output⟩ := appLoop_dialogue hal rounds
    (start_prompted twiAvailable gpioAvailable line txn exec (script actions)) enough
  have played := takes_script hal actions admissible (Dialogue.start twiAvailable gpioAvailable exec) rfl
  refine ⟨s, loop, drained, ?_⟩
  rw [calls, output]
  exact played

/-- Read the port, then send one byte to a device. -/
def readThenSend : List Action := [.get, .bus [.write 0xA0 0x50 [0x01]]]

/-- Both actions may be asked for. -/
theorem readThenSend_admissible : ∀ a ∈ readThenSend, a.Admissible := by
  have fits : Fits 0 0 [.write 0xA0 0x50 [0x01]] :=
    { count := by decide, each := by simp [TwiCmd.payload], total := by decide }
  have expressible : Expressible [.write 0xA0 0x50 [0x01]] :=
    ⟨List.cons_ne_nil _ _, by simp [TwiCmd.Spellable], fits⟩
  have short : (spelled [.write 0xA0 0x50 [0x01]]).length = 9 := by decide
  simp only [readThenSend, List.forall_mem_cons, Action.Admissible, neoParserLineMax, short]
  exact ⟨trivial, ⟨expressible, by omega⟩, by simp⟩

/-- A script of two actions, on devices that acknowledge. -/
theorem neoAppRun_script_readThenSend :
    ∃ s, neoAppRun acknowledging true true 15
        { line := fun _ => 0, txn := NeoTxn.zero, exec := {}, input := script readThenSend } = .ok s ∧
      s.input = [] ∧
      (s.exec.calls, s.exec.output) = readThenSend.foldl (Action.perform acknowledging)
        ([], [] ++ (greeting true true ++ bytes "> ")) :=
  neoAppRun_script acknowledging true true readThenSend readThenSend_admissible _ _ {} 15 (by decide)

end NeoSfp
