import NeoSfp.BusTransactions
import NeoSfp.Delimiting

/-!
# Reading the report back

What a run prints is read back from the terminal. The lines are free of newlines,
so the output falls into them in one way only; the line of a write is a row of
triples; and the line of a read displayed in hex or binary gives back what the
device answered, as far as the executor looked at it.
-/

namespace NeoSfp

open Checked Delimiting

/-- A printable ASCII character. -/
def Printable (ch : UInt8) : Prop := 0x20 ≤ ch ∧ ch < 0x7F

instance (ch : UInt8) : Decidable (Printable ch) := inferInstanceAs (Decidable (_ ∧ _))

/-- What the hardware answers to the transfers among calls made behind a history. -/
def answers (hal : Hal) : List HalCall → List HalCall → List (Int × UInt8)
  | _, [] => []
  | h, .twiTrans v hostAck :: calls =>
    hal.twiTrans h v hostAck :: answers hal (h ++ [.twiTrans v hostAck]) calls
  | h, c :: calls => answers hal (h ++ [c]) calls

/-- The answers to a command of a chain that is run behind a history. -/
def heard (hal : Hal) (h : List HalCall) (cs : List TwiCmd) (i : Nat) (c : TwiCmd) :
    List (Int × UInt8) :=
  answers hal (h ++ (cs.take i).flatMap TwiCmd.frame) c.frame

/-- A sent byte in two uppercase hex digits, with the sign of its acknowledge. -/
def triple (sent : UInt8 × (Int × UInt8)) : List UInt8 := hexText sent.1 ++ [ackMark sent.2.1]

/-- Whether the control byte and the internal address were acknowledged. -/
def headerAcks (heard : List (Int × UInt8)) : List Bool := (heard.take 2).map fun a => a.1 == 0

/-- The received bytes, a missing one for each NACK in front of the last. -/
def receivedBytes : List (Int × UInt8) → List (Option UInt8)
  | [] => []
  | [last] => [some last.2]
  | answer :: others => (if answer.1 = 0 then some answer.2 else none) :: receivedBytes others

/-- The lines that a run on a record prints: each is ended by a newline, and
nothing else in it is unprintable. -/
structure Prints (hal : Hal) (txn : NeoTxn) (s : ExecState) (lines : List Text) : Prop where
  output : ∃ s', neoExecRun hal txn s = .ok ⟨⟩ s' ∧
    s'.output = s.output ++ lines.flatMap fun line => line ++ [byte '\n']
  printable : ∀ line ∈ lines, ∀ ch ∈ line, Printable ch

/-! ## Texts of one byte -/

/-- The sixteen characters of the source's table are printable. -/
theorem table_printable : ∀ n < 16, Printable ((bytes "0123456789ABCDEF").getD n 0) := by decide

/-- Each character of the source's table is the digit of its place. -/
theorem table_value : ∀ n < 16, hexVal ((bytes "0123456789ABCDEF").getD n 0) = n := by decide

/-- The low four bits of a byte select one of the sixteen characters. -/
theorem nibble_lt (v : UInt8) : (v &&& 0xF).toNat < 16 := by
  rw [UInt8.toNat_and]
  exact Nat.lt_of_le_of_lt Nat.and_le_right (by decide)

/-- A hex digit is printable, whatever the byte it is taken from. -/
theorem hexChar_printable (v : UInt8) : Printable (hexChar v) := table_printable _ (nibble_lt v)

/-- A hex digit has the value of the low four bits it is printed for. -/
theorem hexVal_hexChar (v : UInt8) : hexVal (hexChar v) = (v &&& 0xF).toNat :=
  table_value _ (nibble_lt v)

/-- No hex digit is the sign of a missing byte: the sign has no value. -/
theorem hexChar_ne (v : UInt8) : hexChar v ≠ byte '-' := by
  intro same
  have value := hexVal_hexChar v
  rw [same] at value
  have negative : hexVal (byte '-') = -1 := by decide
  omega

/-- Two hex digits tell all bytes apart, since each half is read back. -/
theorem hexText_injective : Function.Injective hexText := by
  intro a b same
  obtain ⟨high, low⟩ := List.cons.inj same
  have high : hexVal (hexChar (a >>> 4)) = hexVal (hexChar (b >>> 4)) := congrArg hexVal high
  have low : hexVal (hexChar a) = hexVal (hexChar b) := congrArg hexVal (List.cons.inj low).1
  have mask (n : Nat) : n &&& 15 = n % 16 := Nat.and_two_pow_sub_one_eq_mod n 4
  rw [hexVal_hexChar, hexVal_hexChar] at high low
  simp only [UInt8.toNat_and, UInt8.toNat_shiftRight, UInt8.reduceToNat, mask] at high low
  have first := UInt8.toNat_lt a
  have second := UInt8.toNat_lt b
  rw [← UInt8.toNat_inj]
  simp only [Nat.shiftRight_eq_div_pow, Nat.reduceMod, Nat.reducePow] at high
  omega

/-- Printed bits that agree belong to bytes that agree in them. By induction on the
bits. -/
theorem bitsText_testBit {a b : UInt8} {left : Nat} (same : bitsText a left = bitsText b left) :
    ∀ i < left, a.toNat.testBit i = b.toNat.testBit i := by
  induction left with
  | zero =>
    intro i inside
    omega
  | succ left ih =>
    intro i inside
    obtain ⟨first, others⟩ := List.cons.inj same
    rcases Nat.lt_succ_iff_lt_or_eq.mp inside with lower | top
    · exact ih others i lower
    · subst top
      cases bit : a.toNat.testBit i <;> cases bit' : b.toNat.testBit i <;> simp [bit, bit'] at first <;> rfl

/-- Eight bits tell all bytes apart. -/
theorem bitsText_injective : Function.Injective fun b => bitsText b 8 := by
  intro a b same
  rw [← UInt8.toNat_inj]
  apply Nat.eq_of_testBit_eq
  intro i
  by_cases inside : i < 8
  · exact bitsText_testBit same i inside
  · have wide : 2 ^ 8 ≤ 2 ^ i := Nat.pow_le_pow_right (by decide) (by omega)
    rw [Nat.testBit_lt_two_pow (Nat.lt_of_lt_of_le (UInt8.toNat_lt a) wide),
      Nat.testBit_lt_two_pow (Nat.lt_of_lt_of_le (UInt8.toNat_lt b) wide)]

/-- As many bits are printed as were asked for. -/
theorem bitsText_length (b : UInt8) (left : Nat) : (bitsText b left).length = left := by
  induction left with
  | zero => rfl
  | succ left ih => rw [bitsText, List.length_cons, ih]

/-- A byte in hex is printable. -/
theorem hexText_printable (b : UInt8) : ∀ ch ∈ hexText b, Printable ch := by
  simp [hexText, hexChar_printable]

/-- A byte in binary is printable. By induction on the bits. -/
theorem bitsText_printable (b : UInt8) (left : Nat) : ∀ ch ∈ bitsText b left, Printable ch := by
  induction left with
  | zero => simp [bitsText]
  | succ left ih =>
    rw [bitsText, List.forall_mem_cons]
    constructor
    · split
      · decide
      · decide
    · exact ih

/-- Whatever the byte, its text is printable in every format: as a character it is
replaced by a dot where it is not. -/
theorem byteText_printable (b : UInt8) (fmt : NeoFmt) : ∀ ch ∈ byteText b fmt, Printable ch := by
  cases fmt with
  | hex => exact hexText_printable b
  | bin => exact bitsText_printable b 8
  | none => exact hexText_printable b
  | ascii =>
    intro ch member
    rw [byteText, List.mem_singleton] at member
    rw [member]
    split
    · assumption
    · decide

/-- The mark of an acknowledge is printable, and so is that of a missing one. -/
theorem ackMark_printable (ack : Int) : Printable (ackMark ack) := by
  unfold ackMark
  split
  · decide
  · decide

/-! ## Texts of a command -/

/-- The answers to calls in two parts: those of the second are given behind the history
of the first. -/
theorem answers_append (hal : Hal) (h first second : List HalCall) :
    answers hal h (first ++ second) = answers hal h first ++ answers hal (h ++ first) second := by
  induction first generalizing h with
  | nil => simp [answers]
  | cons c first ih => cases c <;> simp [answers, ih]

/-- A START is not answered, but it is part of the history. -/
theorem answers_start (hal : Hal) (h calls : List HalCall) :
    answers hal h (.twiStart :: calls) = answers hal (h ++ [.twiStart]) calls := rfl

/-- A STOP is not answered. -/
theorem answers_stop (hal : Hal) (h : List HalCall) : answers hal h [.twiStop] = [] := rfl

/-- There is one answer for each transfer. By induction on the calls. -/
theorem answers_length (hal : Hal) (h calls : List HalCall)
    (transfers : ∀ e ∈ calls, e.kind = .transfer) :
    (answers hal h calls).length = calls.length := by
  induction calls generalizing h with
  | nil => rfl
  | cons call calls ih =>
    obtain ⟨first, others⟩ := List.forall_mem_cons.mp transfers
    cases call with
    | twiTrans v hostAck => rw [answers, List.length_cons, List.length_cons, ih _ others]
    | twiStart => simp [HalCall.kind] at first
    | twiStop => simp [HalCall.kind] at first
    | gpioWriteByte v => simp [HalCall.kind] at first
    | gpioReadByte => simp [HalCall.kind] at first

/-- Only the transfers of a frame are answered, behind its START. -/
theorem answers_frame (hal : Hal) (h : List HalCall) (c : TwiCmd) :
    answers hal h c.frame = answers hal (h ++ [.twiStart]) c.transfers := by
  rw [TwiCmd.frame, answers_start, answers_append, answers_stop, List.append_nil]

/-- The report of bytes sent is a triple for each, made of the byte and of its answer.
By induction on the bytes. -/
theorem sendReport_triples (hal : Hal) (h : List HalCall) (vs : List UInt8) :
    sendReport hal h vs = (vs.zip (answers hal h (sendTransfers vs))).flatMap triple := by
  induction vs generalizing h with
  | nil => rfl
  | cons v vs ih =>
    rw [sendReport, ih, sendTransfers_cons, answers_append]
    simp [sendTransfers, answers, triple]

/-- The transfers that receive the last `left` bytes. -/
def receiveRest : Nat → List HalCall
  | 0 => []
  | left + 1 => .twiTrans 0xFF (if left = 0 then 0 else 1) :: receiveRest left

/-- The transfers that are left, counted up as the source does and down as the proofs
do, are the same. -/
theorem receiveRest_range (left i len : Nat) (remaining : i + left = len) :
    ((List.range' i left).map fun i => HalCall.twiTrans 0xFF (if i + 1 = len then 0 else 1)) =
      receiveRest left := by
  induction left generalizing i with
  | zero => rfl
  | succ left ih =>
    have last : i + 1 = len ↔ left = 0 := by omega
    rw [List.range'_succ, List.map_cons, ih (i + 1) (by omega), receiveRest]
    simp only [last]

/-- All transfers of a read are those left at its beginning. -/
theorem receiveTransfers_rest (len : Nat) : receiveTransfers len = receiveRest len := by
  rw [receiveTransfers, List.range_eq_range', receiveRest_range len 0 len (Nat.zero_add len)]

/-- The text of a received byte, or of a missing one. -/
def receivedItem (fmt : NeoFmt) : Option UInt8 → List UInt8 :=
  markedText (byte '-') fun b => byteText b fmt

/-- The report of received bytes is an item for each answer. By induction on the bytes
left, of which only the last is printed in any case. -/
theorem receiveReport_items (hal : Hal) (fmt : NeoFmt) (h : List HalCall) (left : Nat) :
    receiveReport hal fmt h left =
      (receivedBytes (answers hal h (receiveRest left))).flatMap (receivedItem fmt) := by
  induction left generalizing h with
  | zero => rfl
  | succ left ih =>
    rw [receiveReport, ih, receiveRest]
    cases left with
    | zero => simp [receiveRest, answers, receivedBytes, receivedText, receivedItem, markedText]
    | succ left =>
      by_cases ack : (hal.twiTrans h 0xFF 1).1 = 0
      · simp [receiveRest, answers, receivedBytes, receivedText, receivedItem, markedText, ack]
      · simp [receiveRest, answers, receivedBytes, receivedText, receivedItem, markedText, ack]

/-- There is one item for each answer. -/
theorem receivedBytes_length (heard : List (Int × UInt8)) :
    (receivedBytes heard).length = heard.length := by
  fun_induction receivedBytes heard with
  | case1 => rfl
  | case2 last => rfl
  | case3 answer others _ ih => rw [List.length_cons, List.length_cons, ih]

/-- The triple of a sent byte is printable. -/
theorem triple_printable (sent : UInt8 × (Int × UInt8)) : ∀ ch ∈ triple sent, Printable ch := by
  intro ch member
  rcases List.mem_append.mp member with digits | sign
  · exact hexText_printable sent.1 ch digits
  · rw [List.mem_singleton.mp sign]
    exact ackMark_printable sent.2.1

/-- The item of a received byte is printable, and so is that of a missing one. -/
theorem receivedItem_printable (fmt : NeoFmt) (item : Option UInt8) :
    ∀ ch ∈ receivedItem fmt item, Printable ch := by
  have mark : Printable (byte '-') := by decide
  intro ch member
  cases item with
  | none =>
    rw [List.mem_singleton.mp member]
    exact mark
  | some b =>
    rcases List.mem_append.mp member with text | sign
    · exact byteText_printable b fmt ch text
    · rw [List.mem_singleton.mp sign]
      exact mark

/-- In hex and in binary the text of a byte does not begin like a missing one. -/
theorem byteText_distinct (fmt : NeoFmt) (shown : fmt = .hex ∨ fmt = .bin) (b : UInt8) :
    ∃ first rest, byteText b fmt = first :: rest ∧ first ≠ byte '-' := by
  rcases shown with rfl | rfl
  · exact ⟨_, _, rfl, hexChar_ne (b >>> 4)⟩
  · refine ⟨_, _, rfl, ?_⟩
    split
    · decide
    · decide

/-- In hex and in binary the items can be told apart in a row: those of bytes are
equally long, and that of a missing byte begins differently. -/
theorem receivedItem_delimited (fmt : NeoFmt) (shown : fmt = .hex ∨ fmt = .bin) :
    SelfDelimiting Set.univ (receivedItem fmt) := by
  refine marked (byte '-') ?_ (byteText_distinct fmt shown)
  rcases shown with rfl | rfl
  · exact fixed_width Set.univ hexText 2 (fun b => rfl) hexText_injective
  · exact fixed_width Set.univ (fun b => bitsText b 8) 8 (fun b => bitsText_length b 8)
      bitsText_injective

/-! ## Lines of a chain -/

/-- A write's line is a row of triples: control byte, address and payload, each with its
answer. -/
theorem report_write (hal : Hal) (h : List HalCall) (ctrl addr : UInt8) (payload : List UInt8) :
    (TwiCmd.write ctrl addr payload).report hal h =
      ((ctrl :: addr :: payload).zip
        (answers hal h (TwiCmd.write ctrl addr payload).frame)).flatMap triple := by
  rw [TwiCmd.report, sendReport_triples, answers_frame]
  rfl

/-- A read's line: two triples for the header, then an item for each byte. -/
theorem report_read (hal : Hal) (h : List HalCall) (ctrl addr : UInt8) (len : Nat) (fmt : NeoFmt) :
    ∃ first second data,
      answers hal h (TwiCmd.read ctrl addr len fmt).frame = first :: second :: data ∧
      data.length = len ∧
      (TwiCmd.read ctrl addr len fmt).report hal h = triple (ctrl, first) ++
        (triple (addr, second) ++ (receivedBytes data).flatMap (receivedItem fmt)) := by
  have many : (receiveRest len).length = len := by
    rw [← receiveTransfers_rest, receiveTransfers, List.length_map, List.length_range]
  have transfers : ∀ e ∈ receiveRest len, e.kind = .transfer := by
    intro e member
    refine transfers_kind (.read ctrl addr len fmt) e (List.mem_append_right _ ?_)
    rwa [receiveTransfers_rest]
  refine ⟨hal.twiTrans (h ++ [.twiStart]) ctrl 0,
    hal.twiTrans (h ++ [.twiStart] ++ sendTransfers [ctrl]) addr 0,
    answers hal (h ++ .twiStart :: sendTransfers [ctrl, addr]) (receiveRest len), ?_, ?_, ?_⟩
  · rw [answers_frame, TwiCmd.transfers, receiveTransfers_rest, answers_append]
    simp [sendTransfers, answers]
  · rw [answers_length hal _ _ transfers, many]
  · rw [TwiCmd.report, receiveReport_items, sendReport_triples]
    simp [sendTransfers, answers]

/-- The line of a command is printable, whether it writes or reads. -/
theorem report_printable (hal : Hal) (h : List HalCall) (c : TwiCmd) :
    ∀ ch ∈ c.report hal h, Printable ch := by
  intro ch member
  cases c with
  | write ctrl addr payload =>
    rw [report_write] at member
    obtain ⟨sent, -, inside⟩ := List.mem_flatMap.mp member
    exact triple_printable sent ch inside
  | read ctrl addr len fmt =>
    obtain ⟨first, second, data, -, -, text⟩ := report_read hal h ctrl addr len fmt
    rw [text, List.mem_append, List.mem_append, List.mem_flatMap] at member
    rcases member with header | header | ⟨item, -, inside⟩
    · exact triple_printable _ ch header
    · exact triple_printable _ ch header
    · exact receivedItem_printable fmt item ch inside

/-- The lines of a chain behind a history, each at its command's place. -/
def chainLines (hal : Hal) : List HalCall → List TwiCmd → List Text
  | _, [] => []
  | h, c :: cs => c.report hal h :: chainLines hal (h ++ c.frame) cs

/-- What a chain prints is its lines, each followed by a newline. By induction on the
commands. -/
theorem chainReport_lines (hal : Hal) (h : List HalCall) (cs : List TwiCmd) :
    chainReport hal h cs = (chainLines hal h cs).flatMap fun line => line ++ [byte '\n'] := by
  induction cs generalizing h with
  | nil => rfl
  | cons c cs ih => simp [chainReport, chainLines, ih]

/-- A chain has one line for each command. -/
theorem chainLines_length (hal : Hal) (h : List HalCall) (cs : List TwiCmd) :
    (chainLines hal h cs).length = cs.length := by
  induction cs generalizing h with
  | nil => rfl
  | cons c cs ih => rw [chainLines, List.length_cons, List.length_cons, ih]

/-- The line of a command is its report behind the calls of the commands before it. By
induction on them. -/
theorem chainLines_at (hal : Hal) (h : List HalCall) (cs : List TwiCmd) (i : Nat) (c : TwiCmd)
    (found : cs[i]? = some c) :
    (chainLines hal h cs)[i]? = some (c.report hal (h ++ (cs.take i).flatMap TwiCmd.frame)) := by
  induction cs generalizing h i with
  | nil => simp at found
  | cons first cs ih =>
    cases i with
    | zero =>
      have same : first = c := by simpa using found
      simp [chainLines, same]
    | succ i =>
      have behind : cs[i]? = some c := by simpa using found
      simp [chainLines, ih _ i behind]

/-- All lines of a chain are printable. -/
theorem chainLines_printable (hal : Hal) (h : List HalCall) (cs : List TwiCmd) :
    ∀ line ∈ chainLines hal h cs, ∀ ch ∈ line, Printable ch := by
  induction cs generalizing h with
  | nil => simp [chainLines]
  | cons c cs ih =>
    rw [chainLines, List.forall_mem_cons]
    constructor
    · exact report_printable hal h c
    · exact ih _

/-- A printable line holds no newline, so it ends at the first one. -/
theorem printable_ended {line : Text} (printable : ∀ ch ∈ line, Printable ch) : byte '\n' ∉ line := by
  intro member
  exact absurd (printable _ member) (by decide)

/-- The lines that a chain prints are the only ones its output falls into. -/
theorem prints_chain {hal : Hal} {txn : NeoTxn} {s : ExecState} {cs : List TwiCmd}
    (holds : Holds txn cs) (lines : List Text) :
    Prints hal txn s lines ↔ lines = chainLines hal s.calls cs := by
  have run := neoExecRun_chain hal txn cs s holds
  constructor
  · intro prints
    obtain ⟨s', returned, output⟩ := prints.output
    rw [run] at returned
    cases returned
    have texts := List.append_cancel_left output
    rw [chainReport_lines] at texts
    refine text_injective (terminated (byte '\n')) ?_ lines _ ?_ ?_ texts.symm
    · intro line
      simp
    · intro line member
      exact printable_ended (prints.printable line member)
    · intro line member
      exact printable_ended (chainLines_printable hal s.calls cs line member)
  · intro same
    subst same
    constructor
    · exact ⟨_, run, by rw [chainReport_lines]⟩
    · exact chainLines_printable hal s.calls cs

/-- Equal lines of a read displayed in hex or binary come from answers that agree
in all the line is meant to show. -/
theorem read_decoded {hal hal' : Hal} {h h' : List HalCall} {ctrl addr : UInt8} {len : Nat}
    {fmt : NeoFmt} (shown : fmt = .hex ∨ fmt = .bin)
    (same : (TwiCmd.read ctrl addr len fmt).report hal h =
      (TwiCmd.read ctrl addr len fmt).report hal' h') :
    headerAcks (answers hal h (TwiCmd.read ctrl addr len fmt).frame) =
        headerAcks (answers hal' h' (TwiCmd.read ctrl addr len fmt).frame) ∧
      receivedBytes ((answers hal h (TwiCmd.read ctrl addr len fmt).frame).drop 2) =
        receivedBytes ((answers hal' h' (TwiCmd.read ctrl addr len fmt).frame).drop 2) := by
  obtain ⟨first, second, data, heard, many, text⟩ := report_read hal h ctrl addr len fmt
  obtain ⟨first', second', data', heard', many', text'⟩ := report_read hal' h' ctrl addr len fmt
  have sign (v : UInt8) (a a' : Int × UInt8) (rest rest' : Text)
      (equal : triple (v, a) ++ rest = triple (v, a') ++ rest') :
      (a.1 == 0) = (a'.1 == 0) ∧ rest = rest' := by
    simp only [triple, List.append_assoc] at equal
    obtain ⟨mark, behind⟩ := List.cons.inj (List.append_cancel_left equal)
    refine ⟨?_, behind⟩
    by_cases ack : a.1 = 0 <;> by_cases ack' : a'.1 = 0 <;> simp [ackMark, ack, ack'] at mark ⊢
  rw [text, text'] at same
  obtain ⟨ctrlAck, same⟩ := sign ctrl first first' _ _ same
  obtain ⟨addrAck, same⟩ := sign addr second second' _ _ same
  have equally : (receivedBytes data).length = (receivedBytes data').length := by
    rw [receivedBytes_length, receivedBytes_length, many, many']
  have items := row_injective (receivedItem_delimited fmt shown) (receivedBytes data)
    (receivedBytes data') [] [] (fun _ _ => trivial) (fun _ _ => trivial) equally (by simpa using same)
  rw [heard, heard']
  constructor
  · simp [headerAcks, ctrlAck, addrAck]
  · exact items.1

/-- The report of an accepted line of commands. Whatever the hardware answers, the
output is one printable line for each command, ended by its newline. A write's line is a
row of triples, one for each transmitted byte. Two runs that print the same line for a
read displayed in hex or binary were given the same acknowledges for its header, missed
the same bytes and received the same values for all others. Lines end at their newlines,
and the items of a read delimit themselves, so equal texts have equal items. -/
theorem neoExecRun_report (line : CString) (out next : NeoTxn)
    (accepted : neoParseTransaction (some line) out = .ok (0, next))
    (start : CmdStart (skipBlanks line.chars)) :
    ∃ cs, Line (skipBlanks line.chars) (.chain cs) ∧ Decoded next cs ∧
      (∀ hal s, (∃ s', neoExecRun hal next s = .ok ⟨⟩ s' ∧
          s'.calls = s.calls ++ cs.flatMap TwiCmd.frame) ∧
        ∃ lines, Prints hal next s lines ∧ lines.length = cs.length ∧
        ∀ i ctrl addr payload, cs[i]? = some (.write ctrl addr payload) →
          (heard hal s.calls cs i (.write ctrl addr payload)).length = payload.length + 2 ∧
          lines[i]? = some (((ctrl :: addr :: payload).zip
            (heard hal s.calls cs i (.write ctrl addr payload))).flatMap triple)) ∧
      ∀ i ctrl addr len fmt, cs[i]? = some (.read ctrl addr len fmt) → fmt = .hex ∨ fmt = .bin →
        ∀ hal s lines hal' s' lines', Prints hal next s lines → Prints hal' next s' lines' →
          lines[i]? = lines'[i]? →
          headerAcks (heard hal s.calls cs i (.read ctrl addr len fmt)) =
              headerAcks (heard hal' s'.calls cs i (.read ctrl addr len fmt)) ∧
            receivedBytes ((heard hal s.calls cs i (.read ctrl addr len fmt)).drop 2) =
              receivedBytes ((heard hal' s'.calls cs i (.read ctrl addr len fmt)).drop 2) := by
  obtain ⟨cs, derived, decoded⟩ := accepted_chain accepted start
  have holds := decoded_holds decoded
  refine ⟨cs, derived, decoded, ?_, ?_⟩
  · intro hal s
    refine ⟨⟨_, neoExecRun_chain hal next cs s holds, rfl⟩, _, (prints_chain holds _).mpr rfl,
      chainLines_length hal s.calls cs, ?_⟩
    intro i ctrl addr payload found
    constructor
    · rw [heard, answers_frame, answers_length hal _ _ (transfers_kind _)]
      simp [TwiCmd.transfers, sendTransfers]
    · rw [chainLines_at hal s.calls cs i _ found, report_write]
      rfl
  · intro i ctrl addr len fmt found shown hal s lines hal' s' lines' prints prints' same
    rw [(prints_chain holds lines).mp prints, (prints_chain holds lines').mp prints',
      chainLines_at hal s.calls cs i _ found, chainLines_at hal' s'.calls cs i _ found] at same
    exact read_decoded shown (Option.some.inj same)

/-- A line of one read, on any hardware. -/
theorem neoExecRun_report_oneRead : ∃ next,
    neoParseTransaction (some oneRead) NeoTxn.zero = .ok (0, next) ∧
    ∃ cs, Line (skipBlanks oneRead.chars) (.chain cs) ∧ Decoded next cs ∧
      (∀ hal s, (∃ s', neoExecRun hal next s = .ok ⟨⟩ s' ∧
          s'.calls = s.calls ++ cs.flatMap TwiCmd.frame) ∧
        ∃ lines, Prints hal next s lines ∧ lines.length = cs.length ∧
        ∀ i ctrl addr payload, cs[i]? = some (.write ctrl addr payload) →
          (heard hal s.calls cs i (.write ctrl addr payload)).length = payload.length + 2 ∧
          lines[i]? = some (((ctrl :: addr :: payload).zip
            (heard hal s.calls cs i (.write ctrl addr payload))).flatMap triple)) ∧
      ∀ i ctrl addr len fmt, cs[i]? = some (.read ctrl addr len fmt) → fmt = .hex ∨ fmt = .bin →
        ∀ hal s lines hal' s' lines', Prints hal next s lines → Prints hal' next s' lines' →
          lines[i]? = lines'[i]? →
          headerAcks (heard hal s.calls cs i (.read ctrl addr len fmt)) =
              headerAcks (heard hal' s'.calls cs i (.read ctrl addr len fmt)) ∧
            receivedBytes ((heard hal s.calls cs i (.read ctrl addr len fmt)).drop 2) =
              receivedBytes ((heard hal' s'.calls cs i (.read ctrl addr len fmt)).drop 2) := by
  obtain ⟨next, cs, accepted, -⟩ := oneRead_accepted
  exact ⟨next, accepted, neoExecRun_report oneRead NeoTxn.zero next accepted oneRead_start⟩

end NeoSfp
