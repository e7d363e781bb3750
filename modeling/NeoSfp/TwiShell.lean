import NeoSfp.Submissions
import NeoSfp.TwiRuns

/-!
# The shell on the wire

The shell's hardware, which so far was any function of the calls made, is now the
controller in its world, reached through the driver. What the shell prints is then what
the data line has carried, and what the controller drives is what was typed.
-/

namespace NeoSfp

open Checked TwoWire

section

variable {awidth : Nat} (w : World) (polls : Nat) (b : Bench awidth) (gpio : List HalCall → UInt8)

/-- The hardware that the controller is, seen from the executor: behind a history of calls
it answers what the driver returns. -/
def controllerHal : Hal where
  twiTrans calls byte hostAck :=
    match setupServe w polls (calls ++ [.twiTrans byte hostAck]) b with
    | .ok answers _ => (answers.getLast?.getD none).getD (-1, byte)
    | _ => (-1, byte)
  gpioReadByte := gpio

end

section

variable {awidth : Nat} {w : World} {polls : Nat} {b b' : Bench awidth}

/-- The calls of a sequence are served one after the other. By induction on the first
part. -/
theorem serveHal_append {answers : List (Option (Int × UInt8))} (first second : List HalCall)
    (served : serveHal w polls (first ++ second) b = .ok answers b') :
    ∃ front rest b₁, serveHal w polls first b = .ok front b₁ ∧
      serveHal w polls second b₁ = .ok rest b' ∧ answers = front ++ rest ∧
      front.length = first.length := by
  induction first generalizing b answers b' with
  | nil => exact ⟨[], answers, b, rfl, served, rfl, rfl⟩
  | cons call first ih =>
    rw [List.cons_append, serveHal, Run.bind_apply] at served
    cases called : call.serve w polls b with
    | err b₁ => simp [called] at served
    | fault reason => simp [called] at served
    | ok answer b₁ =>
      rw [called, Run.andThen_ok, Run.bind_apply] at served
      cases others : serveHal w polls (first ++ second) b₁ with
      | err b₂ => simp [others] at served
      | fault reason => simp [others] at served
      | ok behind b₂ =>
        simp only [others, Run.andThen_ok, Run.pure_apply, Outcome.ok.injEq] at served
        obtain ⟨rfl, rfl⟩ := served
        obtain ⟨front, rest, b₃, ran, after, rfl, count⟩ := ih others
        refine ⟨answer :: front, rest, b₃, ?_, after, rfl, by simp [count]⟩
        rw [serveHal, Run.bind_apply, called, Run.andThen_ok, Run.bind_apply, ran]
        rfl

/-- A transfer on its own has one answer. -/
theorem serveHal_transfer {byte : UInt8} {hostAck : Nat} {answers : List (Option (Int × UInt8))}
    (served : serveHal w polls [.twiTrans byte hostAck] b = .ok answers b') :
    ∃ answer, answers = [some answer] := by
  rw [serveHal, Run.bind_apply, HalCall.serve, Run.bind_apply] at served
  cases called : neorv32TwiTransfer w polls byte hostAck b with
  | err b₁ => simp [called] at served
  | fault reason => simp [called] at served
  | ok answer b₁ =>
    rw [called] at served
    exact ⟨answer, (Outcome.ok.inj served).1.symm⟩

/-- What the executor is answered in the middle of a sequence is what the driver returns
there when the whole sequence is served. -/
theorem controllerHal_answers (gpio : List HalCall → UInt8) {answers : List (Option (Int × UInt8))}
    {before after : List HalCall} {byte : UInt8} {hostAck : Nat}
    (served : setupServe w polls (before ++ .twiTrans byte hostAck :: after) b = .ok answers b') :
    answers[before.length]? =
      some (some ((controllerHal w polls b gpio).twiTrans before byte hostAck)) := by
  obtain ⟨b₁, setup, -⟩ := setup_rests (w := w) b
  rw [setupServe, Run.bind_apply, setup, Run.andThen_ok, Run.bind_apply, Run.modify_apply,
    Run.andThen_ok, List.append_cons] at served
  obtain ⟨front, rest, b₂, ran, -, rfl, count⟩ := serveHal_append _ _ served
  obtain ⟨earlier, last, b₃, -, alone, rfl, count'⟩ := serveHal_append _ _ ran
  obtain ⟨answer, rfl⟩ := serveHal_transfer alone
  have returned : (controllerHal w polls b gpio).twiTrans before byte hostAck = answer := by
    simp only [controllerHal, setup_serve setup ran, List.getLast?_concat, Option.getD_some]
  rw [returned, List.append_assoc, List.getElem?_append_right (by omega), count']
  simp

end

/-- The calls of the shell behind a stream. -/
def streamCalls (p : List UInt8) : List HalCall :=
  (submissions [] p).flatMap fun text => textCalls (CString.ofBuffer text)

/-- The whole system. From any state of the controller and with any timing, after any
number of rounds on any stream: the calls are those that each text submitted so far would
lead to on its own; what the controller drives are these calls, with the bytes they pass,
and nothing else, and so a listener on the two lines is told where the other devices keep to
the rules of the bus; and the answers with which the shell has run, and from which it prints,
are levels that the data line had in the pulses of the very transfer. -/
theorem neoAppRun_wire {awidth : Nat} (w : World) (recurs : w.Recurs) (b : Bench awidth)
    (gpio : List HalCall → UInt8) (fresh : Hal) (gpioAvailable : Bool) (line : Memory) (txn : NeoTxn)
    (input : List UInt8) (rounds : Nat) :
    ∃ enough, ∀ polls ≥ enough, ∃ s p answers b',
      neoAppRun (controllerHal w polls b gpio) true gpioAvailable rounds
        { line := line, txn := txn, input := input } = .ok s ∧
      input = p ++ s.input ∧
      s.exec.calls =
        (submissions [] p).flatMap (fun text => freshCalls fresh (CString.ofBuffer text)) ∧
      setupServe w polls s.exec.calls b = .ok answers b' ∧
      Told Exchanged s.exec.calls answers (b'.listener (Listener.tuned true)).events ∧
      (List.IsChain Polite (Level.idle :: b'.trace) →
        Told Conveyed s.exec.calls answers (b'.onLines (Listener.tuned true)).events) ∧
      Recorded w b' ∧
      ∀ before byte hostAck after, s.exec.calls = before ++ .twiTrans byte hostAck :: after →
        answers[before.length]? =
          some (some ((controllerHal w polls b gpio).twiTrans before byte hostAck)) := by
  obtain ⟨b₁, setup, rests⟩ := setup_rests (w := w) b
  -- the calls do not depend on the answers, and there are only so many prefixes of the stream
  choose enough answers b' high told rests' said runs using
    fun p : List UInt8 => calls_told recurs (streamCalls p) rests
  refine ⟨((input.inits).map enough).sum, ?_⟩
  intro polls large
  obtain ⟨p, s, loop, split, calls, -⟩ := appLoop_reaches (controllerHal w polls b gpio) rounds
    (start_prompted true gpioAvailable line txn {} input)
  have made : s.exec.calls = streamCalls p := by
    rw [calls, takes_calls]
    rfl
  have among : p ∈ input.inits := (List.mem_inits p input).mpr ⟨s.input, split.symm⟩
  have within : enough p ≤ polls :=
    Nat.le_trans (List.le_sum_of_mem (List.mem_map_of_mem among)) large
  have served := setup_serve setup (runs p polls within)
  have driven : Told Exchanged s.exec.calls (answers p) ((b' p).listener (Listener.tuned true)).events := by
    rw [made, (rests' p).telling.events, List.nil_append]
    exact said p
  refine ⟨s, p, answers p, b' p, loop, split, ?_, ?_, driven, ?_, (rests' p).telling.recorded, ?_⟩
  · simp only [made, streamCalls, freshCalls_text]
  · rw [made]
    exact served
  · exact fun polite => told_onLines driven (hears_onLines tracks_idle polite)
  · intro before byte hostAck after position
    rw [← made, position] at served
    exact controllerHal_answers gpio served

/-- The line has neither a terminator nor an editing character inside. -/
theorem writeText_plain : ∀ c ∈ bytes "hA0h01h02", endsLine c = false ∧ erases c = false := by
  simp [bytes, endsLine, erases, byte]

/-- A line that writes a byte. -/
def writeLine : InputLine where
  text := bytes "hA0h01h02"
  ending := byte '\r'
  plain := writeText_plain
  ends := endsLine_cr

/-- A line that writes a byte, typed to a controller that powers up inside a
transmission. -/
theorem neoAppRun_wire_poweredUp :
    ∃ enough, ∀ polls ≥ enough, ∃ s answers b',
      neoAppRun (controllerHal freeWorld polls poweredUp fun _ => 0) true true 10
        { line := fun _ => 0, txn := NeoTxn.zero, input := bytes "hA0h01h02\r" } = .ok s ∧
      s.exec.calls = [.twiStart, .twiTrans 0xA0 0, .twiTrans 0x01 0, .twiTrans 0x02 0, .twiStop] ∧
      setupServe freeWorld polls s.exec.calls poweredUp = .ok answers b' ∧
      Told Exchanged s.exec.calls answers (b'.listener (Listener.tuned true)).events ∧
      Told Conveyed s.exec.calls answers (b'.onLines (Listener.tuned true)).events ∧
      ∀ before byte hostAck after, s.exec.calls = before ++ .twiTrans byte hostAck :: after →
        answers[before.length]? = some (some
          ((controllerHal freeWorld polls poweredUp fun _ => 0).twiTrans before byte hostAck)) := by
  obtain ⟨enough, holds⟩ := neoAppRun_wire freeWorld freeWorld_recurs poweredUp (fun _ => 0)
    acknowledging true (fun _ => 0) NeoTxn.zero (bytes "hA0h01h02\r") 10
  refine ⟨enough, ?_⟩
  intro polls large
  obtain ⟨s, p, answers, b', ran, -, -, served, driven, lines, recorded, heard⟩ := holds polls large
  -- all of the stream is read in these rounds, so that the calls of the line are made
  have typed : bytes "hA0h01h02\r" = stream [writeLine] := by decide
  obtain ⟨s', ran', -, calls⟩ := appLoop_calls (controllerHal freeWorld polls poweredUp fun _ => 0)
    [writeLine] (by simp [writeLine, bytes, neoParserLineMax]) 10
    (Shell.print (greeting true true)
      { line := fun _ => 0, txn := NeoTxn.zero, input := bytes "hA0h01h02\r" }) typed (by decide)
  have one : freshCalls acknowledging (CString.ofBuffer (bytes "hA0h01h02")) =
      TwiCmd.frame (.write 0xA0 0x01 [0x02]) :=
    freshCalls_single (writeByte_derived [])
      { count := by decide, each := by decide, total := by decide }
  have line : textCalls (CString.ofBuffer writeLine.text) =
      [.twiStart, .twiTrans 0xA0 0, .twiTrans 0x01 0, .twiTrans 0x02 0, .twiStop] :=
    (freshCalls_text acknowledging _).symm.trans one
  have same : s = s' := by
    rw [neoAppRun, ran'] at ran
    exact (Except.ok.inj ran).symm
  refine ⟨s, answers, b', ran, ?_, served, driven, lines (freeWorld_polite recorded), heard⟩
  rw [List.flatMap_singleton, line] at calls
  rw [same, calls]
  exact List.nil_append _

end NeoSfp
