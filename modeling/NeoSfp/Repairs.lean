import NeoSfp.Appending
import NeoSfp.Lengths

/-!
# What a stop leaves behind

Wherever a scan stops at a character, the text in front of that character can be
continued to something that the grammar derives. Most scanners stop where the
offending item begins; an octet stops inside, behind the bits it has taken, and
is completed with zeros.
-/

namespace NeoSfp

/-- Whether a message is about the character at the reported place. The others are
about room, about a number that is too large, or about a line without text. -/
def Msg.syntactic : Msg → Bool
  | .nullInput | .emptyTransaction | .tooManyCmds | .payloadExceeds | .poolExhausted
  | .countExceeds => false
  | _ => true

/-- The scan stopped at a character, and what stands before that can be continued to
a derivation, no larger than what has been read. -/
def Repairable {α : Type} (item : Nonterminal α) (size : α → Nat) (p : Text) (s : Stop) : Prop :=
  s.msg.syntactic = true ∧ ∃ w v a, p = w ++ s.rest ∧ item (w ++ v) a [] ∧ size a ≤ w.length

/-- What repairs a text repairs it behind a front that the larger item begins with. -/
theorem repairable_behind {α β : Type} {item : Nonterminal α} {whole : Nonterminal β}
    {size : α → Nat} {size' : β → Nat} {p : Text} {s : Stop} (front : Text) (result : α → β)
    (repairable : Repairable item size p s)
    (behind : ∀ t a, item t a [] → whole (front ++ t) (result a) [])
    (grows : ∀ a, size' (result a) ≤ front.length + size a) : Repairable whole size' (front ++ p) s := by
  obtain ⟨syntactic, w, v, a, text, derived, small⟩ := repairable
  have larger := grows a
  refine ⟨syntactic, front ++ w, v, result a, ?_, ?_, ?_⟩
  · rw [text, List.append_assoc]
  · rw [List.append_assoc]
    exact behind (w ++ v) a derived
  · rw [List.length_append]
    omega

/-! ## Bytes -/

/-- Zeros are bits, as many as wanted. -/
theorem zeros_bits (n : Nat) :
    Bits (List.replicate n (byte '0')) (List.replicate n (byte '0')) [] := by
  induction n with
  | zero => exact .done []
  | succ n ih =>
    rw [List.replicate_succ]
    exact .bit (.done _) (by simp [binDigits_codes]) ih

/-- A `_` may stand in front of bits, if there are any. -/
theorem bits_bar {p q ds : Text} (bits : Bits p ds q) (some : 0 < ds.length) :
    Bits (byte '_' :: p) ds q := by
  cases bits with
  | done => simp at some
  | bit bars digit others => exact .bit (.bar bars) digit others

/-- The bits that were read, and any `_` behind them, are continued with zeros. -/
theorem scanBits_stopped (left : Nat) (v : UInt8) (p : Text) (s : Stop)
    (stopped : scanBits left v p = .error s) :
    s.msg = .binaryByteBits ∧
      ∃ w more ds, p = w ++ s.rest ∧ Bits (w ++ more) ds [] ∧ ds.length = left := by
  fun_induction scanBits left v p with
  | case1 v p => simp at stopped
  | case2 left v =>
    cases stopped
    exact ⟨rfl, [], _, _, rfl, zeros_bits (left + 1), List.length_replicate⟩
  | case3 left v rest ih =>
    obtain ⟨msg, w, more, ds, text, bits, length⟩ := ih stopped
    exact ⟨msg, byte '_' :: w, more, ds, by rw [text]; rfl, bits_bar bits (by omega), length⟩
  | case4 left v ch rest bar bit ih =>
    obtain ⟨msg, w, more, ds, text, bits, length⟩ := ih stopped
    refine ⟨msg, ch :: w, more, ch :: ds, by rw [text]; rfl, ?_, by rw [List.length_cons, length]⟩
    exact .bit (.done _) ((isBin_iff ch).mp bit) bits
  | case5 left v ch rest bar bit =>
    cases stopped
    exact ⟨rfl, [], _, _, rfl, zeros_bits (left + 1), List.length_replicate⟩

/-- Where the scan of a binary byte stops, the bits read so far are completed with
zeros. -/
theorem scanBinByte_repairable {p : Text} {s : Stop} (stopped : scanBinByte p = .error s) :
    Repairable Octet (fun _ => 0) p s := by
  obtain ⟨msg, w, more, ds, text, bits, length⟩ := scanBits_stopped 8 0 p s stopped
  exact ⟨by rw [msg]; rfl, w, more, _, text, .eight bits length, Nat.zero_le _⟩

/-- The scan of a hex byte stops where the byte begins. -/
theorem scanHexByte_stopped {p : Text} {s : Stop} (stopped : scanHexByte p = .error s) :
    s = ⟨.hexByteDigits, p⟩ := by
  unfold scanHexByte at stopped
  split at stopped
  · split at stopped
    · simp at stopped
    · cases stopped
      rfl
  · cases stopped
    rfl

/-- The zero is a hex digit, with which a byte that is missing can be spelled. -/
theorem zero_hexDigit : byte '0' ∈ hexDigits := by simp [hexDigits_codes, byte]

/-- Where the scan of a hex byte stops, the byte `00` may be put. -/
theorem scanHexByte_repairable {p : Text} {s : Stop} (stopped : scanHexByte p = .error s) :
    Repairable HexByte (fun _ => 0) p s := by
  rw [scanHexByte_stopped stopped]
  exact ⟨rfl, [], [byte '0', byte '0'], _, rfl, .pair [] zero_hexDigit zero_hexDigit, Nat.zero_le _⟩

/-- The scan of an ASCII byte stops where no letter or digit stands. -/
theorem scanAsciiByte_stopped {p : Text} {s : Stop} (stopped : scanAsciiByte p = .error s) :
    s = ⟨.asciiField, p⟩ ∧ headIs isAlnumLat p = false := by
  cases p with
  | nil =>
    cases stopped
    exact ⟨rfl, rfl⟩
  | cons ch rest =>
    by_cases alnum : isAlnumLat ch = true
    · simp [scanAsciiByte, alnum] at stopped
    · simp only [scanAsciiByte, alnum] at stopped
      cases stopped
      exact ⟨rfl, by simpa [headIs] using alnum⟩

/-- The zero is an ASCII byte as well. -/
theorem zero_alnum : byte '0' ∈ alnums := by simp [← isAlnumLat_iff, isAlnumLat, byte]

/-- Where the scan of an ASCII byte stops, a zero may be put. -/
theorem scanAsciiByte_repairable {p : Text} {s : Stop} (stopped : scanAsciiByte p = .error s) :
    Repairable AsciiByte (fun _ => 0) p s := by
  obtain ⟨rfl, -⟩ := scanAsciiByte_stopped stopped
  exact ⟨rfl, [], [byte '0'], _, rfl, .alnum [] zero_alnum, Nat.zero_le _⟩

/-! ## Groups -/

/-- Two repetitions in a row are one. By induction on the first. -/
theorem plus_append {α : Type} {item : Nonterminal α} {p q r : Text} {as bs : List α}
    (first : Plus item p as q) (second : Plus item q bs r) : Plus item p (as ++ bs) r := by
  induction first with
  | one item => exact .more item second
  | more item others ih => exact .more item (ih second)

/-- A run stops where a byte begins that cannot be decoded, behind others. -/
theorem scanRun_stopped (more : Text → Bool) (decoder : Decoder) (item : Nonterminal UInt8)
    (exact_ : Exact decoder.scan item) (p : Text) (s : Stop)
    (stopped : (scanRun more decoder p).stop = .error s) :
    ∃ q bs, (p = q ∧ bs = [] ∨ Plus item p bs q) ∧ more q = true ∧ decoder.scan q = .error s := by
  fun_induction scanRun more decoder p with
  | case1 p again t scanned =>
    cases stopped
    exact ⟨p, [], Or.inl ⟨rfl, rfl⟩, again, scanned⟩
  | case2 p again b rest scanned tail ih =>
    have first := (exact_ p b rest).mp scanned
    obtain ⟨q, bs, reached, ahead, failed⟩ := ih stopped
    refine ⟨q, b :: bs, Or.inr ?_, ahead, failed⟩
    rcases reached with ⟨rfl, rfl⟩ | others
    · exact .one first
    · exact .more first others
  | case3 p again => simp at stopped

/-- A group with no byte at all is reported where its text begins. -/
theorem orEmpty_stopped {more : Text → Bool} {decoder : Decoder} {p : Text} {empty : Msg} {s : Stop}
    (stopped : ((scanRun more decoder p).orEmpty empty).stop = .error s) :
    (scanRun more decoder p).stop = .error s ∨ s = ⟨empty, p⟩ := by
  have none := scanRun_none more decoder p
  generalize scanRun more decoder p = g at stopped none ⊢
  obtain ⟨items, stop⟩ := g
  cases items with
  | cons item items => exact Or.inl stopped
  | nil =>
    cases stop with
    | error t => exact Or.inl stopped
    | ok rest =>
      right
      simp only [Group.orEmpty, Except.error.injEq] at stopped
      rw [← stopped, none rest rfl rfl]

/-- Where a hex group stops, its bytes so far are followed by one more, unless what
follows the `h` is a command. -/
theorem scanHexGroup_repairable {p : Text} {s : Stop} (start : startsCmd (byte 'h' :: p) = false)
    (stopped : (scanHexGroup p).stop = .error s) :
    Repairable Payload List.length (byte 'h' :: p) s := by
  have nothing : ∃ b, Payload (byte 'h' :: [byte '0', byte '0']) ([b] ++ []) [] :=
    ⟨_, .hex (.one (.pair [] zero_hexDigit zero_hexDigit)) (by decide) (.done [])⟩
  obtain ⟨b, zero⟩ := nothing
  rcases orEmpty_stopped stopped with failed | rfl
  · obtain ⟨q, bs, reached, -, scanned⟩ :=
      scanRun_stopped _ hexDecoder HexByte scanHexByte_exact p s failed
    rw [scanHexByte_stopped scanned]
    rcases reached with ⟨rfl, -⟩ | derived
    · exact ⟨rfl, [byte 'h'], _, _, rfl, zero, by simp⟩
    · -- behind a byte the group may simply end
      obtain ⟨u, rfl, takes⟩ := plus_spans hexByte_spans _ _ _ derived
      have used := plus_length hexByte_uses (by decide) (takes [])
      have whole := takes []
      rw [List.append_nil] at whole used
      cases bs with
      | nil => exact absurd rfl (plus_ne_nil derived)
      | cons b bs =>
        have ordinary : b ∉ ctrlBytes := by
          intro ctrl
          rw [(plus_hex_ctrl derived).mpr ctrl] at start
          simp at start
        have group : Payload (byte 'h' :: u) (b :: bs ++ []) [] := .hex whole ordinary (.done [])
        refine ⟨rfl, byte 'h' :: u, [], b :: bs ++ [], rfl, ?_, ?_⟩
        · rwa [List.append_nil]
        · simp only [List.append_nil, List.length_cons, List.length_nil] at used ⊢
          omega
  · exact ⟨rfl, [byte 'h'], _, _, rfl, zero, by simp⟩

/-- Where a binary group stops, its bytes so far are followed by one completed with
zeros. -/
theorem scanBinGroup_repairable {p : Text} {s : Stop} (stopped : (scanBinGroup p).stop = .error s) :
    Repairable Payload List.length (byte 'b' :: p) s := by
  rcases orEmpty_stopped stopped with failed | rfl
  · obtain ⟨q, bs, reached, -, scanned⟩ :=
      scanRun_stopped _ binDecoder Octet scanBinByte_exact p s failed
    rcases reached with ⟨rfl, rfl⟩ | derived
    · refine repairable_behind [byte 'b'] (fun b => [b] ++ []) (scanBinByte_repairable scanned) ?_ ?_
      · intro t b octet
        exact .bin (.one octet) (.done [])
      · intro b
        simp
    · obtain ⟨u, rfl, takes⟩ := plus_spans octet_spans _ _ _ derived
      have used := plus_length octet_uses (by decide) (takes [])
      refine repairable_behind (byte 'b' :: u) (fun b => bs ++ [b] ++ [])
        (scanBinByte_repairable scanned) ?_ ?_
      · intro t b octet
        exact .bin (plus_append (takes t) (.one octet)) (.done [])
      · intro b
        simp only [List.append_nil, List.length_append, List.length_cons, List.length_nil] at used ⊢
        omega
  · have zero : Octet (List.replicate 8 (byte '0')) _ [] :=
      .eight (zeros_bits 8) List.length_replicate
    exact ⟨rfl, [byte 'b'], _, _, rfl, .bin (.one zero) (.done []), by simp⟩

/-- The end of an ASCII group stops where neither a `_` nor the end of the line is. -/
theorem scanAsciiEnd_stopped {r : Text} {s : Stop} (stopped : scanAsciiEnd r = .error s) :
    s = ⟨.asciiRunEnd, r⟩ := by
  unfold scanAsciiEnd at stopped
  split at stopped
  · simp at stopped
  · split at stopped
    · simp at stopped
    · split at stopped
      · simp at stopped
      · cases stopped
        rfl

/-- Where an ASCII group stops, a byte may be put, or the `_` that closes the group. -/
theorem scanAsciiGroup_repairable {p : Text} {s : Stop}
    (stopped : (scanAsciiGroup p).stop = .error s) :
    Repairable Payload List.length (byte 'a' :: p) s := by
  have run := run_exact (headIs isAlnumLat) asciiDecoder AsciiByte .emptyAscii
    scanAsciiByte_exact headIs_alnum_leads p
  unfold scanAsciiGroup at stopped
  cases reached : ((scanRun (headIs isAlnumLat) asciiDecoder p).orEmpty .emptyAscii).stop with
  | error t =>
    simp only [reached, Except.bind, Except.error.injEq] at stopped
    subst stopped
    rcases orEmpty_stopped reached with failed | rfl
    · obtain ⟨q, bs, -, ahead, scanned⟩ :=
        scanRun_stopped _ asciiDecoder AsciiByte scanAsciiByte_exact p t failed
      rw [(scanAsciiByte_stopped scanned).2] at ahead
      simp at ahead
    · have zero : AsciiByte [byte '0'] (byte '0') [] := .alnum [] zero_alnum
      exact ⟨rfl, [byte 'a'], _, _, rfl, .ascii (.one zero) (Or.inl rfl) (.done []), by simp⟩
  | ok r =>
    obtain ⟨derived, -⟩ := (run r _).mp ⟨reached, rfl⟩
    obtain ⟨text, letters⟩ := plus_letters derived
    simp only [reached, Except.bind] at stopped
    obtain rfl := scanAsciiEnd_stopped stopped
    generalize (scanRun (headIs isAlnumLat) asciiDecoder p).bytes = bs at derived text letters
    subst text
    refine ⟨rfl, byte 'a' :: bs, [], bs ++ [], rfl, ?_, by simp⟩
    rw [List.append_nil]
    have whole := letters_plus letters []
    rw [List.append_nil] at whole
    exact .ascii whole (Or.inl rfl) (.done [])

/-- Where a group stops, it can be completed, and with it the payload. There is one case
for each selector, and a missing one is supplied. -/
theorem scanGroup_repairable {fc : UInt8} {p : Text} {s : Stop}
    (start : startsCmd (fc :: p) = false) (stopped : (scanGroup fc p).stop = .error s) :
    Repairable Payload List.length (fc :: p) s := by
  unfold scanGroup at stopped
  split at stopped
  · next h =>
    subst h
    exact scanHexGroup_repairable start stopped
  · split at stopped
    · next b =>
      subst b
      exact scanBinGroup_repairable stopped
    · split at stopped
      · next a =>
        subst a
        exact scanAsciiGroup_repairable stopped
      · cases stopped
        exact ⟨rfl, [], [], [], rfl, .done [], Nat.le_refl _⟩

/-! ## Payloads -/

/-- A payload's scan stops in a group, behind what it has decoded. By induction along
the scan. -/
theorem scanPayload_stopped (p : Text) (s : Stop) (stopped : (scanPayload p).stop = .error s) :
    ∃ fc r bs, Payload p bs (fc :: r) ∧ fc ≠ byte '_' ∧ startsCmd (fc :: r) = false ∧
      (scanGroup fc r).stop = .error s := by
  fun_induction scanPayload p with
  | case1 => simp at stopped
  | case2 fc p start => simp at stopped
  | case3 p start ih =>
    obtain ⟨fc, r, bs, derived, other, begins, failed⟩ := ih stopped
    exact ⟨fc, r, bs, .bar derived, other, begins, failed⟩
  | case4 fc p start bar t failed =>
    cases stopped
    exact ⟨fc, p, [], .done _, bar, by simpa using start, failed⟩
  | case5 fc p start bar rest reached more ih =>
    obtain ⟨gc, r, bs, derived, other, begins, failed⟩ := ih stopped
    have start : startsCmd (fc :: p) = false := by simpa using start
    exact ⟨gc, r, _, scanGroup_sound start reached derived, other, begins, failed⟩

/-- Two payloads in a row are one. By induction on the first. -/
theorem payload_append {p q r : Text} {bs more : List UInt8} (first : Payload p bs q)
    (second : Payload q more r) : Payload p (bs ++ more) r := by
  induction first with
  | done p => exact second
  | bar derived ih => exact .bar (ih second)
  | hex bytes ordinary derived ih =>
    rw [List.append_assoc]
    exact .hex bytes ordinary (ih second)
  | bin bytes derived ih =>
    rw [List.append_assoc]
    exact .bin bytes (ih second)
  | ascii letters closed derived ih =>
    rw [List.append_assoc]
    exact .ascii letters closed (ih second)

/-- Where a payload stops, its group can be completed behind the groups before it. -/
theorem scanPayload_repairable {p : Text} {s : Stop} (stopped : (scanPayload p).stop = .error s) :
    Repairable Payload List.length p s := by
  obtain ⟨fc, r, bs, derived, other, begins, failed⟩ := scanPayload_stopped p s stopped
  have clear : Clear (fc :: r) := fun bar => other (Option.some.inj bar)
  rcases payload_span derived clear with ⟨u, rfl, takes⟩ | ⟨finished, -⟩
  · have used := payload_length (takes [])
    refine repairable_behind u (bs ++ ·) (scanGroup_repairable begins failed) ?_ ?_
    · intro t more group
      exact payload_append (takes t) group
    · intro more
      simp only [List.append_nil, List.length_nil, List.length_append] at used ⊢
      omega
  · simp at finished

/-! ## Internal addresses -/

/-- The address's byte is completed behind its selector, in whichever form it was
begun. -/
theorem addr_repairable {item : Nonterminal UInt8} {fc : UInt8} {p rest : Text} {s : Stop}
    (bars : Bars p (fc :: rest)) (repairable : Repairable item (fun _ => 0) rest s)
    (reads : ∀ q t a, Bars q (fc :: t) → item t a [] → IAddr q a []) :
    Repairable IAddr (fun _ => 0) p s := by
  obtain ⟨u, rfl, passes⟩ := bars_span bars
  rw [List.append_cons]
  refine repairable_behind (u ++ [fc]) id repairable ?_ (fun a => Nat.zero_le _)
  intro t a derived
  rw [← List.append_cons]
  exact reads _ t a (passes (fc :: t)) derived

/-- An address that has not begun is `h00`, behind any `_`. -/
theorem zero_addr {p q : Text} (bars : Bars p q) :
    ∃ u a, p = u ++ q ∧ IAddr (u ++ [byte 'h', byte '0', byte '0']) a [] := by
  obtain ⟨u, text, passes⟩ := bars_span bars
  exact ⟨u, _, text, .hex (passes _) (.pair [] zero_hexDigit zero_hexDigit)⟩

/-- Where an address stops, its byte is completed, or an address is put there if none
has begun. -/
theorem scanAddr_repairable {p : Text} {s : Stop} (stopped : scanAddr p = .error s) :
    Repairable IAddr (fun _ => 0) p s := by
  have bars := bars_skip p
  unfold scanAddr at stopped
  split at stopped
  · next finished =>
    cases stopped
    obtain ⟨u, a, text, addr⟩ := zero_addr (finished ▸ bars)
    exact ⟨rfl, u, _, a, text, addr, Nat.zero_le _⟩
  · next fc rest behind =>
    rw [behind] at bars
    split at stopped
    · next selector =>
      rcases selector_cases selector with rfl | rfl | rfl
      · exact addr_repairable bars (scanHexByte_repairable stopped) fun q t a => .hex
      · exact addr_repairable bars (scanBinByte_repairable stopped) fun q t a => .bin
      · have notHex : byte 'a' ≠ byte 'h' := by simp
        have notBin : byte 'a' ≠ byte 'b' := by simp
        simp only [scanAddrByte, if_neg notHex, if_neg notBin] at stopped
        split at stopped
        · next t failed =>
          cases stopped
          exact addr_repairable bars (scanAsciiByte_repairable failed) fun q t a => .ascii
        · simp at stopped
        · simp at stopped
    · cases stopped
      obtain ⟨u, a, text, addr⟩ := zero_addr bars
      exact ⟨rfl, u, _, a, text, addr, Nat.zero_le _⟩

/-! ## Read tails -/

/-- A tail with any `_` in front of it. -/
def BarsTail : Nonterminal (Nat × NeoFmt) := fun p v r => ∃ q, Bars p q ∧ Tail q v r

/-- Behind the `_` and the `h` of a tail, what completes its digits and its format
completes it. -/
theorem tail_repairable {msg : Msg} {p q rest w v : Text} {value : Nat × NeoFmt}
    (syntactic : msg.syntactic = true) (bars : Bars p (byte 'h' :: q)) (text : q = w ++ rest)
    (derived : Tail (byte 'h' :: (w ++ v)) value []) :
    Repairable BarsTail (fun _ => 0) p ⟨msg, rest⟩ := by
  obtain ⟨u, rfl, passes⟩ := bars_span bars
  refine ⟨syntactic, u ++ byte 'h' :: w, v, value, by rw [text]; simp, ?_, Nat.zero_le _⟩
  rw [List.append_assoc]
  exact ⟨byte 'h' :: (w ++ v), passes _, derived⟩

/-- The end of a read is missed where another character stands. -/
theorem scanClose_stopped {p : Text} {s : Stop} (stopped : scanClose p = .error s) :
    s = ⟨.readEnd, p⟩ := by
  unfold scanClose at stopped
  split at stopped
  · split at stopped
    · simp at stopped
    · cases stopped
      rfl
  · cases stopped
    rfl

/-- The scan of a format stops where the format is missing, in front of whatever stands
there. -/
theorem scanFmt_stopped {n : Nat} {p : Text} {s : Stop} (stopped : scanFmt n p = .error s) :
    s = ⟨.missingFormat, p⟩ := by
  unfold scanFmt at stopped
  split at stopped
  · split at stopped
    · simp at stopped
    · split at stopped
      · simp at stopped
      · cases stopped
        rfl
  · split at stopped
    · simp at stopped
    · cases stopped
      rfl

/-- A format that was read is closed by a `_`, with the digits in front of it. -/
theorem scanFmt_closed {ds q r : Text} {fmt : NeoFmt} (count : CountDigits ds)
    (format : scanFmt (numeral 16 ds) q = .ok (fmt, r)) :
    ∃ f value, q = f ++ r ∧ Tail (byte 'h' :: (ds ++ f ++ [byte '_'])) value [] := by
  unfold scanFmt at format
  split at format
  · next ff tail =>
    split at format
    · next selector =>
      cases format
      have closed : Tail (byte 'h' :: (ds ++ [ff, byte '_'])) _ [] :=
        .count [] count (fmtOf_letter selector)
      exact ⟨[ff], _, rfl, by rwa [List.append_assoc]⟩
    · split at format
      · next zero =>
        cases format
        exact ⟨[], _, rfl, by rw [List.append_nil]; exact .zero [] count zero⟩
      · simp at format
  · split at format
    · next zero =>
      cases format
      exact ⟨[], _, rfl, by rw [List.append_nil]; exact .zero [] count zero⟩
    · simp at format

/-- Behind its `h`, a tail stops for a character, or for a count that is too large. -/
theorem scanTailBody_repairable {p q : Text} {s : Stop} (bars : Bars p (byte 'h' :: q))
    (notStart : startsCmd (byte 'h' :: q) = false) (stopped : scanTailBody q = .error s) :
    s.msg = .countExceeds ∨ Repairable BarsTail (fun _ => 0) p s := by
  obtain ⟨ds, text, digits, length, value⟩ := scanCount_sound 3 0 q
  unfold scanTailBody at stopped
  generalize scanCount 3 0 q = counted at *
  obtain ⟨n, t⟩ := counted
  simp only [Nat.zero_mul, Nat.zero_add] at text value stopped
  split at stopped
  · next none =>
    cases stopped
    have empty : ds = [] := by
      rw [text, List.length_append] at none
      exact List.length_eq_zero_iff.mp (by omega)
    have zero : Tail (byte 'h' :: ([] ++ [byte '0', byte '_'])) _ [] :=
      .zero [] (countDigits_single zero_hexDigit) rfl
    exact Or.inr (tail_repairable rfl bars (by rw [text, empty]) zero)
  · next consumed =>
    have nonempty : ds ≠ [] := by
      intro empty
      simp [text, empty] at consumed
    split at stopped
    · cases stopped
      exact Or.inl rfl
    · next bound =>
      have count : CountDigits ds := countDigits_scanned digits nonempty length (text ▸ notStart)
        (value ▸ Nat.le_of_not_lt bound)
      right
      split at stopped
      · next f failed =>
        cases stopped
        rw [scanFmt_stopped failed]
        exact tail_repairable rfl bars text (.count [] count .hex)
      · next fmt r format =>
        split at stopped
        · next f failed =>
          cases stopped
          rw [scanClose_stopped failed]
          rw [value] at format
          obtain ⟨f, result, split_, closed⟩ := scanFmt_closed count format
          exact tail_repairable rfl bars (by rw [text, split_, List.append_assoc]) closed
        · simp at stopped

/-- Where a tail stops, it can be completed, unless its count is too large. -/
theorem scanTail_repairable {p : Text} {s : Stop} (stopped : scanTail p = .error s) :
    s.msg = .countExceeds ∨ Repairable BarsTail (fun _ => 0) p s := by
  have bars := bars_skip p
  unfold scanTail at stopped
  split at stopped
  · simp at stopped
  · next ch rest behind =>
    rw [behind] at bars
    split at stopped
    · simp at stopped
    · next start =>
      split at stopped
      · next h =>
        subst h
        exact scanTailBody_repairable bars (by simpa using start) stopped
      · cases stopped
        obtain ⟨u, rfl, passes⟩ := bars_span bars
        exact Or.inr ⟨rfl, u, [], _, rfl, ⟨[], passes [], .empty []⟩, Nat.zero_le _⟩

/-! ## Commands -/

/-- What is left where a group's scan ends or stops. -/
def Group.rest (g : Group) : Text :=
  match g.stop with
  | .ok rest => rest
  | .error s => s.rest

/-- A run decodes no more bytes than it uses up characters. -/
theorem scanRun_length (more : Text → Bool) (decoder : Decoder) (p : Text) :
    (scanRun more decoder p).items.length + (scanRun more decoder p).rest.length ≤ p.length := by
  fun_induction scanRun more decoder p with
  | case1 p again s scanned =>
    have inside := (decoder.consumes.stop p s scanned).length_le
    simpa [Group.rest] using inside
  | case2 p again b rest scanned tail ih =>
    have shrinks := (decoder.consumes.ok p b rest scanned).2
    simp only [Group.rest, List.length_cons, tail] at ih ⊢
    omega
  | case3 p again => simp [Group.rest]

/-- The test for an empty group does not move its end. -/
theorem orEmpty_rest (g : Group) (empty : Msg) : (g.orEmpty empty).rest = g.rest := by
  unfold Group.orEmpty
  split <;> rfl

/-- A group ends or stops at the text it leaves. -/
theorem endsIn_rest (g : Group) : EndsIn g.stop g.rest := by
  unfold EndsIn Group.rest
  cases g.stop <;> exact List.suffix_refl _

/-- What a group leaves is no longer than its text. -/
theorem rest_length {g : Group} {p : Text} (inside : EndsIn g.stop p) : g.rest.length ≤ p.length := by
  obtain ⟨items, stop⟩ := g
  cases stop with
  | ok rest => exact List.IsSuffix.length_le inside
  | error s => exact List.IsSuffix.length_le inside

/-- A group decodes no more bytes than it uses up characters, its selector included. -/
theorem scanGroup_length (fc : UInt8) (p : Text) :
    (scanGroup fc p).items.length + (scanGroup fc p).rest.length ≤ p.length + 1 := by
  have run : ∀ more decoder empty, ((scanRun more decoder p).orEmpty empty).items.length +
      ((scanRun more decoder p).orEmpty empty).rest.length ≤ p.length := by
    intro more decoder empty
    rw [orEmpty_items, orEmpty_rest]
    exact scanRun_length more decoder p
  unfold scanGroup
  split
  · exact Nat.le_succ_of_le (run _ _ _)
  · split
    · exact Nat.le_succ_of_le (run _ _ _)
    · split
      · have whole := run (headIs isAlnumLat) asciiDecoder .emptyAscii
        have inside : EndsIn (scanAsciiGroup p).stop _ :=
          scanAsciiEnd_endsIn _ _ (endsIn_rest _)
        have ended := rest_length inside
        have items : (scanAsciiGroup p).items =
          ((scanRun (headIs isAlnumLat) asciiDecoder p).orEmpty .emptyAscii).items := rfl
        rw [items]
        omega
      · simp [Group.rest]

/-- A payload's scan decodes no more bytes than there are characters. By induction along
the scan. -/
theorem scanPayload_length (p : Text) : (scanPayload p).items.length ≤ p.length := by
  fun_induction scanPayload p with
  | case1 => exact Nat.le_refl _
  | case2 fc p start => exact Nat.zero_le _
  | case3 p start ih => exact Nat.le_succ_of_le ih
  | case4 fc p start bar s ended =>
    have group := scanGroup_length fc p
    simp only [List.length_cons]
    omega
  | case5 fc p start bar rest ended more ih =>
    have group := scanGroup_length fc p
    simp only [Group.rest, ended] at group
    simp only [List.length_append, List.length_cons, more]
    omega

/-- In a line that is not too long there is room for every command's payload. -/
theorem capacity_short {used : Nat} {p : Text} (short : p.length ≤ 1022)
    (room : used + p.length ≤ 2044) : capacity 0 used (scanPayload p).items = .ok () := by
  have few := scanPayload_length p
  exact (capacity_ok 0 used _ (Nat.zero_le _) (by omega)).mpr ⟨by omega, by omega⟩

/-- Behind a repaired address a read may end, with no count. -/
theorem read_addr_repairable {d ctrl : UInt8} {p : Text} {s : Stop} (named : (d, ctrl) ∈ readCtrls)
    (addressed : Repairable IAddr (fun _ => 0) p s) :
    Repairable Cmd (fun c => c.payload.length + 3) (byte 'h' :: byte 'A' :: d :: p) s := by
  refine repairable_behind [byte 'h', byte 'A', d] (fun a => .read ctrl a 0 .none) addressed ?_ ?_
  · intro t a addr
    exact .read named addr (.done []) (.empty [])
  · intro a
    simp [TwiCmd.payload]

/-- Behind a repaired address a write may end, with no payload. -/
theorem write_addr_repairable {d ctrl : UInt8} {p : Text} {s : Stop} (named : (d, ctrl) ∈ writeCtrls)
    (addressed : Repairable IAddr (fun _ => 0) p s) :
    Repairable Cmd (fun c => c.payload.length + 3) (byte 'h' :: byte 'A' :: d :: p) s := by
  refine repairable_behind [byte 'h', byte 'A', d] (fun a => .write ctrl a []) addressed ?_ ?_
  · intro t a addr
    exact .write named addr (.done [])
  · intro a
    simp [TwiCmd.payload]

/-- A command's scan stops for a character, or for a count that is too large, if the
line is not too long. -/
theorem scanCmdBody_repairable {p : Text} {s : Stop} {used : Nat} (start : startsCmd p = true)
    (short : p.length ≤ 1024) (room : used + p.length ≤ 2044)
    (stopped : scanCmdBody used (p.drop 1) = .error s) :
    s.msg = .countExceeds ∨ Repairable Cmd (fun c => c.payload.length + 3) p s := by
  obtain ⟨d, member, x, rfl⟩ := (startsCmd_iff p).mp start
  obtain ⟨ctrl, first, direction⟩ := scan_ctrl d member x
  simp only [List.length_cons] at short room
  rw [List.drop_one, List.tail_cons] at stopped
  unfold scanCmdBody at stopped
  simp only [first] at stopped
  split at stopped
  · next t second =>
    cases stopped
    have addressed := scanAddr_repairable second
    rcases direction with ⟨-, named⟩ | ⟨-, named⟩
    · exact Or.inr (read_addr_repairable named addressed)
    · exact Or.inr (write_addr_repairable named addressed)
  · next addr r second =>
    obtain ⟨q, derived, bars⟩ := scanAddr_sound x r addr second
    have addressed := iaddr_uses _ _ _ derived
    have passed := bars_length bars
    obtain ⟨u, rfl, takes⟩ := iaddr_spans _ _ _ derived
    obtain ⟨b, rfl, passes⟩ := bars_span bars
    have front : byte 'h' :: byte 'A' :: d :: (u ++ (b ++ r)) =
        byte 'h' :: byte 'A' :: d :: (u ++ b) ++ r := by simp
    rw [front]
    rcases direction with ⟨isRead, named⟩ | ⟨isWrite, named⟩
    · simp only [isRead, if_true] at stopped
      split at stopped
      · next t third =>
        cases stopped
        rcases scanTail_repairable third with exceeds | repairable
        · exact Or.inl exceeds
        · right
          refine repairable_behind _ (fun v => .read ctrl addr v.1 v.2) repairable ?_ ?_
          · rintro t ⟨n, fmt⟩ ⟨y, skipped, ended⟩
            simp only [List.cons_append, List.append_assoc]
            exact .read named (takes _) (bars_trans (passes _) skipped) ended
          · intro v
            simp [TwiCmd.payload]
      · simp at stopped
    · simp only [isWrite, Bool.false_eq_true, if_false] at stopped
      rw [capacity_short (by omega) (by omega)] at stopped
      simp only at stopped
      split at stopped
      · next t third =>
        cases stopped
        right
        refine repairable_behind _ (fun bs => .write ctrl addr bs) (scanPayload_repairable third) ?_ ?_
        · intro t bs payload
          simp only [List.cons_append, List.append_assoc]
          exact .write named (takes _) (payload_bars (passes _) payload)
        · intro bs
          simp only [TwiCmd.payload, List.length_cons, List.length_append]
          omega
      · simp at stopped

/-! ## Chains -/

/-- A chain's scan stops behind complete commands, where none begins or where the
next one is scanned in vain. -/
theorem scanChain_stopped (count used : Nat) (p : Text) (cs : List TwiCmd) (s : Stop)
    (inside : count ≤ 160) (room : used ≤ 2044) (scanned : scanChain count used p = (cs, some s)) :
    ∃ q, Segment p cs q ∧ Clear q ∧ q ≠ [] ∧ Fits count used cs ∧
      ((startsCmd q = false ∧ s = ⟨.garbage, q⟩) ∨
        (startsCmd q = true ∧ scanCmd (count + cs.length) (used + payloadTotal cs) q = .error s)) := by
  fun_induction scanChain count used p generalizing cs with
  | case1 count used p behind => simp at scanned
  | case2 count used p ch rest behind start t failed =>
    obtain ⟨rfl, same⟩ := Prod.mk.inj scanned
    cases same
    exact ⟨ch :: rest, segment_nil (behind ▸ bars_skip p), clear_start start, by simp,
      ⟨inside, by simp, room⟩, Or.inr ⟨start, failed⟩⟩
  | case3 count used p ch rest behind start cmd q read more ih =>
    obtain ⟨rfl, ended⟩ := Prod.mk.inj scanned
    obtain ⟨derived, free, short, total⟩ := scanCmd_sound count used _ q cmd room read
    obtain ⟨r, segment, clear, nonempty, fits, stops⟩ := ih more.1 free total (Prod.ext rfl ended)
    have limits := fits.count
    have sum := fits.total
    refine ⟨r, segment_bars (behind ▸ bars_skip p) (segment_cons derived segment), clear, nonempty,
      ?_, ?_⟩
    · exact
        { count := by rw [List.length_cons]; omega
          each := List.forall_mem_cons.mpr ⟨short, fits.each⟩
          total := by rw [payloadTotal_cons]; omega }
    · rw [List.length_cons, payloadTotal_cons, Nat.add_comm more.1.length 1, ← Nat.add_assoc,
        ← Nat.add_assoc]
      exact stops
  | case4 count used p ch rest behind start =>
    obtain ⟨rfl, same⟩ := Prod.mk.inj scanned
    cases same
    have clear := skipBars_clear p
    rw [behind] at clear
    exact ⟨ch :: rest, segment_nil (behind ▸ bars_skip p), clear, by simp,
      ⟨inside, by simp, room⟩, Or.inl ⟨by simpa using start, rfl⟩⟩

/-- Where and why the chain of a line of the usual length stops, behind commands
that are read in front of anything. -/
theorem chain_stops {p : Text} {cs : List TwiCmd} {s : Stop} (start : startsCmd p = true)
    (short : p.length ≤ 1024) (scanned : scanChain 0 0 p = (cs, some s)) :
    ∃ u q, p = u ++ q ∧ Takes Segment u cs ∧ Fits 0 0 cs ∧
      ((s = ⟨.garbage, q⟩ ∧ cs ≠ []) ∨
        (s = ⟨.tooManyCmds, q⟩ ∧ cs.length = 160 ∧ startsCmd q = true) ∨
        (cs.length < 160 ∧ (s.msg = .countExceeds ∨
          Repairable Cmd (fun c => c.payload.length + 3) q s))) := by
  obtain ⟨q, segment, clear, nonempty, fits, stops⟩ :=
    scanChain_stopped 0 0 p cs s (by decide) (by decide) scanned
  have length := segment_length segment
  rcases segment_span segment clear with ⟨u, rfl, takes⟩ | ⟨finished, -⟩
  · refine ⟨u, q, rfl, takes, fits, ?_⟩
    rcases stops with ⟨other, rfl⟩ | ⟨begins, failed⟩
    · left
      refine ⟨rfl, ?_⟩
      rintro rfl
      obtain ⟨r, derived, bars⟩ := segment
      cases derived with
      | done =>
        have same := skipBars_bars bars
        rw [startsCmd_skip start, clear_skip clear] at same
        rw [same, other] at start
        simp at start
    · right
      rw [Nat.zero_add, Nat.zero_add] at failed
      unfold scanCmd at failed
      split at failed
      · next full =>
        cases failed
        have most := fits.count
        have full : 160 ≤ cs.length := full
        exact Or.inl ⟨rfl, by omega, begins⟩
      · next free =>
        have free : cs.length < 160 := Nat.lt_of_not_le free
        rw [begins] at failed
        exact Or.inr ⟨free, scanCmdBody_repairable begins (by omega) (by omega) failed⟩
  · exact absurd finished nonempty

/-! ## Special commands -/

/-- The digits of the port stop at another character, and those in front of it can be
completed to eight. By induction on how many are left. -/
theorem scanOutBits_stopped (left : Nat) (v : UInt8) (p : Text) (s : Stop)
    (stopped : scanOutBits left v p = .error s) :
    s.msg = .outDigits ∧ ∃ w more, p = w ++ s.rest ∧ (∀ d ∈ w ++ more, d ∈ binDigits) ∧
      (w ++ more).length = left := by
  have zeros : ∀ n, ∀ d ∈ List.replicate n (byte '0'), d ∈ binDigits := by
    intro n d member
    rw [List.eq_of_mem_replicate member, binDigits_codes]
    exact List.mem_cons_self
  fun_induction scanOutBits left v p with
  | case1 v p => simp at stopped
  | case2 left v =>
    cases stopped
    exact ⟨rfl, [], List.replicate (left + 1) (byte '0'), rfl, zeros (left + 1),
      List.length_replicate⟩
  | case3 left v ch rest bit ih =>
    obtain ⟨msg, w, more, text, digits, length⟩ := ih stopped
    refine ⟨msg, ch :: w, more, by rw [text]; rfl, ?_, congrArg (· + 1) length⟩
    exact List.forall_mem_cons.mpr ⟨(isBin_iff ch).mp bit, digits⟩
  | case4 left v ch rest bit =>
    cases stopped
    exact ⟨rfl, [], List.replicate (left + 1) (byte '0'), rfl, zeros (left + 1),
      List.length_replicate⟩

/-- A line that does not begin like a command is empty or scanned as a special one. -/
theorem scanLine_other {p : Text} {cs : List TwiCmd} {s : Stop} (start : startsCmd p = false)
    (stopped : scanLine p = .error (cs, s)) :
    (p = [] ∧ s = ⟨.emptyTransaction, []⟩) ∨ scanSpecial p = .error s := by
  unfold scanLine at stopped
  by_cases empty : p = []
  · simp only [empty, if_true] at stopped
    cases stopped
    exact Or.inl ⟨empty, rfl⟩
  · simp only [empty, start, if_false, Bool.false_eq_true] at stopped
    split at stopped
    · simp at stopped
    · next t failed =>
      cases stopped
      exact Or.inr failed

/-- Where a special line stops, it can be completed to one of the special commands. -/
theorem scanSpecial_repairable {p : Text} {s : Stop} (stopped : scanSpecial p = .error s) :
    Repairable (fun q entry _ => SpecialLine q entry) (fun _ => 0) p s := by
  unfold scanSpecial at stopped
  split at stopped
  · next q prefix_ =>
    obtain rfl := strPrefix_eq.mp prefix_
    split at stopped
    · next t failed =>
      cases stopped
      obtain ⟨msg, w, more, text, digits, length⟩ := scanOutBits_stopped 8 0 q s failed
      have line : SpecialLine (bytes "out_" ++ (w ++ more) ++ []) _ :=
        .out length digits (by simp [Blanks])
      rw [List.append_nil, ← List.append_assoc] at line
      exact ⟨by rw [msg]; rfl, bytes "out_" ++ w, more, _, by rw [text, List.append_assoc], line,
        Nat.zero_le _⟩
    · next v rest digits =>
      obtain ⟨ds, rfl, length, all, -⟩ := (scanOutBits_exact 8 0 q v rest).mp digits
      split at stopped
      · simp at stopped
      · cases stopped
        exact ⟨rfl, bytes "out_" ++ ds, [], _, by rw [List.append_assoc],
          .out length all (by simp [Blanks]), Nat.zero_le _⟩
  · split at stopped
    · simp at stopped
    · split at stopped
      · simp at stopped
      · cases stopped
        exact ⟨rfl, [], bytes "inp" ++ [], _, rfl, .inp (by simp [Blanks]), Nat.zero_le _⟩

end NeoSfp
