import Mcfreeze.Server.Protocol

/-!
# Connections

`handleConnection` (`listener.rs`) as a function of the successive read results of the
connection, an empty list of which is the end of the stream.  Between two reads the task
waits in its outer loop or inside `drain`; `receive` resumes it with the bytes of one
read.  `session` reads a whole byte stream as the sequence of its commands.

The bytes a connection writes are the responses of the commands of its stream, however
the stream is cut into reads, except when the stream ends inside the data block of a
rejected `ms` command: `drain` then leaves the connection without a flush, and the
responses that wait in the write buffer are lost.
-/

namespace Server

/-! ### The connection task -/

/-- Where the task waits for bytes: in the outer read, or in `drain` for `n` bytes. -/
inductive Waiting where
  | command
  | drain (n : Nat)
  deriving DecidableEq, Repr

/-- The task between two reads, with the bytes written and the commands dispatched so
far. -/
structure Conn where
  waiting : Waiting
  readBuf : Bytes
  writeBuf : Bytes
  written : Bytes
  dispatched : List Command
  deriving DecidableEq, Repr

/-- What a finished connection has done; `parseFailed` when it ended on a parse error. -/
structure Outcome where
  written : Bytes
  dispatched : List Command
  parseFailed : Bool
  deriving DecidableEq, Repr

/-- A connection task: waiting for bytes, or ended. -/
inductive Status where
  | waiting (conn : Conn)
  | closed (outcome : Outcome)
  deriving DecidableEq, Repr

/-- The reply to a parse error. -/
def errorLine : Bytes := ascii "ERROR" ++ crlfBytes

/-- Dispatch every complete command in the read buffer, then flush; `fuel` bounds the
number of commands. -/
def serve (cfg : ConnConfig) : Nat → (readBuf writeBuf written : Bytes) → List Command → Status
  | 0, readBuf, writeBuf, written, dispatched =>
    .waiting ⟨.command, readBuf, [], written ++ writeBuf, dispatched⟩
  | fuel + 1, readBuf, writeBuf, written, dispatched =>
    match parseCommand readBuf with
    | (.error _, _) => .closed ⟨written ++ (writeBuf ++ errorLine), dispatched, true⟩
    | (.ok none, rest) => .waiting ⟨.command, rest, [], written ++ writeBuf, dispatched⟩
    | (.ok (some cmd), rest) =>
      match dispatch cfg cmd writeBuf with
      | (.continue, out) => serve cfg fuel rest out written (dispatched ++ [cmd])
      | (.close, out) => .closed ⟨written ++ out, dispatched ++ [cmd], false⟩
      | (.drain n, out) =>
        if rest.length < n then
          .waiting ⟨.drain n, rest, out, written, dispatched ++ [cmd]⟩
        else
          serve cfg fuel (rest.drop n) out written (dispatched ++ [cmd])

/-- Resume a waiting task with the bytes of one read. -/
def receive (cfg : ConnConfig) (conn : Conn) (bytes : Bytes) : Status :=
  let buf := conn.readBuf ++ bytes
  match conn.waiting with
  | .command => serve cfg (buf.length + 1) buf conn.writeBuf conn.written conn.dispatched
  | .drain n =>
    if buf.length < n then .waiting { conn with readBuf := buf }
    else
      serve cfg (buf.length + 1) (buf.drop n) conn.writeBuf conn.written conn.dispatched

/-- Run a task over the remaining read results; at the end of the stream both waits leave
without a flush. -/
def resume (cfg : ConnConfig) : Status → List Bytes → Outcome
  | .closed outcome, _ => outcome
  | .waiting conn, [] => ⟨conn.written, conn.dispatched, false⟩
  | .waiting conn, bytes :: reads => resume cfg (receive cfg conn bytes) reads

/-- A connection whose successive reads return `reads` and then the end of the stream. -/
def handleConnection (cfg : ConnConfig) (reads : List Bytes) : Outcome :=
  resume cfg (.waiting ⟨.command, [], [], [], []⟩) reads

/-! ### Whole streams -/

/-- How a stream of commands ends. -/
inductive Ending where
  | eof
  | parseError
  | quit
  | insideBody
  deriving DecidableEq, Repr

/-- The commands of a stream, at most `fuel` of them, and how it ends. -/
def sessionFuel : Nat → Bytes → List Command × Ending
  | 0, _ => ([], .eof)
  | fuel + 1, stream =>
    match parseCommand stream with
    | (.error _, _) => ([], .parseError)
    | (.ok none, _) => ([], .eof)
    | (.ok (some cmd), rest) =>
      match disposition cmd with
      | .continue => (cmd :: (sessionFuel fuel rest).1, (sessionFuel fuel rest).2)
      | .close => ([cmd], .quit)
      | .drain n =>
        if rest.length < n then ([cmd], .insideBody)
        else (cmd :: (sessionFuel fuel (rest.drop n)).1, (sessionFuel fuel (rest.drop n)).2)

/-- The commands of a stream and how it ends. -/
def session (stream : Bytes) : List Command × Ending :=
  sessionFuel (stream.length + 1) stream

/-- The stream ends before the data block of a rejected `ms` command and its terminator
have arrived. -/
def EndsInsideBody (stream : Bytes) : Prop :=
  (session stream).2 = .insideBody

instance (stream : Bytes) : Decidable (EndsInsideBody stream) :=
  inferInstanceAs (Decidable (_ = _))

/-- The responses to a sequence of commands, one after the other. -/
def responses (cfg : ConnConfig) (cmds : List Command) : Bytes :=
  (cmds.map (response cfg)).flatten

/-- The responses to the commands of a stream, and `ERROR` after a parse error. -/
def transcript (cfg : ConnConfig) (stream : Bytes) : Bytes :=
  responses cfg (session stream).1
    ++ if (session stream).2 = .parseError then errorLine else []

/-- Successive non-empty reads that deliver a stream. -/
def Delivers (stream : Bytes) (reads : List Bytes) : Prop :=
  reads.flatten = stream ∧ ∀ bytes ∈ reads, bytes ≠ []

/-- Every stream can be delivered. -/
theorem exists_delivers (stream : Bytes) :
  ∃ reads, Delivers stream reads
  := by
  by_cases h : stream = []
  · use []
    constructor
    · simp [h]
    · simp
  · use [stream]
    constructor
    · simp
    · simpa using h

/-- The bytes written do not depend on the reads that deliver the stream, and are the
responses of all dispatched commands in order, followed by `ERROR` on a parse error. -/
def WritesAllResponses (cfg : ConnConfig) (stream : Bytes) : Prop :=
  (∀ reads reads', Delivers stream reads → Delivers stream reads' →
    (handleConnection cfg reads).written = (handleConnection cfg reads').written)
  ∧ ∀ reads, Delivers stream reads →
    (handleConnection cfg reads).written
      = responses cfg (handleConnection cfg reads).dispatched
        ++ if (handleConnection cfg reads).parseFailed then errorLine else []

/-! ### One command of a stream -/

/-- Any fuel beyond the length of the stream gives the same session. -/
theorem sessionFuel_congr (fuel : Nat) :
  ∀ (fuel' : Nat) (stream : Bytes), stream.length < fuel → stream.length < fuel' →
    sessionFuel fuel stream = sessionFuel fuel' stream
  := by
  induction fuel with
  | zero =>
    intro fuel' stream h
    omega
  | succ fuel ih =>
    intro fuel' stream h h'
    obtain ⟨fuel'', rfl⟩ : ∃ k, fuel' = k + 1 := ⟨fuel' - 1, by omega⟩
    simp only [sessionFuel]
    split
    · rfl
    · rfl
    · next cmd rest hp =>
      have hlen := parseCommand_length hp
      have hrest := ih fuel'' rest (by omega) (by omega)
      split
      · rw [hrest]
      · rfl
      · next n _ =>
        have hdrop : (rest.drop n).length ≤ rest.length := by simp
        rw [ih fuel'' (rest.drop n) (by omega) (by omega)]

theorem session_error {stream rest : Bytes} {err : ProtoError}
    (h : parseCommand stream = (.error err, rest)) :
  session stream = ([], .parseError)
  := by
  simp [session, sessionFuel, h]

theorem session_none {stream rest : Bytes} (h : parseCommand stream = (.ok none, rest)) :
  session stream = ([], .eof)
  := by
  simp [session, sessionFuel, h]

/-- A command without a body is followed by the rest of the stream. -/
theorem session_continue {stream rest : Bytes} {cmd : Command}
    (h : parseCommand stream = (.ok (some cmd), rest)) (hd : disposition cmd = .continue) :
  session stream = (cmd :: (session rest).1, (session rest).2)
  := by
  have hlen := parseCommand_length h
  have hfuel : sessionFuel stream.length rest = session rest := by
    apply sessionFuel_congr
    · omega
    · omega
  rw [session, sessionFuel]
  simp only [h, hd, hfuel]

theorem session_close {stream rest : Bytes} {cmd : Command}
    (h : parseCommand stream = (.ok (some cmd), rest)) (hd : disposition cmd = .close) :
  session stream = ([cmd], .quit)
  := by
  simp [session, sessionFuel, h, hd]

theorem session_insideBody {stream rest : Bytes} {cmd : Command} {n : Nat}
    (h : parseCommand stream = (.ok (some cmd), rest)) (hd : disposition cmd = .drain n)
    (hn : rest.length < n) :
  session stream = ([cmd], .insideBody)
  := by
  simp [session, sessionFuel, h, hd, hn]

/-- A command with a body is followed by what is behind it. -/
theorem session_drain {stream rest : Bytes} {cmd : Command} {n : Nat}
    (h : parseCommand stream = (.ok (some cmd), rest)) (hd : disposition cmd = .drain n)
    (hn : n ≤ rest.length) :
  session stream = (cmd :: (session (rest.drop n)).1, (session (rest.drop n)).2)
  := by
  have hlen := parseCommand_length h
  have hdrop : (rest.drop n).length ≤ rest.length := by simp
  have hfuel : sessionFuel stream.length (rest.drop n) = session (rest.drop n) := by
    apply sessionFuel_congr
    · omega
    · omega
  rw [session, sessionFuel]
  simp only [h, hd, hfuel, if_neg (Nat.not_lt.mpr hn)]

/-! ### What a connection delivers -/

/-- `outcome` is what the connection does that had written `written` and dispatched
`dispatched` before it came to `stream`: of the remaining transcript it loses something
exactly when the stream ends inside a body. -/
def Completes (cfg : ConnConfig) (outcome : Outcome) (written : Bytes)
    (dispatched : List Command) (stream : Bytes) : Prop :=
  outcome.dispatched = dispatched ++ (session stream).1
  ∧ (outcome.parseFailed = true ↔ (session stream).2 = .parseError)
  ∧ ∃ lost, outcome.written ++ lost = written ++ transcript cfg stream
    ∧ (lost = [] ↔ (session stream).2 ≠ .insideBody)

/-- A session that starts with `cmd` completes when the rest of it does. -/
theorem Completes.cons {cfg : ConnConfig} {outcome : Outcome} {written : Bytes}
    {dispatched : List Command} {stream rest : Bytes} {cmd : Command}
    (hs : session stream = (cmd :: (session rest).1, (session rest).2))
    (h : Completes cfg outcome (written ++ response cfg cmd) (dispatched ++ [cmd]) rest) :
  Completes cfg outcome written dispatched stream
  := by
  obtain ⟨hd, hf, lost, hw, hl⟩ := h
  refine ⟨?_, ?_, lost, ?_, ?_⟩
  · rw [hd, hs, List.append_assoc]
    rfl
  · rw [hf, hs]
  · rw [hw, transcript, transcript, hs]
    simp [responses]
  · rw [hl, hs]

/-- The task that waits for a command completes the stream its buffer starts. -/
def WaitsForCommand (cfg : ConnConfig) (reads : List Bytes) : Prop :=
  ∀ buf written dispatched, parseCommand buf = (.ok none, buf) →
    Completes cfg (resume cfg (.waiting ⟨.command, buf, [], written, dispatched⟩) reads) written
      dispatched (buf ++ reads.flatten)

/-- The task that waits in `drain` loses its write buffer if the body never arrives, and
otherwise completes the stream after the body. -/
def WaitsForBody (cfg : ConnConfig) (reads : List Bytes) : Prop :=
  ∀ n buf out written dispatched, buf.length < n →
    let outcome := resume cfg (.waiting ⟨.drain n, buf, out, written, dispatched⟩) reads
    ((buf ++ reads.flatten).length < n → outcome = ⟨written, dispatched, false⟩)
    ∧ (n ≤ (buf ++ reads.flatten).length →
      Completes cfg outcome (written ++ out) dispatched ((buf ++ reads.flatten).drop n))

/-- Dispatching the commands in the buffer, and then running over the remaining reads,
completes the stream. -/
theorem serve_completes
    {cfg : ConnConfig} {reads : List Bytes} (hcmd : WaitsForCommand cfg reads)
    (hbody : WaitsForBody cfg reads) (fuel : Nat) :
  ∀ buf out written dispatched, buf.length < fuel →
    Completes cfg (resume cfg (serve cfg fuel buf out written dispatched) reads)
      (written ++ out) dispatched (buf ++ reads.flatten)
  := by
  induction fuel with
  | zero =>
    intro buf out written dispatched h
    omega
  | succ fuel ih =>
    intro buf out written dispatched hfuel
    rw [serve]
    split
    · next err rest hp =>
      have hs := session_error (parseCommand_append_error hp reads.flatten)
      refine ⟨?_, ?_, [], ?_, ?_⟩
      · simp [resume, hs]
      · simp [resume, hs]
      · simp [resume, transcript, responses, hs]
      · simp [hs]
    · next rest hp =>
      obtain rfl : rest = buf := by
        rw [parseCommand] at hp
        split at hp
        · simp at hp
        · simpa using hp.symm
        · simp at hp
      apply hcmd
      apply hp
    · next cmd rest hp =>
      have hlen := parseCommand_length hp
      have happ := parseCommand_append_some hp reads.flatten
      rw [dispatch_eq]
      cases hd : disposition cmd with
      | «continue» =>
        simp only
        have hrest := ih rest (out ++ response cfg cmd) written (dispatched ++ [cmd]) (by omega)
        rw [← List.append_assoc] at hrest
        apply Completes.cons (session_continue happ hd) hrest
      | close =>
        have hs := session_close happ hd
        refine ⟨?_, ?_, [], ?_, ?_⟩
        · simp [resume, hs]
        · simp [resume, hs]
        · simp [resume, transcript, responses, hs]
        · simp [hs]
      | drain n =>
        simp only
        by_cases hn : rest.length < n
        · rw [if_pos hn]
          have hwait := hbody n rest (out ++ response cfg cmd) written (dispatched ++ [cmd]) hn
          by_cases hend : (rest ++ reads.flatten).length < n
          · have hs := session_insideBody happ hd hend
            rw [hwait.1 hend]
            refine ⟨?_, ?_, out ++ response cfg cmd, ?_, ?_⟩
            · simp [hs]
            · simp [hs]
            · simp [transcript, responses, hs]
            · have hne : response cfg cmd ≠ [] := by
                cases cmd with
                | writeRejected dataLen => apply response_writeRejected_ne_nil
                | mg key flags => simp [disposition] at hd
                | version => simp [disposition] at hd
                | quit => simp [disposition] at hd
              simp [hs, hne]
          · have hnext := hwait.2 (Nat.not_lt.mp hend)
            rw [← List.append_assoc] at hnext
            apply Completes.cons (session_drain happ hd (Nat.not_lt.mp hend)) hnext
        · rw [if_neg hn]
          have hdrop : (rest.drop n).length ≤ rest.length := by simp
          have hnext := ih (rest.drop n) (out ++ response cfg cmd) written (dispatched ++ [cmd])
            (by omega)
          have hle : n ≤ rest.length := Nat.not_lt.mp hn
          rw [← List.append_assoc, ← List.drop_append_of_le_length hle] at hnext
          apply Completes.cons (session_drain happ hd _) hnext
          simp only [List.length_append]
          omega

/-- However the stream is cut into reads, the waiting task completes it: by induction on
the reads still to come. -/
theorem waits (cfg : ConnConfig) (reads : List Bytes) :
  WaitsForCommand cfg reads ∧ WaitsForBody cfg reads
  := by
  induction reads with
  | nil =>
    constructor
    · intro buf written dispatched hp
      have hs := session_none hp
      rw [List.flatten_nil, List.append_nil]
      refine ⟨?_, ?_, [], ?_, ?_⟩
      · simp [resume, hs]
      · simp [resume, hs]
      · simp [resume, transcript, responses, hs]
      · simp [hs]
    · intro n buf out written dispatched hn
      constructor
      · intro _
        rfl
      · intro hle
        simp only [List.flatten_nil, List.append_nil] at hle
        omega
  | cons bytes reads ih =>
    obtain ⟨hcmd, hbody⟩ := ih
    constructor
    · intro buf written dispatched _
      have hserve := serve_completes hcmd hbody ((buf ++ bytes).length + 1) (buf ++ bytes) []
        written dispatched (Nat.lt_succ_self _)
      simpa [resume, receive] using hserve
    · intro n buf out written dispatched _
      simp only [resume, receive, List.flatten_cons]
      rw [← List.append_assoc]
      by_cases hlt : (buf ++ bytes).length < n
      · rw [if_pos hlt]
        apply hbody n (buf ++ bytes) out written dispatched hlt
      · rw [if_neg hlt]
        have hle : n ≤ (buf ++ bytes).length := Nat.not_lt.mp hlt
        have hdrop : ((buf ++ bytes).drop n).length < (buf ++ bytes).length + 1 := by
          simp only [List.length_drop]
          omega
        constructor
        · intro hshort
          simp only [List.length_append] at hle hshort
          omega
        · intro _
          have hserve := serve_completes hcmd hbody ((buf ++ bytes).length + 1)
            ((buf ++ bytes).drop n) out written dispatched hdrop
          rw [List.drop_append_of_le_length hle]
          apply hserve

theorem handleConnection_completes (cfg : ConnConfig) {stream : Bytes} {reads : List Bytes}
    (h : Delivers stream reads) :
  Completes cfg (handleConnection cfg reads) [] [] stream
  := by
  have hwait := (waits cfg reads).1 [] [] [] rfl
  rw [List.nil_append, h.1] at hwait
  apply hwait

/-- The bytes written are the transcript of the stream unless the stream ends inside a
body, and then they are not. -/
theorem written_eq_transcript_iff {cfg : ConnConfig} {stream : Bytes} {reads : List Bytes}
    (h : Delivers stream reads) :
  (handleConnection cfg reads).written = transcript cfg stream ↔ ¬ EndsInsideBody stream
  := by
  obtain ⟨-, -, lost, hw, hl⟩ := handleConnection_completes cfg h
  rw [EndsInsideBody, ← ne_eq, ← hl]
  rw [List.nil_append] at hw
  constructor
  · intro heq
    rw [heq] at hw
    simpa using hw
  · intro hlost
    simpa [hlost] using hw

/-- A connection writes all its responses, however its stream is cut into reads, exactly
when the stream does not end inside the data block of a rejected `ms` command. -/
theorem writesAllResponses_iff (cfg : ConnConfig) (stream : Bytes) :
  WritesAllResponses cfg stream ↔ ¬ EndsInsideBody stream
  := by
  have hresp : ∀ reads, Delivers stream reads →
      responses cfg (handleConnection cfg reads).dispatched
          ++ (if (handleConnection cfg reads).parseFailed then errorLine else [])
        = transcript cfg stream := by
    intro reads h
    obtain ⟨hd, hf, -⟩ := handleConnection_completes cfg h
    rw [transcript, hd, List.nil_append]
    simp only [hf]
  constructor
  · rintro ⟨-, hall⟩
    obtain ⟨reads, h⟩ := exists_delivers stream
    have hw := hall reads h
    rw [hresp reads h] at hw
    apply (written_eq_transcript_iff h).mp hw
  · intro hend
    constructor
    · intro reads reads' h h'
      rw [(written_eq_transcript_iff h).mpr hend, (written_eq_transcript_iff h').mpr hend]
    · intro reads h
      rw [(written_eq_transcript_iff h).mpr hend, hresp reads h]

/-- A `version` command followed by an `ms` command whose body never arrives: delivered in
one read nothing is written, delivered in two the response to `version` is. -/
theorem not_writesAllResponses_truncated_body :
  ¬ WritesAllResponses ⟨fun _ => none, ascii "1", 0⟩ (ascii "version\r\nms k 5\r\nab")
  := by
  rintro ⟨hindep, -⟩
  have hone : Delivers (ascii "version\r\nms k 5\r\nab")
      [ascii "version\r\nms k 5\r\nab"] := by
    constructor
    · decide
    · decide
  have htwo : Delivers (ascii "version\r\nms k 5\r\nab")
      [ascii "version\r\n", ascii "ms k 5\r\nab"] := by
    constructor
    · decide
    · decide
  have heq := hindep _ _ hone htwo
  revert heq
  decide

end Server
