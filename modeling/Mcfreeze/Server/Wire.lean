import Mcfreeze.Server.HotSwap
import Mcfreeze.Server.Responses

/-!
# Connections across hot-swaps

The connection tasks of `listener.rs` over the registry of `registry.rs`: any number of
connections read their streams, each command is dispatched with the catalog that its
connection has then, and meanwhile the reload loop swaps catalogs.  A connection takes its
catalog first and the number that it reports as its version after that.

Whatever the interleaving, the bytes of a connection are the responses to the commands of
its stream, each get is answered from one catalog that was installed when the get loaded
the registry, and no get that comes after a reported version is answered from an older
catalog.

The steps of the tasks take effect one after the other, for the counter too, which the code
reads and stores relaxed.  A write to a socket does not fail; in the code a failed one ends
the connection.
-/

namespace Server.Wire

open Catalog HotSwap

variable {Snapshot : Type}

/-! ### Connection tasks -/

/-- A command that was dispatched; a get comes with the catalog that answered it. -/
inductive Served (Snapshot : Type) where
  | get (key : Bytes) (flags : MgFlags) (catalog : ActiveCatalog Snapshot)
  | version
  | quit
  | writeRejected (dataLen : Nat)

def Served.command : Served Snapshot → Command
  | .get key flags _ => .mg key flags
  | .version => .version
  | .quit => .quit
  | .writeRejected dataLen => .writeRejected dataLen

def Served.catalog : Served Snapshot → Option (ActiveCatalog Snapshot)
  | .get _ _ catalog => some catalog
  | _ => none

/-- Where the task of a connection stands: its number is not read yet, it waits for bytes,
it is about to parse a command, it waits for a lookup, it drains a body, or it has ended. -/
inductive Task where
  | accepting
  | reading
  | parsing
  | looking (key : Bytes) (flags : MgFlags)
  | draining (n : Nat)
  | closed (ending : Ending)
  deriving DecidableEq, Repr

/-- The local variables of `handle_connection`, with the bytes it has written.  Nothing
looks at `received`, the bytes it has read, and at `served`. -/
structure Socket (Snapshot : Type) where
  generation : Nat
  task : Task
  readBuf : Bytes
  writeBuf : Bytes
  written : Bytes
  received : Bytes
  served : List (Served Snapshot)

def Socket.init : Socket Snapshot :=
  ⟨0, .accepting, [], [], [], [], []⟩

/-- What a client learns of generations: on a connection a version is reported, or a get
loads the registry. -/
inductive Observation (Snapshot : Type) where
  | version (n : Nat) (generation : Nat)
  | load (n : Nat) (catalog : ActiveCatalog Snapshot)

def Observation.connection : Observation Snapshot → Nat
  | .version n _ => n
  | .load n _ => n

def Observation.generation : Observation Snapshot → Nat
  | .version _ g => g
  | .load _ catalog => catalog.generation

/-- The server with its connections.  Nothing looks at `history`. -/
structure State (Snapshot : Type) where
  core : HotSwap.State Snapshot
  sockets : Nat → Option (Socket Snapshot)
  history : List (Observation Snapshot)

def State.init (initial : ActiveCatalog Snapshot) : State Snapshot :=
  ⟨.init initial, fun _ => none, []⟩

/-- The steps of the reload loop (`wake`, `build`, `swap`, `store`), of the accept loop
(`accept`, `start`), and of a connection: `receive` is a read that returns bytes and
`hangUp` one that returns none, fails, or times out. -/
inductive Action where
  | wake
  | build (data : Option Bytes)
  | swap
  | store
  | accept (n : Nat)
  | start (n : Nat)
  | receive (n : Nat) (bytes : Bytes)
  | parse (n : Nat)
  | answer (n : Nat)
  | hangUp (n : Nat)

section

variable (env : Env Snapshot) (read : Snapshot → Bytes → Except String LookupOutcome)
  (semver : Bytes)

/-- The lookup of a connection that has the given catalog. -/
def lookupIn (catalog : ActiveCatalog Snapshot) : Lookup :=
  fun key => (answerFrom read catalog key).toOption

/-- What a command of a connection is dispatched with. -/
def Served.config (generation : Nat) : Served Snapshot → ConnConfig
  | .get _ _ catalog => ⟨lookupIn read catalog, semver, generation⟩
  | _ => ⟨fun _ => none, semver, generation⟩

/-- The commands of a connection, each with what it was dispatched with. -/
def Socket.steps (k : Socket Snapshot) : List (ConnConfig × Command) :=
  k.served.map fun e => (e.config read semver k.generation, e.command)

/-- Discard `n` bytes of the read buffer, or wait for them. -/
def Socket.drain (k : Socket Snapshot) (n : Nat) : Socket Snapshot :=
  if k.readBuf.length < n then { k with task := .draining n }
  else { k with task := .parsing, readBuf := k.readBuf.drop n }

/-- Dispatch a command that is not a get. -/
def Socket.dispatchOther (k : Socket Snapshot) (e : Served Snapshot) (rest : Bytes) : Socket Snapshot :=
  let (disposition, out) := dispatch (e.config read semver k.generation) e.command k.writeBuf
  let k := { k with readBuf := rest, writeBuf := out, served := k.served ++ [e] }
  match disposition with
  | .continue => { k with task := .parsing }
  | .close => { k with task := .closed .quit, writeBuf := [], written := k.written ++ out }
  | .drain n => k.drain n

/-- Append the bytes of one read. -/
def Socket.readBytes (k : Socket Snapshot) (bytes : Bytes) : Socket Snapshot :=
  { k with readBuf := k.readBuf ++ bytes, received := k.received ++ bytes }

def State.setSocket (s : State Snapshot) (n : Nat) (k : Socket Snapshot) : State Snapshot :=
  { s with sockets := Function.update s.sockets n (some k) }

/-- A step of the reload loop. -/
def State.reload (s : State Snapshot) (a : HotSwap.Action) : Option (State Snapshot) :=
  (HotSwap.step env read s.core a).map fun core => { s with core := core }

/-- A step of the connection `n` that uses the registry. -/
def State.using (s : State Snapshot) (n : Nat) (a : HotSwap.Action) (k : Socket Snapshot) :
    Option (State Snapshot) :=
  (HotSwap.step env read s.core a).map fun core => { s.setSocket n k with core := core }

/-- One pass of the inner loop: parse a command, and dispatch it or start its lookup. -/
def State.parse (s : State Snapshot) (n : Nat) (k : Socket Snapshot) : Option (State Snapshot) :=
  match parseCommand k.readBuf with
  | (.error _, _) =>
    s.using env read n (.close n)
      { k with task := .closed .parseError, writeBuf := [],
               written := k.written ++ (k.writeBuf ++ errorLine) }
  | (.ok none, rest) =>
    some (s.setSocket n
      { k with task := .reading, readBuf := rest, writeBuf := [], written := k.written ++ k.writeBuf })
  | (.ok (some (.mg key flags)), rest) =>
    (s.using env read n (.load n key) { k with task := .looking key flags, readBuf := rest }).map
      fun s => { s with history := s.history ++ [.load n s.core.active] }
  | (.ok (some .quit), rest) =>
    s.using env read n (.close n) (k.dispatchOther read semver .quit rest)
  | (.ok (some .version), rest) =>
    some { s.setSocket n (k.dispatchOther read semver .version rest) with
      history := s.history ++ [.version n k.generation] }
  | (.ok (some (.writeRejected m)), rest) =>
    some (s.setSocket n (k.dispatchOther read semver (.writeRejected m) rest))

/-- One step, if it is enabled. -/
def step (s : State Snapshot) : Action → Option (State Snapshot)
  | .wake => s.reload env read .wake
  | .build data => s.reload env read (.build data)
  | .swap => s.reload env read .swap
  | .store => s.reload env read .store
  | .accept n =>
    match s.sockets n with
    | none => s.using env read n (.accept n) .init
    | some _ => none
  | .start n =>
    match s.sockets n with
    | some k =>
      if k.task = .accepting then
        some (s.setSocket n { k with task := .reading, generation := s.core.generation })
      else none
    | none => none
  | .receive n bytes =>
    match s.sockets n with
    | some k =>
      if bytes = [] then none
      else
        match k.task with
        | .reading => some (s.setSocket n { k.readBytes bytes with task := .parsing })
        | .draining m => some (s.setSocket n ((k.readBytes bytes).drain m))
        | _ => none
    | none => none
  | .parse n =>
    match s.sockets n with
    | some k => if k.task = .parsing then s.parse env read semver n k else none
    | none => none
  | .answer n =>
    match s.sockets n, s.core.connections n with
    | some k, some conn =>
      match k.task with
      | .looking key flags =>
        let e : Served Snapshot := .get key flags conn.catalog
        s.using env read n (.answer n)
          { k with task := .parsing, served := k.served ++ [e],
                   writeBuf := dispatchMg (e.config read semver k.generation) key flags k.writeBuf }
      | _ => none
    | _, _ => none
  | .hangUp n =>
    match s.sockets n with
    | some k =>
      match k.task with
      | .reading => s.using env read n (.close n) { k with task := .closed .eof }
      | .draining _ => s.using env read n (.close n) { k with task := .closed .insideBody }
      | _ => none
    | none => none

/-- The states reached from a server with an initial catalog. -/
inductive Reachable : State Snapshot → Prop where
  | init {initial} : IsInitial env initial → Reachable (.init initial)
  | step {s s' a} : Reachable s → step env read semver s a = some s' → Reachable s'

end

/-! ### Following the stream -/

def Socket.commands (k : Socket Snapshot) : List Command :=
  k.served.map Served.command

/-- The catalogs that have answered the gets of a connection. -/
def Socket.catalogs (k : Socket Snapshot) : List (ActiveCatalog Snapshot) :=
  k.served.filterMap Served.catalog

/-- Whatever comes behind the received bytes, the session starts with the commands and goes
on behind them with `rest`. -/
def Follows (received : Bytes) (cmds : List Command) (rest : Bytes) : Prop :=
  ∀ tail, session (received ++ tail) = (cmds ++ (session (rest ++ tail)).1, (session (rest ++ tail)).2)

/-- The session goes on behind a body of `n` bytes, which has arrived up to `buf`. -/
def FollowsBody (received : Bytes) (cmds : List Command) (n : Nat) (buf : Bytes) : Prop :=
  ∀ tail,
    ((buf ++ tail).length < n → session (received ++ tail) = (cmds, .insideBody))
      ∧ (n ≤ (buf ++ tail).length → session (received ++ tail)
        = (cmds ++ (session ((buf ++ tail).drop n)).1, (session ((buf ++ tail).drop n)).2))

/-- The task is as far in its stream as it has dispatched commands. -/
def Socket.Tracks (k : Socket Snapshot) : Prop :=
  match k.task with
  | .accepting => k.received = [] ∧ k.readBuf = [] ∧ k.writeBuf = [] ∧ k.served = []
  | .reading => Follows k.received k.commands k.readBuf
      ∧ parseCommand k.readBuf = (.ok none, k.readBuf) ∧ k.writeBuf = []
  | .parsing => Follows k.received k.commands k.readBuf
  | .looking key flags => Follows k.received (k.commands ++ [.mg key flags]) k.readBuf
      ∧ Parsed (.mg key flags)
  | .draining n => k.readBuf.length < n ∧ FollowsBody k.received k.commands n k.readBuf
  | .closed ending => session k.received = (k.commands, ending)
      ∧ (ending ≠ .insideBody → k.writeBuf = [])

section

variable {received buf rest bytes : Bytes} {cmds : List Command} {cmd : Command}

theorem Follows.nil :
  Follows [] [] []
  := by
  intro tail
  rfl

theorem Follows.append (h : Follows received cmds buf) (bytes : Bytes) :
  Follows (received ++ bytes) cmds (buf ++ bytes)
  := by
  intro tail
  rw [List.append_assoc, List.append_assoc]
  apply h

theorem FollowsBody.append {n : Nat} (h : FollowsBody received cmds n buf) (bytes : Bytes) :
  FollowsBody (received ++ bytes) cmds n (buf ++ bytes)
  := by
  intro tail
  rw [List.append_assoc, List.append_assoc]
  apply h

/-- The next command is parsed, and the session goes on behind it. -/
theorem Follows.continue (h : Follows received cmds buf)
    (hparse : parseCommand buf = (.ok (some cmd), rest)) (hd : disposition cmd = .continue) :
  Follows received (cmds ++ [cmd]) rest
  := by
  intro tail
  rw [h tail, session_continue (parseCommand_append_some hparse tail) hd, List.append_assoc]
  rfl

/-- The next command is parsed, and a body is to be drained. -/
theorem Follows.body {n : Nat} (h : Follows received cmds buf)
    (hparse : parseCommand buf = (.ok (some cmd), rest)) (hd : disposition cmd = .drain n) :
  FollowsBody received (cmds ++ [cmd]) n rest
  := by
  intro tail
  have hparse' := parseCommand_append_some hparse tail
  rw [h tail]
  constructor
  · intro hlt
    rw [session_insideBody hparse' hd hlt]
  · intro hle
    rw [session_drain hparse' hd hle, List.append_assoc]
    rfl

/-- The body has arrived. -/
theorem FollowsBody.follows {n : Nat} (h : FollowsBody received cmds n buf) (hle : n ≤ buf.length) :
  Follows received cmds (buf.drop n)
  := by
  intro tail
  have hlen : n ≤ (buf ++ tail).length := by
    rw [List.length_append]
    omega
  rw [(h tail).2 hlen, List.drop_append_of_le_length hle]

theorem Follows.quit (h : Follows received cmds buf)
    (hparse : parseCommand buf = (.ok (some cmd), rest)) (hd : disposition cmd = .close) :
  session received = (cmds ++ [cmd], .quit)
  := by
  have hnil := h []
  rwa [List.append_nil, List.append_nil, session_close hparse hd] at hnil

theorem Follows.parseError {err : ProtoError} (h : Follows received cmds buf)
    (hparse : parseCommand buf = (.error err, rest)) :
  session received = (cmds, .parseError)
  := by
  have hnil := h []
  rwa [List.append_nil, List.append_nil, session_error hparse, List.append_nil] at hnil

theorem Follows.eof (h : Follows received cmds buf) (hparse : parseCommand buf = (.ok none, rest)) :
  session received = (cmds, .eof)
  := by
  have hnil := h []
  rwa [List.append_nil, List.append_nil, session_none hparse, List.append_nil] at hnil

theorem FollowsBody.truncated {n : Nat} (h : FollowsBody received cmds n buf) (hlt : buf.length < n) :
  session received = (cmds, .insideBody)
  := by
  have hnil := (h []).1
  rw [List.append_nil, List.append_nil] at hnil
  apply hnil hlt

end

/-- The commands are the first ones of the stream, whatever comes behind what was received. -/
theorem Socket.Tracks.session {k : Socket Snapshot} (h : k.Tracks)
    (hopen : ∀ ending, k.task ≠ .closed ending) (tail : Bytes) :
  k.commands <+: (Server.session (k.received ++ tail)).1
  := by
  rw [Socket.Tracks] at h
  split at h
  · obtain ⟨-, -, -, hserved⟩ := h
    rw [Socket.commands, hserved]
    apply List.nil_prefix
  · rw [h.1 tail]
    apply List.prefix_append
  · rw [h tail]
    apply List.prefix_append
  · rw [h.1 tail, List.append_assoc]
    apply List.prefix_append
  · next n htask =>
    by_cases hlt : (k.readBuf ++ tail).length < n
    · have hsession := (h.2 tail).1 hlt
      exact ⟨[], by rw [List.append_nil, hsession]⟩
    · rw [(h.2 tail).2 (Nat.not_lt.mp hlt)]
      apply List.prefix_append
  · next ending htask => exact absurd htask (hopen ending)

/-! ### What a task keeps -/

/-- The reply that ends the bytes of a connection. -/
def Socket.trailer (k : Socket Snapshot) : Bytes :=
  if k.task = .closed .parseError then errorLine else []

section

variable (read : Snapshot → Bytes → Except String LookupOutcome) (semver : Bytes)

/-- What a task keeps by itself: it follows its stream, it has dispatched commands that were
parsed, and what it has written, with its write buffer, are their responses. -/
structure Socket.Ok (k : Socket Snapshot) : Prop where
  tracks : k.Tracks
  parsed : ∀ e ∈ k.served, Parsed e.command
  output : k.written ++ k.writeBuf = dispatchAll (k.steps read semver) ++ k.trailer

end

section

variable {read : Snapshot → Bytes → Except String LookupOutcome} {semver : Bytes}
  {k : Socket Snapshot} {cmd : Command} {rest : Bytes}

theorem dispatchAll_append (steps : List (ConnConfig × Command)) (step : ConnConfig × Command) :
  dispatchAll (steps ++ [step]) = dispatchAll steps ++ response step.1 step.2
  := by
  rw [dispatchAll, List.foldl_append, List.foldl_cons, List.foldl_nil, dispatch_eq]
  rfl

theorem Socket.ok_init :
  (Socket.init : Socket Snapshot).Ok read semver
  := by
  refine ⟨⟨rfl, rfl, rfl, rfl⟩, ?_, rfl⟩
  intro e he
  simp [Socket.init] at he

theorem Socket.trailer_of_open (h : ∀ ending, k.task ≠ .closed ending) :
  k.trailer = []
  := by
  rw [Socket.trailer, if_neg (h _)]

theorem Socket.Ok.served_nil (h : k.Ok read semver) (htask : k.task = .accepting) :
  k.served = []
  := by
  have htracks := h.tracks
  rw [Socket.Tracks, htask] at htracks
  exact htracks.2.2.2

/-- A connection is well when its task starts to read. -/
theorem Socket.Ok.start (h : k.Ok read semver) (htask : k.task = .accepting) (generation : Nat) :
  ({ k with task := .reading, generation := generation } : Socket Snapshot).Ok read semver
  := by
  have htracks := h.tracks
  rw [Socket.Tracks, htask] at htracks
  obtain ⟨hreceived, hbuf, hwrite, hserved⟩ := htracks
  have hout := h.output
  rw [Socket.trailer_of_open (by simp [htask]), hwrite, Socket.steps, hserved] at hout
  refine ⟨?_, h.parsed, ?_⟩
  · refine ⟨?_, ?_, hwrite⟩
    · rw [hreceived, hbuf, Socket.commands, hserved]
      apply Follows.nil
    · rw [hbuf]
      decide
  · rw [hwrite, Socket.steps, hserved]
    exact hout

/-- A read while the task waits for a command. -/
theorem Socket.Ok.receive (h : k.Ok read semver) (htask : k.task = .reading) (bytes : Bytes) :
  ({ k.readBytes bytes with task := .parsing } : Socket Snapshot).Ok read semver
  := by
  have htracks := h.tracks
  rw [Socket.Tracks, htask] at htracks
  refine ⟨htracks.1.append bytes, h.parsed, ?_⟩
  have hout := h.output
  rw [Socket.trailer_of_open (by simp [htask])] at hout
  exact hout

/-- Discarding a body of `n` bytes, as far as it has arrived. -/
theorem Socket.tracks_drain {n : Nat} (h : FollowsBody k.received k.commands n k.readBuf) :
  (k.drain n).Tracks
  := by
  rw [Socket.drain]
  split
  · next hlt => exact ⟨hlt, h⟩
  · next hle => exact h.follows (Nat.not_lt.mp hle)

theorem Socket.drain_frame (k : Socket Snapshot) (n : Nat) :
  (k.drain n).served = k.served ∧ (k.drain n).generation = k.generation
    ∧ (k.drain n).written = k.written ∧ (k.drain n).writeBuf = k.writeBuf
    ∧ ∀ ending, (k.drain n).task ≠ .closed ending
  := by
  rw [Socket.drain]
  split
  · simp
  · simp

/-- Draining writes nothing. -/
theorem Socket.output_drain {n : Nat} (h : k.written ++ k.writeBuf = dispatchAll (k.steps read semver)) :
  (k.drain n).written ++ (k.drain n).writeBuf
    = dispatchAll ((k.drain n).steps read semver) ++ (k.drain n).trailer
  := by
  obtain ⟨hserved, hgen, hwritten, hwrite, hopen⟩ := k.drain_frame n
  rw [Socket.trailer_of_open hopen, hwritten, hwrite, h, Socket.steps, Socket.steps, hserved, hgen,
    List.append_nil]

/-- A read while the task drains a body. -/
theorem Socket.Ok.receiveBody (h : k.Ok read semver) {n : Nat} (htask : k.task = .draining n)
    (bytes : Bytes) :
  ((k.readBytes bytes).drain n).Ok read semver
  := by
  have htracks := h.tracks
  rw [Socket.Tracks, htask] at htracks
  have hout := h.output
  rw [Socket.trailer_of_open (by simp [htask]), List.append_nil] at hout
  refine ⟨?_, ?_, ?_⟩
  · apply Socket.tracks_drain
    apply htracks.2.append
  · rw [((k.readBytes bytes).drain_frame n).1]
    exact h.parsed
  · apply Socket.output_drain
    exact hout

/-- The read buffer has no further command: the write buffer is flushed. -/
theorem Socket.Ok.flush (h : k.Ok read semver) (htask : k.task = .parsing)
    (hparse : parseCommand k.readBuf = (.ok none, rest)) :
  ({ k with task := .reading, readBuf := rest, writeBuf := [],
            written := k.written ++ k.writeBuf } : Socket Snapshot).Ok read semver
  := by
  have htracks := h.tracks
  rw [Socket.Tracks, htask] at htracks
  obtain rfl : rest = k.readBuf := ((parseCommand_streams k.readBuf []).2.2 rest hparse).1
  have hout := h.output
  rw [Socket.trailer_of_open (by simp [htask])] at hout
  refine ⟨⟨htracks, hparse, rfl⟩, h.parsed, ?_⟩
  rw [List.append_nil]
  exact hout

/-- A connection that closes on a bad command has answered those before it. -/
theorem Socket.Ok.parseError (h : k.Ok read semver) (htask : k.task = .parsing) {err : ProtoError}
    (hparse : parseCommand k.readBuf = (.error err, rest)) :
  ({ k with task := .closed .parseError, writeBuf := [],
            written := k.written ++ (k.writeBuf ++ errorLine) } : Socket Snapshot).Ok read semver
  := by
  have htracks := h.tracks
  rw [Socket.Tracks, htask] at htracks
  have hout := h.output
  rw [Socket.trailer_of_open (by simp [htask]), List.append_nil] at hout
  refine ⟨⟨htracks.parseError hparse, fun _ => rfl⟩, h.parsed, ?_⟩
  rw [List.append_nil, ← List.append_assoc, hout]
  rfl

/-- A get is parsed, and its lookup starts. -/
theorem Socket.Ok.look (h : k.Ok read semver) (htask : k.task = .parsing) {key : Bytes}
    {flags : MgFlags} (hparse : parseCommand k.readBuf = (.ok (some (.mg key flags)), rest)) :
  ({ k with task := .looking key flags, readBuf := rest } : Socket Snapshot).Ok read semver
  := by
  have htracks := h.tracks
  rw [Socket.Tracks, htask] at htracks
  have hout := h.output
  rw [Socket.trailer_of_open (by simp [htask])] at hout
  exact ⟨⟨htracks.continue hparse rfl, _, _, hparse⟩, h.parsed, hout⟩

/-- The lookup has ended, and the get is answered. -/
theorem Socket.Ok.answer (h : k.Ok read semver) {key : Bytes} {flags : MgFlags}
    (htask : k.task = .looking key flags) (catalog : ActiveCatalog Snapshot) :
  ({ k with
      task := .parsing
      served := k.served ++ [.get key flags catalog]
      writeBuf := dispatchMg ((Served.get key flags catalog).config read semver k.generation) key flags
        k.writeBuf } : Socket Snapshot).Ok read semver
  := by
  have htracks := h.tracks
  rw [Socket.Tracks, htask] at htracks
  have hout := h.output
  rw [Socket.trailer_of_open (by simp [htask]), List.append_nil] at hout
  refine ⟨?_, ?_, ?_⟩
  · have hcmds : Socket.commands { k with served := k.served ++ [.get key flags catalog] }
        = k.commands ++ [.mg key flags] := by
      rw [Socket.commands, List.map_append]
      rfl
    have hfollows := htracks.1
    rw [← hcmds] at hfollows
    exact hfollows
  · intro e he
    rcases List.mem_append.mp he with he | he
    · apply h.parsed e he
    · obtain rfl := List.mem_singleton.mp he
      apply htracks.2
  · have hmg : ∀ cfg dst, dispatchMg cfg key flags dst = dst ++ response cfg (.mg key flags) :=
      fun cfg dst => congrArg Prod.snd (dispatch_eq cfg (.mg key flags) dst)
    rw [Socket.trailer_of_open (by simp), Socket.steps, List.map_append, List.map_singleton,
      dispatchAll_append, hmg, ← List.append_assoc, hout, List.append_nil]
    rfl

/-- A command that is not a get is parsed and dispatched. -/
theorem Socket.Ok.dispatchOther (h : k.Ok read semver) (htask : k.task = .parsing) {e : Served Snapshot}
    (hparse : parseCommand k.readBuf = (.ok (some e.command), rest)) :
  (k.dispatchOther read semver e rest).Ok read semver
  := by
  have htracks := h.tracks
  rw [Socket.Tracks, htask] at htracks
  have hout := h.output
  rw [Socket.trailer_of_open (by simp [htask]), List.append_nil] at hout
  have hparsed : ∀ e' ∈ k.served ++ [e], Parsed e'.command := by
    intro e' he'
    rcases List.mem_append.mp he' with he' | he'
    · apply h.parsed e' he'
    · obtain rfl := List.mem_singleton.mp he'
      exact ⟨_, _, hparse⟩
  have hcmds : (k.served ++ [e]).map Served.command = k.commands ++ [e.command] := by
    rw [List.map_append]
    rfl
  have hsteps : k.written ++ (k.writeBuf ++ response (e.config read semver k.generation) e.command)
      = dispatchAll ((k.served ++ [e]).map fun e =>
        (e.config read semver k.generation, e.command)) := by
    rw [List.map_append, List.map_singleton, dispatchAll_append, ← List.append_assoc, hout]
    rfl
  rw [Socket.dispatchOther, dispatch_eq]
  cases hd : disposition e.command with
  | «continue» =>
    refine ⟨?_, hparsed, ?_⟩
    · have hfollows := htracks.continue hparse hd
      rw [← hcmds] at hfollows
      exact hfollows
    · rw [Socket.trailer_of_open (by simp), List.append_nil]
      exact hsteps
  | close =>
    refine ⟨⟨?_, fun _ => rfl⟩, hparsed, ?_⟩
    · have hquit := htracks.quit hparse hd
      rw [← hcmds] at hquit
      exact hquit
    · rw [Socket.trailer, if_neg (by simp), List.append_nil, List.append_nil]
      exact hsteps
  | drain n =>
    refine ⟨?_, ?_, ?_⟩
    · have hbody := htracks.body hparse hd
      rw [← hcmds] at hbody
      exact Socket.tracks_drain hbody
    · rw [(Socket.drain_frame _ n).1]
      exact hparsed
    · apply Socket.output_drain
      exact hsteps

/-- The stream ends while the task waits for bytes. -/
theorem Socket.Ok.hangUp (h : k.Ok read semver) (htask : k.task = .reading) :
  ({ k with task := .closed .eof } : Socket Snapshot).Ok read semver
  := by
  have htracks := h.tracks
  rw [Socket.Tracks, htask] at htracks
  obtain ⟨hfollows, hnone, hwrite⟩ := htracks
  have hout := h.output
  rw [Socket.trailer_of_open (by simp [htask])] at hout
  exact ⟨⟨hfollows.eof hnone, fun _ => hwrite⟩, h.parsed, hout⟩

theorem Socket.Ok.hangUpBody (h : k.Ok read semver) {n : Nat} (htask : k.task = .draining n) :
  ({ k with task := .closed .insideBody } : Socket Snapshot).Ok read semver
  := by
  have htracks := h.tracks
  rw [Socket.Tracks, htask] at htracks
  obtain ⟨hlt, hbody⟩ := htracks
  have hout := h.output
  rw [Socket.trailer_of_open (by simp [htask])] at hout
  exact ⟨⟨hbody.truncated hlt, by simp⟩, h.parsed, hout⟩

end

/-! ### What the registry keeps -/

/-- The key that is being looked up. -/
def Task.lookedUp : Task → Option Bytes
  | .looking key _ => some key
  | _ => none

/-- What ties a task to the registry: its number was stored when it read it, its gets were
answered from installed catalogs with at least this number, one after the other, and it
has a connection with a pending get while it waits for a lookup. -/
structure Socket.Attached (core : HotSwap.State Snapshot) (conn : Option (Connection Snapshot))
    (k : Socket Snapshot) : Prop where
  generation : k.generation ≤ core.generation
  answered : ∀ catalog ∈ k.catalogs, catalog ∈ core.installed ∧ k.generation ≤ catalog.generation
  sorted : k.catalogs.Pairwise fun a b => a.generation ≤ b.generation
  connected : (∀ ending, k.task ≠ .closed ending) →
    ∃ c, conn = some c ∧ c.pending.map Get.key = k.task.lookedUp
  loaded : ∀ c, conn = some c → c.pending.isSome = true →
    k.generation ≤ c.catalog.generation
      ∧ ∀ catalog ∈ k.catalogs, catalog.generation ≤ c.catalog.generation

/-- Numbers only grow, and installed catalogs stay known. -/
structure Grows (core core' : HotSwap.State Snapshot) : Prop where
  generation : core.generation ≤ core'.generation
  active : core.active.generation ≤ core'.active.generation
  installed : ∀ catalog ∈ core.installed, catalog ∈ core'.installed

theorem Grows.of_eq {core core' : HotSwap.State Snapshot} (hgen : core'.generation = core.generation)
    (hinstalled : core'.installed = core.installed) :
  Grows core core'
  := by
  refine ⟨Nat.le_of_eq hgen.symm, ?_, ?_⟩
  · rw [(List.cons.inj hinstalled).1]
  · intro catalog h
    rwa [hinstalled]

section

variable {env : Env Snapshot} {read : Snapshot → Bytes → Except String LookupOutcome} {semver : Bytes}
  {core core' : HotSwap.State Snapshot} {k : Socket Snapshot} {conn : Option (Connection Snapshot)}

/-- The number that is stored is not larger than that of the active catalog. -/
theorem generation_le_active (h : HotSwap.Inv read core) :
  core.generation ≤ core.active.generation
  := by
  have hnum := h.numbered
  rw [Numbered] at hnum
  split at hnum <;> omega

theorem Socket.Attached.mono (h : k.Attached core conn) (hgrows : Grows core core') :
  k.Attached core' conn
  := by
  refine ⟨Nat.le_trans h.generation hgrows.generation, ?_, h.sorted, h.connected, h.loaded⟩
  intro catalog hmem
  obtain ⟨hinstalled, hgen⟩ := h.answered catalog hmem
  exact ⟨hgrows.installed _ hinstalled, hgen⟩

/-- The steps of the reload loop leave the connections as they are. -/
theorem reload_spec (h : HotSwap.Inv read core) {a : HotSwap.Action}
    (ha : a = .wake ∨ (∃ data, a = .build data) ∨ a = .swap ∨ a = .store)
    (hstep : HotSwap.step env read core a = some core') :
  Grows core core' ∧ core'.connections = core.connections
  := by
  have hnum := h.numbered
  rw [Numbered] at hnum
  rcases ha with rfl | ⟨data, rfl⟩ | rfl | rfl
  · obtain ⟨-, rfl⟩ := HotSwap.step_wake hstep
    exact ⟨.of_eq rfl rfl, rfl⟩
  · obtain ⟨nextGen, active, generation, -, rfl | ⟨catalog, -, rfl⟩⟩ := HotSwap.step_build hstep
    · exact ⟨.of_eq rfl rfl, rfl⟩
    · exact ⟨.of_eq rfl rfl, rfl⟩
  · obtain ⟨nextGen, catalog, hreload, rfl⟩ := HotSwap.step_swap hstep
    rw [hreload] at hnum
    refine ⟨⟨Nat.le_refl _, ?_, ?_⟩, rfl⟩
    · change core.active.generation ≤ catalog.generation
      omega
    · intro c hc
      apply List.mem_cons_of_mem _ hc
  · obtain ⟨nextGen, hreload, rfl⟩ := HotSwap.step_store hstep
    rw [hreload] at hnum
    refine ⟨⟨?_, Nat.le_refl _, fun _ h => h⟩, rfl⟩
    change core.generation ≤ nextGen
    omega

/-- A step of a connection leaves the registry and the other connections as they are. -/
structure Local (n : Nat) (core core' : HotSwap.State Snapshot) : Prop where
  active : core'.active = core.active
  grows : Grows core core'
  others : ∀ m, m ≠ n → core'.connections m = core.connections m

theorem local_of_update {n : Nat} {c : Option (Connection Snapshot)} {answers : List (Answer Snapshot)} :
  Local n core { core with connections := Function.update core.connections n c, answers := answers }
  :=
  ⟨rfl, .of_eq rfl rfl, fun _ hm => Function.update_of_ne hm _ _⟩

theorem accept_spec {n : Nat} (hstep : HotSwap.step env read core (.accept n) = some core') :
  Local n core core' ∧ ∃ c, core'.connections n = some c ∧ c.pending = none
  := by
  obtain rfl := HotSwap.step_accept hstep
  exact ⟨local_of_update, _, Function.update_self _ _ _, rfl⟩

theorem close_spec {n : Nat} (hstep : HotSwap.step env read core (.close n) = some core') :
  Local n core core' ∧ core'.connections n = none
  := by
  obtain rfl := HotSwap.step_close hstep
  exact ⟨local_of_update, Function.update_self _ _ _⟩

/-- A connection that has loaded the registry has the active catalog. -/
theorem load_spec (h : HotSwap.Inv read core) {n : Nat} {key : Bytes}
    (hstep : HotSwap.step env read core (.load n key) = some core') :
  Local n core core'
    ∧ ∃ c, core'.connections n = some c ∧ c.pending.map Get.key = some key ∧ c.catalog = core.active
  := by
  obtain ⟨catalog, observed, hn, rfl⟩ := HotSwap.step_load hstep
  refine ⟨local_of_update, _, Function.update_self _ _ _, rfl, ?_⟩
  apply h.refresh_eq (h.connections n _ hn).installed

theorem answer_spec {n : Nat} (hstep : HotSwap.step env read core (.answer n) = some core') :
  Local n core core'
    ∧ ∃ c c', core.connections n = some c ∧ c.pending.isSome = true ∧ core'.connections n = some c'
      ∧ c'.pending = none
  := by
  obtain ⟨catalog, get, observed, hn, rfl⟩ := HotSwap.step_answer hstep
  exact ⟨local_of_update, _, _, hn, rfl, Function.update_self _ _ _, rfl⟩

/-- A task that keeps its number and its gets, and neither starts nor ends a lookup. -/
theorem Socket.Attached.same (h : k.Attached core conn) {k' : Socket Snapshot}
    (hgen : k'.generation = k.generation) (hcatalogs : k'.catalogs = k.catalogs)
    (hopen : ∀ ending, k.task ≠ .closed ending) (hlookup : k'.task.lookedUp = k.task.lookedUp) :
  k'.Attached core conn
  := by
  refine ⟨?_, ?_, ?_, ?_, ?_⟩
  · rw [hgen]
    exact h.generation
  · rw [hgen, hcatalogs]
    exact h.answered
  · rw [hcatalogs]
    exact h.sorted
  · intro _
    rw [hlookup]
    exact h.connected hopen
  · rw [hgen, hcatalogs]
    exact h.loaded

/-- A task that ends drops its connection. -/
theorem Socket.Attached.closed (h : k.Attached core conn) {k' : Socket Snapshot} {ending : Ending}
    (hgen : k'.generation = k.generation) (hcatalogs : k'.catalogs = k.catalogs)
    (hclosed : k'.task = .closed ending) :
  k'.Attached core none
  := by
  refine ⟨?_, ?_, ?_, ?_, ?_⟩
  · rw [hgen]
    exact h.generation
  · rw [hgen, hcatalogs]
    exact h.answered
  · rw [hcatalogs]
    exact h.sorted
  · intro hopen
    exact absurd hclosed (hopen ending)
  · simp

/-- A task whose lookup starts: it takes the active catalog, which is not older than what
the connection has used. -/
theorem Socket.Attached.load (h : k.Attached core conn) (hcore : HotSwap.Inv read core) {n : Nat}
    {key : Bytes} {flags : MgFlags} {rest : Bytes}
    (hstep : HotSwap.step env read core (.load n key) = some core') :
  Local n core core'
    ∧ ({ k with task := .looking key flags, readBuf := rest } : Socket Snapshot).Attached core'
      (core'.connections n)
  := by
  obtain ⟨hlocal, c, hc, hpending, hcatalog⟩ := load_spec hcore hstep
  have hmono := h.mono hlocal.grows
  refine ⟨hlocal, hmono.generation, hmono.answered, hmono.sorted, fun _ => ⟨c, hc, hpending⟩, ?_⟩
  intro c' hc' _
  obtain rfl : c = c' := Option.some.inj (hc.symm.trans hc')
  rw [hcatalog]
  refine ⟨Nat.le_trans h.generation (generation_le_active hcore), ?_⟩
  intro catalog hmem
  apply hcore.le_active (h.answered catalog hmem).1

/-- A task whose lookup has ended. -/
theorem Socket.Attached.answer {c : Connection Snapshot} (h : k.Attached core (some c))
    (hc : c.catalog ∈ core.installed) (hpending : c.pending.isSome = true) {key : Bytes}
    {flags : MgFlags} {out : Bytes} {c' : Connection Snapshot} (hc' : c'.pending = none) :
  ({ k with
      task := .parsing
      served := k.served ++ [.get key flags c.catalog]
      writeBuf := out } : Socket Snapshot).Attached core (some c')
  := by
  obtain ⟨hgen, hle⟩ := h.loaded c rfl hpending
  have hcatalogs : Socket.catalogs { k with served := k.served ++ [.get key flags c.catalog] }
      = k.catalogs ++ [c.catalog] := by
    rw [Socket.catalogs, List.filterMap_append]
    rfl
  have hsorted : (k.catalogs ++ [c.catalog]).Pairwise fun a b => a.generation ≤ b.generation := by
    rw [List.pairwise_append]
    refine ⟨h.sorted, List.pairwise_singleton _ _, ?_⟩
    intro a ha b hb
    obtain rfl := List.mem_singleton.mp hb
    apply hle a ha
  refine ⟨h.generation, ?_, ?_, ?_, ?_⟩
  · intro catalog hmem
    change catalog ∈ Socket.catalogs { k with served := k.served ++ [.get key flags c.catalog] } at hmem
    rw [hcatalogs] at hmem
    rcases List.mem_append.mp hmem with hmem | hmem
    · apply h.answered catalog hmem
    · obtain rfl := List.mem_singleton.mp hmem
      exact ⟨hc, hgen⟩
  · change (Socket.catalogs { k with served := k.served ++ [.get key flags c.catalog] }).Pairwise _
    rw [hcatalogs]
    exact hsorted
  · intro _
    refine ⟨c', rfl, ?_⟩
    rw [hc']
    rfl
  · rintro _ ⟨⟩ hsome
    rw [hc'] at hsome
    simp at hsome

end

/-! ### What a step does -/

section

variable {env : Env Snapshot} {read : Snapshot → Bytes → Except String LookupOutcome} {semver : Bytes}
  {s s' : State Snapshot} {n : Nat} {k : Socket Snapshot}

theorem step_accept (hstep : step env read semver s (.accept n) = some s') :
  s.sockets n = none ∧ s.using env read n (.accept n) .init = some s'
  := by
  simp only [step] at hstep
  split at hstep
  · next hnone => exact ⟨hnone, hstep⟩
  · simp at hstep

/-- A connection starts with the generation of the moment. -/
theorem step_start (hstep : step env read semver s (.start n) = some s') :
  ∃ k, s.sockets n = some k ∧ k.task = .accepting
    ∧ s' = s.setSocket n { k with task := .reading, generation := s.core.generation }
  := by
  simp only [step] at hstep
  split at hstep
  · next k hk =>
    split at hstep
    · next htask => exact ⟨k, hk, htask, (Option.some.inj hstep).symm⟩
    · simp at hstep
  · simp at hstep

/-- Bytes are read for a command, or for a value that is drained. -/
theorem step_receive {bytes : Bytes} (hstep : step env read semver s (.receive n bytes) = some s') :
  ∃ k, s.sockets n = some k
    ∧ (k.task = .reading ∧ s' = s.setSocket n { k.readBytes bytes with task := .parsing }
      ∨ ∃ m, k.task = .draining m ∧ s' = s.setSocket n ((k.readBytes bytes).drain m))
  := by
  simp only [step] at hstep
  split at hstep
  · next k hk =>
    refine ⟨k, hk, ?_⟩
    split at hstep
    · simp at hstep
    · split at hstep
      · next htask => exact .inl ⟨htask, (Option.some.inj hstep).symm⟩
      · next m htask => exact .inr ⟨m, htask, (Option.some.inj hstep).symm⟩
      · simp at hstep
  · simp at hstep

theorem step_parse (hstep : step env read semver s (.parse n) = some s') :
  ∃ k, s.sockets n = some k ∧ k.task = .parsing ∧ s.parse env read semver n k = some s'
  := by
  simp only [step] at hstep
  split at hstep
  · next k hk =>
    split at hstep
    · next htask => exact ⟨k, hk, htask, hstep⟩
    · simp at hstep
  · simp at hstep

/-- A lookup is answered with what the pinned catalog has. -/
theorem step_answer (hstep : step env read semver s (.answer n) = some s') :
  ∃ k conn key flags, s.sockets n = some k ∧ s.core.connections n = some conn
    ∧ k.task = .looking key flags
    ∧ s.using env read n (.answer n)
      { k with task := .parsing, served := k.served ++ [.get key flags conn.catalog],
               writeBuf := dispatchMg ((Served.get key flags conn.catalog).config read semver
                 k.generation) key flags k.writeBuf } = some s'
  := by
  simp only [step] at hstep
  split at hstep
  · next k conn hk hconn =>
    split at hstep
    · next key flags htask => exact ⟨k, conn, key, flags, hk, hconn, htask, hstep⟩
    · simp at hstep
  · simp at hstep

/-- A client hangs up between commands or inside a body. -/
theorem step_hangUp (hstep : step env read semver s (.hangUp n) = some s') :
  ∃ k ending, s.sockets n = some k
    ∧ (k.task = .reading ∧ ending = .eof ∨ ∃ m, k.task = .draining m ∧ ending = .insideBody)
    ∧ s.using env read n (.close n) { k with task := .closed ending } = some s'
  := by
  simp only [step] at hstep
  split at hstep
  · next k hk =>
    split at hstep
    · next htask => exact ⟨k, .eof, hk, .inl ⟨htask, rfl⟩, hstep⟩
    · next m htask => exact ⟨k, .insideBody, hk, .inr ⟨m, htask, rfl⟩, hstep⟩
    · simp at hstep
  · simp at hstep

theorem core_using {a : HotSwap.Action} (hstep : s.using env read n a k = some s') :
  HotSwap.step env read s.core a = some s'.core
  := by
  obtain ⟨core, hcore, rfl⟩ := Option.map_eq_some_iff.mp hstep
  exact hcore

theorem core_reload {a : HotSwap.Action} (hstep : s.reload env read a = some s') :
  HotSwap.step env read s.core a = some s'.core
  := by
  obtain ⟨core, hcore, rfl⟩ := Option.map_eq_some_iff.mp hstep
  exact hcore

/-- The parse of a command is a step of the swap, or leaves it as it is. -/
theorem core_parse (hstep : s.parse env read semver n k = some s') :
  s'.core = s.core ∨ ∃ b, HotSwap.step env read s.core b = some s'.core
  := by
  rw [State.parse] at hstep
  split at hstep
  · exact .inr ⟨_, core_using hstep⟩
  · obtain rfl := Option.some.inj hstep
    exact .inl rfl
  · obtain ⟨s₁, hs₁, rfl⟩ := Option.map_eq_some_iff.mp hstep
    exact .inr ⟨_, (core_using hs₁ : HotSwap.step env read s.core _ = some s₁.core)⟩
  · exact .inr ⟨_, core_using hstep⟩
  · obtain rfl := Option.some.inj hstep
    exact .inl rfl
  · obtain rfl := Option.some.inj hstep
    exact .inl rfl

/-- The registry takes a step, or stays as it is. -/
theorem core_step {a : Action} (hstep : step env read semver s a = some s') :
  s'.core = s.core ∨ ∃ b, HotSwap.step env read s.core b = some s'.core
  := by
  cases a with
  | wake => exact .inr ⟨_, core_reload hstep⟩
  | build data => exact .inr ⟨_, core_reload hstep⟩
  | swap => exact .inr ⟨_, core_reload hstep⟩
  | store => exact .inr ⟨_, core_reload hstep⟩
  | accept n => exact .inr ⟨_, core_using (step_accept hstep).2⟩
  | start n =>
    obtain ⟨k, -, -, rfl⟩ := step_start hstep
    exact .inl rfl
  | receive n bytes =>
    obtain ⟨k, -, ⟨-, rfl⟩ | ⟨m, -, rfl⟩⟩ := step_receive hstep
    · exact .inl rfl
    · exact .inl rfl
  | parse n =>
    obtain ⟨k, -, -, hparse⟩ := step_parse hstep
    exact core_parse hparse
  | answer n =>
    obtain ⟨k, conn, key, flags, -, -, -, husing⟩ := step_answer hstep
    exact .inr ⟨_, core_using husing⟩
  | hangUp n =>
    obtain ⟨k, ending, -, -, husing⟩ := step_hangUp hstep
    exact .inr ⟨_, core_using husing⟩

/-- The registry of a reachable server is one that the reload loop and the connections
reach. -/
theorem Reachable.core (h : Reachable env read semver s) :
  HotSwap.Reachable env read s.core
  := by
  induction h with
  | init hinitial => exact .init hinitial
  | step _ hstep ih =>
    rcases core_step hstep with hsame | ⟨b, hb⟩
    · rwa [hsame]
    · exact ih.step hb

end

/-! ### The invariant -/

/-- The invariant.  Observed generations are not larger than that of the active catalog, and
a get loads one that is at least as large as all observed before. -/
structure Inv (read : Snapshot → Bytes → Except String LookupOutcome) (semver : Bytes)
    (s : State Snapshot) : Prop where
  core : HotSwap.Inv read s.core
  sockets : ∀ n k, s.sockets n = some k →
    k.Ok read semver ∧ k.Attached s.core (s.core.connections n)
  observed : ∀ o ∈ s.history, o.generation ≤ s.core.active.generation
  barrier : s.history.Pairwise fun o o' => ∀ n catalog, o' = .load n catalog →
    o.generation ≤ catalog.generation

section

variable {env : Env Snapshot} {read : Snapshot → Bytes → Except String LookupOutcome} {semver : Bytes}
  {s s' : State Snapshot} {n : Nat} {k k' : Socket Snapshot}

theorem inv_init {initial : ActiveCatalog Snapshot} (h : IsInitial env initial) :
  Inv read semver (.init initial)
  := by
  refine ⟨HotSwap.inv_init h, ?_, ?_, List.Pairwise.nil⟩
  · rintro n k ⟨⟩
  · intro o ho
    simp [State.init] at ho

/-- What the watcher does keeps the invariant. -/
theorem Inv.reload (h : Inv read semver s) {a : HotSwap.Action}
    (ha : a = .wake ∨ (∃ data, a = .build data) ∨ a = .swap ∨ a = .store)
    (hstep : s.reload env read a = some s') :
  Inv read semver s'
  := by
  obtain ⟨core, hcore, rfl⟩ := Option.map_eq_some_iff.mp hstep
  obtain ⟨hgrows, hconnections⟩ := reload_spec h.core ha hcore
  refine ⟨h.core.step hcore, ?_, ?_, h.barrier⟩
  · intro m k hk
    obtain ⟨hok, hattached⟩ := h.sockets m k hk
    refine ⟨hok, ?_⟩
    rw [hconnections]
    apply hattached.mono hgrows
  · intro o ho
    apply Nat.le_trans (h.observed o ho) hgrows.active

/-- A step of one task that leaves the registry as it is. -/
theorem Inv.setSocket (h : Inv read semver s) (hok : k'.Ok read semver)
    (hattached : k'.Attached s.core (s.core.connections n)) :
  Inv read semver (s.setSocket n k')
  := by
  refine ⟨h.core, ?_, h.observed, h.barrier⟩
  intro m k hk
  by_cases hm : m = n
  · subst hm
    obtain rfl : k' = k := by simpa [State.setSocket] using hk
    exact ⟨hok, hattached⟩
  · apply h.sockets m k
    rw [← hk]
    exact (Function.update_of_ne hm _ _).symm

/-- A step of one task that uses the registry. -/
theorem Inv.using (h : Inv read semver s) {a : HotSwap.Action} (hok : k'.Ok read semver)
    (hattached : ∀ core, HotSwap.step env read s.core a = some core →
      Local n s.core core ∧ k'.Attached core (core.connections n))
    (hstep : s.using env read n a k' = some s') :
  Inv read semver s' ∧ s'.history = s.history ∧ s'.core.active = s.core.active
  := by
  obtain ⟨core, hcore, rfl⟩ := Option.map_eq_some_iff.mp hstep
  obtain ⟨hlocal, hatt⟩ := hattached core hcore
  refine ⟨⟨h.core.step hcore, ?_, ?_, h.barrier⟩, rfl, hlocal.active⟩
  · intro m k hk
    by_cases hm : m = n
    · subst hm
      obtain rfl : k' = k := by simpa [State.setSocket] using hk
      exact ⟨hok, hatt⟩
    · have hk' : s.sockets m = some k := by
        rw [← hk]
        exact (Function.update_of_ne hm _ _).symm
      obtain ⟨hok', hattached'⟩ := h.sockets m k hk'
      refine ⟨hok', ?_⟩
      change k.Attached core (core.connections m)
      rw [hlocal.others m hm]
      apply hattached'.mono hlocal.grows
  · intro o ho
    apply Nat.le_trans (h.observed o ho) hlocal.grows.active

/-- An observation is added. -/
theorem Inv.observe (h : Inv read semver s) {o : Observation Snapshot}
    (hle : o.generation ≤ s.core.active.generation)
    (hload : ∀ m catalog, o = .load m catalog → catalog = s.core.active) :
  Inv read semver { s with history := s.history ++ [o] }
  := by
  refine ⟨h.core, h.sockets, ?_, ?_⟩
  · intro o' ho'
    rcases List.mem_append.mp ho' with ho' | ho'
    · apply h.observed o' ho'
    · obtain rfl := List.mem_singleton.mp ho'
      exact hle
  · change (s.history ++ [o]).Pairwise _
    rw [List.pairwise_append]
    refine ⟨h.barrier, List.pairwise_singleton _ _, ?_⟩
    intro o₁ ho₁ o₂ ho₂ m catalog heq
    obtain rfl := List.mem_singleton.mp ho₂
    rw [hload m catalog heq]
    apply h.observed o₁ ho₁

/-- A command other than a lookup uses no catalog. -/
theorem catalogs_dispatchOther (read : Snapshot → Bytes → Except String LookupOutcome) (semver : Bytes)
    (k : Socket Snapshot) {e : Served Snapshot} (he : e.catalog = none)
    (rest : Bytes) :
  (k.dispatchOther read semver e rest).catalogs = k.catalogs
    ∧ (k.dispatchOther read semver e rest).generation = k.generation
  := by
  have hserved : (k.served ++ [e]).filterMap Served.catalog = k.catalogs := by
    rw [List.filterMap_append, List.filterMap_cons, he]
    apply List.append_nil
  rw [Socket.dispatchOther, dispatch_eq]
  cases disposition e.command with
  | «continue» => exact ⟨hserved, rfl⟩
  | close => exact ⟨hserved, rfl⟩
  | drain m =>
    obtain ⟨hs, hg, -⟩ := Socket.drain_frame
      (⟨k.generation, k.task, rest, _, k.written, k.received, k.served ++ [e]⟩ : Socket Snapshot) m
    refine ⟨?_, hg⟩
    rw [Socket.catalogs, hs]
    exact hserved

/-- A task that has dispatched a command that is neither a get nor `quit` goes on. -/
theorem lookedUp_dispatchOther (k : Socket Snapshot) {e : Served Snapshot}
    (hd : disposition e.command ≠ .close) (rest : Bytes) :
  (k.dispatchOther read semver e rest).task.lookedUp = none
  := by
  rw [Socket.dispatchOther, dispatch_eq]
  cases h : disposition e.command with
  | «continue» => rfl
  | close => exact absurd h hd
  | drain m =>
    dsimp only
    rw [Socket.drain]
    split <;> rfl

/-- A step that closes the connection and changes neither its catalogs nor its number. -/
theorem Inv.close (h : Inv read semver s) (hk : s.sockets n = some k) (hok : k'.Ok read semver)
    (hgen : k'.generation = k.generation) (hcatalogs : k'.catalogs = k.catalogs) {ending : Ending}
    (htask : k'.task = .closed ending) (hstep : s.using env read n (.close n) k' = some s') :
  Inv read semver s'
  := by
  refine (h.using hok ?_ hstep).1
  intro core hcore
  obtain ⟨hlocal, hnone⟩ := close_spec hcore
  rw [hnone]
  exact ⟨hlocal, ((h.sockets n k hk).2.mono hlocal.grows).closed hgen hcatalogs htask⟩

/-- One pass of the inner loop keeps the invariant. -/
theorem Inv.parse (h : Inv read semver s) (hk : s.sockets n = some k) (htask : k.task = .parsing)
    (hstep : s.parse env read semver n k = some s') :
  Inv read semver s'
  := by
  obtain ⟨hok, hattached⟩ := h.sockets n k hk
  have hopen : ∀ ending, k.task ≠ .closed ending := by simp [htask]
  rw [State.parse] at hstep
  split at hstep
  · next err rest hparse =>
    apply h.close hk (hok.parseError htask hparse) rfl rfl rfl hstep
  · next rest hparse =>
    obtain rfl := Option.some.inj hstep
    apply h.setSocket (hok.flush htask hparse)
    refine hattached.same ?_ ?_ hopen ?_
    · rfl
    · rfl
    · rw [htask]
      rfl
  · next key flags rest hparse =>
    obtain ⟨s₁, hs₁, rfl⟩ := Option.map_eq_some_iff.mp hstep
    obtain ⟨hinv, hhistory, hactive⟩ := h.using (hok.look htask hparse)
      (fun core hcore => hattached.load h.core hcore) hs₁
    apply hinv.observe (Nat.le_refl _)
    rintro m catalog ⟨⟩
    rfl
  · next rest hparse =>
    obtain ⟨hcatalogs, hgen⟩ := catalogs_dispatchOther read semver k (e := .quit) rfl rest
    apply h.close hk (hok.dispatchOther (e := .quit) htask hparse) hgen hcatalogs rfl hstep
  · next rest hparse =>
    obtain rfl := Option.some.inj hstep
    obtain ⟨hcatalogs, hgen⟩ := catalogs_dispatchOther read semver k (e := .version) rfl rest
    have hinv := h.setSocket (n := n) (hok.dispatchOther (e := .version) htask hparse) (by
      apply hattached.same hgen hcatalogs hopen
      rw [htask]
      apply lookedUp_dispatchOther
      simp [Served.command, disposition])
    apply hinv.observe
    · apply Nat.le_trans hattached.generation (generation_le_active h.core)
    · rintro m catalog ⟨⟩
  · next m rest hparse =>
    obtain rfl := Option.some.inj hstep
    obtain ⟨hcatalogs, hgen⟩ :=
      catalogs_dispatchOther read semver k (e := .writeRejected m) rfl rest
    apply h.setSocket (hok.dispatchOther (e := .writeRejected m) htask hparse)
    apply hattached.same hgen hcatalogs hopen
    rw [htask]
    apply lookedUp_dispatchOther
    rw [Served.command, disposition]
    split <;> simp

/-- The accept of a connection keeps the invariant. -/
theorem Inv.accept (h : Inv read semver s) (hstep : step env read semver s (.accept n) = some s') :
  Inv read semver s'
  := by
  refine (h.using Socket.ok_init ?_ (step_accept hstep).2).1
  intro core hcore
  obtain ⟨hlocal, c, hc, hpending⟩ := accept_spec hcore
  refine ⟨hlocal, Nat.zero_le _, by simp [Socket.init, Socket.catalogs],
    by simp [Socket.init, Socket.catalogs], ?_, ?_⟩
  · intro _
    refine ⟨c, hc, ?_⟩
    rw [hpending]
    rfl
  · intro c' hc' hsome
    obtain rfl : c = c' := Option.some.inj (hc.symm.trans hc')
    rw [hpending] at hsome
    simp at hsome

/-- The number that the connection reports is read when its task starts. -/
theorem Inv.start (h : Inv read semver s) (hstep : step env read semver s (.start n) = some s') :
  Inv read semver s'
  := by
  obtain ⟨k, hk, htask, rfl⟩ := step_start hstep
  obtain ⟨hok, hattached⟩ := h.sockets n k hk
  have hserved := hok.served_nil htask
  apply h.setSocket (hok.start htask _)
  obtain ⟨c, hc, hpending⟩ := hattached.connected (by simp [htask])
  rw [htask] at hpending
  refine ⟨Nat.le_refl _, ?_, ?_, fun _ => ⟨c, hc, hpending⟩, ?_⟩
  · simp [Socket.catalogs, hserved]
  · simp [Socket.catalogs, hserved]
  · intro c' hc' hsome
    obtain rfl : c = c' := Option.some.inj (hc.symm.trans hc')
    rw [Option.isSome_iff_exists] at hsome
    obtain ⟨get, hget⟩ := hsome
    rw [hget] at hpending
    simp [Task.lookedUp] at hpending

/-- Bytes that arrive keep the invariant. -/
theorem Inv.receive {bytes : Bytes} (h : Inv read semver s)
    (hstep : step env read semver s (.receive n bytes) = some s') :
  Inv read semver s'
  := by
  obtain ⟨k, hk, ⟨htask, rfl⟩ | ⟨m, htask, rfl⟩⟩ := step_receive hstep
  · obtain ⟨hok, hattached⟩ := h.sockets n k hk
    apply h.setSocket (hok.receive htask bytes)
    refine hattached.same ?_ ?_ (by simp [htask]) ?_
    · rfl
    · rfl
    · rw [htask]
      rfl
  · obtain ⟨hok, hattached⟩ := h.sockets n k hk
    obtain ⟨hserved, hgen, -⟩ := (k.readBytes bytes).drain_frame m
    apply h.setSocket (hok.receiveBody htask bytes)
    apply hattached.same hgen (by rw [Socket.catalogs, hserved]; rfl) (by simp [htask])
    rw [htask, Socket.drain]
    split <;> rfl

/-- A lookup answers from the catalog that the connection has loaded. -/
theorem Inv.answer (h : Inv read semver s) (hstep : step env read semver s (.answer n) = some s') :
  Inv read semver s'
  := by
  obtain ⟨k, conn, key, flags, hk, hconn, htask, husing⟩ := step_answer hstep
  obtain ⟨hok, hattached⟩ := h.sockets n k hk
  refine (h.using (hok.answer htask conn.catalog) ?_ husing).1
  intro core hcore
  obtain ⟨hlocal, c, c', hc, hsome, hc', hnone⟩ := answer_spec hcore
  obtain rfl : conn = c := Option.some.inj (hconn.symm.trans hc)
  refine ⟨hlocal, ?_⟩
  rw [hconn] at hattached
  rw [hc']
  apply (hattached.mono hlocal.grows).answer _ hsome hnone
  apply hlocal.grows.installed _ (h.core.connections n conn hconn).installed

theorem Inv.hangUp (h : Inv read semver s) (hstep : step env read semver s (.hangUp n) = some s') :
  Inv read semver s'
  := by
  obtain ⟨k, ending, hk, htask, husing⟩ := step_hangUp hstep
  have hok := (h.sockets n k hk).1
  rcases htask with ⟨htask, rfl⟩ | ⟨m, htask, rfl⟩
  · apply h.close hk (hok.hangUp htask) rfl rfl rfl husing
  · apply h.close hk (hok.hangUpBody htask) rfl rfl rfl husing

/-- Every step keeps the invariant. -/
theorem Inv.step {a : Action} (h : Inv read semver s) (hstep : step env read semver s a = some s') :
  Inv read semver s'
  := by
  cases a with
  | wake => exact h.reload (.inl rfl) hstep
  | build data => exact h.reload (.inr (.inl ⟨data, rfl⟩)) hstep
  | swap => exact h.reload (.inr (.inr (.inl rfl))) hstep
  | store => exact h.reload (.inr (.inr (.inr rfl))) hstep
  | accept n => exact h.accept hstep
  | start n => exact h.start hstep
  | receive n bytes => exact h.receive hstep
  | parse n =>
    obtain ⟨k, hk, htask, hparse⟩ := step_parse hstep
    exact h.parse hk htask hparse
  | answer n => exact h.answer hstep
  | hangUp n => exact h.hangUp hstep

theorem Reachable.inv (h : Reachable env read semver s) :
  Inv read semver s
  := by
  induction h with
  | init hinitial => exact inv_init hinitial
  | step _ hstep ih => exact ih.step hstep

end

/-! ### The order of observations -/

/-- What the client of connection `n` learns from a command. -/
def Served.observation (n generation : Nat) : Served Snapshot → Option (Observation Snapshot)
  | .get _ _ catalog => some (.load n catalog)
  | .version => some (.version n generation)
  | _ => none

/-- What the client of connection `n` has learnt. -/
def Socket.observations (n : Nat) (k : Socket Snapshot) : List (Observation Snapshot) :=
  k.served.filterMap (Served.observation n k.generation)

/-- The get that waits for its lookup. -/
def pendingLoad (n : Nat) (conn : Option (Connection Snapshot)) : List (Observation Snapshot) :=
  match conn with
  | some ⟨catalog, some _, _⟩ => [.load n catalog]
  | _ => []

/-- What happened on connection `n`. -/
def State.observations (s : State Snapshot) (n : Nat) : List (Observation Snapshot) :=
  match s.sockets n with
  | none => []
  | some k => k.observations n ++ pendingLoad n (s.core.connections n)

/-- The history has what happened on each connection, in its order. -/
def Recorded (s : State Snapshot) : Prop :=
  ∀ n, s.history.filter (fun o => o.connection = n) = s.observations n

section

variable {env : Env Snapshot} {read : Snapshot → Bytes → Except String LookupOutcome} {semver : Bytes}
  {s s' : State Snapshot} {n : Nat} {k k' : Socket Snapshot}

theorem pendingLoad_of_pending {conn : Option (Connection Snapshot)} {c : Connection Snapshot}
    (hc : conn = some c) (h : c.pending.isSome = true) :
  pendingLoad n conn = [.load n c.catalog]
  := by
  obtain ⟨catalog, pending, observed⟩ := c
  obtain ⟨get, rfl⟩ := Option.isSome_iff_exists.mp h
  rw [hc, pendingLoad]

theorem pendingLoad_of_none {conn : Option (Connection Snapshot)}
    (h : ∀ c, conn = some c → c.pending = none) :
  pendingLoad n conn = []
  := by
  cases conn with
  | none => rfl
  | some c =>
    obtain ⟨catalog, pending, observed⟩ := c
    obtain rfl : pending = none := h _ rfl
    rfl

/-- Something happens on connection `n`, or nothing does. -/
theorem Recorded.extend (h : Recorded s) {added : List (Observation Snapshot)}
    (hadded : ∀ o ∈ added, o.connection = n) (hhistory : s'.history = s.history ++ added)
    (hself : s'.observations n = s.observations n ++ added)
    (hothers : ∀ m, m ≠ n → s'.observations m = s.observations m) :
  Recorded s'
  := by
  intro m
  rw [hhistory, List.filter_append, h m]
  by_cases hm : m = n
  · subst hm
    rw [hself, List.filter_eq_self.mpr]
    intro o ho
    simpa using hadded o ho
  · rw [hothers m hm, List.filter_eq_nil_iff.mpr, List.append_nil]
    intro o ho
    rw [hadded o ho]
    simpa using Ne.symm hm

theorem observations_congr {m : Nat} (hsockets : s'.sockets m = s.sockets m)
    (hconnections : s'.core.connections m = s.core.connections m) :
  s'.observations m = s.observations m
  := by
  rw [State.observations, State.observations, hsockets, hconnections]

theorem observations_of_socket (hk : s.sockets n = some k) :
  s.observations n = k.observations n ++ pendingLoad n (s.core.connections n)
  := by
  rw [State.observations, hk]

/-- A step of one task that leaves the registry as it is. -/
theorem Recorded.setSocket (h : Recorded s) (hk : s.sockets n = some k)
    {added : List (Observation Snapshot)} (hadded : ∀ o ∈ added, o.connection = n)
    (hpending : pendingLoad n (s.core.connections n) = [])
    (hself : k'.observations n = k.observations n ++ added) :
  Recorded { s.setSocket n k' with history := s.history ++ added }
  := by
  apply h.extend hadded rfl
  · have hk' : ({ s.setSocket n k' with history := s.history ++ added } : State Snapshot).sockets n
        = some k' := Function.update_self _ _ _
    rw [observations_of_socket hk', observations_of_socket hk, hself]
    change _ ++ pendingLoad n (s.core.connections n) = _
    rw [hpending, List.append_nil, List.append_nil]
  · intro m hm
    apply observations_congr
    · exact Function.update_of_ne hm _ _
    · rfl

/-- A step of one task that uses the registry. -/
theorem Recorded.using (h : Recorded s) {a : HotSwap.Action} {added : List (Observation Snapshot)}
    (hstep : s.using env read n a k' = some s') (hadded : ∀ o ∈ added, o.connection = n)
    (hself : ∀ core, HotSwap.step env read s.core a = some core →
      Local n s.core core
        ∧ k'.observations n ++ pendingLoad n (core.connections n) = s.observations n ++ added) :
  Recorded { s' with history := s'.history ++ added }
  := by
  obtain ⟨core, hcore, rfl⟩ := Option.map_eq_some_iff.mp hstep
  obtain ⟨hlocal, hobs⟩ := hself core hcore
  apply h.extend hadded rfl
  · rw [← hobs]
    apply observations_of_socket
    exact Function.update_self _ _ _
  · intro m hm
    apply observations_congr
    · exact Function.update_of_ne hm _ _
    · exact hlocal.others m hm

theorem Recorded.append_nil (h : Recorded { s with history := s.history ++ [] }) :
  Recorded s
  := by
  rwa [List.append_nil] at h

/-- A task that is open and waits for no lookup has no pending get. -/
theorem Socket.Attached.idle {core : HotSwap.State Snapshot} {conn : Option (Connection Snapshot)}
    (h : k.Attached core conn) (hopen : ∀ ending, k.task ≠ .closed ending)
    (hidle : k.task.lookedUp = none) (n : Nat) :
  pendingLoad n conn = []
  := by
  obtain ⟨c, rfl, hpending⟩ := h.connected hopen
  apply pendingLoad_of_none
  rintro _ ⟨⟩
  rw [hidle] at hpending
  simpa using hpending

theorem pendingLoad_eq_nil {c : Connection Snapshot} (h : c.pending = none) :
  pendingLoad n (some c) = []
  := by
  apply pendingLoad_of_none
  rintro _ ⟨⟩
  exact h

/-- A command other than a lookup adds its own observation to those of the connection. -/
theorem observations_dispatchOther (k : Socket Snapshot) (e : Served Snapshot) (rest : Bytes) :
  (k.dispatchOther read semver e rest).observations n
    = k.observations n ++ (e.observation n k.generation).toList
  := by
  have hserved : (k.served ++ [e]).filterMap (Served.observation n k.generation)
      = k.observations n ++ (e.observation n k.generation).toList := by
    rw [List.filterMap_append, List.filterMap_cons, List.filterMap_nil]
    cases e.observation n k.generation <;> rfl
  rw [Socket.dispatchOther, dispatch_eq]
  cases disposition e.command with
  | «continue» => exact hserved
  | close => exact hserved
  | drain m =>
    obtain ⟨hs, hg, -⟩ := Socket.drain_frame
      (⟨k.generation, k.task, rest, _, k.written, k.received, k.served ++ [e]⟩ : Socket Snapshot) m
    rw [Socket.observations, hs, hg]
    exact hserved

/-- A step that closes the connection. -/
theorem Recorded.close (h : Recorded s) (hk : s.sockets n = some k)
    (hidle : pendingLoad n (s.core.connections n) = [])
    (hself : k'.observations n = k.observations n ++ [])
    (hstep : s.using env read n (.close n) k' = some s') :
  Recorded s'
  := by
  apply Recorded.append_nil
  apply h.using hstep (by simp)
  intro core hcore
  obtain ⟨hlocal, hnone⟩ := close_spec hcore
  refine ⟨hlocal, ?_⟩
  rw [hnone, observations_of_socket hk, hidle, hself]
  rfl

/-- One pass of the inner loop records what the client learns by it. -/
theorem Recorded.parse (h : Recorded s) (hinv : Inv read semver s) (hk : s.sockets n = some k)
    (htask : k.task = .parsing) (hstep : s.parse env read semver n k = some s') :
  Recorded s'
  := by
  have hattached := (hinv.sockets n k hk).2
  have hidle := hattached.idle (by simp [htask]) (by rw [htask]; rfl) n
  have hobs : s.observations n = k.observations n := by
    rw [observations_of_socket hk, hidle, List.append_nil]
  rw [State.parse] at hstep
  split at hstep
  · next err rest hparse =>
    apply h.close hk hidle _ hstep
    rw [List.append_nil]
    rfl
  · next rest hparse =>
    obtain rfl := Option.some.inj hstep
    apply Recorded.append_nil
    apply h.setSocket hk (by simp) hidle
    rw [List.append_nil]
    rfl
  · next key flags rest hparse =>
    obtain ⟨s₁, hs₁, rfl⟩ := Option.map_eq_some_iff.mp hstep
    obtain ⟨core, hcore, rfl⟩ := Option.map_eq_some_iff.mp hs₁
    apply h.using hs₁
    · simp [Observation.connection]
    · intro core' hcore'
      obtain rfl : core = core' := Option.some.inj (hcore.symm.trans hcore')
      obtain ⟨hlocal, c, hc, hpending, hcatalog⟩ := load_spec hinv.core hcore
      refine ⟨hlocal, ?_⟩
      have hsome : c.pending.isSome = true := by
        rw [← Option.isSome_map (f := Get.key), hpending]
        rfl
      rw [pendingLoad_of_pending hc hsome, hobs, hcatalog]
      change _ = _ ++ [Observation.load n core.active]
      rw [hlocal.active]
      rfl
  · next rest hparse =>
    apply h.close hk hidle _ hstep
    rw [observations_dispatchOther]
    rfl
  · next rest hparse =>
    obtain rfl := Option.some.inj hstep
    apply h.setSocket hk
    · simp [Observation.connection]
    · exact hidle
    · rw [observations_dispatchOther]
      rfl
  · next m rest hparse =>
    obtain rfl := Option.some.inj hstep
    apply Recorded.append_nil
    apply h.setSocket hk (by simp) hidle
    rw [observations_dispatchOther]
    rfl

/-- The reload loop is not observed by itself. -/
theorem Recorded.reload (h : Recorded s) (hinv : Inv read semver s) {a : HotSwap.Action}
    (ha : a = .wake ∨ (∃ data, a = .build data) ∨ a = .swap ∨ a = .store)
    (hstep : s.reload env read a = some s') :
  Recorded s'
  := by
  obtain ⟨core, hcore, rfl⟩ := Option.map_eq_some_iff.mp hstep
  obtain ⟨-, hconnections⟩ := reload_spec hinv.core ha hcore
  intro m
  rw [State.observations, hconnections]
  apply h m

/-- The accept of a connection keeps the history in agreement with the connections. -/
theorem Recorded.accept (h : Recorded s) (hstep : step env read semver s (.accept n) = some s') :
  Recorded s'
  := by
  obtain ⟨hnone, husing⟩ := step_accept hstep
  apply Recorded.append_nil
  apply h.using husing (by simp)
  intro core hcore
  obtain ⟨hlocal, c, hc, hpending⟩ := accept_spec hcore
  refine ⟨hlocal, ?_⟩
  rw [hc, pendingLoad_eq_nil hpending, State.observations, hnone]
  rfl

/-- A connection that starts has observed nothing. -/
theorem Recorded.start (h : Recorded s) (hinv : Inv read semver s)
    (hstep : step env read semver s (.start n) = some s') :
  Recorded s'
  := by
  obtain ⟨k, hk, htask, rfl⟩ := step_start hstep
  obtain ⟨hok, hattached⟩ := hinv.sockets n k hk
  have hserved := hok.served_nil htask
  apply Recorded.append_nil
  apply h.setSocket hk (by simp)
  · exact hattached.idle (by simp [htask]) (by rw [htask]; rfl) n
  · simp [Socket.observations, hserved]

/-- Bytes that arrive keep the history in agreement with the connections. -/
theorem Recorded.receive {bytes : Bytes} (h : Recorded s) (hinv : Inv read semver s)
    (hstep : step env read semver s (.receive n bytes) = some s') :
  Recorded s'
  := by
  apply Recorded.append_nil
  obtain ⟨k, hk, ⟨htask, rfl⟩ | ⟨m, htask, rfl⟩⟩ := step_receive hstep
  · apply h.setSocket hk (by simp)
    · exact (hinv.sockets n k hk).2.idle (by simp [htask]) (by rw [htask]; rfl) n
    · rw [List.append_nil]
      rfl
  · obtain ⟨hserved, hgen, -⟩ := (k.readBytes bytes).drain_frame m
    apply h.setSocket hk (by simp)
    · exact (hinv.sockets n k hk).2.idle (by simp [htask]) (by rw [htask]; rfl) n
    · rw [List.append_nil, Socket.observations, hserved, hgen]
      rfl

/-- The get that was pending becomes one that was served. -/
theorem Recorded.answer (h : Recorded s) (hstep : step env read semver s (.answer n) = some s') :
  Recorded s'
  := by
  obtain ⟨k, conn, key, flags, hk, hconn, htask, husing⟩ := step_answer hstep
  apply Recorded.append_nil
  apply h.using husing (by simp)
  intro core hcore
  obtain ⟨hlocal, c, c', hc, hsome, hc', hnone⟩ := answer_spec hcore
  obtain rfl : conn = c := Option.some.inj (hconn.symm.trans hc)
  refine ⟨hlocal, ?_⟩
  rw [hc', pendingLoad_eq_nil hnone, observations_of_socket hk, pendingLoad_of_pending hconn hsome]
  rw [Socket.observations, List.filterMap_append, List.append_nil, List.append_nil]
  rfl

/-- A hang-up keeps the history in agreement with the connections. -/
theorem Recorded.hangUp (h : Recorded s) (hinv : Inv read semver s)
    (hstep : step env read semver s (.hangUp n) = some s') :
  Recorded s'
  := by
  obtain ⟨k, ending, hk, htask, husing⟩ := step_hangUp hstep
  have hidle : pendingLoad n (s.core.connections n) = [] := by
    have hattached := (hinv.sockets n k hk).2
    rcases htask with ⟨htask, -⟩ | ⟨m, htask, -⟩
    · exact hattached.idle (by simp [htask]) (by rw [htask]; rfl) n
    · exact hattached.idle (by simp [htask]) (by rw [htask]; rfl) n
  apply h.close hk hidle _ husing
  rw [List.append_nil]
  rfl

/-- Every step records what happens. -/
theorem Recorded.step {a : Action} (h : Recorded s) (hinv : Inv read semver s)
    (hstep : step env read semver s a = some s') :
  Recorded s'
  := by
  cases a with
  | wake => exact h.reload hinv (.inl rfl) hstep
  | build data => exact h.reload hinv (.inr (.inl ⟨data, rfl⟩)) hstep
  | swap => exact h.reload hinv (.inr (.inr (.inl rfl))) hstep
  | store => exact h.reload hinv (.inr (.inr (.inr rfl))) hstep
  | accept n => exact h.accept hstep
  | start n => exact h.start hinv hstep
  | receive n bytes => exact h.receive hinv hstep
  | parse n =>
    obtain ⟨k, hk, htask, hparse⟩ := step_parse hstep
    exact h.parse hinv hk htask hparse
  | answer n => exact h.answer hstep
  | hangUp n => exact h.hangUp hinv hstep

theorem Reachable.recorded (h : Reachable env read semver s) :
  Recorded s
  := by
  induction h with
  | init =>
    intro m
    rfl
  | step hs hstep ih => exact ih.step hs.inv hstep

end

/-! ### What clients see -/

/-- How the stream of a connection ends, as far as it was read; `none` while the task is
not through with it. -/
def Task.ending : Task → Option Ending
  | .reading => some .eof
  | .closed ending => some ending
  | _ => none

section

variable {env : Env Snapshot} {read : Snapshot → Bytes → Except String LookupOutcome} {semver : Bytes}
  {s : State Snapshot} {n : Nat} {k : Socket Snapshot}

/-- A task that waits for bytes is through with its stream. -/
theorem Socket.Ok.complete (h : k.Ok read semver) {ending : Ending}
    (hending : k.task.ending = some ending) :
  session k.received = (k.commands, ending)
    ∧ (ending ≠ .insideBody → k.written = dispatchAll (k.steps read semver) ++ k.trailer)
  := by
  have htracks := h.tracks
  have hout := h.output
  rw [Socket.Tracks] at htracks
  cases htask : k.task with
  | reading =>
    rw [htask] at htracks hending
    obtain rfl := Option.some.inj hending
    obtain ⟨hfollows, hnone, hwrite⟩ := htracks
    rw [hwrite, List.append_nil] at hout
    exact ⟨hfollows.eof hnone, fun _ => hout⟩
  | closed e =>
    rw [htask] at htracks hending
    obtain rfl := Option.some.inj hending
    refine ⟨htracks.1, ?_⟩
    intro hne
    rw [htracks.2 hne, List.append_nil] at hout
    exact hout
  | _ =>
    rw [htask] at hending
    simp [Task.ending] at hending

/-- What a connection has written can be read back. -/
theorem Socket.Ok.decodable (h : k.Ok read semver) (hsemver : 13 ∉ semver) :
  readResponses (dispatchAll (k.steps read semver))
    = some ((k.steps read semver).filterMap fun step => responseOf step.1 step.2)
  := by
  apply readResponses_dispatchAll
  · intro step hstep
    obtain ⟨e, he, rfl⟩ := List.mem_map.mp hstep
    apply h.parsed e he
  · intro step hstep
    obtain ⟨e, he, rfl⟩ := List.mem_map.mp hstep
    cases e <;> exact hsemver

/-- A task that is open can go on, at the latest when bytes arrive. -/
theorem Inv.progress (h : Inv read semver s) (hk : s.sockets n = some k)
    (hopen : ∀ ending, k.task ≠ .closed ending) {bytes : Bytes} (hbytes : bytes ≠ []) :
  ∃ a ∈ [Action.start n, .receive n bytes, .parse n, .answer n],
    (Wire.step env read semver s a).isSome = true
  := by
  obtain ⟨c, hc, hpending⟩ := (h.sockets n k hk).2.connected hopen
  cases htask : k.task with
  | accepting =>
    refine ⟨.start n, by simp, ?_⟩
    simp [Wire.step, hk, htask]
  | reading =>
    refine ⟨.receive n bytes, by simp, ?_⟩
    simp [Wire.step, hk, htask, hbytes]
  | draining m =>
    refine ⟨.receive n bytes, by simp, ?_⟩
    simp [Wire.step, hk, htask, hbytes]
  | parsing =>
    refine ⟨.parse n, by simp, ?_⟩
    rw [htask] at hpending
    obtain ⟨catalog, pending, observed⟩ := c
    obtain rfl : pending = none := by simpa [Task.lookedUp] using hpending
    simp only [Wire.step, hk, htask, if_true, State.parse]
    split <;> simp [State.using, HotSwap.step, hc]
  | looking key flags =>
    refine ⟨.answer n, by simp, ?_⟩
    rw [htask] at hpending
    obtain ⟨catalog, pending, observed⟩ := c
    obtain ⟨get, rfl, -⟩ : ∃ get, pending = some get ∧ get.key = key := by
      simpa [Task.lookedUp] using hpending
    simp [Wire.step, hk, hc, htask, State.using, HotSwap.step]
  | closed ending => exact absurd htask (hopen ending)

/-- However connections and reloads interleave: a connection has dispatched the first
commands of its stream, all of them when it waits for bytes; it has written the response to
each, unless it was left inside a body; the responses are read back one for one; each get
was answered from one installed catalog, none of them older than the one before or than the
number the connection reports; and it can always go on. -/
theorem connection_answers (h : Reachable env read semver s) (hk : s.sockets n = some k) :
  (∀ ending, k.task.ending = some ending → session k.received = (k.commands, ending)
      ∧ (ending ≠ .insideBody → k.written = dispatchAll (k.steps read semver) ++ k.trailer))
    ∧ (13 ∉ semver → readResponses (dispatchAll (k.steps read semver))
      = some ((k.steps read semver).filterMap fun step => responseOf step.1 step.2))
    ∧ (∀ catalog ∈ k.catalogs, catalog ∈ s.core.installed ∧ k.generation ≤ catalog.generation)
    ∧ k.catalogs.Pairwise (fun a b => a.generation ≤ b.generation)
    ∧ ((∀ ending, k.task ≠ .closed ending) →
      (∀ tail, k.commands <+: (session (k.received ++ tail)).1)
        ∧ ∀ bytes, bytes ≠ [] → ∃ a ∈ [Action.start n, .receive n bytes, .parse n, .answer n],
          (step env read semver s a).isSome = true)
  := by
  obtain ⟨hok, hattached⟩ := h.inv.sockets n k hk
  refine ⟨fun _ => hok.complete, hok.decodable, hattached.answered, hattached.sorted, ?_⟩
  intro hopen
  exact ⟨hok.tracks.session hopen, fun _ => h.inv.progress hk hopen⟩

/-- What clients learn of generations has one order, which is that of each connection, and
in which a get never loads an older catalog than any that was reported or loaded before, on
whatever connection. -/
theorem generations_never_go_back (h : Reachable env read semver s) :
  (∀ n, s.history.filter (fun o => o.connection = n) = s.observations n)
    ∧ s.history.Pairwise fun o o' => ∀ n catalog, o' = .load n catalog →
      o.generation ≤ catalog.generation
  :=
  ⟨h.recorded, h.inv.barrier⟩

/-- A sequence of steps, if each is enabled. -/
def runActions (env : Env Snapshot) (read : Snapshot → Bytes → Except String LookupOutcome)
    (semver : Bytes) (s : State Snapshot) : List Action → Option (State Snapshot)
  | [] => some s
  | a :: as => (step env read semver s a).bind fun s' => runActions env read semver s' as

/-- A run of actions from a state that can be reached reaches another. -/
theorem Reachable.runActions {s' : State Snapshot} {as : List Action} (hs : Reachable env read semver s)
    (h : runActions env read semver s as = some s') :
  Reachable env read semver s'
  := by
  induction as generalizing s with
  | nil =>
    obtain rfl := Option.some.inj h
    exact hs
  | cons a as ih =>
    obtain ⟨s₁, hs₁, hrun⟩ := Option.bind_eq_some_iff.mp h
    exact ih (hs.step hs₁) hrun

end

/-- Two commands arrive in two reads, and a reload runs while the first is looked up. -/
def swapDuringLookup : Option (State Unit) :=
  runActions oneEnv oneRead (ascii "1.0") (.init ⟨[], 0⟩)
    [.accept 0, .start 0, .receive 0 (ascii "mg u:k v\r\nmg u"), .parse 0, .wake, .build (some []),
      .swap, .answer 0, .parse 0, .store, .receive 0 (ascii ":k v\r\n"), .parse 0, .answer 0, .parse 0]

theorem connection_answers_swapDuringLookup :
  ∃ s k, swapDuringLookup = some s ∧ s.sockets 0 = some k
    ∧ k.written = ascii "EN\r\nVA 1\r\n" ++ [1] ++ crlfBytes
    ∧ k.catalogs.Pairwise (fun a b => a.generation ≤ b.generation)
  := by
  have hrun : (swapDuringLookup.bind fun s => (s.sockets 0).map Socket.written)
      = some (ascii "EN\r\nVA 1\r\n" ++ [1] ++ crlfBytes) := by
    decide +kernel
  obtain ⟨s, hs, hk⟩ := Option.bind_eq_some_iff.mp hrun
  obtain ⟨k, hk, hwritten⟩ := Option.map_eq_some_iff.mp hk
  refine ⟨s, k, hs, hk, hwritten, ?_⟩
  exact (connection_answers ((Reachable.init (.inr rfl)).runActions hs) hk).2.2.2.1

/-- The first connection gets a key; after a reload a second one is told the new number and
gets the key, and then the first one gets it again. -/
def reportedBetweenGets : Option (State Unit) :=
  runActions oneEnv oneRead (ascii "1.0") (.init ⟨[], 0⟩)
    [.accept 0, .start 0, .receive 0 (ascii "version\r\nmg u:k v\r\n"), .parse 0, .parse 0, .answer 0,
      .parse 0, .wake, .build (some []), .swap, .store, .accept 1, .start 1,
      .receive 1 (ascii "version\r\nmg u:k v\r\n"), .parse 1, .parse 1, .answer 1, .parse 1,
      .receive 0 (ascii "mg u:k v\r\n"), .parse 0, .answer 0, .parse 0]

theorem generations_never_go_back_reportedBetweenGets :
  ∃ s, reportedBetweenGets = some s
    ∧ s.history.map (fun o => (o.connection, o.generation)) = [(0, 0), (0, 0), (1, 1), (1, 1), (0, 1)]
    ∧ (∀ n, s.history.filter (fun o => o.connection = n) = s.observations n)
    ∧ s.history.Pairwise (fun o o' => ∀ n catalog, o' = .load n catalog →
      o.generation ≤ catalog.generation)
  := by
  have hrun : (reportedBetweenGets.map fun s => s.history.map fun o => (o.connection, o.generation))
      = some [(0, 0), (0, 0), (1, 1), (1, 1), (0, 1)] := by
    decide +kernel
  obtain ⟨s, hs, hhistory⟩ := Option.map_eq_some_iff.mp hrun
  exact ⟨s, hs, hhistory, generations_never_go_back ((Reachable.init (.inr rfl)).runActions hs)⟩

end Server.Wire
