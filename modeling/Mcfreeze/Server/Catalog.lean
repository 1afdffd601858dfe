import Mcfreeze.Server.Protocol

/-!
# The catalog watcher

Catalog mode (`modes/catalog_mode.rs`) against the node agent that replaces
`catalog.json` (`nodeagent/agent.go`): a transition system whose steps are the file
operations of the agent, the steps of the server's startup, and those of the watcher
thread and of the reload loop.

The generation counts reloads, of which there are fewer than `2 ^ 64`.

A rename after the watch is registered raises an event, one before it does not.  Once
all events are processed the active catalog is the last one written, unless the last
rename fell between the read of the initial load and the registration of the watch.
-/

namespace Server.Catalog

/-! ### Catalog files -/

/-- One dataset version and its snapshot directory. -/
structure CatalogEntry where
  dataset : String
  keyPrefix : String
  versionId : String
  mountPath : String
  deriving DecidableEq, Repr

structure CatalogFile where
  entries : List CatalogEntry
  deriving DecidableEq, Repr

inductive ServeError where
  | notFound
  | catalogParse (message : String)
  | format (message : String)
  deriving DecidableEq, Repr

/-- The code outside the repository that a load runs: the JSON parser and the opening of a
snapshot directory. -/
structure Env (Snapshot : Type) where
  fromSlice : Bytes → Except String CatalogFile
  openPath : String → Except String Snapshot

/-- An opened, named snapshot. -/
structure DatasetHandle (Snapshot : Type) where
  name : String
  version : String
  reader : Snapshot
  deriving DecidableEq

structure ActiveCatalog (Snapshot : Type) where
  datasets : List (String × DatasetHandle Snapshot)
  generation : Nat
  deriving DecidableEq

variable {Snapshot : Type}

/-- Read and parse the catalog file, whose bytes are `data` if it exists. -/
def CatalogFile.load (env : Env Snapshot) (data : Option Bytes) : Except ServeError CatalogFile :=
  match data with
  | none => .error .notFound
  | some bytes =>
    match env.fromSlice bytes with
    | .error e => .error (.catalogParse e)
    | .ok file => .ok file

def DatasetHandle.open (env : Env Snapshot) (entry : CatalogEntry) :
    Except ServeError (DatasetHandle Snapshot) :=
  match env.openPath entry.mountPath with
  | .error e => .error (.format e)
  | .ok reader => .ok ⟨entry.dataset, entry.versionId, reader⟩

/-- Open the datasets of a catalog one after the other. -/
def openDatasets (env : Env Snapshot) :
    List CatalogEntry → List (String × DatasetHandle Snapshot) →
      Except ServeError (List (String × DatasetHandle Snapshot))
  | [], datasets => .ok datasets
  | entry :: entries, datasets =>
    if datasets.any (fun d => d.1 == entry.keyPrefix) then
      .error (.catalogParse
        ("duplicate key_prefix " ++ entry.keyPrefix.quote ++ " in catalog"))
    else
      match DatasetHandle.open env entry with
      | .error e => .error e
      | .ok handle => openDatasets env entries (datasets ++ [(entry.keyPrefix, handle)])

def buildDatasets (env : Env Snapshot) (data : Option Bytes) :
    Except ServeError (List (String × DatasetHandle Snapshot)) :=
  match CatalogFile.load env data with
  | .error e => .error e
  | .ok file => openDatasets env file.entries []

def buildCatalogSync (env : Env Snapshot) (data : Option Bytes) (generation : Nat) :
    Except ServeError (ActiveCatalog Snapshot) :=
  match buildDatasets env data with
  | .error e => .error e
  | .ok datasets => .ok ⟨datasets, generation⟩

/-- A load of these file contents succeeds. -/
def Loadable (env : Env Snapshot) (data : Option Bytes) : Prop :=
  ∃ datasets, buildDatasets env data = .ok datasets

/-! ### Events -/

inductive EventKind where
  | access
  | create
  | modify
  | remove
  | other
  deriving DecidableEq, Repr

/-- The files of the watched directory. -/
inductive FileName where
  | catalog
  | tmp
  deriving DecidableEq, Repr

/-- What the watcher hands to its channel: an event, or an error. -/
inductive WatchResult where
  | event (kind : EventKind) (paths : List FileName)
  | error
  deriving DecidableEq, Repr

/-- The watcher thread reacts to this result. -/
def WatchResult.isRelevant : WatchResult → Bool
  | .event kind paths => (kind == .create || kind == .modify) && paths.contains .catalog
  | .error => false

/-! ### The transition system -/

/-- How far `run` has come; `loading` holds what the initial load has read. -/
inductive Phase where
  | starting
  | loading (data : Option Bytes)
  | loaded
  | watching
  | stopped
  deriving DecidableEq, Repr

/-- The reload loop: waiting for a message, woken by one, or in possession of the file
contents, which are those of the first `seq` writes. -/
inductive Reload where
  | waiting
  | woken (nextGen : Nat)
  | read (nextGen : Nat) (data : Option Bytes) (seq : Nat)
  deriving DecidableEq, Repr

/-- The server and its directory.  `writes` are all contents `catalog.json` has had, so
the file now holds the last one.  `loadSeq`, `watchSeq` and `source` record how many
writes there were when the initial load read the file, when the watch was registered, and
when the contents of the active catalog were read. -/
structure State (Snapshot : Type) where
  tmp : Option Bytes
  writes : List Bytes
  phase : Phase
  active : Option (ActiveCatalog Snapshot)
  generation : Nat
  events : List WatchResult
  sending : Bool
  channel : Nat
  reload : Reload
  loadSeq : Nat
  watchSeq : Nat
  source : Nat
  deriving DecidableEq

/-- A directory with the given history of `catalog.json`, and no server yet. -/
def State.init (writes : List Bytes) : State Snapshot :=
  ⟨none, writes, .starting, none, 0, [], false, 0, .waiting, 0, 0, 0⟩

/-- The contents of `catalog.json`. -/
def State.file (s : State Snapshot) : Option Bytes :=
  s.writes.getLast?

/-- The capacity of the channel between the watcher thread and the reload loop. -/
def channelCapacity : Nat := 4

/-- The steps of the agent (`writeTmp`, `rename`), of the startup (`load`, `install`,
`watch`, `watchError`), of the watcher thread (`receive`, `send`) and of the reload loop
(`wake`, `read`, `swap`).  The agent's steps carry the events the watcher raises for
them. -/
inductive Action where
  | writeTmp (data : Bytes) (raised : List WatchResult)
  | rename (raised : List WatchResult)
  | load
  | install
  | watch
  | watchError
  | receive
  | send
  | wake
  | read
  | swap
  deriving DecidableEq, Repr

/-- The results the watcher adds to its channel: none before the watch is registered. -/
def State.raise (s : State Snapshot) (raised : List WatchResult) : List WatchResult :=
  if s.phase = .watching then s.events ++ raised else s.events

/-- One step, if it is enabled. -/
def step (env : Env Snapshot) (s : State Snapshot) : Action → Option (State Snapshot)
  | .writeTmp data raised =>
    if raised.all (fun r => !r.isRelevant) then
      some { s with tmp := some data, events := s.raise raised }
    else none
  | .rename raised =>
    match s.tmp with
    | none => none
    | some data =>
      if raised.any WatchResult.isRelevant then
        some { s with tmp := none, writes := s.writes ++ [data], events := s.raise raised }
      else none
  | .load =>
    if s.phase = .starting then
      some { s with phase := .loading s.file, loadSeq := s.writes.length }
    else none
  | .install =>
    match s.phase with
    | .loading data =>
      match buildCatalogSync env data 0 with
      | .ok catalog =>
        some { s with phase := .loaded, active := some catalog, source := s.loadSeq }
      | .error .notFound =>
        some { s with phase := .loaded, active := some ⟨[], 0⟩, source := s.loadSeq }
      | .error _ => some { s with phase := .stopped }
    | _ => none
  | .watch =>
    if s.phase = .loaded then
      some { s with phase := .watching, watchSeq := s.writes.length }
    else none
  | .watchError =>
    if s.phase = .loaded then some { s with phase := .stopped } else none
  | .receive =>
    if s.phase = .watching ∧ s.sending = false then
      match s.events with
      | [] => none
      | r :: events => some { s with events := events, sending := r.isRelevant }
    else none
  | .send =>
    if s.sending = true ∧ s.channel < channelCapacity then
      some { s with sending := false, channel := s.channel + 1 }
    else none
  | .wake =>
    if s.reload = .waiting ∧ 0 < s.channel then
      some { s with channel := s.channel - 1, reload := .woken (s.generation + 1) }
    else none
  | .read =>
    match s.reload with
    | .woken nextGen => some { s with reload := .read nextGen s.file s.writes.length }
    | _ => none
  | .swap =>
    match s.reload with
    | .read nextGen data seq =>
      match buildCatalogSync env data nextGen with
      | .error _ => some { s with reload := .waiting }
      | .ok catalog =>
        some { s with reload := .waiting, active := some catalog, generation := nextGen,
                      source := seq }
    | _ => none

/-- A sequence of steps, if each is enabled. -/
def runActions (env : Env Snapshot) (s : State Snapshot) : List Action → Option (State Snapshot)
  | [] => some s
  | a :: as => (step env s a).bind fun s' => runActions env s' as

/-- The states reached from a directory with some history. -/
inductive Reachable (env : Env Snapshot) : State Snapshot → Prop where
  | init (writes : List Bytes) : Reachable env (.init writes)
  | step {s s' : State Snapshot} {a : Action} :
      Reachable env s → step env s a = some s' → Reachable env s'

/-- A run of actions from a state that can be reached reaches another. -/
theorem Reachable.runActions {env : Env Snapshot} {s s' : State Snapshot} {as : List Action}
    (hs : Reachable env s) (h : runActions env s as = some s') :
  Reachable env s'
  := by
  induction as generalizing s with
  | nil =>
    obtain rfl := Option.some.inj h
    apply hs
  | cons a as ih =>
    obtain ⟨s₁, h₁, h₂⟩ := Option.bind_eq_some_iff.mp h
    apply ih (Reachable.step hs h₁) h₂

/-! ### Staleness -/

/-- The server runs and has processed every event. -/
structure Quiescent (s : State Snapshot) : Prop where
  watching : s.phase = .watching
  events : s.events = []
  sending : s.sending = false
  channel : s.channel = 0
  reload : s.reload = .waiting

/-- The active catalog was built from the last `catalog.json` written. -/
def BuiltFromLast (env : Env Snapshot) (s : State Snapshot) : Prop :=
  s.source = s.writes.length ∧
    ∃ catalog, s.active = some catalog ∧ buildCatalogSync env s.file catalog.generation = .ok catalog

/-- The last rename came after the read of the initial load and before the registration
of the watch. -/
def RenamedBeforeWatch (s : State Snapshot) : Prop :=
  s.loadSeq < s.writes.length ∧ s.writes.length ≤ s.watchSeq

/-- Once all events are processed, the active catalog is the last one written if that one
is loadable. -/
def NeverStale (env : Env Snapshot) : Prop :=
  ∀ s, Reachable env s → Quiescent s → Loadable env s.file → BuiltFromLast env s

/-! ### The invariant -/

/-- Some relevant event is still on its way to the reload loop. -/
def Pending (s : State Snapshot) : Prop :=
  s.events.any WatchResult.isRelevant = true ∨ s.sending = true ∨ 0 < s.channel
    ∨ ∃ nextGen, s.reload = .woken nextGen

/-- The file contents last read were the current ones, and were installed if loadable. -/
def Fresh (env : Env Snapshot) (s : State Snapshot) : Prop :=
  (∃ nextGen data, s.reload = .read nextGen data s.writes.length)
  ∨ (s.reload = .waiting ∧ (s.source = s.writes.length ∨ ¬ Loadable env s.file))

/-- Nothing has happened in the watcher thread and the reload loop. -/
structure Untouched (s : State Snapshot) : Prop where
  noRelevant : s.events.any WatchResult.isRelevant = false
  sending : s.sending = false
  channel : s.channel = 0
  reload : s.reload = .waiting

/-- The contents of `catalog.json` after its first `seq` writes. -/
def State.contentsAt (s : State Snapshot) (seq : Nat) : Option Bytes :=
  (s.writes.take seq).getLast?

/-- The active catalog is what the load of the contents at `source` gave. -/
def ActiveBuilt (env : Env Snapshot) (s : State Snapshot) : Prop :=
  ∃ catalog, s.active = some catalog ∧ s.source ≤ s.writes.length ∧
    (Loadable env (s.contentsAt s.source) →
      buildCatalogSync env (s.contentsAt s.source) catalog.generation = .ok catalog)

/-- What holds of the startup and the reload loop in every reachable state. -/
structure Inv (env : Env Snapshot) (s : State Snapshot) : Prop where
  untouched : s.phase ≠ .watching → Untouched s
  loading : ∀ data, s.phase = .loading data →
    s.loadSeq ≤ s.writes.length ∧ data = s.contentsAt s.loadSeq
  loaded : s.phase = .loaded →
    s.loadSeq ≤ s.writes.length ∧ s.source = s.loadSeq ∧ ActiveBuilt env s
  built : s.phase = .watching → ActiveBuilt env s
  reading : ∀ nextGen data seq, s.reload = .read nextGen data seq →
    seq ≤ s.writes.length ∧ data = s.contentsAt seq
  watchSeq_le : s.watchSeq ≤ s.writes.length
  missed : s.phase = .watching → RenamedBeforeWatch s → Untouched s ∧ s.source = s.loadSeq
  seen : s.phase = .watching → ¬ RenamedBeforeWatch s → Pending s ∨ Fresh env s

theorem buildCatalogSync_of_loadable {env : Env Snapshot} {data : Option Bytes}
    (h : Loadable env data) (generation : Nat) :
  ∃ catalog, buildCatalogSync env data generation = .ok catalog
  := by
  obtain ⟨datasets, hd⟩ := h
  use ⟨datasets, generation⟩
  rw [buildCatalogSync, hd]

/-- A catalog is built only from a file that can be loaded. -/
theorem loadable_of_buildCatalogSync {env : Env Snapshot} {data : Option Bytes}
    {generation : Nat} {catalog : ActiveCatalog Snapshot}
    (h : buildCatalogSync env data generation = .ok catalog) :
  Loadable env data ∧ catalog.generation = generation
  := by
  rw [buildCatalogSync] at h
  split at h
  · simp at h
  · next datasets hd =>
    obtain rfl := Except.ok.inj h
    exact ⟨⟨datasets, hd⟩, rfl⟩

theorem contentsAt_length (s : State Snapshot) :
  s.contentsAt s.writes.length = s.file
  := by
  simp [State.contentsAt, State.file]

/-- A further write does not change what the file contained before. -/
theorem contentsAt_append {s s' : State Snapshot} {data : Bytes}
    (h : s'.writes = s.writes ++ [data]) {seq : Nat} (hseq : seq ≤ s.writes.length) :
  s'.contentsAt seq = s.contentsAt seq
  := by
  rw [State.contentsAt, State.contentsAt, h, List.take_append_of_le_length hseq]

/-- Installing the catalog built from the contents at `source`. -/
theorem activeBuilt_of_ok {env : Env Snapshot} {s : State Snapshot} {generation : Nat}
    {catalog : ActiveCatalog Snapshot} (hseq : s.source ≤ s.writes.length)
    (hactive : s.active = some catalog)
    (h : buildCatalogSync env (s.contentsAt s.source) generation = .ok catalog) :
  ActiveBuilt env s
  := by
  refine ⟨catalog, hactive, hseq, ?_⟩
  intro _
  rw [(loadable_of_buildCatalogSync h).2]
  apply h

/-! ### What one step preserves -/

/-- The invariant holds at the start. -/
theorem inv_init (env : Env Snapshot) (writes : List Bytes) :
  Inv env (.init writes)
  := by
  constructor
  · intro _
    exact ⟨rfl, rfl, rfl, rfl⟩
  · intro data h
    simp [State.init] at h
  · intro h
    simp [State.init] at h
  · intro h
    simp [State.init] at h
  · intro nextGen data seq h
    simp [State.init] at h
  · apply Nat.zero_le
  · intro h
    simp [State.init] at h
  · intro h
    simp [State.init] at h

theorem any_raise_of_irrelevant {s : State Snapshot} {raised : List WatchResult}
    (h : raised.all (fun r => !r.isRelevant) = true) :
  (s.raise raised).any WatchResult.isRelevant = s.events.any WatchResult.isRelevant
  := by
  have hr : raised.any WatchResult.isRelevant = false := by
    simpa using h
  rw [State.raise]
  split
  · rw [List.any_append, hr, Bool.or_false]
  · rfl

/-- Events the watcher thread ignores change nothing. -/
theorem Inv.writeTmp {env : Env Snapshot} {s : State Snapshot} (hs : Inv env s) (data : Bytes)
    {raised : List WatchResult} (h : raised.all (fun r => !r.isRelevant) = true) :
  Inv env { s with tmp := some data, events := s.raise raised }
  := by
  have hany := any_raise_of_irrelevant (s := s) h
  have huntouched : Untouched s →
      Untouched { s with tmp := some data, events := s.raise raised } := by
    intro hu
    exact ⟨hany.trans hu.noRelevant, hu.sending, hu.channel, hu.reload⟩
  constructor
  · intro hp
    apply huntouched (hs.untouched hp)
  · apply hs.loading
  · apply hs.loaded
  · apply hs.built
  · apply hs.reading
  · apply hs.watchSeq_le
  · intro hp hm
    obtain ⟨hu, hsource⟩ := hs.missed hp hm
    exact ⟨huntouched hu, hsource⟩
  · intro hp hm
    rcases hs.seen hp hm with hpending | hfresh
    · left
      rw [Pending] at hpending ⊢
      simp only [hany]
      apply hpending
    · right
      apply hfresh

/-- A rename makes the last read stale, and leaves an event behind if the watch is
registered. -/
theorem Inv.rename {env : Env Snapshot} {s : State Snapshot} (hs : Inv env s) (data : Bytes)
    {raised : List WatchResult} (h : raised.any WatchResult.isRelevant = true) :
  Inv env { s with tmp := none, writes := s.writes ++ [data], events := s.raise raised }
  := by
  have hbuilt : ActiveBuilt env s → ActiveBuilt env
      { s with tmp := none, writes := s.writes ++ [data], events := s.raise raised } := by
    rintro ⟨catalog, hactive, hseq, hb⟩
    refine ⟨catalog, hactive, ?_, ?_⟩
    · simp only [List.length_append]
      omega
    · rw [contentsAt_append (s := s) rfl hseq]
      apply hb
  have hpending : s.phase = .watching → Pending
      { s with tmp := none, writes := s.writes ++ [data], events := s.raise raised } := by
    intro hp
    left
    simp only [State.raise, hp, if_true, List.any_append, h, Bool.or_true]
  constructor
  · intro hp
    obtain ⟨he, hsend, hch, hr⟩ := hs.untouched hp
    refine ⟨?_, hsend, hch, hr⟩
    simpa only [State.raise, if_neg hp] using he
  · intro d hp
    obtain ⟨hle, hd⟩ := hs.loading d hp
    constructor
    · simp only [List.length_append]
      omega
    · rw [contentsAt_append (s := s) rfl hle]
      apply hd
  · intro hp
    obtain ⟨hle, hsource, hb⟩ := hs.loaded hp
    refine ⟨?_, hsource, hbuilt hb⟩
    simp only [List.length_append]
    omega
  · intro hp
    apply hbuilt (hs.built hp)
  · intro nextGen d seq hr
    obtain ⟨hle, hd⟩ := hs.reading nextGen d seq hr
    constructor
    · simp only [List.length_append]
      omega
    · rw [contentsAt_append (s := s) rfl hle]
      apply hd
  · have hle := hs.watchSeq_le
    simp only [List.length_append]
    omega
  · rintro - ⟨-, hm⟩
    have hle := hs.watchSeq_le
    simp only [List.length_append, List.length_singleton] at hm
    omega
  · intro hp _
    left
    apply hpending hp

/-- The first read of the file keeps the invariant. -/
theorem Inv.load {env : Env Snapshot} {s : State Snapshot} (hs : Inv env s)
    (h : s.phase = .starting) :
  Inv env { s with phase := .loading s.file, loadSeq := s.writes.length }
  := by
  have hu : Untouched s := hs.untouched (by simp [h])
  constructor
  · intro _
    exact ⟨hu.noRelevant, hu.sending, hu.channel, hu.reload⟩
  · intro data hd
    obtain rfl := Phase.loading.inj hd
    exact ⟨Nat.le_refl _, (contentsAt_length s).symm⟩
  · intro hp
    simp at hp
  · intro hp
    simp at hp
  · apply hs.reading
  · apply hs.watchSeq_le
  · intro hp
    simp at hp
  · intro hp
    simp at hp

/-- The initial load installs the catalog it has built from what it read. -/
theorem Inv.install {env : Env Snapshot} {s : State Snapshot} (hs : Inv env s)
    {data : Option Bytes} (h : s.phase = .loading data) {catalog : ActiveCatalog Snapshot}
    (hok : Loadable env data → buildCatalogSync env data catalog.generation = .ok catalog) :
  Inv env { s with phase := .loaded, active := some catalog, source := s.loadSeq }
  := by
  have hu : Untouched s := hs.untouched (by simp [h])
  obtain ⟨hle, rfl⟩ := hs.loading data h
  constructor
  · intro _
    exact ⟨hu.noRelevant, hu.sending, hu.channel, hu.reload⟩
  · intro d hd
    simp at hd
  · intro _
    exact ⟨hle, rfl, catalog, rfl, hle, hok⟩
  · intro hp
    simp at hp
  · apply hs.reading
  · apply hs.watchSeq_le
  · intro hp
    simp at hp
  · intro hp
    simp at hp

/-- A server that stops before it watches keeps the invariant. -/
theorem Inv.stop {env : Env Snapshot} {s : State Snapshot} (hs : Inv env s)
    (h : s.phase ≠ .watching) :
  Inv env { s with phase := .stopped }
  := by
  have hu : Untouched s := hs.untouched h
  constructor
  · intro _
    exact ⟨hu.noRelevant, hu.sending, hu.channel, hu.reload⟩
  · intro d hd
    simp at hd
  · intro hp
    simp at hp
  · intro hp
    simp at hp
  · apply hs.reading
  · apply hs.watchSeq_le
  · intro hp
    simp at hp
  · intro hp
    simp at hp

/-- When the watch is registered, the initial catalog is either current or the last
rename is missed. -/
theorem Inv.watch {env : Env Snapshot} {s : State Snapshot} (hs : Inv env s)
    (h : s.phase = .loaded) :
  Inv env { s with phase := .watching, watchSeq := s.writes.length }
  := by
  have hu : Untouched s := hs.untouched (by simp [h])
  obtain ⟨hle, hsource, hbuilt⟩ := hs.loaded h
  constructor
  · intro hp
    simp at hp
  · intro d hd
    simp at hd
  · intro hp
    simp at hp
  · intro _
    apply hbuilt
  · apply hs.reading
  · apply Nat.le_refl
  · intro _ _
    exact ⟨⟨hu.noRelevant, hu.sending, hu.channel, hu.reload⟩, hsource⟩
  · intro _ hm
    right
    right
    refine ⟨hu.reload, ?_⟩
    left
    have hnot : ¬ s.loadSeq < s.writes.length := by
      intro hlt
      apply hm
      exact ⟨hlt, Nat.le_refl _⟩
    simp only [hsource]
    omega

/-- A step of the watcher thread or of the reload loop that keeps the directory, the
startup and the active catalog: it is enough that the step is not taken after a missed
rename, and that it keeps a pending event or a fresh read. -/
theorem Inv.pipeline {env : Env Snapshot} {s s' : State Snapshot} (hs : Inv env s)
    (hframe : s' = { s with events := s'.events, sending := s'.sending, channel := s'.channel,
                            reload := s'.reload })
    (hmissed : Untouched s → Untouched s')
    (hreading : ∀ nextGen data seq, s'.reload = .read nextGen data seq →
      seq ≤ s.writes.length ∧ data = s.contentsAt seq)
    (hseen : s.phase = .watching → Pending s ∨ Fresh env s → Pending s' ∨ Fresh env s') :
  Inv env s'
  := by
  rw [hframe]
  rw [hframe] at hmissed hseen
  constructor
  · intro hp
    apply hmissed (hs.untouched hp)
  · apply hs.loading
  · apply hs.loaded
  · apply hs.built
  · apply hreading
  · apply hs.watchSeq_le
  · intro hp hm
    obtain ⟨hu, hsource⟩ := hs.missed hp hm
    exact ⟨hmissed hu, hsource⟩
  · intro hp hm
    apply hseen hp (hs.seen hp hm)

/-- The watcher thread takes a result off its channel. -/
theorem Inv.receive {env : Env Snapshot} {s : State Snapshot} (hs : Inv env s)
    {r : WatchResult} {events : List WatchResult} (hsend : s.sending = false)
    (h : s.events = r :: events) :
  Inv env { s with events := events, sending := r.isRelevant }
  := by
  apply hs.pipeline rfl
  · intro hu
    have hr : (r.isRelevant || events.any WatchResult.isRelevant) = false := by
      rw [← List.any_cons, ← h]
      apply hu.noRelevant
    obtain ⟨hr, hevents⟩ := (Bool.or_eq_false_iff).mp hr
    exact ⟨hevents, hr, hu.channel, hu.reload⟩
  · apply hs.reading
  · rintro - (hpending | hfresh)
    · left
      rcases hpending with hany | hsending | hrest
      · rw [h, List.any_cons, Bool.or_eq_true] at hany
        rcases hany with hr | hevents
        · right
          left
          apply hr
        · left
          apply hevents
      · rw [hsend] at hsending
        simp at hsending
      · right
        right
        apply hrest
    · right
      apply hfresh

/-- The watcher thread's message enters the channel. -/
theorem Inv.send {env : Env Snapshot} {s : State Snapshot} (hs : Inv env s)
    (h : s.sending = true) :
  Inv env { s with sending := false, channel := s.channel + 1 }
  := by
  apply hs.pipeline rfl
  · intro hu
    rw [hu.sending] at h
    simp at h
  · apply hs.reading
  · rintro - -
    left
    right
    right
    left
    apply Nat.succ_pos

/-- The reload loop receives a message. -/
theorem Inv.wake {env : Env Snapshot} {s : State Snapshot} (hs : Inv env s)
    (h : 0 < s.channel) :
  Inv env { s with channel := s.channel - 1, reload := .woken (s.generation + 1) }
  := by
  apply hs.pipeline rfl
  · intro hu
    rw [hu.channel] at h
    omega
  · intro nextGen data seq hr
    simp at hr
  · rintro - -
    left
    right
    right
    right
    exact ⟨_, rfl⟩

/-- The reload loop reads the current contents. -/
theorem Inv.read {env : Env Snapshot} {s : State Snapshot} (hs : Inv env s) {nextGen : Nat}
    (h : s.reload = .woken nextGen) :
  Inv env { s with reload := .read nextGen s.file s.writes.length }
  := by
  apply hs.pipeline rfl
  · intro hu
    rw [hu.reload] at h
    simp at h
  · intro gen data seq hr
    obtain ⟨rfl, rfl, rfl⟩ := Reload.read.inj hr
    exact ⟨Nat.le_refl _, (contentsAt_length s).symm⟩
  · rintro - -
    right
    left
    exact ⟨_, _, rfl⟩

/-- An event that is pending during a reload is pending after it. -/
theorem Pending.of_read {s s' : State Snapshot} (hs : Pending s) {nextGen seq : Nat}
    {data : Option Bytes} (h : s.reload = .read nextGen data seq)
    (hevents : s'.events = s.events) (hsending : s'.sending = s.sending)
    (hchannel : s'.channel = s.channel) :
  Pending s'
  := by
  rw [Pending, hevents, hsending, hchannel]
  rcases hs with hany | hsend | hpos | ⟨gen, hwoken⟩
  · left
    apply hany
  · right
    left
    apply hsend
  · right
    right
    left
    apply hpos
  · rw [h] at hwoken
    simp at hwoken

/-- A failed reload keeps the current catalog. -/
theorem Inv.reloadFailed {env : Env Snapshot} {s : State Snapshot} (hs : Inv env s)
    {nextGen seq : Nat} {data : Option Bytes} (h : s.reload = .read nextGen data seq)
    (hfail : ¬ Loadable env data) :
  Inv env { s with reload := .waiting }
  := by
  apply hs.pipeline rfl
  · intro hu
    exact ⟨hu.noRelevant, hu.sending, hu.channel, rfl⟩
  · intro gen data seq hr
    simp at hr
  · rintro - (hpending | hfresh)
    · left
      apply hpending.of_read h <;> rfl
    · right
      right
      refine ⟨rfl, Or.inr ?_⟩
      rcases hfresh with ⟨gen, d, hr⟩ | ⟨hwaiting, -⟩
      · rw [h] at hr
        obtain ⟨rfl, rfl, rfl⟩ := Reload.read.inj hr
        obtain ⟨-, hd⟩ := hs.reading _ _ _ h
        rw [contentsAt_length] at hd
        rw [hd] at hfail
        apply hfail
      · rw [h] at hwaiting
        simp at hwaiting

/-- A successful reload replaces the catalog. -/
theorem Inv.swap {env : Env Snapshot} {s : State Snapshot} (hs : Inv env s)
    {nextGen seq : Nat} {data : Option Bytes} (h : s.reload = .read nextGen data seq)
    {catalog : ActiveCatalog Snapshot} (hok : buildCatalogSync env data nextGen = .ok catalog) :
  Inv env { s with reload := .waiting, active := some catalog, generation := nextGen,
                   source := seq }
  := by
  obtain ⟨hle, rfl⟩ := hs.reading _ _ _ h
  have hnot : ¬ Untouched s := by
    intro hu
    rw [hu.reload] at h
    simp at h
  have hwatching : s.phase = .watching := by
    by_contra hp
    apply hnot (hs.untouched hp)
  constructor
  · intro hp
    exact absurd hwatching hp
  · intro d hd
    simp [hwatching] at hd
  · intro hp
    simp [hwatching] at hp
  · intro _
    apply activeBuilt_of_ok hle rfl hok
  · intro gen d n hr
    simp at hr
  · apply hs.watchSeq_le
  · intro hp hm
    exact absurd (hs.missed hp hm).1 hnot
  · intro hp hm
    rcases hs.seen hp hm with hpending | hfresh
    · left
      apply hpending.of_read h <;> rfl
    · right
      right
      refine ⟨rfl, Or.inl ?_⟩
      rcases hfresh with ⟨gen, d, hr⟩ | ⟨hwaiting, -⟩
      · rw [h] at hr
        obtain ⟨-, -, hseq⟩ := Reload.read.inj hr
        apply hseq
      · rw [h] at hwaiting
        simp at hwaiting

section

variable {env : Env Snapshot} {s s' : State Snapshot}

theorem not_loadable_of_error {data : Option Bytes} {generation : Nat} {e : ServeError}
    (herr : buildCatalogSync env data generation = .error e) :
  ¬ Loadable env data
  := by
  intro hl
  obtain ⟨catalog, hok⟩ := buildCatalogSync_of_loadable hl generation
  rw [hok] at herr
  simp at herr

/-- A write of the file keeps the invariant. -/
theorem Inv.renameStep {raised : List WatchResult} (hs : Inv env s)
    (h : step env s (.rename raised) = some s') :
  Inv env s'
  := by
  rw [step] at h
  split at h
  · simp at h
  · next data _ =>
    obtain ⟨hr, h⟩ := Option.ite_none_right_eq_some.mp h
    obtain rfl := Option.some.inj h
    apply hs.rename data hr

/-- The initial load installs what it has built, or no datasets when there is no file; any
other error ends the server. -/
theorem Inv.installStep (hs : Inv env s) (h : step env s .install = some s') :
  Inv env s'
  := by
  rw [step] at h
  split at h
  · next data hp =>
    split at h
    · next catalog hok =>
      obtain rfl := Option.some.inj h
      apply hs.install hp
      intro _
      rw [(loadable_of_buildCatalogSync hok).2]
      apply hok
    · next herr =>
      obtain rfl := Option.some.inj h
      apply hs.install hp
      intro hl
      exact absurd hl (not_loadable_of_error herr)
    · obtain rfl := Option.some.inj h
      apply hs.stop
      simp [hp]
  · simp at h

theorem Inv.receiveStep (hs : Inv env s) (h : step env s .receive = some s') :
  Inv env s'
  := by
  obtain ⟨⟨-, hsend⟩, h⟩ := Option.ite_none_right_eq_some.mp h
  split at h
  · simp at h
  · next r events hev =>
    obtain rfl := Option.some.inj h
    apply hs.receive hsend hev

theorem Inv.readStep (hs : Inv env s) (h : step env s .read = some s') :
  Inv env s'
  := by
  rw [step] at h
  split at h
  · next nextGen hr =>
    obtain rfl := Option.some.inj h
    apply hs.read hr
  · simp at h

/-- A swap keeps the invariant. -/
theorem Inv.swapStep (hs : Inv env s) (h : step env s .swap = some s') :
  Inv env s'
  := by
  rw [step] at h
  split at h
  · next nextGen data seq hr =>
    split at h
    · next err herr =>
      obtain rfl := Option.some.inj h
      apply hs.reloadFailed hr (not_loadable_of_error herr)
    · next catalog hok =>
      obtain rfl := Option.some.inj h
      apply hs.swap hr hok
  · simp at h

/-- Every step keeps the invariant. -/
theorem inv_step {a : Action} (hs : Inv env s) (h : step env s a = some s') :
  Inv env s'
  := by
  cases a with
  | writeTmp data raised =>
    obtain ⟨hr, h⟩ := Option.ite_none_right_eq_some.mp h
    obtain rfl := Option.some.inj h
    apply hs.writeTmp data hr
  | rename raised => exact hs.renameStep h
  | load =>
    obtain ⟨hp, h⟩ := Option.ite_none_right_eq_some.mp h
    obtain rfl := Option.some.inj h
    apply hs.load hp
  | install => exact hs.installStep h
  | watch =>
    obtain ⟨hp, h⟩ := Option.ite_none_right_eq_some.mp h
    obtain rfl := Option.some.inj h
    apply hs.watch hp
  | watchError =>
    obtain ⟨hp, h⟩ := Option.ite_none_right_eq_some.mp h
    obtain rfl := Option.some.inj h
    apply hs.stop
    simp [hp]
  | receive => exact hs.receiveStep h
  | send =>
    obtain ⟨⟨hsend, -⟩, h⟩ := Option.ite_none_right_eq_some.mp h
    obtain rfl := Option.some.inj h
    apply hs.send hsend
  | wake =>
    obtain ⟨⟨-, hch⟩, h⟩ := Option.ite_none_right_eq_some.mp h
    obtain rfl := Option.some.inj h
    apply hs.wake hch
  | read => exact hs.readStep h
  | swap => exact hs.swapStep h

end

theorem Reachable.inv {env : Env Snapshot} {s : State Snapshot} (h : Reachable env s) :
  Inv env s
  := by
  induction h with
  | init writes => apply inv_init
  | step _ hstep ih => apply inv_step ih hstep

/-! ### When the server is stale -/

/-- Once all events are processed and the last `catalog.json` is loadable, the active
catalog was built from it exactly when the last rename did not fall between the read of
the initial load and the registration of the watch. -/
theorem builtFromLast_iff {env : Env Snapshot} {s : State Snapshot} (hs : Reachable env s)
    (hq : Quiescent s) (hload : Loadable env s.file) :
  BuiltFromLast env s ↔ ¬ RenamedBeforeWatch s
  := by
  have hinv := hs.inv
  constructor
  · rintro ⟨hsource, -⟩ hm
    obtain ⟨-, hstart⟩ := hinv.missed hq.watching hm
    have hlt := hm.1
    omega
  · intro hm
    have hsource : s.source = s.writes.length := by
      rcases hinv.seen hq.watching hm with hpending | hfresh
      · exfalso
        simp [Pending, hq.events, hq.sending, hq.channel, hq.reload] at hpending
      · rcases hfresh with ⟨nextGen, data, hr⟩ | ⟨-, hsource | hnot⟩
        · rw [hq.reload] at hr
          simp at hr
        · apply hsource
        · exact absurd hload hnot
    obtain ⟨catalog, hactive, -, hb⟩ := hinv.built hq.watching
    rw [hsource, contentsAt_length] at hb
    exact ⟨hsource, catalog, hactive, hb hload⟩

/-- A catalog of one dataset. -/
def exampleJson : Bytes :=
  ascii "\x7b\"entries\":[\x7b\"dataset\":\"ds\",\"key_prefix\":\"ds\",\"version_id\":\"v1\","
    ++ ascii "\"mount_path\":\"/mnt/kv/ds/v1\"\x7d]\x7d"

/-- A parser that reads `json` as the catalog of one dataset, with every snapshot
directory in place. -/
def exampleEnv (json : Bytes) : Env Unit where
  fromSlice bytes :=
    if bytes = json then .ok ⟨[⟨"ds", "ds", "v1", "/mnt/kv/ds/v1"⟩]⟩
    else .error "expected value at line 1 column 1"
  openPath _ := .ok ()

/-- The catalog `json` describes. -/
def exampleCatalog (generation : Nat) : ActiveCatalog Unit :=
  ⟨[("ds", ⟨"ds", "v1", ()⟩)], generation⟩

theorem buildDatasets_exampleEnv (json : Bytes) :
  buildDatasets (exampleEnv json) (some json) = .ok (exampleCatalog 0).datasets
  := by
  simp [buildDatasets, CatalogFile.load, exampleEnv, openDatasets, DatasetHandle.open,
    exampleCatalog]

theorem buildDatasets_exampleEnv_none (json : Bytes) :
  buildDatasets (exampleEnv json) none = .error .notFound
  := by
  simp [buildDatasets, CatalogFile.load]

/-- The server loads an empty directory and then watches it; `json` is written after
that. -/
def writtenAfterWatch (json : Bytes) : List Action :=
  [.load, .install, .watch, .writeTmp json [.event .create [.tmp]],
    .rename [.event .modify [.catalog]], .receive, .receive, .send, .wake, .read, .swap]

/-- The first catalog becomes the active one. -/
def updatedState (json : Bytes) : State Unit :=
  ⟨none, [json], .watching, some (exampleCatalog 1), 1, [], false, 0, .waiting, 0, 0, 1⟩

theorem runActions_writtenAfterWatch (json : Bytes) :
  runActions (exampleEnv json) (.init []) (writtenAfterWatch json) = some (updatedState json)
  := by
  simp [runActions, writtenAfterWatch, step, State.init, State.file, State.raise,
    buildCatalogSync, buildDatasets_exampleEnv, buildDatasets_exampleEnv_none,
    WatchResult.isRelevant, channelCapacity, updatedState, exampleCatalog]

/-- A catalog written after the watch is registered becomes the active one. -/
theorem builtFromLast_writtenAfterWatch :
  Reachable (exampleEnv exampleJson) (updatedState exampleJson)
    ∧ Quiescent (updatedState exampleJson)
    ∧ Loadable (exampleEnv exampleJson) (updatedState exampleJson).file
    ∧ BuiltFromLast (exampleEnv exampleJson) (updatedState exampleJson)
  := by
  have hs := (Reachable.init []).runActions (runActions_writtenAfterWatch exampleJson)
  have hq : Quiescent (updatedState exampleJson) := ⟨rfl, rfl, rfl, rfl, rfl⟩
  have hload : Loadable (exampleEnv exampleJson) (updatedState exampleJson).file :=
    ⟨_, buildDatasets_exampleEnv exampleJson⟩
  refine ⟨hs, hq, hload, (builtFromLast_iff hs hq hload).mpr ?_⟩
  rintro ⟨-, hle⟩
  simp [updatedState] at hle

/-- `json` is written between the initial load and the registration of the watch. -/
def writtenBeforeWatch (json : Bytes) : List Action :=
  [.load, .install, .writeTmp json [], .rename [.event .modify [.catalog]], .watch]

/-- The server watches, and serves the empty catalog it started with. -/
def staleState (json : Bytes) : State Unit :=
  ⟨none, [json], .watching, some ⟨[], 0⟩, 0, [], false, 0, .waiting, 0, 1, 0⟩

theorem runActions_writtenBeforeWatch (json : Bytes) :
  runActions (exampleEnv json) (.init []) (writtenBeforeWatch json) = some (staleState json)
  := by
  simp [runActions, writtenBeforeWatch, step, State.init, State.file, State.raise,
    buildCatalogSync, buildDatasets_exampleEnv_none, WatchResult.isRelevant, staleState]

/-- A catalog written between the initial load and the registration of the watch is
missed: the server stays on the empty catalog. -/
theorem not_neverStale_writtenBeforeWatch :
  ¬ NeverStale (exampleEnv exampleJson)
  := by
  intro h
  have hs := (Reachable.init []).runActions (runActions_writtenBeforeWatch exampleJson)
  have hq : Quiescent (staleState exampleJson) := ⟨rfl, rfl, rfl, rfl, rfl⟩
  obtain ⟨hsource, -⟩ := h _ hs hq ⟨_, buildDatasets_exampleEnv exampleJson⟩
  simp [staleState] at hsource

end Server.Catalog
