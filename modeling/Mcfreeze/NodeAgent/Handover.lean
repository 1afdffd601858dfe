import Mcfreeze.NodeAgent.Agent
import Mcfreeze.NodeAgent.CatalogFile

/-!
# The handover of versions

The node agent and the server of a node run side by side: the agent publishes a catalog,
polls the version that the server reports until it is the new one, and then unmounts and
detaches the previous version (`reconcile` in `nodeagent/agent.go`, `WaitForVersion` in
`nodeagent/version/http.go`); the server loads catalogs when it is told to
(`modes/catalog_mode.rs`).  Both processes may be killed and restarted at any time, and the
agent may be shut down: it unmounts and detaches all versions that it has, and leaves
`catalog.json` as it is.

A version that was released by a promotion is not served: the active catalog does not name
it, and neither do the contents of a load that is under way, nor `catalog.json`.  This takes
that the versions of a dataset go forward.  When a version that was published is taken back,
the server may still report the old version while it is about to load the new one, and the
agent releases the new one under it.

A version that was released by a shutdown may go on to be served until the agent, started
again, publishes a catalog and the server loads it.
-/

namespace NodeAgent.Handover

open ControlPlane Agent

variable {Snapshot : Type}

/-! ### The server -/

/-- What `GET /version` reports of a catalog. -/
def versionSnapshot (datasets : List (String × Server.Catalog.DatasetHandle Snapshot)) :
    List (String × String) :=
  datasets.map fun d => (d.2.name, d.2.version)

/-- A poll of the version finds the dataset at the version. -/
def reports (s : Server.Catalog.State Snapshot) (dataset versionID : String) : Bool :=
  s.phase ≠ .stopped
    && s.active.any fun catalog => (versionSnapshot catalog.datasets).contains (dataset, versionID)

/-- The server process is killed and starts again. -/
def restarted (s : Server.Catalog.State Snapshot) : Server.Catalog.State Snapshot :=
  { Server.Catalog.State.init s.writes with tmp := s.tmp }

/-- The steps that are not those of the agent. -/
def isServer : Server.Catalog.Action → Bool
  | .writeTmp _ _ => false
  | .rename _ => false
  | _ => true

/-! ### The node -/

/-- How far the reconcile of an assignment has come; `source` is the number of catalogs that
had been published when the server read the one that it reported. -/
inductive Progress where
  | idle
  | mounting (assign : NodeAssignment)
  | mounted (assign : NodeAssignment)
  | written (assign : NodeAssignment)
  | published (assign : NodeAssignment)
  | confirmed (assign : NodeAssignment) (source : Nat)

/-- The assignment that is reconciled. -/
def Progress.assign : Progress → Option NodeAssignment
  | .idle => none
  | .mounting assign => some assign
  | .mounted assign => some assign
  | .written assign => some assign
  | .published assign => some assign
  | .confirmed assign _ => some assign

/-- The reconcile may end like this. -/
def Progress.Ends (cfg : Config) (o : Outcomes) : Progress → Prop
  | .idle => False
  | .mounting assign => ¬ Mounts cfg assign o
  | .mounted assign => Mounts cfg assign o ∧ o.writeCatalog ≠ none
  | .written assign => Mounts cfg assign o ∧ o.writeCatalog ≠ none
  | .published assign => Mounts cfg assign o ∧ o.writeCatalog = none ∧ o.waitForVersion ≠ none
  | .confirmed assign _ => Succeeds cfg assign o

instance (cfg : Config) (o : Outcomes) : (p : Progress) → Decidable (p.Ends cfg o)
  | .idle => inferInstanceAs (Decidable False)
  | .mounting assign => inferInstanceAs (Decidable (¬ Mounts cfg assign o))
  | .mounted assign => inferInstanceAs (Decidable (Mounts cfg assign o ∧ o.writeCatalog ≠ none))
  | .written assign => inferInstanceAs (Decidable (Mounts cfg assign o ∧ o.writeCatalog ≠ none))
  | .published assign =>
    inferInstanceAs
      (Decidable (Mounts cfg assign o ∧ o.writeCatalog = none ∧ o.waitForVersion ≠ none))
  | .confirmed assign _ => inferInstanceAs (Decidable (Succeeds cfg assign o))

/-- The agent, the server and their directory.  `published` are the catalogs that the agent
has renamed into place, `released` the versions that it has cleaned up after a promotion and
not mounted since, and `shutDown` those that it has released in a shutdown and not mounted
since, with the number of catalogs that had been published.  Between a shutdown and the next
start the agent is not `running`. -/
structure System (Snapshot : Type) where
  agent : Agent
  running : Bool
  progress : Progress
  server : Server.Catalog.State Snapshot
  published : List (List CatalogEntry)
  released : List (String × String)
  shutDown : List ((String × String) × Nat)

def System.init : System Snapshot := ⟨.new, true, .idle, .init [], [], [], []⟩

/-- The version of an assignment. -/
def versionOf (assign : NodeAssignment) : String × String := (assign.dataset, assign.version.id)

/-- The version that a promotion releases, if any. -/
def replaced (a : Agent) (assign : NodeAssignment) : List (String × String) :=
  if a.Replaces assign then [(assign.dataset, (a.datasetState assign.dataset).versionID)] else []

/-- The versions that the agent has records of. -/
def recorded (a : Agent) : List (String × String) :=
  a.datasets.map fun ds => (ds.dataset, ds.versionID)

/-- The steps of a reconcile, one of the server, a shutdown of the agent over its records in
some order, and restarts.  A write of the temporary file may also fail and leave anything in
it (`tear`). -/
inductive Action where
  | assign (assign : NodeAssignment)
  | mount
  | tear (data : Bytes) (raised : List Server.Catalog.WatchResult)
  | write (raised : List Server.Catalog.WatchResult)
  | rename (raised : List Server.Catalog.WatchResult)
  | confirm
  | finish (o : Outcomes)
  | shutdown (snapshot : List DatasetState) (o : DatasetState → ShutdownOutcome)
  | restartAgent
  | serve (a : Server.Catalog.Action)
  | restartServer

section

variable (cfg : Config) (doubles : Json.Doubles) (message : Bytes → String)

/-- One step, if it is enabled; the snapshots open as `openPath` says. -/
def step (openPath : String → Except String Snapshot) (s : System Snapshot) :
    Action → Option (System Snapshot)
  | .assign assign =>
    match s.progress with
    | .idle =>
      if s.running then
        if s.agent.Skips assign then some s else some { s with progress := .mounting assign }
      else none
    | _ => none
  | .mount =>
    match s.progress with
    | .mounting assign =>
      if assign.version.pvName ≠ "" ∧ cfg.mountPath assign.dataset assign.version.id ≠ "" then
        some { s with progress := .mounted assign,
                      released := s.released.filter (· ≠ versionOf assign),
                      shutDown := s.shutDown.filter (·.1 ≠ versionOf assign) }
      else none
    | _ => none
  | .tear data raised =>
    match s.progress with
    | .mounted _ =>
      (Server.Catalog.step (jsonEnv doubles message openPath) s.server (.writeTmp data raised)).map
        fun server => { s with server := server }
    | _ => none
  | .write raised =>
    match s.progress with
    | .mounted assign =>
      (Server.Catalog.step (jsonEnv doubles message openPath) s.server
          (.writeTmp (marshalCatalog doubles (promotion cfg assign s.agent)) raised)).map
        fun server => { s with server := server, progress := .written assign }
    | _ => none
  | .rename raised =>
    match s.progress with
    | .written assign =>
      (Server.Catalog.step (jsonEnv doubles message openPath) s.server (.rename raised)).map
        fun server =>
        { s with server := server, progress := .published assign,
                 published := s.published ++ [promotion cfg assign s.agent] }
    | _ => none
  | .confirm =>
    match s.progress with
    | .published assign =>
      if reports s.server assign.dataset assign.version.id then
        some { s with progress := .confirmed assign s.server.source }
      else none
    | _ => none
  | .finish o =>
    match s.progress.assign with
    | some assign =>
      if s.progress.Ends cfg o then
        some { s with agent := s.agent.reconcile cfg assign o, progress := .idle,
                      released :=
                        if Succeeds cfg assign o then replaced s.agent assign ++ s.released
                        else s.released }
      else none
    | none => none
  | .shutdown snapshot o =>
    match s.progress with
    | .idle =>
      -- `Run` has returned; what is left to do is to unmount and detach
      if s.running ∧ snapshot.Perm s.agent.datasets then
        some { s with agent := s.agent.shutdown snapshot o, running := false,
                      shutDown := (recorded s.agent).map (·, s.published.length) ++ s.shutDown }
      else none
    | _ => none
  | .restartAgent =>
    some { s with agent := { s.agent with datasets := [] }, running := true, progress := .idle }
  | .serve a =>
    if isServer a then
      (Server.Catalog.step (jsonEnv doubles message openPath) s.server a).map
        fun server => { s with server := server }
    else none
  | .restartServer => some { s with server := restarted s.server }

/-- The states of the runs in which every assignment is allowed; at each step the snapshots
open as they like. -/
inductive Reached (allowed : System Snapshot → NodeAssignment → Prop) : System Snapshot → Prop where
  | init : Reached allowed .init
  | step {s s' : System Snapshot} {a : Action} (openPath : String → Except String Snapshot) :
      Reached allowed s → (∀ assign, a = .assign assign → allowed s assign) →
      step cfg doubles message openPath s a = some s' → Reached allowed s'

end

/-- No catalog with another version of the dataset was published after one with the assigned
version. -/
def Forward (s : System Snapshot) (assign : NodeAssignment) : Prop :=
  s.published.Pairwise fun before after =>
    (∃ e ∈ before, (e.dataset, e.versionID) = versionOf assign) →
      ∀ e ∈ after, e.dataset = assign.dataset → e.versionID = assign.version.id

instance (s : System Snapshot) (assign : NodeAssignment) : Decidable (Forward s assign) :=
  inferInstanceAs (Decidable (List.Pairwise _ _))

/-- What the server may yet load, what a load has read or the file, and how many catalogs had
been published then. -/
def Loading (s : Server.Catalog.State Snapshot) (data : Option Bytes) (seq : Nat) : Prop :=
  s.phase = .loading data ∧ seq = s.loadSeq ∨ (∃ nextGen, s.reload = .read nextGen data seq)
    ∨ data = s.file ∧ seq = s.writes.length

/-- The server serves a version, or may serve it after a load, by a catalog that is not among
the first `k - 1`. -/
def ServesSince (doubles : Json.Doubles) (message : Bytes → String) (k : Nat)
    (s : Server.Catalog.State Snapshot) (v : String × String) : Prop :=
  (∃ catalog, s.active = some catalog ∧ k ≤ s.source ∧ v ∈ versionSnapshot catalog.datasets)
    ∨ ∃ (data : Option Bytes) (seq : Nat) (openPath : String → Except String Snapshot)
        (datasets : List (String × Server.Catalog.DatasetHandle Snapshot)),
      Loading s data seq ∧ k ≤ seq
      ∧ Server.Catalog.buildDatasets (jsonEnv doubles message openPath) data = .ok datasets
      ∧ v ∈ versionSnapshot datasets

/-- The server serves a version, or may serve it after a load. -/
abbrev Serves (doubles : Json.Doubles) (message : Bytes → String)
    (s : Server.Catalog.State Snapshot) (v : String × String) : Prop :=
  ServesSince doubles message 0 s v

/-! ### What a load gives -/

def entryVersion (e : CatalogEntry) : String × String := (e.dataset, e.versionID)

/-- The catalog that was in place after so many were published. -/
def entriesAt (published : List (List CatalogEntry)) (seq : Nat) : Option (List CatalogEntry) :=
  (published.take seq).getLast?

/-- The catalog that was in place after `seq` were published names a version. -/
def Named (published : List (List CatalogEntry)) (seq : Nat) (v : String × String) : Prop :=
  ∃ entries, entriesAt published seq = some entries ∧ v ∈ entries.map entryVersion

theorem entriesAt_append {published : List (List CatalogEntry)} {seq : Nat}
    (h : seq ≤ published.length) (entries : List CatalogEntry) :
  entriesAt (published ++ [entries]) seq = entriesAt published seq
  := by
  rw [entriesAt, entriesAt, List.take_append_of_le_length h]

theorem Named.append {published : List (List CatalogEntry)} {seq : Nat} {v : String × String}
    (h : Named published seq v) (hseq : seq ≤ published.length) (entries : List CatalogEntry) :
  Named (published ++ [entries]) seq v
  := by
  rwa [Named, entriesAt_append hseq]

/-- A dataset that is opened keeps the names of its entry. -/
theorem openDatasets_versions {env : Server.Catalog.Env Snapshot} {entries : List CatalogEntry}
    {datasets opened : List (String × Server.Catalog.DatasetHandle Snapshot)}
    (h : Server.Catalog.openDatasets env (entries.map serverEntry) datasets = .ok opened) :
  versionSnapshot opened = versionSnapshot datasets ++ entries.map entryVersion
  := by
  induction entries generalizing datasets with
  | nil =>
    cases h
    exact (List.append_nil _).symm
  | cons e entries ih =>
    simp only [List.map_cons, Server.Catalog.openDatasets, Server.Catalog.DatasetHandle.open] at h
    split_ifs at h
    cases hopen : env.openPath (serverEntry e).mountPath with
    | error err =>
      rw [hopen] at h
      cases h
    | ok reader =>
      rw [hopen] at h
      rw [ih h]
      simp [versionSnapshot, entryVersion, serverEntry]

/-- What a load of the published contents names was in the catalog. -/
theorem buildDatasets_named {doubles : Json.Doubles} {message : Bytes → String}
    {openPath : String → Except String Snapshot} {published : List (List CatalogEntry)} {seq : Nat}
    {datasets : List (String × Server.Catalog.DatasetHandle Snapshot)}
    (h : Server.Catalog.buildDatasets (jsonEnv doubles message openPath)
      ((entriesAt published seq).map (marshalCatalog doubles)) = .ok datasets)
    {v : String × String} (hv : v ∈ versionSnapshot datasets) :
  Named published seq v
  := by
  cases hentries : entriesAt published seq with
  | none =>
    rw [hentries] at h
    cases h
  | some entries =>
    rw [hentries, Option.map_some, Server.Catalog.buildDatasets,
      (written_catalog_file doubles message openPath entries)] at h
    refine ⟨entries, hentries, ?_⟩
    rw [openDatasets_versions h] at hv
    exact hv

/-! ### The server follows the catalogs -/

/-- Before the watch is registered, nothing wakes the reload loop. -/
def Idle (s : Server.Catalog.State Snapshot) : Prop :=
  s.phase ≠ .watching → s.sending = false ∧ s.channel = 0 ∧ s.reload = .waiting

/-- The server reads what was published, and installs the catalogs in their order. -/
structure Tracks (doubles : Json.Doubles) (published : List (List CatalogEntry))
    (s : Server.Catalog.State Snapshot) : Prop where
  writes : s.writes = published.map (marshalCatalog doubles)
  idle : Idle s
  source_le : s.source ≤ s.writes.length
  active : ∀ catalog, s.active = some catalog → ∀ v ∈ versionSnapshot catalog.datasets,
    Named published s.source v
  reading : ∀ nextGen data seq, s.reload = .read nextGen data seq →
    s.source ≤ seq ∧ seq ≤ s.writes.length ∧ data = s.contentsAt seq
  loading : ∀ data, s.phase = .loading data →
    s.active = none ∧ s.loadSeq ≤ s.writes.length ∧ data = s.contentsAt s.loadSeq
  starting : s.phase = .starting → s.active = none

/-- The server has forgotten the first `k - 1` catalogs. -/
structure Since (k : Nat) (s : Server.Catalog.State Snapshot) : Prop where
  active : s.active ≠ none → k ≤ s.source
  reading : ∀ nextGen data seq, s.reload = .read nextGen data seq → k ≤ seq
  loading : ∀ data, s.phase = .loading data → k ≤ s.loadSeq

/-- A step of the server that neither reads a catalog nor installs one. -/
structure Quiet (s s' : Server.Catalog.State Snapshot) : Prop where
  active : s'.active = s.active
  source : s'.source = s.source
  loadSeq : s'.loadSeq = s.loadSeq
  loading : ∀ data, s'.phase = .loading data → s.phase = .loading data
  starting : s'.phase = .starting → s.phase = .starting
  reading : ∀ nextGen data seq, s'.reload = .read nextGen data seq →
    s.reload = .read nextGen data seq

/-- What a step of the server does to what it has read. -/
inductive Effect (env : Server.Catalog.Env Snapshot) (s : Server.Catalog.State Snapshot) :
    Server.Catalog.State Snapshot → Prop where
  | load : s.phase = .starting →
    Effect env s { s with phase := .loading s.file, loadSeq := s.writes.length }
  | install {data : Option Bytes}
    {datasets : List (String × Server.Catalog.DatasetHandle Snapshot)} :
    s.phase = .loading data →
    Server.Catalog.buildDatasets env data = .ok datasets ∨ datasets = [] →
    Effect env s { s with phase := .loaded, active := some ⟨datasets, 0⟩, source := s.loadSeq }
  | read {nextGen : Nat} : s.reload = .woken nextGen →
    Effect env s { s with reload := .read nextGen s.file s.writes.length }
  | swap {nextGen : Nat} {data : Option Bytes} {seq : Nat}
    {datasets : List (String × Server.Catalog.DatasetHandle Snapshot)} :
    s.reload = .read nextGen data seq → Server.Catalog.buildDatasets env data = .ok datasets →
    Effect env s { s with reload := .waiting, active := some ⟨datasets, nextGen⟩,
                          generation := nextGen, source := seq }
  | quiet {s' : Server.Catalog.State Snapshot} : Quiet s s' → Effect env s s'

/-- What a step of the server does; the files are those of the agent. -/
structure Serving (env : Server.Catalog.Env Snapshot) (s s' : Server.Catalog.State Snapshot) :
    Prop where
  writes : s'.writes = s.writes
  tmp : s'.tmp = s.tmp
  idle : Idle s → Idle s'
  effect : Effect env s s'

section

variable {env : Server.Catalog.Env Snapshot} {s s' : Server.Catalog.State Snapshot}

theorem serving_load (h : Server.Catalog.step env s .load = some s') :
  Serving env s s'
  := by
  simp only [Server.Catalog.step] at h
  split_ifs at h with hphase
  cases h
  exact ⟨rfl, rfl, fun hs _ => hs (by simp [hphase]), .load hphase⟩

/-- The first load installs what it has read; when there is no file it installs nothing, and
when it cannot be loaded the server stops. -/
theorem serving_install (h : Server.Catalog.step env s .install = some s') :
  Serving env s s'
  := by
  simp only [Server.Catalog.step] at h
  cases hphase : s.phase with
  | loading data =>
    have hidle (hs : Idle s) : s.sending = false ∧ s.channel = 0 ∧ s.reload = .waiting :=
      hs (by simp [hphase])
    simp only [hphase, Server.Catalog.buildCatalogSync] at h
    cases hbuild : Server.Catalog.buildDatasets env data with
    | ok datasets =>
      simp only [hbuild] at h
      cases h
      exact ⟨rfl, rfl, fun hs _ => hidle hs, .install hphase (.inl hbuild)⟩
    | error err =>
      simp only [hbuild] at h
      cases err with
      | notFound =>
        cases h
        exact ⟨rfl, rfl, fun hs _ => hidle hs, .install hphase (.inr rfl)⟩
      | _ =>
        cases h
        exact ⟨rfl, rfl, fun hs _ => hidle hs,
          .quiet ⟨rfl, rfl, rfl, by simp, by simp, fun _ _ _ h => h⟩⟩
  | _ => simp [hphase] at h

/-- Registering the watch, or failing to. -/
theorem serving_watch {a : Server.Catalog.Action} (ha : a = .watch ∨ a = .watchError)
    (h : Server.Catalog.step env s a = some s') :
  Serving env s s'
  := by
  obtain rfl | rfl := ha
  · simp only [Server.Catalog.step] at h
    split_ifs at h with hphase
    cases h
    exact ⟨rfl, rfl, fun _ hp => absurd rfl hp,
      .quiet ⟨rfl, rfl, rfl, by simp, by simp, fun _ _ _ h => h⟩⟩
  · simp only [Server.Catalog.step] at h
    split_ifs at h with hphase
    cases h
    exact ⟨rfl, rfl, fun hs _ => hs (by simp [hphase]),
      .quiet ⟨rfl, rfl, rfl, by simp, by simp, fun _ _ _ h => h⟩⟩

/-- The watcher takes an event. -/
theorem serving_receive (h : Server.Catalog.step env s .receive = some s') :
  Serving env s s'
  := by
  simp only [Server.Catalog.step] at h
  split_ifs at h with hphase
  cases hevents : s.events with
  | nil => simp [hevents] at h
  | cons r events =>
    simp only [hevents] at h
    cases h
    exact ⟨rfl, rfl, fun _ hp => absurd hphase.1 hp,
      .quiet ⟨rfl, rfl, rfl, fun _ h => h, id, fun _ _ _ h => h⟩⟩

/-- The watcher tells the reload loop. -/
theorem serving_send (h : Server.Catalog.step env s .send = some s') :
  Serving env s s'
  := by
  simp only [Server.Catalog.step] at h
  split_ifs at h with hsend
  cases h
  exact ⟨rfl, rfl, fun hs hp => by simp [(hs hp).1] at hsend,
    .quiet ⟨rfl, rfl, rfl, fun _ h => h, id, fun _ _ _ h => h⟩⟩

theorem serving_wake (h : Server.Catalog.step env s .wake = some s') :
  Serving env s s'
  := by
  simp only [Server.Catalog.step] at h
  split_ifs at h with hwake
  cases h
  exact ⟨rfl, rfl, fun hs hp => by simp [(hs hp).2.1] at hwake,
    .quiet ⟨rfl, rfl, rfl, fun _ h => h, id, fun _ _ _ h => by cases h⟩⟩

theorem serving_read (h : Server.Catalog.step env s .read = some s') :
  Serving env s s'
  := by
  simp only [Server.Catalog.step] at h
  cases hreload : s.reload with
  | woken nextGen =>
    simp only [hreload] at h
    cases h
    exact ⟨rfl, rfl, fun hs hp => by simp [(hs hp).2.2] at hreload, .read hreload⟩
  | _ => simp [hreload] at h

/-- A reload installs what it has read, if this can be loaded. -/
theorem serving_swap (h : Server.Catalog.step env s .swap = some s') :
  Serving env s s'
  := by
  simp only [Server.Catalog.step] at h
  cases hreload : s.reload with
  | read nextGen data seq =>
    simp only [hreload, Server.Catalog.buildCatalogSync] at h
    cases hbuild : Server.Catalog.buildDatasets env data with
    | ok datasets =>
      simp only [hbuild] at h
      cases h
      exact ⟨rfl, rfl, fun hs hp => by simp [(hs hp).2.2] at hreload, .swap hreload hbuild⟩
    | error err =>
      simp only [hbuild] at h
      cases h
      exact ⟨rfl, rfl, fun hs hp => by simp [(hs hp).2.2] at hreload,
        .quiet ⟨rfl, rfl, rfl, fun _ h => h, id, fun _ _ _ h => by cases h⟩⟩
  | _ => simp [hreload] at h

/-- Every step of the server is of one of these kinds. -/
theorem serving_of_step {a : Server.Catalog.Action} (ha : isServer a)
    (h : Server.Catalog.step env s a = some s') :
  Serving env s s'
  := by
  cases a with
  | writeTmp data raised => cases ha
  | rename raised => cases ha
  | load => exact serving_load h
  | install => exact serving_install h
  | watch => exact serving_watch (.inl rfl) h
  | watchError => exact serving_watch (.inr rfl) h
  | receive => exact serving_receive h
  | send => exact serving_send h
  | wake => exact serving_wake h
  | read => exact serving_read h
  | swap => exact serving_swap h

end

section

variable {doubles : Json.Doubles} {message : Bytes → String}
  {openPath : String → Except String Snapshot} {published : List (List CatalogEntry)}
  {s s' : Server.Catalog.State Snapshot}

theorem Tracks.contentsAt (hs : Tracks doubles published s) (seq : Nat) :
  s.contentsAt seq = (entriesAt published seq).map (marshalCatalog doubles)
  := by
  rw [Server.Catalog.State.contentsAt, hs.writes, ← List.map_take, List.getLast?_map, entriesAt]

/-- What the server loads of what it has read was in the catalog. -/
theorem Tracks.named (hs : Tracks doubles published s) {data : Option Bytes} {seq : Nat}
    (hdata : data = s.contentsAt seq)
    {datasets : List (String × Server.Catalog.DatasetHandle Snapshot)}
    (h : Server.Catalog.buildDatasets (jsonEnv doubles message openPath) data = .ok datasets)
    {v : String × String} (hv : v ∈ versionSnapshot datasets) :
  Named published seq v
  := by
  rw [hdata, hs.contentsAt] at h
  exact buildDatasets_named h hv

/-- The server reads the file for the first time. -/
theorem Tracks.load (hs : Tracks doubles published s) (hphase : s.phase = .starting)
    (hidle : Idle { s with phase := .loading s.file, loadSeq := s.writes.length }) :
  Tracks doubles published { s with phase := .loading s.file, loadSeq := s.writes.length }
  where
  writes := hs.writes
  idle := hidle
  source_le := hs.source_le
  active := hs.active
  reading := hs.reading
  loading := by
    rintro data h
    cases h
    exact ⟨hs.starting hphase, le_rfl, (Server.Catalog.contentsAt_length s).symm⟩
  starting := by simp

/-- The first catalog that the server installs was in the file, or is empty. -/
theorem Tracks.install (hs : Tracks doubles published s) {data : Option Bytes}
    {datasets : List (String × Server.Catalog.DatasetHandle Snapshot)}
    (hphase : s.phase = .loading data)
    (hbuild : Server.Catalog.buildDatasets (jsonEnv doubles message openPath) data = .ok datasets
      ∨ datasets = [])
    (hidle : Idle { s with phase := .loaded, active := some ⟨datasets, 0⟩, source := s.loadSeq }) :
  Tracks doubles published
    { s with phase := .loaded, active := some ⟨datasets, 0⟩, source := s.loadSeq }
  := by
  obtain ⟨-, hseq, hdata⟩ := hs.loading _ hphase
  exact
    { writes := hs.writes
      idle := hidle
      source_le := hseq
      active := by
        rintro catalog h v hv
        cases h
        obtain hbuild | rfl := hbuild
        · exact hs.named hdata hbuild hv
        · cases hv
      reading := by
        rintro nextGen data seq h
        obtain ⟨-, -, hwaiting⟩ := hs.idle (by simp [hphase])
        rw [hwaiting] at h
        cases h
      loading := by simp
      starting := by simp }

/-- The server reads the file again. -/
theorem Tracks.read (hs : Tracks doubles published s) {nextGen : Nat}
    (hidle : Idle { s with reload := .read nextGen s.file s.writes.length }) :
  Tracks doubles published { s with reload := .read nextGen s.file s.writes.length }
  where
  writes := hs.writes
  idle := hidle
  source_le := hs.source_le
  active := hs.active
  reading := by
    rintro nextGen data seq h
    cases h
    exact ⟨hs.source_le, le_rfl, (Server.Catalog.contentsAt_length s).symm⟩
  loading := hs.loading
  starting := hs.starting

/-- A catalog that the server swaps in was in the file. -/
theorem Tracks.swap (hs : Tracks doubles published s) {nextGen : Nat} {data : Option Bytes}
    {seq : Nat} {datasets : List (String × Server.Catalog.DatasetHandle Snapshot)}
    (hreload : s.reload = .read nextGen data seq)
    (hbuild : Server.Catalog.buildDatasets (jsonEnv doubles message openPath) data = .ok datasets)
    (hidle : Idle { s with reload := .waiting, active := some ⟨datasets, nextGen⟩,
                           generation := nextGen, source := seq }) :
  Tracks doubles published
    { s with reload := .waiting, active := some ⟨datasets, nextGen⟩, generation := nextGen,
             source := seq }
  := by
  obtain ⟨-, hseq, hdata⟩ := hs.reading _ _ _ hreload
  have hphase : s.phase = .watching := by
    by_contra hphase
    have hwaiting := (hs.idle hphase).2.2
    rw [hreload] at hwaiting
    cases hwaiting
  exact
    { writes := hs.writes
      idle := hidle
      source_le := hseq
      active := by
        rintro catalog h v hv
        cases h
        exact hs.named hdata hbuild hv
      reading := by simp
      loading := by simp [hphase]
      starting := by simp [hphase] }

/-- A step that neither reads nor installs a catalog. -/
theorem Tracks.quiet (hs : Tracks doubles published s) (hwrites : s'.writes = s.writes)
    (hidle : Idle s') (hquiet : Quiet s s') :
  Tracks doubles published s'
  := by
  have hcontents : ∀ seq, s'.contentsAt seq = s.contentsAt seq := by
    intro seq
    rw [Server.Catalog.State.contentsAt, Server.Catalog.State.contentsAt, hwrites]
  exact
    { writes := hwrites.trans hs.writes
      idle := hidle
      source_le := by rw [hquiet.source, hwrites]; exact hs.source_le
      active := by rw [hquiet.active, hquiet.source]; exact hs.active
      reading := by
        intro nextGen data seq h
        rw [hquiet.source, hwrites, hcontents]
        exact hs.reading nextGen data seq (hquiet.reading nextGen data seq h)
      loading := by
        intro data h
        rw [hquiet.active, hquiet.loadSeq, hwrites, hcontents]
        exact hs.loading data (hquiet.loading data h)
      starting := fun h => hquiet.active.trans (hs.starting (hquiet.starting h)) }

/-- A step of the server keeps to the catalogs. -/
theorem Tracks.serve (hs : Tracks doubles published s) {a : Server.Catalog.Action}
    (ha : isServer a)
    (h : Server.Catalog.step (jsonEnv doubles message openPath) s a = some s') :
  Tracks doubles published s'
  := by
  obtain ⟨hwrites, -, hidle, heffect⟩ := serving_of_step ha h
  have hidle := hidle hs.idle
  cases heffect with
  | load hphase => exact hs.load hphase hidle
  | install hphase hbuild => exact hs.install hphase hbuild hidle
  | read hreload => exact hs.read hidle
  | swap hreload hbuild => exact hs.swap hreload hbuild hidle
  | quiet hquiet => exact hs.quiet hwrites hidle hquiet

/-- A step of the server does not go back behind what it has forgotten. -/
theorem Since.serve {k : Nat} (hk : k ≤ s.writes.length) (hs : Since k s)
    {env : Server.Catalog.Env Snapshot} {a : Server.Catalog.Action} (ha : isServer a)
    (h : Server.Catalog.step env s a = some s') :
  Since k s'
  := by
  obtain - | ⟨hphase, -⟩ | - | ⟨hreload, -⟩ | hquiet := (serving_of_step ha h).effect
  · exact ⟨hs.active, hs.reading, fun _ _ => hk⟩
  · exact ⟨fun _ => hs.loading _ hphase, hs.reading, by simp⟩
  · refine ⟨hs.active, fun _ _ _ h => ?_, hs.loading⟩
    cases h
    exact hk
  · exact ⟨fun _ => hs.reading _ _ _ hreload, by simp, hs.loading⟩
  · refine ⟨?_, fun nextGen data seq h => hs.reading _ _ _ (hquiet.reading nextGen data seq h), ?_⟩
    · rw [hquiet.active, hquiet.source]
      exact hs.active
    · intro data h
      rw [hquiet.loadSeq]
      exact hs.loading data (hquiet.loading data h)

theorem writeTmp_eq {env : Server.Catalog.Env Snapshot} {data : Bytes}
    {raised : List Server.Catalog.WatchResult}
    (h : Server.Catalog.step env s (.writeTmp data raised) = some s') :
  ∃ events, s' = { s with tmp := some data, events := events }
  := by
  simp only [Server.Catalog.step] at h
  split_ifs at h
  cases h
  exact ⟨_, rfl⟩

/-- A rename publishes the file that was written beside the catalog. -/
theorem rename_eq {env : Server.Catalog.Env Snapshot} {raised : List Server.Catalog.WatchResult}
    (h : Server.Catalog.step env s (.rename raised) = some s') :
  ∃ data events, s.tmp = some data
    ∧ s' = { s with tmp := none, writes := s.writes ++ [data], events := events }
  := by
  simp only [Server.Catalog.step] at h
  split at h
  · cases h
  · next data htmp =>
    split_ifs at h
    cases h
    exact ⟨data, _, htmp, rfl⟩

theorem Tracks.writeTmp (hs : Tracks doubles published s) {env : Server.Catalog.Env Snapshot}
    {data : Bytes} {raised : List Server.Catalog.WatchResult}
    (h : Server.Catalog.step env s (.writeTmp data raised) = some s') :
  Tracks doubles published s'
  := by
  obtain ⟨events, rfl⟩ := writeTmp_eq h
  exact ⟨hs.writes, hs.idle, hs.source_le, hs.active, hs.reading, hs.loading, hs.starting⟩

/-- The catalog in the temporary file is published. -/
theorem Tracks.rename (hs : Tracks doubles published s) {env : Server.Catalog.Env Snapshot}
    {raised : List Server.Catalog.WatchResult} {entries : List CatalogEntry}
    (htmp : s.tmp = some (marshalCatalog doubles entries))
    (h : Server.Catalog.step env s (.rename raised) = some s') :
  Tracks doubles (published ++ [entries]) s'
  := by
  obtain ⟨data, events, hdata, rfl⟩ := rename_eq h
  obtain rfl := Option.some.inj (htmp.symm.trans hdata)
  have hlen : s.writes.length = published.length := by
    rw [hs.writes, List.length_map]
  have hle {seq : Nat} (hseq : seq ≤ s.writes.length) :
      seq ≤ (s.writes ++ [marshalCatalog doubles entries]).length := by
    rw [List.length_append]
    omega
  exact
    { writes := by simp [hs.writes]
      idle := hs.idle
      source_le := hle hs.source_le
      active := fun catalog h v hv =>
        (hs.active catalog h v hv).append (hlen ▸ hs.source_le) entries
      reading := by
        intro nextGen data seq h
        obtain ⟨hsource, hseq, hdata⟩ := hs.reading nextGen data seq h
        exact ⟨hsource, hle hseq, hdata.trans (Server.Catalog.contentsAt_append rfl hseq).symm⟩
      loading := by
        intro data h
        obtain ⟨hactive, hseq, hdata⟩ := hs.loading data h
        exact ⟨hactive, hle hseq, hdata.trans (Server.Catalog.contentsAt_append rfl hseq).symm⟩
      starting := hs.starting }

theorem Tracks.restarted (hs : Tracks doubles published s) :
  Tracks doubles published (restarted s)
  :=
  { writes := hs.writes
    idle := fun _ => ⟨rfl, rfl, rfl⟩
    source_le := Nat.zero_le _
    active := fun _ h => by cases h
    reading := fun _ _ _ h => by cases h
    loading := fun _ h => by cases h
    starting := fun _ => rfl }

theorem Since.writeTmp {k : Nat} (hs : Since k s) {env : Server.Catalog.Env Snapshot} {data : Bytes}
    {raised : List Server.Catalog.WatchResult}
    (h : Server.Catalog.step env s (.writeTmp data raised) = some s') :
  Since k s'
  := by
  obtain ⟨events, rfl⟩ := writeTmp_eq h
  exact ⟨hs.active, hs.reading, hs.loading⟩

/-- A catalog that is published is not read by it. -/
theorem Since.rename {k : Nat} (hs : Since k s) {env : Server.Catalog.Env Snapshot}
    {raised : List Server.Catalog.WatchResult}
    (h : Server.Catalog.step env s (.rename raised) = some s') :
  Since k s'
  := by
  obtain ⟨data, events, -, rfl⟩ := rename_eq h
  exact ⟨hs.active, hs.reading, hs.loading⟩

/-- A server that starts has read nothing. -/
theorem since_restarted (k : Nat) (s : Server.Catalog.State Snapshot) :
  Since k (restarted s)
  :=
  { active := fun h => absurd rfl h
    reading := fun _ _ _ h => by cases h
    loading := fun _ h => by cases h }

/-- A server that reports a version has forgotten the catalogs before the one that it read it
from. -/
theorem Tracks.confirm (hs : Tracks doubles published s) {dataset versionID : String}
    (h : reports s dataset versionID) :
  Since s.source s ∧ Named published s.source (dataset, versionID)
  := by
  simp only [reports, Bool.and_eq_true] at h
  obtain ⟨-, h⟩ := h
  cases hactive : s.active with
  | none => simp [hactive] at h
  | some catalog =>
    simp only [hactive, Option.any_some, List.contains_iff_mem] at h
    refine ⟨⟨fun _ => le_rfl, fun nextGen data seq h => (hs.reading nextGen data seq h).1,
      fun data h => ?_⟩, hs.active catalog hactive _ h⟩
    rw [(hs.loading data h).1] at hactive
    cases hactive

end

/-! ### Forward runs -/

theorem entriesAt_eq {published : List (List CatalogEntry)} {seq : Nat}
    {entries : List CatalogEntry} (hseq : seq ≤ published.length)
    (h : entriesAt published seq = some entries) :
  ∃ hlt : seq - 1 < published.length, 0 < seq ∧ published[seq - 1] = entries
  := by
  rw [entriesAt, List.getLast?_take] at h
  split_ifs at h with hzero
  have hlt : seq - 1 < published.length := by omega
  rw [List.getElem?_eq_getElem hlt, Option.some_or, Option.some.injEq] at h
  exact ⟨hlt, by omega, h⟩

/-- After a catalog that names the assigned version, no other version is named. -/
theorem Forward.named {s : System Snapshot} {assign : NodeAssignment} (h : Forward s assign)
    (hdistinct : ∀ entries ∈ s.published, (entries.map (·.dataset)).Nodup) {k i : Nat} (hk : k ≤ i)
    (hi : i ≤ s.published.length) (hnamed : Named s.published k (versionOf assign))
    {versionID : String} (hother : Named s.published i (assign.dataset, versionID)) :
  versionID = assign.version.id
  := by
  obtain ⟨entries, hentries, hversion⟩ := hnamed
  obtain ⟨entries', hentries', hversion'⟩ := hother
  obtain ⟨hlt, hpos, rfl⟩ := entriesAt_eq (hk.trans hi) hentries
  obtain ⟨hlt', hpos', rfl⟩ := entriesAt_eq hi hentries'
  obtain ⟨e, he, heq⟩ := List.mem_map.1 hversion
  obtain ⟨e', he', heq'⟩ := List.mem_map.1 hversion'
  have hdataset : e'.dataset = assign.dataset := congrArg Prod.fst heq'
  have hversionID : e'.versionID = versionID := congrArg Prod.snd heq'
  obtain hk | rfl := hk.lt_or_eq
  · have hpair := List.pairwise_iff_getElem.1 h (k - 1) (i - 1) hlt hlt' (by omega)
    exact hversionID.symm.trans (hpair ⟨e, he, heq⟩ e' he' hdataset)
  · have hsame : e = e' :=
      List.inj_on_of_nodup_map (hdistinct _ (List.getElem_mem hlt)) he he'
        ((congrArg Prod.fst heq).trans hdataset.symm)
    rw [← hversionID, ← hsame]
    exact congrArg Prod.snd heq

/-! ### The invariant -/

/-- The version has not been released since it was mounted. -/
def Fresh (s : System Snapshot) (v : String × String) : Prop :=
  v ∉ s.released ∧ v ∉ s.shutDown.map Prod.fst

/-- The agent does not publish what it has released, and what it has released in a promotion
the server has forgotten. -/
structure Inv (cfg : Config) (doubles : Json.Doubles) (s : System Snapshot) : Prop where
  server : Tracks doubles s.published s.server
  records : s.agent.OneRecord
  distinct : ∀ entries ∈ s.published, (entries.map (·.dataset)).Nodup
  written : ∀ assign, s.progress = .written assign →
    s.server.tmp = some (marshalCatalog doubles (promotion cfg assign s.agent))
  forward : ∀ assign, s.progress.assign = some assign → Forward s assign
  running : s.progress ≠ .idle → s.running = true
  mounted : ∀ assign, s.progress.assign = some assign → s.progress ≠ .mounting assign →
    Fresh s (versionOf assign)
  active : s.running = true → ∀ ds ∈ s.agent.datasets, ds.phase = .active →
    Fresh s (ds.dataset, ds.versionID)
  confirmed : ∀ assign k, s.progress = .confirmed assign k →
    k ≤ s.published.length ∧ Since k s.server ∧ Named s.published k (versionOf assign)
  released : ∀ v ∈ s.released, ∃ k ≤ s.published.length, Since k s.server
    ∧ ∀ i, k ≤ i → i ≤ s.published.length → ¬ Named s.published i v
  shutDown : ∀ v n, (v, n) ∈ s.shutDown →
    ∀ i, n < i → i ≤ s.published.length → ¬ Named s.published i v

section

variable {cfg : Config} {doubles : Json.Doubles} {message : Bytes → String}
  {openPath : String → Except String Snapshot} {s s' : System Snapshot}

theorem Tracks.length_eq {published : List (List CatalogEntry)} {s : Server.Catalog.State Snapshot}
    (hs : Tracks doubles published s) :
  s.writes.length = published.length
  := by
  rw [hs.writes, List.length_map]

/-- A promotion names the assigned version and those of active records. -/
theorem promotion_versions (cfg : Config) {assign : NodeAssignment} {a : Agent} {e : CatalogEntry}
    (he : e ∈ promotion cfg assign a) :
  entryVersion e = versionOf assign
    ∨ ∃ ds ∈ a.datasets, ds.phase = .active ∧ ds.dataset ≠ assign.dataset
      ∧ entryVersion e = (ds.dataset, ds.versionID)
  := by
  obtain he | he := List.mem_append.1 he
  · obtain ⟨ds, hds, rfl⟩ := List.mem_map.1 he
    obtain ⟨hmem, hds⟩ := List.mem_filter.1 hds
    obtain ⟨hactive, hne⟩ := of_decide_eq_true hds
    exact .inr ⟨ds, hmem, hactive, hne, rfl⟩
  · rw [List.mem_singleton.1 he]
    exact .inl rfl

/-- A promotion has one entry for a dataset. -/
theorem nodup_promotion (cfg : Config) (assign : NodeAssignment) {a : Agent} (ha : a.OneRecord) :
  ((promotion cfg assign a).map (·.dataset)).Nodup
  := by
  simp only [promotion, catalogEntries, List.map_append, List.map_map, List.map_cons, List.map_nil]
  refine List.nodup_append.2 ⟨?_, List.nodup_singleton _, ?_⟩
  · exact ha.sublist (List.filter_sublist.map _)
  · intro d hd d' hd' heq
    obtain ⟨ds, hds, rfl⟩ := List.mem_map.1 hd
    rw [List.mem_singleton.1 hd'] at heq
    exact (of_decide_eq_true (List.mem_filter.1 hds).2).2 heq

/-- No catalog is published, and no version released. -/
theorem inv_init :
  Inv cfg doubles (.init : System Snapshot)
  where
  server :=
    { writes := rfl
      idle := fun _ => ⟨rfl, rfl, rfl⟩
      source_le := le_rfl
      active := fun _ h => by cases h
      reading := fun _ _ _ h => by cases h
      loading := fun _ h => by cases h
      starting := fun _ => rfl }
  records := List.nodup_nil
  distinct := fun _ h => by cases h
  written := fun _ h => by cases h
  forward := fun _ h => by cases h
  running := fun h => absurd rfl h
  mounted := fun _ h => by cases h
  active := fun _ _ h => by cases h
  confirmed := fun _ _ h => by cases h
  released := fun _ h => by cases h
  shutDown := fun _ _ h => by cases h

/-- Where only the server has changed, and has kept what it has forgotten. -/
theorem Inv.server_step (hs : Inv cfg doubles s) {server : Server.Catalog.State Snapshot}
    (hserver : Tracks doubles s.published server) (htmp : server.tmp = s.server.tmp)
    (hsince : ∀ k, k ≤ s.published.length → Since k s.server → Since k server) :
  Inv cfg doubles { s with server := server }
  where
  server := hserver
  records := hs.records
  distinct := hs.distinct
  written := fun assign h => htmp.trans (hs.written assign h)
  forward := hs.forward
  running := hs.running
  mounted := hs.mounted
  active := hs.active
  confirmed := fun assign k h =>
    let ⟨hk, hsincek, hnamed⟩ := hs.confirmed assign k h
    ⟨hk, hsince k hk hsincek, hnamed⟩
  released := fun v hv =>
    let ⟨k, hk, hsincek, hnever⟩ := hs.released v hv
    ⟨k, hk, hsince k hk hsincek, hnever⟩
  shutDown := hs.shutDown

/-- The reconcile of an assignment that goes forward begins. -/
theorem Inv.begin (hs : Inv cfg doubles s) (hrunning : s.running = true) {assign : NodeAssignment}
    (hforward : Forward s assign) :
  Inv cfg doubles { s with progress := .mounting assign }
  where
  server := hs.server
  records := hs.records
  distinct := hs.distinct
  written := fun _ h => by cases h
  forward := fun _ h => by
    cases h
    exact hforward
  running := fun _ => hrunning
  mounted := fun _ h hne => by
    cases h
    exact absurd rfl hne
  active := hs.active
  confirmed := fun _ _ h => by cases h
  released := hs.released
  shutDown := hs.shutDown

/-- What was released and is not mounted is still not mounted. -/
theorem Fresh.filter {v w : String × String} (h : Fresh s v) (progress : Progress) :
  Fresh { s with progress := progress, released := s.released.filter (· ≠ w),
                 shutDown := s.shutDown.filter (·.1 ≠ w) } v
  :=
  ⟨fun hmem => h.1 (List.mem_filter.1 hmem).1,
    fun hmem => h.2 ((List.filter_sublist.map Prod.fst).mem hmem)⟩

/-- The version is mounted: it is not among the released ones any more. -/
theorem Inv.mount (hs : Inv cfg doubles s) {assign : NodeAssignment}
    (hprogress : s.progress = .mounting assign) :
  Inv cfg doubles
    { s with progress := .mounted assign, released := s.released.filter (· ≠ versionOf assign),
             shutDown := s.shutDown.filter (·.1 ≠ versionOf assign) }
  where
  server := hs.server
  records := hs.records
  distinct := hs.distinct
  written := fun _ h => by cases h
  forward := fun assign' h => hs.forward assign' (by rw [hprogress]; exact h)
  running := fun _ => hs.running (by simp [hprogress])
  mounted := fun _ h _ => by
    cases h
    refine ⟨fun hmem => of_decide_eq_true (List.mem_filter.1 hmem).2 rfl, fun hmem => ?_⟩
    obtain ⟨x, hx, heq⟩ := List.mem_map.1 hmem
    exact of_decide_eq_true (List.mem_filter.1 hx).2 heq
  active := fun hrunning ds hds hactive => (hs.active hrunning ds hds hactive).filter _
  confirmed := fun _ _ h => by cases h
  released := fun v hv => hs.released v (List.mem_filter.1 hv).1
  shutDown := fun v n hv => hs.shutDown v n (List.mem_filter.1 hv).1

/-- A write of the temporary file that fails. -/
theorem Inv.tear (hs : Inv cfg doubles s) {assign : NodeAssignment}
    (hprogress : s.progress = .mounted assign) {env : Server.Catalog.Env Snapshot} {data : Bytes}
    {raised : List Server.Catalog.WatchResult} {server : Server.Catalog.State Snapshot}
    (h : Server.Catalog.step env s.server (.writeTmp data raised) = some server) :
  Inv cfg doubles { s with server := server }
  where
  server := hs.server.writeTmp h
  records := hs.records
  distinct := hs.distinct
  written := fun _ h => by cases hprogress.symm.trans h
  forward := hs.forward
  running := hs.running
  mounted := hs.mounted
  active := hs.active
  confirmed := fun _ _ h => by cases hprogress.symm.trans h
  released := fun v hv =>
    let ⟨k, hk, hsince, hnever⟩ := hs.released v hv
    ⟨k, hk, hsince.writeTmp h, hnever⟩
  shutDown := hs.shutDown

/-- The catalog is in the temporary file. -/
theorem Inv.write (hs : Inv cfg doubles s) {assign : NodeAssignment}
    (hprogress : s.progress = .mounted assign) {env : Server.Catalog.Env Snapshot}
    {raised : List Server.Catalog.WatchResult} {server : Server.Catalog.State Snapshot}
    (h : Server.Catalog.step env s.server
      (.writeTmp (marshalCatalog doubles (promotion cfg assign s.agent)) raised) = some server) :
  Inv cfg doubles { s with server := server, progress := .written assign }
  where
  server := hs.server.writeTmp h
  records := hs.records
  distinct := hs.distinct
  written := fun _ heq => by
    cases heq
    obtain ⟨events, rfl⟩ := writeTmp_eq h
    rfl
  forward := fun assign' h => hs.forward assign' (by rw [hprogress]; exact h)
  running := fun _ => hs.running (by simp [hprogress])
  mounted := fun assign' h _ =>
    hs.mounted assign' (by rw [hprogress]; exact h) (by simp [hprogress])
  active := hs.active
  confirmed := fun _ _ h => by cases h
  released := fun v hv =>
    let ⟨k, hk, hsince, hnever⟩ := hs.released v hv
    ⟨k, hk, hsince.writeTmp h, hnever⟩
  shutDown := hs.shutDown

/-- The catalog that is published names no released version. -/
theorem Inv.promotion_fresh (hs : Inv cfg doubles s) (hrunning : s.running = true)
    {assign : NodeAssignment} (hfresh : Fresh s (versionOf assign)) {v : String × String}
    (hv : v ∈ (promotion cfg assign s.agent).map entryVersion) :
  Fresh s v
  := by
  obtain ⟨e, he, rfl⟩ := List.mem_map.1 hv
  obtain heq | ⟨ds, hds, hactive, -, heq⟩ := promotion_versions cfg he
  · exact heq ▸ hfresh
  · exact heq ▸ hs.active hrunning ds hds hactive

/-- A version that was not named is not named either when a catalog without it is published. -/
theorem not_named_append {published : List (List CatalogEntry)} {entries : List CatalogEntry}
    {v : String × String} {i : Nat}
    (hbefore : i ≤ published.length → ¬ Named published i v) (hv : v ∉ entries.map entryVersion)
    (hi : i ≤ published.length + 1) :
  ¬ Named (published ++ [entries]) i v
  := by
  intro hnamed
  obtain hi | rfl := Nat.lt_or_eq_of_le hi
  · apply hbefore (by omega)
    rwa [Named, entriesAt_append (by omega)] at hnamed
  · obtain ⟨entries', hentries, hmem⟩ := hnamed
    have hlast : entriesAt (published ++ [entries]) (published.length + 1) = some entries := by
      rw [entriesAt, List.take_of_length_le (by simp), List.getLast?_concat]
    cases hlast.symm.trans hentries
    exact hv hmem

/-- The catalog in the temporary file names no released version. -/
theorem Inv.rename_fresh (hs : Inv cfg doubles s) {assign : NodeAssignment}
    (hprogress : s.progress = .written assign) {v : String × String}
    (hv : v ∈ (promotion cfg assign s.agent).map entryVersion) :
  Fresh s v
  := by
  have hassign := hs.mounted assign (by rw [hprogress]; rfl) (by simp [hprogress])
  exact hs.promotion_fresh (hs.running (by simp [hprogress])) hassign hv

/-- The catalog is published. -/
theorem Inv.rename (hs : Inv cfg doubles s) {assign : NodeAssignment}
    (hprogress : s.progress = .written assign) {env : Server.Catalog.Env Snapshot}
    {raised : List Server.Catalog.WatchResult} {server : Server.Catalog.State Snapshot}
    (h : Server.Catalog.step env s.server (.rename raised) = some server) :
  Inv cfg doubles
    { s with server := server, progress := .published assign,
             published := s.published ++ [promotion cfg assign s.agent] }
  where
  server := hs.server.rename (hs.written assign hprogress) h
  records := hs.records
  distinct := by
    intro entries hentries
    obtain hentries | hentries := List.mem_append.1 hentries
    · exact hs.distinct entries hentries
    · rw [List.mem_singleton.1 hentries]
      exact nodup_promotion cfg assign hs.records
  written := fun _ h => by cases h
  forward := by
    intro assign' heq
    cases heq
    refine List.pairwise_append.2 ⟨hs.forward assign (by rw [hprogress]; rfl),
      List.pairwise_singleton _ _, ?_⟩
    intro before _ after hafter _ e he hdataset
    rw [List.mem_singleton.1 hafter] at he
    obtain heq | ⟨ds, -, -, hne, heq⟩ := promotion_versions cfg he
    · exact congrArg Prod.snd heq
    · exact absurd ((congrArg Prod.fst heq).symm.trans hdataset) hne
  running := fun _ => hs.running (by simp [hprogress])
  mounted := fun assign' h _ =>
    hs.mounted assign' (by rw [hprogress]; exact h) (by simp [hprogress])
  active := hs.active
  confirmed := fun _ _ h => by cases h
  released := by
    intro v hv
    obtain ⟨k, hk, hsince, hnever⟩ := hs.released v hv
    refine ⟨k, by simp; omega, hsince.rename h, fun i hki hi => ?_⟩
    simp only [List.length_append, List.length_singleton] at hi
    exact not_named_append (hnever i hki) (fun hmem => (hs.rename_fresh hprogress hmem).1 hv) hi
  shutDown := by
    intro v n hv i hni hi
    simp only [List.length_append, List.length_singleton] at hi
    exact not_named_append (hs.shutDown v n hv i hni)
      (fun hmem => (hs.rename_fresh hprogress hmem).2 (List.mem_map_of_mem hv)) hi

/-- The server reports the version, so it has forgotten the catalogs before the one that named
it. -/
theorem Inv.confirm (hs : Inv cfg doubles s) {assign : NodeAssignment}
    (hprogress : s.progress = .published assign)
    (h : reports s.server assign.dataset assign.version.id) :
  Inv cfg doubles { s with progress := .confirmed assign s.server.source }
  where
  server := hs.server
  records := hs.records
  distinct := hs.distinct
  written := fun _ h => by cases h
  forward := fun assign' h => hs.forward assign' (by rw [hprogress]; exact h)
  running := fun _ => hs.running (by simp [hprogress])
  mounted := fun assign' h _ =>
    hs.mounted assign' (by rw [hprogress]; exact h) (by simp [hprogress])
  active := hs.active
  confirmed := by
    intro assign' k heq
    cases heq
    obtain ⟨hsince, hnamed⟩ := hs.server.confirm h
    exact ⟨hs.server.length_eq ▸ hs.server.source_le, hsince, hnamed⟩
  released := hs.released
  shutDown := hs.shutDown

/-- The active records after a reconcile. -/
theorem active_of_reconcile {assign : NodeAssignment} {o : Outcomes} {a : Agent} {ds : DatasetState}
    (hds : ds ∈ (a.reconcile cfg assign o).datasets) (hactive : ds.phase = .active) :
  (ds ∈ a.datasets ∧ (a.Skips assign ∨ ds.dataset ≠ assign.dataset))
    ∨ (Succeeds cfg assign o ∧ ds = activeRecord cfg assign)
  := by
  have herror {err : String} (h : ds ∈ (a.insert (a.errorRecord assign err)).datasets) :
      ds ∈ a.datasets ∧ (a.Skips assign ∨ ds.dataset ≠ assign.dataset) := by
    obtain rfl | ⟨hmem, hne⟩ := mem_insert.1 h
    · cases hactive
    · exact ⟨hmem, .inr hne⟩
  obtain ⟨hskips, heq⟩ | ⟨-, -, err, events, -, heq⟩ | ⟨-, -, -, err, heq⟩ | ⟨-, hsucceeds, heq⟩ :=
    reconcile_cases cfg assign o a
  · rw [heq] at hds
    exact .inl ⟨hds, .inl hskips⟩
  · rw [heq] at hds
    exact .inl (herror hds)
  · obtain heq | heq := heq
    all_goals
      rw [heq] at hds
      exact .inl (herror hds)
  · have hdatasets : (a.reconcile cfg assign o).datasets
        = (a.insert (activeRecord cfg assign)).datasets := by
      rw [heq]
      split_ifs
      · rw [cleanupOldVersion_eq]
        rfl
      · rfl
    rw [hdatasets] at hds
    obtain rfl | ⟨hmem, hne⟩ := mem_insert.1 hds
    · exact .inr ⟨hsucceeds, rfl⟩
    · exact .inl ⟨hmem, .inr hne⟩

/-- The version that a promotion releases is another one of the dataset. -/
theorem mem_replaced {a : Agent} {assign : NodeAssignment} {v : String × String}
    (h : v ∈ replaced a assign) :
  v.1 = assign.dataset ∧ v.2 ≠ assign.version.id ∧ ¬ a.Skips assign
  := by
  unfold replaced at h
  split_ifs at h with hreplaces
  · rw [List.mem_singleton.1 h]
    exact ⟨rfl, hreplaces.1, fun hskips => hreplaces.1 hskips.1⟩
  · cases h

/-- A reconcile that ends well was confirmed by the server. -/
theorem Progress.confirmed_of_succeeds {p : Progress} {assign : NodeAssignment} {o : Outcomes}
    (hassign : p.assign = some assign) (hends : p.Ends cfg o) (hsucceeds : Succeeds cfg assign o) :
  ∃ k, p = .confirmed assign k
  := by
  cases p with
  | idle => cases hassign
  | mounting =>
    cases hassign
    exact absurd hsucceeds.1 hends
  | mounted =>
    cases hassign
    exact absurd hsucceeds.2.1 hends.2
  | written =>
    cases hassign
    exact absurd hsucceeds.2.1 hends.2
  | published =>
    cases hassign
    exact absurd hsucceeds.2.2 hends.2.2
  | confirmed _ k =>
    cases hassign
    exact ⟨k, rfl⟩

/-- The reconcile ends, and the previous version is released if it has gone well.  From the catalog
that the server reported on, every catalog that names the dataset names the assigned version. -/
theorem Inv.finish (hs : Inv cfg doubles s) {assign : NodeAssignment}
    (hassign : s.progress.assign = some assign) {o : Outcomes} (hends : s.progress.Ends cfg o) :
  Inv cfg doubles
    { s with agent := s.agent.reconcile cfg assign o, progress := .idle,
             released := if Succeeds cfg assign o then replaced s.agent assign ++ s.released
               else s.released }
  := by
  have hconfirmed : Succeeds cfg assign o → ∃ k, s.progress = .confirmed assign k :=
    Progress.confirmed_of_succeeds hassign hends
  have hreleased : ∀ v, v ∈ (if Succeeds cfg assign o then replaced s.agent assign ++ s.released
        else s.released) →
      v ∈ s.released ∨ (Succeeds cfg assign o ∧ v ∈ replaced s.agent assign) := by
    intro v hv
    split_ifs at hv with hsucceeds
    · obtain hv | hv := List.mem_append.1 hv
      · exact .inr ⟨hsucceeds, hv⟩
      · exact .inl hv
    · exact .inl hv
  exact
    { server := hs.server
      records := hs.records.reconcile cfg assign o
      distinct := hs.distinct
      written := fun _ h => by cases h
      forward := fun _ h => by cases h
      running := fun h => absurd rfl h
      mounted := fun _ h => by cases h
      active := by
        intro hrunning ds hds hactive
        obtain ⟨hold, hother⟩ | ⟨hsucceeds, rfl⟩ := active_of_reconcile hds hactive
        · have hfresh := hs.active hrunning ds hold hactive
          refine ⟨fun hmem => ?_, hfresh.2⟩
          obtain hmem | ⟨-, hmem⟩ := hreleased _ hmem
          · exact hfresh.1 hmem
          · obtain ⟨hdataset, -, hskips⟩ := mem_replaced hmem
            obtain hskips' | hne := hother
            · exact hskips hskips'
            · exact hne hdataset
        · obtain ⟨k, hprogress⟩ := hconfirmed hsucceeds
          have hfresh := hs.mounted assign hassign (by simp [hprogress])
          refine ⟨fun hmem => ?_, hfresh.2⟩
          obtain hmem | ⟨-, hmem⟩ := hreleased _ hmem
          · exact hfresh.1 hmem
          · exact (mem_replaced hmem).2.1 rfl
      confirmed := fun _ _ h => by cases h
      released := by
        intro v hv
        obtain hv | ⟨hsucceeds, hv⟩ := hreleased v hv
        · exact hs.released v hv
        · obtain ⟨k, hprogress⟩ := hconfirmed hsucceeds
          obtain ⟨hk, hsince, hnamed⟩ := hs.confirmed assign k hprogress
          refine ⟨k, hk, hsince, fun i hki hi hother => ?_⟩
          obtain ⟨hdataset, hne, -⟩ := mem_replaced hv
          have hforward := hs.forward assign hassign
          exact hne (hforward.named hs.distinct hki hi hnamed (hdataset ▸ hother))
      shutDown := hs.shutDown }

theorem unmountWithRetry_datasets (path : String) (first : UnmountResult)
    (rest : List UnmountResult) (a : Agent) :
  (unmountWithRetry path first rest a).datasets = a.datasets
  := by
  fun_induction unmountWithRetry path first rest a with
  | case4 next rest a ih => exact ih
  | _ => rfl

/-- A shutdown leaves the records as they are. -/
theorem shutdown_datasets (a : Agent) (snapshot : List DatasetState)
    (o : DatasetState → ShutdownOutcome) :
  (a.shutdown snapshot o).datasets = a.datasets
  := by
  have hrelease : ∀ (a : Agent) ds o, (a.release ds o).datasets = a.datasets := by
    intro a ds o
    unfold Agent.release Agent.record
    dsimp only
    split_ifs
    · exact unmountWithRetry_datasets _ _ _ a
    · rfl
    · exact unmountWithRetry_datasets _ _ _ a
    · rfl
  induction snapshot generalizing a with
  | nil => rfl
  | cons ds snapshot ih => exact (ih (a.release ds (o ds))).trans (hrelease a ds (o ds))

/-- After a shutdown no catalog is published before the agent starts again. -/
theorem Inv.shutdown (hs : Inv cfg doubles s) (hprogress : s.progress = .idle)
    (snapshot : List DatasetState) (o : DatasetState → ShutdownOutcome) :
  Inv cfg doubles
    { s with agent := s.agent.shutdown snapshot o, running := false,
             shutDown := (recorded s.agent).map (·, s.published.length) ++ s.shutDown }
  where
  server := hs.server
  records := by
    rw [OneRecord, shutdown_datasets]
    exact hs.records
  distinct := hs.distinct
  written := fun _ h => by cases hprogress.symm.trans h
  forward := hs.forward
  running := fun h => absurd hprogress h
  mounted := fun assign h => by
    rw [hprogress] at h
    cases h
  active := fun h => by cases h
  confirmed := hs.confirmed
  released := hs.released
  shutDown := by
    intro v n hv i hni hi
    obtain hv | hv := List.mem_append.1 hv
    · obtain ⟨w, -, heq⟩ := List.mem_map.1 hv
      obtain rfl : s.published.length = n := congrArg Prod.snd heq
      exact absurd hni hi.not_gt
    · exact hs.shutDown v n hv i hni hi

/-- The agent starts again without records. -/
theorem Inv.restartAgent (hs : Inv cfg doubles s) :
  Inv cfg doubles
    { s with agent := { s.agent with datasets := [] }, running := true, progress := .idle }
  where
  server := hs.server
  records := List.nodup_nil
  distinct := hs.distinct
  written := fun _ h => by cases h
  forward := fun _ h => by cases h
  running := fun _ => rfl
  mounted := fun _ h => by cases h
  active := fun _ _ h => by cases h
  confirmed := fun _ _ h => by cases h
  released := hs.released
  shutDown := hs.shutDown

/-- A step whose assignment goes forward keeps the invariant. -/
theorem Inv.step (hs : Inv cfg doubles s) {a : Action}
    (hforward : ∀ assign, a = .assign assign → Forward s assign)
    (h : step cfg doubles message openPath s a = some s') :
  Inv cfg doubles s'
  := by
  cases a with
  | assign assign =>
    simp only [Handover.step] at h
    split at h
    · split_ifs at h with hrunning
      · cases h
        exact hs
      · cases h
        exact hs.begin hrunning (hforward assign rfl)
    · cases h
  | mount =>
    simp only [Handover.step] at h
    split at h
    · next assign hprogress =>
      split_ifs at h
      cases h
      exact hs.mount hprogress
    · cases h
  | tear data raised =>
    simp only [Handover.step] at h
    split at h
    · next assign hprogress =>
      obtain ⟨server, hserver, rfl⟩ := Option.map_eq_some_iff.1 h
      exact hs.tear hprogress hserver
    · cases h
  | write raised =>
    simp only [Handover.step] at h
    split at h
    · next assign hprogress =>
      obtain ⟨server, hserver, rfl⟩ := Option.map_eq_some_iff.1 h
      exact hs.write hprogress hserver
    · cases h
  | rename raised =>
    simp only [Handover.step] at h
    split at h
    · next assign hprogress =>
      obtain ⟨server, hserver, rfl⟩ := Option.map_eq_some_iff.1 h
      exact hs.rename hprogress hserver
    · cases h
  | confirm =>
    simp only [Handover.step] at h
    split at h
    · next assign hprogress =>
      split_ifs at h with hreports
      cases h
      exact hs.confirm hprogress hreports
    · cases h
  | finish o =>
    simp only [Handover.step] at h
    split at h
    · next assign hassign =>
      by_cases hends : s.progress.Ends cfg o
      · rw [if_pos hends] at h
        cases h
        exact hs.finish hassign hends
      · rw [if_neg hends] at h
        cases h
    · cases h
  | shutdown snapshot o =>
    simp only [Handover.step] at h
    split at h
    · next hprogress =>
      split_ifs at h
      cases h
      exact hs.shutdown hprogress snapshot o
    · cases h
  | restartAgent =>
    cases h
    exact hs.restartAgent
  | serve a =>
    simp only [Handover.step] at h
    split_ifs at h with ha
    obtain ⟨server, hserver, rfl⟩ := Option.map_eq_some_iff.1 h
    exact hs.server_step (hs.server.serve ha hserver) (serving_of_step ha hserver).tmp
      fun k hk hsince => hsince.serve (hs.server.length_eq ▸ hk) ha hserver
  | restartServer =>
    cases h
    exact hs.server_step hs.server.restarted rfl fun k _ _ => since_restarted k s.server

/-- The invariant holds in all runs whose assignments go forward. -/
theorem Reached.inv (h : Reached cfg doubles message Forward s) :
  Inv cfg doubles s
  := by
  induction h with
  | init => exact inv_init
  | step openPath _ hallowed hstep ih => exact ih.step hallowed hstep

/-- What the server serves, or may serve, was named by a catalog. -/
theorem Tracks.named_of_serves {published : List (List CatalogEntry)}
    {server : Server.Catalog.State Snapshot} (hs : Tracks doubles published server) {k : Nat}
    {v : String × String} (h : ServesSince doubles message k server v) :
  ∃ i, k ≤ i ∧ i ≤ published.length ∧ Named published i v
    ∧ ∀ k', Since k' server → k' ≤ published.length → k' ≤ i
  := by
  have hlen := hs.length_eq
  obtain ⟨catalog, hactive, hk, hmem⟩
    | ⟨data, seq, openPath, datasets, hloading, hk, hbuild, hmem⟩ := h
  · exact ⟨_, hk, hlen ▸ hs.source_le, hs.active catalog hactive v hmem,
      fun k' hsince _ => hsince.active (by simp [hactive])⟩
  · obtain ⟨hphase, rfl⟩ | ⟨nextGen, hreload⟩ | ⟨hfile, rfl⟩ := hloading
    · obtain ⟨-, hseq, hdata⟩ := hs.loading data hphase
      exact ⟨_, hk, hlen ▸ hseq, hs.named hdata hbuild hmem,
        fun k' hsince _ => hsince.loading data hphase⟩
    · obtain ⟨-, hseq, hdata⟩ := hs.reading nextGen data seq hreload
      exact ⟨_, hk, hlen ▸ hseq, hs.named hdata hbuild hmem,
        fun k' hsince _ => hsince.reading nextGen data seq hreload⟩
    · have hdata := hfile.trans (Server.Catalog.contentsAt_length server).symm
      exact ⟨_, hk, hlen.le, hs.named hdata hbuild hmem, fun k' _ hk' => hlen ▸ hk'⟩

/-- In every run of the agent and the server, with whatever shutdowns, restarts and failures,
whose assignments go forward: a version that was released by a promotion is not served and
will not be, unless it is mounted and published again; and one that was released by a
shutdown is not served, and will not be, by a catalog that was published after the shutdown,
unless it is mounted again. -/
theorem released_not_served (h : Reached cfg doubles message Forward s) :
  (∀ v ∈ s.released, ¬ Serves doubles message s.server v)
    ∧ ∀ v n, (v, n) ∈ s.shutDown → ¬ ServesSince doubles message (n + 1) s.server v
  := by
  have hs := h.inv
  constructor
  · intro v hv hserves
    obtain ⟨k, hk, hsince, hnever⟩ := hs.released v hv
    obtain ⟨i, -, hi, hnamed, hforgotten⟩ := hs.server.named_of_serves hserves
    exact hnever i (hforgotten k hsince hk) hi hnamed
  · intro v n hv hserves
    obtain ⟨i, hni, hi, hnamed, -⟩ := hs.server.named_of_serves hserves
    exact hs.shutDown v n hv i hni hi hnamed

end

/-! ### Computed runs -/

section

variable (allowed : System String → NodeAssignment → Prop)
  [∀ s assign, Decidable (allowed s assign)]

/-- The step is no assignment, or one that is allowed. -/
def permits (s : System String) : Action → Bool
  | .assign assign => allowed s assign
  | _ => true

/-- Steps on a node where every path opens, if each is enabled and each assignment is
allowed. -/
def run (s : System String) : List Action → Option (System String)
  | [] => some s
  | a :: as =>
    if permits allowed s a then
      (step ⟨"/mnt/kv"⟩ Json.halfDoubles (fun _ => "") .ok s a).bind (run · as)
    else none

variable {allowed}

/-- A run that is computed is one of the runs. -/
theorem Reached.run {s s' : System String} {as : List Action}
    (hs : Reached ⟨"/mnt/kv"⟩ Json.halfDoubles (fun _ => "") allowed s)
    (h : run allowed s as = some s') :
  Reached ⟨"/mnt/kv"⟩ Json.halfDoubles (fun _ => "") allowed s'
  := by
  induction as generalizing s with
  | nil =>
    cases h
    exact hs
  | cons a as ih =>
    simp only [Handover.run] at h
    split_ifs at h with hpermits
    obtain ⟨s₁, hstep, hrun⟩ := Option.bind_eq_some_iff.1 h
    refine ih (hs.step .ok (fun assign heq => ?_) hstep) hrun
    subst heq
    exact of_decide_eq_true hpermits

end

/-- What the server reports it serves. -/
theorem serves_of_reports {doubles : Json.Doubles} {message : Bytes → String}
    {s : Server.Catalog.State Snapshot} {dataset versionID : String}
    (h : reports s dataset versionID) :
  Serves doubles message s (dataset, versionID)
  := by
  obtain ⟨catalog, hactive, hcontains⟩ := (Option.any_eq_true _ _).1 (Bool.and_eq_true_iff.1 h).2
  exact .inl ⟨catalog, hactive, Nat.zero_le _, List.contains_iff_mem.1 hcontains⟩

def raisedEvent : List Server.Catalog.WatchResult := [.event .create [.catalog]]

/-- The server starts, and the first version is promoted. -/
def startup : List Action :=
  [.serve .load, .serve .install, .serve .watch,
    .assign (.of "users" "v1" "pv1"), .mount, .write [], .rename raisedEvent,
    .serve .receive, .serve .send, .serve .wake, .serve .read, .serve .swap,
    .confirm, .finish {}]

/-- The second version is promoted, and the first one released. -/
def upgrade : List Action :=
  [.assign (.of "users" "v2" "pv2"), .mount, .write [], .rename raisedEvent,
    .serve .receive, .serve .send, .serve .wake, .serve .read, .serve .swap,
    .confirm, .finish {}]

/-- The agent gives up waiting for the second version, and the first one is assigned again.
The server reports it while it has already read the catalog with the second one. -/
def rollback : List Action :=
  [.assign (.of "users" "v2" "pv2"), .mount, .write [], .rename raisedEvent,
    .finish { waitForVersion := some "context deadline exceeded" },
    .serve .receive, .serve .send, .serve .wake, .serve .read,
    .assign (.of "users" "v1" "pv1"), .mount, .write [], .rename raisedEvent,
    .confirm, .serve .swap, .finish {}]

/-- The agent is shut down when it has one version of `users`. -/
def shutdownAt (versionID pvName : String) : List Action :=
  [.shutdown [activeRecord ⟨"/mnt/kv"⟩ (.of "users" versionID pvName)] fun _ => ⟨.ok, [], true⟩]

/-- The agent starts again, and promotes a version of another dataset. -/
def another : List Action :=
  [.restartAgent, .assign (.of "items" "w1" "pw1"), .mount, .write [], .rename raisedEvent,
    .serve .receive, .serve .send, .serve .wake, .serve .read, .serve .swap,
    .confirm, .finish {}]

/-- The first version is released by a promotion, and the second one by a shutdown. -/
theorem released_not_served_upgrade :
  ∃ s : System String, Reached ⟨"/mnt/kv"⟩ Json.halfDoubles (fun _ => "") Forward s
    ∧ ("users", "v1") ∈ s.released ∧ (("users", "v2"), 2) ∈ s.shutDown
    ∧ ¬ Serves Json.halfDoubles (fun _ => "") s.server ("users", "v1")
    ∧ ¬ ServesSince Json.halfDoubles (fun _ => "") 3 s.server ("users", "v2")
  := by
  have h : ((run Forward .init (startup ++ upgrade ++ shutdownAt "v2" "pv2" ++ another)).any
      fun s => s.released.contains ("users", "v1")
        && s.shutDown.contains (("users", "v2"), 2)) = true := by
    decide +kernel
  obtain ⟨s, hrun, h⟩ := (Option.any_eq_true _ _).1 h
  obtain ⟨hreleased, hshutDown⟩ := Bool.and_eq_true_iff.1 h
  have hs : Reached ⟨"/mnt/kv"⟩ Json.halfDoubles (fun _ => "") Forward s := .run .init hrun
  have hmem := List.contains_iff_mem.1 hreleased
  have hmem' := List.contains_iff_mem.1 hshutDown
  obtain ⟨hpromotion, hshut⟩ := released_not_served hs
  exact ⟨s, hs, hmem, hmem', hpromotion _ hmem, hshut _ _ hmem'⟩

/-- After a shutdown the server goes on to serve what the agent has unmounted and detached. -/
theorem served_after_shutdown :
  ∃ s : System String, Reached ⟨"/mnt/kv"⟩ Json.halfDoubles (fun _ => "") Forward s
    ∧ (("users", "v1"), 1) ∈ s.shutDown
    ∧ Serves Json.halfDoubles (fun _ => "") s.server ("users", "v1")
  := by
  have h : ((run Forward .init (startup ++ shutdownAt "v1" "pv1")).any
      fun s => s.shutDown.contains (("users", "v1"), 1)
        && reports s.server "users" "v1") = true := by
    decide +kernel
  obtain ⟨s, hrun, h⟩ := (Option.any_eq_true _ _).1 h
  obtain ⟨hshutDown, hreports⟩ := Bool.and_eq_true_iff.1 h
  exact ⟨s, .run .init hrun, List.contains_iff_mem.1 hshutDown, serves_of_reports hreports⟩

/-- When a version that was published is taken back, it may be released while it is served. -/
theorem served_released_rollback :
  ∃ s : System String, Reached ⟨"/mnt/kv"⟩ Json.halfDoubles (fun _ => "") (fun _ _ => True) s
    ∧ ∃ v ∈ s.released, Serves Json.halfDoubles (fun _ => "") s.server v
  := by
  have h : ((run (fun _ _ => True) .init (startup ++ rollback)).any
      fun s => s.released.contains ("users", "v2") && reports s.server "users" "v2") = true := by
    decide +kernel
  obtain ⟨s, hrun, h⟩ := (Option.any_eq_true _ _).1 h
  obtain ⟨hreleased, hreports⟩ := Bool.and_eq_true_iff.1 h
  exact ⟨s, .run .init hrun, _, List.contains_iff_mem.1 hreleased, serves_of_reports hreports⟩

end NodeAgent.Handover
