import Mcfreeze.ControlPlane.Api
import Mcfreeze.Lib.Lists
import Mathlib.Data.List.Nodup

/-!
# The node agent

`reconcile`, `cleanupOldVersion` and `Shutdown` of the node agent (`nodeagent/agent.go`):
for each assignment the agent attaches a disk, mounts it, writes `catalog.json`, waits for
the server, and cleans up the previous version.  It keeps one record per dataset, which
every step rewrites.

The operations of the outside world succeed or fail as they like; what the agent did to it
is recorded in a history.
-/

namespace NodeAgent

open ControlPlane

/-! ### Paths -/

/-- One component of a path is added to those that are kept, the last one first. -/
def cleanStep (rooted : Bool) (out : List (List Char)) (component : List Char) : List (List Char) :=
  if component = [] ∨ component = ['.'] then out
  else if component = ['.', '.'] then
    match out with
    | [] => if rooted then [] else [component]
    | top :: rest => if top = ['.', '.'] then component :: out else rest
  else component :: out

/-- `filepath.Clean`. -/
def clean (path : List Char) : List Char :=
  if path = [] then ['.']
  else
    let rooted := path.head? = some '/'
    let components := ((path.splitOn '/').foldl (cleanStep rooted) []).reverse
    let body := List.intercalate ['/'] components
    if rooted then '/' :: body
    else if body = [] then ['.']
    else body

/-- `filepath.Join`. -/
def filepathJoin (elems : List String) : String :=
  match elems.dropWhile (· = "") with
  | [] => ""
  | elems => String.ofList (clean (List.intercalate ['/'] (elems.map String.toList)))

structure Config where
  mountBase : String

/-- Where a version of a dataset is mounted. -/
def Config.mountPath (cfg : Config) (dataset versionID : String) : String :=
  filepathJoin [cfg.mountBase, dataset, versionID]

example : Config.mountPath ⟨"/mnt/kv"⟩ "users" "v42" = "/mnt/kv/users/v42" := by decide

/-! ### The agent -/

/-- What the agent did, with the outcome where it matters; `mount` names the volume whose
device was mounted. -/
inductive Event where
  | attach (pvName : String) (ok : Bool)
  | mount (path pvName : String) (ok : Bool)
  | wroteCatalog (dataset : String) (entries : List CatalogEntry)
  | active (dataset versionID mountPath : String)
  | unmount (path : String) (ok : Bool)
  | detach (pvName : String) (ok : Bool)
  deriving DecidableEq, Repr

/-- The records of the agent, `catalog.json`, and what the agent did, the last event
first. -/
structure Agent where
  datasets : List DatasetState
  catalog : Option (List CatalogEntry)
  history : List Event
  deriving DecidableEq, Repr

/-- How the operations of a reconcile end: an error message, or none. -/
structure Outcomes where
  attachDisk : Option String := none
  waitForDevice : Option String := none
  mount : Option String := none
  writeCatalog : Option String := none
  waitForVersion : Option String := none
  unmount : Option String := none
  detachDisk : Option String := none

namespace Agent

def new : Agent := ⟨[], none, []⟩

/-- The record of a dataset. -/
def datasetState (a : Agent) (dataset : String) : DatasetState :=
  (a.datasets.find? (·.dataset = dataset)).getD {}

/-- Replace the record of a dataset. -/
def insert (a : Agent) (ds : DatasetState) : Agent :=
  { a with datasets := ds :: a.datasets.filter (·.dataset ≠ ds.dataset) }

def record (a : Agent) (e : Event) : Agent :=
  { a with history := e :: a.history }

/-- The record that `setPhase` makes: it has no mount path, and keeps the key prefix when it
is given none. -/
def phaseRecord (a : Agent) (dataset keyPrefix versionID pvName : String) (phase : DatasetPhase)
    (errMsg : String) : DatasetState :=
  { dataset := dataset
    keyPrefix := if keyPrefix = "" then (a.datasetState dataset).keyPrefix else keyPrefix
    versionID := versionID
    phase := phase
    pvName := pvName
    error := errMsg }

def setPhase (a : Agent) (dataset keyPrefix versionID pvName : String) (phase : DatasetPhase)
    (errMsg : String) : Agent :=
  a.insert (a.phaseRecord dataset keyPrefix versionID pvName phase errMsg)

/-- Record that a dataset is active, with its mount path. -/
def setActive (a : Agent) (dataset keyPrefix versionID pvName mountPath : String) : Agent :=
  (a.insert
    { dataset := dataset
      keyPrefix := keyPrefix
      versionID := versionID
      phase := .active
      pvName := pvName
      mountPath := mountPath }).record (.active dataset versionID mountPath)

/-- The entries of `catalog.json`: the other datasets that are active, and the one that is
promoted. -/
def catalogEntries (a : Agent) (dataset versionID keyPrefix mountPath : String) : List CatalogEntry :=
  (a.datasets.filter fun ds => ds.phase = .active ∧ ds.dataset ≠ dataset).map
      (fun ds => ⟨ds.dataset, ds.keyPrefix, ds.versionID, ds.mountPath⟩)
    ++ [⟨dataset, keyPrefix, versionID, mountPath⟩]

/-- Write `catalog.json`, or fail and leave it as it is. -/
def writeCatalog (a : Agent) (dataset versionID keyPrefix mountPath : String)
    (failure : Option String) : Option String × Agent :=
  match failure with
  | some err => (some err, a)
  | none =>
    let entries := a.catalogEntries dataset versionID keyPrefix mountPath
    (none, { a with catalog := some entries }.record (.wroteCatalog dataset entries))

/-- Unmount and detach a previous version; failures are only logged. -/
def cleanupOldVersion (a : Agent) (prev : DatasetState) (o : Outcomes) : Agent :=
  let a := if prev.mountPath ≠ "" then a.record (.unmount prev.mountPath o.unmount.isNone) else a
  if prev.pvName ≠ "" then a.record (.detach prev.pvName o.detachDisk.isNone) else a

/-- Mounting at the empty path fails. -/
def mountFailure (path : String) (o : Outcomes) : Option String :=
  if path = "" then some "mkdir : no such file or directory" else o.mount

/-- The dataset is active at the assigned version. -/
def Skips (a : Agent) (assign : NodeAssignment) : Prop :=
  (a.datasetState assign.dataset).versionID = assign.version.id
    ∧ (a.datasetState assign.dataset).phase = .active

instance (a : Agent) (assign : NodeAssignment) : Decidable (a.Skips assign) :=
  inferInstanceAs (Decidable (_ ∧ _))

/-- The error record of an assignment. -/
def fail (a : Agent) (assign : NodeAssignment) (err : String) : Agent :=
  a.setPhase assign.dataset assign.keyPrefix assign.version.id assign.version.pvName .error err

/-- Bring the node into the desired state for one assignment. -/
def reconcile (cfg : Config) (assign : NodeAssignment) (o : Outcomes) (a : Agent) : Agent :=
  let prev := a.datasetState assign.dataset
  if a.Skips assign then a
  else
    let dataset := assign.dataset
    let kp := assign.keyPrefix
    let id := assign.version.id
    let pv := assign.version.pvName
    if pv = "" then a.fail assign ("version " ++ id ++ " has no PersistentVolume name")
    else
      let mountPath := cfg.mountPath dataset id
      let a := (a.setPhase dataset kp id pv .attaching "").record (.attach pv o.attachDisk.isNone)
      match o.attachDisk with
      | some err => a.fail assign err
      | none =>
        match o.waitForDevice with
        | some err => a.fail assign err
        | none =>
          let failure := mountFailure mountPath o
          let a := (a.setPhase dataset kp id pv .mounting "").record (.mount mountPath pv failure.isNone)
          match failure with
          | some err => a.fail assign err
          | none =>
            match a.writeCatalog dataset id kp mountPath o.writeCatalog with
            | (some err, a) => a.fail assign err
            | (none, a) =>
              match o.waitForVersion with
              | some err => a.fail assign err
              | none =>
                let a := a.setActive dataset kp id pv mountPath
                if prev.versionID ≠ id ∧ prev.versionID ≠ "" then a.cleanupOldVersion prev o else a

/-! ### Shutdown -/

/-- How an attempt to unmount ends. -/
inductive UnmountResult where
  | ok
  | busy
  | failed
  deriving DecidableEq, Repr

/-- Unmount, and try again while the path is busy; after the last of the attempts the agent
gives up. -/
def unmountWithRetry (path : String) : UnmountResult → List UnmountResult → Agent → Agent
  | .ok, _, a => a.record (.unmount path true)
  | .failed, _, a => a.record (.unmount path false)
  | .busy, [], a => a.record (.unmount path false)
  | .busy, next :: rest, a => unmountWithRetry path next rest (a.record (.unmount path false))

/-- How the unmount and the detach of a record end in `Shutdown`. -/
structure ShutdownOutcome where
  first : UnmountResult
  rest : List UnmountResult
  detachDisk : Bool

/-- Unmount and detach what a record holds. -/
def release (a : Agent) (ds : DatasetState) (o : ShutdownOutcome) : Agent :=
  let a := if ds.mountPath ≠ "" then unmountWithRetry ds.mountPath o.first o.rest a else a
  if ds.pvName ≠ "" then a.record (.detach ds.pvName o.detachDisk) else a

/-- `Shutdown`, over the records in some order. -/
def shutdown (a : Agent) (snapshot : List DatasetState) (o : DatasetState → ShutdownOutcome) : Agent :=
  snapshot.foldl (fun a ds => a.release ds (o ds)) a

/-! ### The records -/

theorem datasetState_insert_self (a : Agent) (ds : DatasetState) :
  (a.insert ds).datasetState ds.dataset = ds
  := by
  simp [datasetState, insert]

/-- The records of other datasets stay. -/
theorem datasetState_insert_of_ne (a : Agent) {ds : DatasetState} {dataset : String}
    (h : dataset ≠ ds.dataset) :
  (a.insert ds).datasetState dataset = a.datasetState dataset
  := by
  have hfilter : ∀ ds' : DatasetState, ds'.dataset ≠ ds.dataset ∧ ds'.dataset = dataset
      ↔ ds'.dataset = dataset := by
    intro ds'
    refine ⟨And.right, fun h' => ⟨?_, h'⟩⟩
    rw [h']
    exact h
  simp only [datasetState, insert, List.find?_cons, List.find?_filter, h.symm, decide_false,
    decide_eq_true_eq, hfilter]

theorem insert_insert (a : Agent) {ds ds' : DatasetState} (h : ds.dataset = ds'.dataset) :
  ((a.insert ds).insert ds').datasets = (a.insert ds').datasets
  := by
  simp [insert, h, List.filter_filter]

/-- A catalog does not depend on the record of the dataset that is promoted. -/
theorem catalogEntries_insert (a : Agent) (ds : DatasetState) (versionID keyPrefix mountPath : String) :
  (a.insert ds).catalogEntries ds.dataset versionID keyPrefix mountPath
    = a.catalogEntries ds.dataset versionID keyPrefix mountPath
  := by
  have hfilter : (ds :: a.datasets.filter (·.dataset ≠ ds.dataset)).filter
        (fun ds' => ds'.phase = .active ∧ ds'.dataset ≠ ds.dataset)
      = a.datasets.filter (fun ds' => ds'.phase = .active ∧ ds'.dataset ≠ ds.dataset) := by
    rw [List.filter_cons_of_neg (by simp), List.filter_filter]
    apply List.filter_congr
    intro ds' _
    by_cases h : ds'.dataset = ds.dataset
    · simp [h]
    · simp [h]
  unfold catalogEntries insert
  rw [hfilter]

/-- The record of a dataset that has one is among the records. -/
theorem datasetState_mem {a : Agent} {dataset : String} (h : a.datasetState dataset ≠ {}) :
  a.datasetState dataset ∈ a.datasets ∧ (a.datasetState dataset).dataset = dataset
  := by
  unfold datasetState at *
  cases hfind : a.datasets.find? (·.dataset = dataset) with
  | none =>
    rw [hfind] at h
    exact absurd rfl h
  | some ds =>
    refine ⟨List.mem_of_find?_eq_some hfind, ?_⟩
    simpa using List.find?_some hfind

theorem mem_insert {a : Agent} {r ds : DatasetState} :
  ds ∈ (a.insert r).datasets ↔ ds = r ∨ ds ∈ a.datasets ∧ ds.dataset ≠ r.dataset
  := by
  simp [insert]

/-- There is one record for a dataset. -/
def OneRecord (a : Agent) : Prop :=
  (a.datasets.map (·.dataset)).Nodup

theorem OneRecord.insert {a : Agent} (h : a.OneRecord) (ds : DatasetState) :
  (a.insert ds).OneRecord
  := by
  unfold OneRecord Agent.insert
  rw [List.map_cons, List.nodup_cons]
  refine ⟨?_, ?_⟩
  · simp
  · exact h.sublist (List.filter_sublist.map _)

/-- A record is the one of its dataset. -/
theorem OneRecord.datasetState_eq {a : Agent} (h : a.OneRecord) {ds : DatasetState}
    (hmem : ds ∈ a.datasets) :
  a.datasetState ds.dataset = ds
  := by
  have hstate : a.datasetState ds.dataset ∈ a.datasets
      ∧ (a.datasetState ds.dataset).dataset = ds.dataset := by
    unfold datasetState
    cases hfind : a.datasets.find? (·.dataset = ds.dataset) with
    | none =>
      have hnone := List.find?_eq_none.mp hfind ds hmem
      simp at hnone
    | some ds' =>
      refine ⟨List.mem_of_find?_eq_some hfind, ?_⟩
      simpa using List.find?_some hfind
  exact List.inj_on_of_nodup_map h hstate.1 hmem hstate.2

/-! ### What a reconcile does -/

/-- The operations of a reconcile up to its `Mount` succeed. -/
def Mounts (cfg : Config) (assign : NodeAssignment) (o : Outcomes) : Prop :=
  assign.version.pvName ≠ "" ∧ o.attachDisk = none ∧ o.waitForDevice = none
    ∧ mountFailure (cfg.mountPath assign.dataset assign.version.id) o = none

/-- The operations of a reconcile up to the confirmation of the server succeed. -/
def Succeeds (cfg : Config) (assign : NodeAssignment) (o : Outcomes) : Prop :=
  Mounts cfg assign o ∧ o.writeCatalog = none ∧ o.waitForVersion = none

/-- The record of the dataset is of another version, which is cleaned up after the promotion. -/
def Replaces (a : Agent) (assign : NodeAssignment) : Prop :=
  (a.datasetState assign.dataset).versionID ≠ assign.version.id
    ∧ (a.datasetState assign.dataset).versionID ≠ ""

instance (cfg : Config) (assign : NodeAssignment) (o : Outcomes) : Decidable (Mounts cfg assign o) :=
  inferInstanceAs (Decidable (_ ∧ _))

instance (cfg : Config) (assign : NodeAssignment) (o : Outcomes) : Decidable (Succeeds cfg assign o) :=
  inferInstanceAs (Decidable (_ ∧ _))

instance (a : Agent) (assign : NodeAssignment) : Decidable (a.Replaces assign) :=
  inferInstanceAs (Decidable (_ ∧ _))

/-- The record of a failed assignment. -/
def errorRecord (a : Agent) (assign : NodeAssignment) (err : String) : DatasetState :=
  a.phaseRecord assign.dataset assign.keyPrefix assign.version.id assign.version.pvName .error err

/-- The record of a promoted assignment. -/
def activeRecord (cfg : Config) (assign : NodeAssignment) : DatasetState :=
  { dataset := assign.dataset
    keyPrefix := assign.keyPrefix
    versionID := assign.version.id
    phase := .active
    pvName := assign.version.pvName
    mountPath := cfg.mountPath assign.dataset assign.version.id }

/-- The catalog that promotes an assignment. -/
def promotion (cfg : Config) (assign : NodeAssignment) (a : Agent) : List CatalogEntry :=
  a.catalogEntries assign.dataset assign.version.id assign.keyPrefix
    (cfg.mountPath assign.dataset assign.version.id)

/-- What a reconcile does that fails before something is mounted. -/
inductive EarlyFailure (cfg : Config) (assign : NodeAssignment) : List Event → Prop where
  | volume : assign.version.pvName = "" → EarlyFailure cfg assign []
  | attach : assign.version.pvName ≠ "" →
      EarlyFailure cfg assign [.attach assign.version.pvName false]
  | device : assign.version.pvName ≠ "" →
      EarlyFailure cfg assign [.attach assign.version.pvName true]
  | mount : assign.version.pvName ≠ "" →
      EarlyFailure cfg assign
        [.mount (cfg.mountPath assign.dataset assign.version.id) assign.version.pvName false,
          .attach assign.version.pvName true]

/-- What a reconcile does until its `Mount` has succeeded, the last event first. -/
def mountEvents (cfg : Config) (assign : NodeAssignment) : List Event :=
  [.mount (cfg.mountPath assign.dataset assign.version.id) assign.version.pvName true,
    .attach assign.version.pvName true]

/-- The agent after a promotion, before the previous version is cleaned up. -/
def promoted (cfg : Config) (assign : NodeAssignment) (a : Agent) : Agent :=
  ⟨(a.insert (activeRecord cfg assign)).datasets, some (promotion cfg assign a),
    .active assign.dataset assign.version.id (cfg.mountPath assign.dataset assign.version.id)
      :: .wroteCatalog assign.dataset (promotion cfg assign a)
      :: (mountEvents cfg assign ++ a.history)⟩

/-- What a cleanup does, the last event first. -/
def cleanupEvents (prev : DatasetState) (o : Outcomes) : List Event :=
  (if prev.pvName ≠ "" then [.detach prev.pvName o.detachDisk.isNone] else [])
    ++ (if prev.mountPath ≠ "" then [.unmount prev.mountPath o.unmount.isNone] else [])

theorem cleanupOldVersion_eq (a : Agent) (prev : DatasetState) (o : Outcomes) :
  a.cleanupOldVersion prev o = ⟨a.datasets, a.catalog, cleanupEvents prev o ++ a.history⟩
  := by
  unfold cleanupOldVersion cleanupEvents
  by_cases hpath : prev.mountPath ≠ ""
  · rw [if_pos hpath, if_pos hpath]
    split <;> rfl
  · rw [if_neg hpath, if_neg hpath]
    split <;> rfl

/-- Setting a phase twice is setting the second one. -/
theorem setPhase_phase {a b : Agent} {dataset keyPrefix versionID pvName : String}
    {phase phase' : DatasetPhase} {err err' : String}
    (h : b.datasets = (a.insert (a.phaseRecord dataset keyPrefix versionID pvName phase err)).datasets) :
  b.setPhase dataset keyPrefix versionID pvName phase' err'
    = ⟨(a.insert (a.phaseRecord dataset keyPrefix versionID pvName phase' err')).datasets,
      b.catalog, b.history⟩
  := by
  obtain ⟨datasets, catalog, history⟩ := b
  dsimp only at h
  subst h
  set r := a.phaseRecord dataset keyPrefix versionID pvName phase err with hr
  have hstate : (a.insert r).datasetState dataset = r := datasetState_insert_self a r
  have hrecord : (a.insert r).phaseRecord dataset keyPrefix versionID pvName phase' err'
      = a.phaseRecord dataset keyPrefix versionID pvName phase' err' := by
    unfold phaseRecord
    rw [hstate, hr]
    unfold phaseRecord
    by_cases hkp : keyPrefix = ""
    · simp [hkp]
    · simp [hkp]
  have hinsert : (a.insert (a.phaseRecord dataset keyPrefix versionID pvName phase' err')).datasets
      = ((a.insert r).insert (a.phaseRecord dataset keyPrefix versionID pvName phase' err')).datasets :=
    (insert_insert a (show r.dataset = dataset from rfl)).symm
  rw [hinsert, ← hrecord]
  rfl

/-- The agent after it has called `Mount`. -/
def mounting (cfg : Config) (assign : NodeAssignment) (ok : Bool) (a : Agent) : Agent :=
  ⟨(a.insert (a.phaseRecord assign.dataset assign.keyPrefix assign.version.id assign.version.pvName
      .mounting "")).datasets, a.catalog,
    .mount (cfg.mountPath assign.dataset assign.version.id) assign.version.pvName ok
      :: .attach assign.version.pvName true :: a.history⟩

/-- A reconcile whose device is there goes on with `Mount`. -/
theorem reconcile_mounting (cfg : Config) {assign : NodeAssignment} {o : Outcomes} {a : Agent}
    (hskips : ¬ a.Skips assign) (hpv : assign.version.pvName ≠ "") (hattach : o.attachDisk = none)
    (hdevice : o.waitForDevice = none) :
  a.reconcile cfg assign o
    = match mountFailure (cfg.mountPath assign.dataset assign.version.id) o with
      | some err => (mounting cfg assign false a).fail assign err
      | none =>
        match (mounting cfg assign true a).writeCatalog assign.dataset assign.version.id
          assign.keyPrefix (cfg.mountPath assign.dataset assign.version.id) o.writeCatalog with
        | (some err, a) => a.fail assign err
        | (none, b) =>
          match o.waitForVersion with
          | some err => b.fail assign err
          | none =>
            let b := b.setActive assign.dataset assign.keyPrefix assign.version.id
              assign.version.pvName (cfg.mountPath assign.dataset assign.version.id)
            if a.Replaces assign then b.cleanupOldVersion (a.datasetState assign.dataset) o else b
  := by
  have hphase : ((a.setPhase assign.dataset assign.keyPrefix assign.version.id assign.version.pvName
          .attaching "").record (.attach assign.version.pvName true)).setPhase assign.dataset
        assign.keyPrefix assign.version.id assign.version.pvName .mounting ""
      = ⟨(a.insert (a.phaseRecord assign.dataset assign.keyPrefix assign.version.id
        assign.version.pvName .mounting "")).datasets, a.catalog,
        .attach assign.version.pvName true :: a.history⟩ := setPhase_phase rfl
  unfold reconcile
  rw [if_neg hskips, if_neg hpv, hattach, hdevice]
  dsimp only [Option.isNone_none]
  rw [hphase]
  cases mountFailure (cfg.mountPath assign.dataset assign.version.id) o with
  | some err => rfl
  | none => rfl

/-- The catalog is the same before and after the phase of the promoted dataset is set. -/
theorem catalogEntries_mounting (cfg : Config) (assign : NodeAssignment) (ok : Bool) (a : Agent) :
  (mounting cfg assign ok a).catalogEntries assign.dataset assign.version.id assign.keyPrefix
      (cfg.mountPath assign.dataset assign.version.id)
    = promotion cfg assign a
  :=
  catalogEntries_insert a (a.phaseRecord assign.dataset assign.keyPrefix assign.version.id
    assign.version.pvName .mounting "") _ _ _

/-- A dataset that is active at the assigned version is left as it is. -/
theorem reconcile_skips {cfg : Config} {assign : NodeAssignment} {o : Outcomes} {a : Agent}
    (h : a.Skips assign) :
  a.reconcile cfg assign o = a
  := by
  unfold reconcile
  rw [if_pos h]

/-- What a reconcile does: nothing, a failure before its `Mount` has succeeded, a failure
afterwards, or a promotion with the cleanup of the previous version. -/
theorem reconcile_cases (cfg : Config) (assign : NodeAssignment) (o : Outcomes) (a : Agent) :
  (a.Skips assign ∧ a.reconcile cfg assign o = a)
    ∨ (¬ a.Skips assign ∧ ¬ Mounts cfg assign o ∧ ∃ err events, EarlyFailure cfg assign events
      ∧ a.reconcile cfg assign o
        = ⟨(a.insert (a.errorRecord assign err)).datasets, a.catalog, events ++ a.history⟩)
    ∨ (¬ a.Skips assign ∧ Mounts cfg assign o ∧ ¬ Succeeds cfg assign o ∧ ∃ err,
      a.reconcile cfg assign o
          = ⟨(a.insert (a.errorRecord assign err)).datasets, a.catalog,
            mountEvents cfg assign ++ a.history⟩
        ∨ a.reconcile cfg assign o
          = ⟨(a.insert (a.errorRecord assign err)).datasets, some (promotion cfg assign a),
            .wroteCatalog assign.dataset (promotion cfg assign a)
              :: (mountEvents cfg assign ++ a.history)⟩)
    ∨ (¬ a.Skips assign ∧ Succeeds cfg assign o
      ∧ a.reconcile cfg assign o
        = if a.Replaces assign
          then (promoted cfg assign a).cleanupOldVersion (a.datasetState assign.dataset) o
          else promoted cfg assign a)
  := by
  by_cases hskips : a.Skips assign
  · left
    exact ⟨hskips, reconcile_skips hskips⟩
  · right
    by_cases hpv : assign.version.pvName = ""
    · left
      refine ⟨hskips, fun h => h.1 hpv, "version " ++ assign.version.id
        ++ " has no PersistentVolume name", [], .volume hpv, ?_⟩
      unfold reconcile
      rw [if_neg hskips, if_pos hpv]
      rfl
    · cases hattach : o.attachDisk with
      | some err =>
        left
        refine ⟨hskips, fun h => ?_, err, _, .attach hpv, ?_⟩
        · have := h.2.1
          rw [hattach] at this
          simp at this
        · unfold reconcile
          rw [if_neg hskips, if_neg hpv, hattach]
          exact setPhase_phase rfl
      | none =>
        cases hdevice : o.waitForDevice with
        | some err =>
          left
          refine ⟨hskips, fun h => ?_, err, _, .device hpv, ?_⟩
          · have := h.2.2.1
            rw [hdevice] at this
            simp at this
          · unfold reconcile
            rw [if_neg hskips, if_neg hpv, hattach, hdevice]
            exact setPhase_phase rfl
        | none =>
          have heq := reconcile_mounting cfg hskips hpv hattach hdevice
          cases hmount : mountFailure (cfg.mountPath assign.dataset assign.version.id) o with
          | some err =>
            left
            refine ⟨hskips, fun h => ?_, err, _, .mount hpv, ?_⟩
            · have := h.2.2.2
              rw [hmount] at this
              simp at this
            · rw [heq, hmount]
              exact setPhase_phase rfl
          | none =>
            right
            have hmounts : Mounts cfg assign o := ⟨hpv, hattach, hdevice, hmount⟩
            rw [heq, hmount]
            cases hwrite : o.writeCatalog with
            | some err =>
              left
              refine ⟨hskips, hmounts, fun h => ?_, err, .inl ?_⟩
              · have := h.2.1
                rw [hwrite] at this
                simp at this
              · exact setPhase_phase rfl
            | none =>
              unfold writeCatalog
              dsimp only
              rw [catalogEntries_mounting]
              cases hversion : o.waitForVersion with
              | some err =>
                left
                refine ⟨hskips, hmounts, fun h => ?_, err, .inr ?_⟩
                · have := h.2.2
                  rw [hversion] at this
                  simp at this
                · exact setPhase_phase rfl
              | none =>
                right
                refine ⟨hskips, ⟨hmounts, hwrite, hversion⟩, ?_⟩
                have hactive : (((mounting cfg assign true a).insert (activeRecord cfg assign))).datasets
                    = (a.insert (activeRecord cfg assign)).datasets := insert_insert a rfl
                unfold promoted
                rw [← hactive]
                rfl

/-! ### Runs -/

/-- The agents of the runs in which every reconcile is allowed; the assignments of a response
are reconciled one after another, and nothing happens to the records in between. -/
inductive Reached (cfg : Config) (allowed : Agent → NodeAssignment → Outcomes → Prop) : Agent → Prop where
  | new : Reached cfg allowed new
  | reconcile {a} (assign : NodeAssignment) (o : Outcomes) : Reached cfg allowed a →
      allowed a assign o → Reached cfg allowed (a.reconcile cfg assign o)

/-- A reconcile keeps one record for each dataset. -/
theorem OneRecord.reconcile {a : Agent} (h : a.OneRecord) (cfg : Config) (assign : NodeAssignment)
    (o : Outcomes) :
  (a.reconcile cfg assign o).OneRecord
  := by
  rcases reconcile_cases cfg assign o a with ⟨-, heq⟩ | ⟨-, -, err, events, -, heq⟩
    | ⟨-, -, -, err, heq | heq⟩ | ⟨-, -, heq⟩
  · rw [heq]
    exact h
  · rw [heq]
    exact h.insert _
  · rw [heq]
    exact h.insert _
  · rw [heq]
    exact h.insert _
  · rw [heq]
    split
    · rw [cleanupOldVersion_eq]
      exact h.insert _
    · exact h.insert _

theorem Reached.oneRecord {cfg : Config} {allowed : Agent → NodeAssignment → Outcomes → Prop}
    {a : Agent} (h : Reached cfg allowed a) :
  a.OneRecord
  := by
  induction h with
  | new => exact List.nodup_nil
  | reconcile assign o _ _ ih => exact ih.reconcile cfg assign o

end Agent

end NodeAgent
