import Mcfreeze.ControlPlane.Versions
import Mathlib.Data.List.Sort
import Mathlib.Algebra.Order.Ring.Int

/-!
# The controllers of a cluster

Three controllers work on the versions of a dataset: `DatasetReconciler`
(`controller/datasetspec.go`) makes sure that a dataset has a version and removes the retired
versions in excess of its retention, `CronRunnable` (`controller/cron.go`) creates a version
when the schedule of a dataset fires, and `DatasetVersionReconciler` drives every version
through its life.  Here they run over one cluster, with the datasets, the versions and the
volume attachments that the agents make.

The cluster keeps a history of what the controllers did, for the statements about runs; no
controller reads it.
-/

namespace ControlPlane

open Crash Prog

/-! ### The cluster -/

/-- A dataset, with what its reconciler reads. -/
structure DatasetObject where
  name : String
  shardCount : Int
  retention : Int
  activeVersion : String
  deriving DecidableEq, Repr

/-- What a controller did: the dataset reconciler listed the versions of a dataset; a version
was created automatically, beside the others that were there; the volume attachments were
listed, with the volumes they name; a volume was deleted; a version was deleted. -/
inductive Event where
  | listedVersions (ds : DatasetObject) (items : List DatasetVersion)
  | created (v : DatasetVersion) (others : List DatasetVersion)
  | listedAttachments (sources : List (Option String))
  | deletedPV (pvName : String)
  | deletedVersion (v : DatasetVersion)
  deriving DecidableEq, Repr

/-- The objects in the API server, and the history, with the last event first.  An attachment
is the name of the persistent volume that is its source, if it has one. -/
structure ApiServer where
  datasets : List DatasetObject
  versions : List DatasetVersion
  attachments : List (Option String)
  history : List Event

/-- A program over the cluster. -/
abbrev Control (α : Type) := Prog ApiServer String Empty α

namespace ApiServer

/-- The versions of a cluster. -/
def versionsPart : Parts Unit ApiServer (List DatasetVersion) where
  get _ s := s.versions
  put _ versions s := { s with versions }
  get_put _ _ _ := rfl
  put_get _ _ := rfl
  get_put_ne _ _ _ _ h := absurd rfl h

/-- A program over the versions. -/
def onVersions {α : Type} (p : Api α) : Control α :=
  p.lift versionsPart ()

def getDataset (name : String) : Control (Option DatasetObject) := do
  let s ← read
  return s.datasets.find? (·.name = name)

/-- List the versions with the label of a dataset, in any order. -/
def listVersions (ds : DatasetObject) : Control (List DatasetVersion) := do
  let k ← pick
  atomic fun s =>
    let items := s.versions.filter (·.datasetLabel = ds.name)
    let items := items.permutations.getD k items
    .ok (items, { s with history := .listedVersions ds items :: s.history })

/-- Create a version; a name that is taken is no error. -/
def create (v : DatasetVersion) : Control Unit :=
  modify fun s =>
    if s.versions.any (·.name = v.name) then s
    else { s with versions := v :: s.versions, history := .created v s.versions :: s.history }

/-- The cluster without a version. -/
def deleted (name : String) (s : ApiServer) : ApiServer :=
  match s.versions.find? (·.name = name) with
  | none => s
  | some v =>
    { s with
      versions := s.versions.filter (·.name ≠ name)
      history := .deletedVersion v :: s.history }

/-- Delete a version; one that is gone is no error. -/
def delete (name : String) : Control Unit :=
  modify (deleted name)

def listAttachments : Control (List (Option String)) :=
  atomic fun s => .ok (s.attachments, { s with history := .listedAttachments s.attachments :: s.history })

/-- Delete a volume; one that is gone is no error. -/
def deletePV (pvName : String) : Control Unit :=
  modify fun s => { s with history := .deletedPV pvName :: s.history }

/-! ### The dataset reconciler -/

/-- The name of a version object. -/
def versionCRName (dataset versionID : String) : String :=
  dataset ++ "-" ++ versionID

/-- The version that a controller creates for a dataset. -/
def newVersion (ds : DatasetObject) (versionID : String) (now : Int) : DatasetVersion :=
  .new (versionCRName ds.name versionID) ds.name versionID ds.shardCount now

/-- The spaces that `fmt` skips before a number; a newline is not among them. -/
def isScanSpace (c : Char) : Bool :=
  c.toNat ∈ [9, 11, 12, 13, 32, 0x85, 0xa0, 0x1680, 0x2028, 0x2029, 0x202f, 0x205f, 0x3000]
    ∨ 0x2000 ≤ c.toNat ∧ c.toNat ≤ 0x200a

/-- The number that `fmt.Sscanf` finds with the format `v%d`; what follows it is not looked
at, and a number that does not fit 64 bits is an error. -/
def scanVersion (versionID : String) : Option Int :=
  match versionID.toList with
  | 'v' :: rest =>
    let (sign, rest) : Int × List Char :=
      match rest.dropWhile isScanSpace with
      | '-' :: rest => (-1, rest)
      | '+' :: rest => (1, rest)
      | rest => (1, rest)
    let digits := rest.takeWhile (·.isDigit)
    let n := sign * digits.foldl (fun n c => 10 * n + (c.toNat - 48 : Nat)) 0
    if digits = [] ∨ n < -2 ^ 63 ∨ 2 ^ 63 ≤ n then none else some n
  | _ => none

/-- One more than the highest number of a version, as a 64-bit integer. -/
def nextVersion (versions : List DatasetVersion) : Int :=
  let highest := versions.foldl (fun highest v =>
    match scanVersion v.versionID with
    | some n => if n > highest then n else highest
    | none => highest) 0
  (highest + 1).bmod (2 ^ 64)

/-- The states in which a version keeps the dataset from getting another one. -/
def keepsDataset (v : DatasetVersion) : Bool :=
  match v.state with
  | some .building | some .active | some .ready | some .failed => true
  | _ => false

/-- Create a version, unless there is one already. -/
def ensureVersion (ds : DatasetObject) (now : Int) (versions : List DatasetVersion) : Control Unit :=
  if versions.any keepsDataset then return ()
  else create (newVersion ds ("v" ++ toString (nextVersion versions)) now)

/-- The retired versions of a list. -/
def retiredVersions (versions : List DatasetVersion) : List DatasetVersion :=
  versions.filter (·.state = some .retired)

/-- Delete the oldest retired versions in excess of the retention. -/
def enforceRetention (ds : DatasetObject) (versions : List DatasetVersion) : Control Unit :=
  if ds.retention ≤ 0 then return ()
  else
    let retired := retiredVersions versions
    if retired.length ≤ ds.retention then return ()
    else
      let sorted := retired.insertionSort fun v w => v.creationTimestamp ≤ w.creationTimestamp
      (sorted.take (retired.length - ds.retention.toNat)).forM fun v => delete v.name

/-- Record the active version in the status of the dataset. -/
def patchAggregateStatus (ds : DatasetObject) (versions : List DatasetVersion) : Control Unit :=
  let active := ((versions.find? (·.state = some .active)).map (·.versionID)).getD ""
  if ds.activeVersion = active then return ()
  else
    atomic fun s =>
      if s.datasets.any (·.name = ds.name) then
        .ok ((), { s with datasets := s.datasets.map fun d =>
          if d.name = ds.name then { d with activeVersion := active } else d })
      else .error ("datasets " ++ ds.name ++ " not found")

/-- Reconcile a dataset; `sync` is what the cron table answers, and `now` the time at which the
API server creates a version. -/
def reconcileDataset (name : String) (sync : Option String) (now : Int) : Control Result := do
  match ← getDataset name with
  | none => return {}
  | some ds =>
    match sync with
    | some err => throw err
    | none => do
      let versions ← listVersions ds
      ensureVersion ds now versions
      enforceRetention ds versions
      patchAggregateStatus ds versions
      return {}

/-! ### The cron table -/

/-- Create a version for a tick, or to catch up, unless one is building.  The dataset is as it
was when the entry was made. -/
def fire (ds : DatasetObject) (versionID : String) (now : Int) : Control Result := do
  let siblings ← onVersions (ControlPlane.listVersions ds.name)
  if siblings.any (·.state = some .building) then return {}
  else
    create (newVersion ds versionID now)
    return {}

/-! ### The version reconciler -/

/-- Delete the volume and the version, when the volume is attached nowhere. -/
def reconcileRetired (r : Reconciler) (v : DatasetVersion) : Control Result :=
  if v.pvName = "" then do
    delete v.name
    return {}
  else do
    let sources ← listAttachments
    if some v.pvName ∈ sources then return { requeueAfter := 30 }
    else if r.hasVolume then do
      deletePV v.pvName
      delete v.name
      return {}
    else do
      delete v.name
      return {}

/-- Look for the parent of a version whose build has not been started. -/
def parentDataset (v : DatasetVersion) : Control ParentDataset :=
  if v.buildJob = "" then do
    match ← getDataset v.dataset with
    | some _ => return .found
    | none => return .notFound
  else return .found

/-- Advance a version by one step.  The answers of the API server come from the cluster, and
those of the builder and the file system from `ans`. -/
def reconcileVersion (r : Reconciler) (name : String) (ans : Answers) : Control Result := do
  match ← onVersions (getVersion name) with
  | none => return {}
  | some v =>
    match v.state.getD .building with
    | .building => do
      let dataset ← parentDataset v
      onVersions (reconcileBuilding r { ans with dataset } v)
    | .ready => onVersions (reconcileReady v)
    | .active => return {}
    | .retired => reconcileRetired r v
    | .failed => onVersions (reconcileFailed ans)

/-! ### Calls that are not disturbed -/

theorem run_onVersions {α : Type} (k : Nat) (p : Api α) (s : ApiServer) :
  (onVersions p).run k s = ((p.run k s.versions).1, { s with versions := (p.run k s.versions).2 })
  := by
  unfold onVersions
  induction p generalizing s with
  | done r => rfl
  | op update next ih => apply ih s.versions { s with versions := update s.versions }
  | choose next ih => apply ih k s
  | phase c => exact c.elim

/-- The answers of the API server to a call about a version. -/
def answersIn (s : ApiServer) (name : String) (ans : Answers) : Answers :=
  { ans with
    dataset :=
      match s.versions.find? (·.name = name) with
      | some v => if v.buildJob = "" ∧ ¬ s.datasets.any (·.name = v.dataset) then .notFound else .found
      | none => .found
    attachments := .ok (s.attachments.filterMap id)
    deletePV := none }

/-- The dataset of a version is looked up only for a version without a build Job. -/
theorem run_parentDataset (v : DatasetVersion) (k : Nat) (s : ApiServer) :
  (parentDataset v).run k s
    = (.ok (if v.buildJob = "" ∧ ¬ s.datasets.any (·.name = v.dataset) then .notFound else .found), s)
  := by
  unfold parentDataset
  split
  · next hjob =>
    cases hfind : s.datasets.find? (·.name = v.dataset) with
    | none =>
      have hany : s.datasets.any (·.name = v.dataset) = false := by
        rw [List.any_eq_false]
        intro d hd
        simpa using List.find?_eq_none.mp hfind d hd
      rw [run_bind]
      change ((match s.datasets.find? (·.name = v.dataset) with
        | some _ => pure .found | none => pure .notFound : Control ParentDataset)).run k s = _
      rw [hfind, hany]
      simp [hjob]
      rfl
    | some d =>
      have hany : s.datasets.any (·.name = v.dataset) = true := by
        rw [List.any_eq_true]
        have hd := List.find?_some hfind
        exact ⟨d, List.mem_of_find?_eq_some hfind, hd⟩
      rw [run_bind]
      change ((match s.datasets.find? (·.name = v.dataset) with
        | some _ => pure .found | none => pure .notFound : Control ParentDataset)).run k s = _
      rw [hfind, hany]
      simp
      rfl
  · next hjob =>
    simp [hjob]
    rfl

/-- Either there is no such version, or it is gone and its deletion is recorded. -/
theorem deleted_cases (name : String) (s : ApiServer) :
  ((∀ v ∈ s.versions, v.name ≠ name) ∧ deleted name s = s)
    ∨ ∃ v ∈ s.versions, v.name = name
      ∧ deleted name s =
        { s with
          versions := s.versions.filter (·.name ≠ name)
          history := .deletedVersion v :: s.history }
  := by
  unfold deleted
  cases hfind : s.versions.find? (·.name = name) with
  | none =>
    left
    refine ⟨?_, rfl⟩
    intro v hv
    simpa using List.find?_eq_none.mp hfind v hv
  | some v =>
    right
    have hname := List.find?_some hfind
    exact ⟨v, List.mem_of_find?_eq_some hfind, by simpa using hname, rfl⟩

theorem versions_deleted (name : String) (s : ApiServer) :
  (deleted name s).versions = s.versions.filter (·.name ≠ name)
  := by
  obtain ⟨hnone, heq⟩ | ⟨v, -, -, heq⟩ := deleted_cases name s
  · rw [heq]
    symm
    apply List.filter_eq_self.mpr
    simpa using hnone
  · rw [heq]

/-- Deleting a version and returning is the same in both models. -/
theorem run_delete_return (name : String) (k : Nat) (s : ApiServer) (result : Result) :
  let p : Control Result := do
    delete name
    return result
  let q : Api Result := do
    deleteVersion name
    return result
  (p.run k s).1 = (q.run k s.versions).1 ∧ (p.run k s).2.versions = (q.run k s.versions).2
  :=
  ⟨rfl, versions_deleted name s⟩

/-- The reconcile of a retired version does the same to the versions as the one with its
answers given. -/
theorem run_reconcileRetired (r : Reconciler) (v : DatasetVersion) (name : String) (ans : Answers) (k : Nat)
    (s : ApiServer) :
  ((reconcileRetired r v).run k s).1
      = ((ControlPlane.reconcileRetired r (answersIn s name ans) v).run k s.versions).1
    ∧ ((reconcileRetired r v).run k s).2.versions
      = ((ControlPlane.reconcileRetired r (answersIn s name ans) v).run k s.versions).2
  := by
  unfold reconcileRetired ControlPlane.reconcileRetired
  by_cases hpv : v.pvName = ""
  · rw [if_pos hpv]
    simp only [hpv, ne_eq, not_true_eq_false, if_false, false_and, List.not_mem_nil]
    apply run_delete_return
  · rw [if_neg hpv]
    simp only [hpv, ne_eq, not_false_eq_true, if_true, true_and]
    rw [run_bind]
    change ((ite (some v.pvName ∈ s.attachments) _ _ : Control Result).run k
      { s with history := .listedAttachments s.attachments :: s.history }).1 = _ ∧ 
      ((ite (some v.pvName ∈ s.attachments) _ _ : Control Result).run k
      { s with history := .listedAttachments s.attachments :: s.history }).2.versions = _
    have hmem : v.pvName ∈ s.attachments.filterMap id ↔ some v.pvName ∈ s.attachments := by simp
    by_cases hattached : some v.pvName ∈ s.attachments
    · simp only [answersIn, hmem, if_pos hattached]
      exact ⟨rfl, rfl⟩
    · simp only [answersIn, hmem, if_neg hattached, ite_self]
      by_cases hvolume : r.hasVolume
      · simp only [hvolume, if_true]
        apply run_delete_return v.name k
          { s with history := .deletedPV v.pvName :: .listedAttachments s.attachments :: s.history }
      · simp only [hvolume]
        apply run_delete_return

/-- A call that is not disturbed does to the versions what `ControlPlane.reconcile` does with
the answers of the API server. -/
theorem run_reconcileVersion (r : Reconciler) (name : String) (ans : Answers) (k : Nat) (s : ApiServer) :
  ((reconcileVersion r name ans).run k s).1 = ((reconcile r name (answersIn s name ans)).run k s.versions).1
    ∧ ((reconcileVersion r name ans).run k s).2.versions
      = ((reconcile r name (answersIn s name ans)).run k s.versions).2
  := by
  unfold reconcileVersion reconcile
  rw [run_bind, run_bind, run_onVersions]
  have hget : ∀ vs, (getVersion name).run k vs = (.ok (vs.find? (·.name = name)), vs) := fun _ => rfl
  rw [hget]
  dsimp only
  cases hfind : s.versions.find? (·.name = name) with
  | none => exact ⟨rfl, rfl⟩
  | some v =>
    dsimp only
    cases hstate : v.state.getD .building with
    | building =>
      dsimp only
      rw [run_bind, run_parentDataset]
      dsimp only
      rw [run_onVersions]
      have hanswers : (answersIn s name ans).dataset
          = if v.buildJob = "" ∧ ¬ s.datasets.any (·.name = v.dataset) then .notFound else .found := by
        simp only [answersIn, hfind]
      have heq : reconcileBuilding r (answersIn s name ans) v
          = reconcileBuilding r { ans with dataset := (answersIn s name ans).dataset } v := rfl
      rw [heq, hanswers]
      exact ⟨rfl, rfl⟩
    | ready =>
      dsimp only
      rw [run_onVersions]
      exact ⟨rfl, rfl⟩
    | active => exact ⟨rfl, rfl⟩
    | retired =>
      apply run_reconcileRetired
    | failed =>
      dsimp only
      rw [run_onVersions]
      exact ⟨rfl, rfl⟩

/-! ### Calls and the world outside -/

/-- A call of one of the controllers. -/
inductive Call where
  | dataset (name : String) (sync : Option String) (now : Int)
  | version (name : String) (ans : Answers)
  | fire (ds : DatasetObject) (versionID : String) (now : Int)

def Call.program (r : Reconciler) : Call → Control Result
  | .dataset name sync now => reconcileDataset name sync now
  | .version name ans => reconcileVersion r name ans
  | .fire ds versionID now => ApiServer.fire ds versionID now

/-- What others do: a user triggers a build, deletes a version or edits the datasets, and the
agents attach and detach volumes. -/
inductive Outside where
  | create (ds : DatasetObject) (versionID : String) (now : Int)
  | delete (name : String)
  | edit (datasets : List DatasetObject)
  | attach (attachments : List (Option String))

def Outside.apply (o : Outside) (s : ApiServer) : ApiServer :=
  match o with
  | .create ds versionID now =>
    let v := newVersion ds versionID now
    if s.versions.any (·.name = v.name) then s else { s with versions := v :: s.versions }
  | .delete name => { s with versions := s.versions.filter (·.name ≠ name) }
  | .edit datasets => { s with datasets }
  | .attach attachments => { s with attachments }

/-- The program of a call, or of what is done from outside. -/
def perform (r : Reconciler) : Call ⊕ Outside → Control Result
  | .inl c => c.program r
  | .inr o => do
    modify o.apply
    return {}

/-- No versions, and nothing done. -/
def Blank (s : ApiServer) : Prop :=
  s.versions = [] ∧ s.history = []

/-- The cluster after some commands that are all completed. -/
def after (r : Reconciler) (commands : List (Call ⊕ Outside)) (s : ApiServer) : ApiServer :=
  commands.foldl (fun s c => ((perform r c).run 0 s).2) s

/-- An empty cluster. -/
def blank : ApiServer := ⟨[], [], [], []⟩

/-- The dataset `users`, which keeps one retired version. -/
def users : DatasetObject := ⟨"users", 1, 1, ""⟩

end ApiServer

end ControlPlane
