import Mcfreeze.Lib.Exec
import Mcfreeze.ControlPlane.Resources
import Mathlib.Data.List.Permutation

/-!
# The life of a version

`DatasetVersionReconciler` (`controller/datasetversion.go`) takes a version from its creation
over `building` and `ready` to `active`, and retires the version that was active before.  A
promotion is a sequence of status patches, first of the siblings that are demoted and then of
the version itself; any of them can fail, and the process can die between two of them.

At every point each dataset has at most one active version, and a promotion that died after a
demotion is completed when it is run again.
-/

namespace ControlPlane

open Crash Prog

/-! ### The API server -/

/-- A program over the versions in the API server, which is watched in one namespace. -/
abbrev Api (α : Type) := Prog (List DatasetVersion) String Empty α

/-- Get a version by its name. -/
def getVersion (name : String) : Api (Option DatasetVersion) := do
  let versions ← read
  return versions.find? (·.name = name)

/-- List the versions with the label of a dataset, in any order. -/
def listVersions (dataset : String) : Api (List DatasetVersion) := do
  let versions ← read
  let k ← pick
  let items := versions.filter (·.datasetLabel = dataset)
  return items.permutations.getD k items

/-- Change a version by its name. -/
def changeVersion (name : String) (change : DatasetVersion → DatasetVersion)
    (versions : List DatasetVersion) : List DatasetVersion :=
  versions.map fun v => if v.name = name then change v else v

/-- A status patch; it carries the fields that change, and fails if the version is gone. -/
def patchStatus (name : String) (change : DatasetVersion → DatasetVersion) : Api Unit :=
  atomic fun versions =>
    if versions.any (·.name = name) then .ok ((), changeVersion name change versions)
    else .error ("datasetversions " ++ name ++ " not found")

/-- Delete a version; one that is gone is no error. -/
def deleteVersion (name : String) : Api Unit :=
  modify fun versions => versions.filter (·.name ≠ name)

/-! ### The reconciler -/

/-- The configuration of the reconciler; `buildTimeout` is in seconds. -/
structure Reconciler where
  hasVolume : Bool := true
  volumeBase : String := ""
  buildTimeout : Int := 0

/-- Thirty minutes. -/
def defaultBuildTimeout : Int := 30 * 60

/-- Whether and when to call again, in seconds. -/
structure Result where
  requeue : Bool := false
  requeueAfter : Int := 0
  deriving DecidableEq, Repr

/-- What is known of a build. -/
inductive BuildStatus where
  | running
  | complete (snapshotPath pvName : String)
  | failed (error : String)
  | notFound

/-- How the parent dataset is found. -/
inductive ParentDataset where
  | found
  | notFound
  | failed (error : String)

/-- What the rest of the world answers during one call of `Reconcile`: the time, the parent
dataset, the builder, the file system, the volumes that are attached, and the volume manager. -/
structure Answers where
  now : Int
  dataset : ParentDataset
  start : Except String String
  poll : Except String BuildStatus
  symlink : Option String
  metaJson : Option String
  attachments : Except String (List String)
  deletePV : Option String
  cancel : Option String

/-- Fail a version. -/
def markFailed (v : DatasetVersion) (reason : String) : Api Result := do
  patchStatus v.name fun v => { v with state := some .failed, error := reason }
  return {}

/-- Start the build of a version. -/
def startBuild (ans : Answers) (v : DatasetVersion) : Api Result :=
  match ans.dataset with
  | .notFound => markFailed v ("parent Dataset \"" ++ v.dataset ++ "\" not found")
  | .failed err => throw err
  | .found =>
    match ans.start with
    | .error err => markFailed v ("start build: " ++ err)
    | .ok handle => do
      patchStatus v.name fun v => { v with state := some .building, buildJob := handle }
      return { requeueAfter := 5 }

/-- Record the snapshot of a build that is complete. -/
def completeBuild (r : Reconciler) (ans : Answers) (v : DatasetVersion) (snapPath pvName : String) :
    Api Result :=
  let linked := if pvName = "" then "pv-" ++ v.dataset ++ "-" ++ v.versionID else pvName
  match if pvName = "" ∧ r.volumeBase ≠ "" then ans.symlink else none with
  | some err => markFailed v ("symlink pv: " ++ err)
  | none => do
    let metaJSON := if snapPath ≠ "" then ans.metaJson.getD "" else ""
    patchStatus v.name fun v =>
      { v with
        state := some .ready
        pvName := linked
        snapshotPath := snapPath
        snapshotMeta := if metaJSON ≠ "" then metaJSON else v.snapshotMeta }
    return { requeue := true }

/-- Start the build, or see how far it is. -/
def reconcileBuilding (r : Reconciler) (ans : Answers) (v : DatasetVersion) : Api Result :=
  if v.buildJob = "" then startBuild ans v
  else
    let timeout := if r.buildTimeout = 0 then defaultBuildTimeout else r.buildTimeout
    if v.creationTimestamp ≠ 0 ∧ ans.now - v.creationTimestamp > timeout then
      markFailed v "build timeout exceeded"
    else
      match ans.poll with
      | .error err => throw err
      | .ok .running => return { requeueAfter := 5 }
      | .ok (.complete snapPath pvName) => completeBuild r ans v snapPath pvName
      | .ok (.failed err) => markFailed v err
      | .ok .notFound => markFailed v "build handle not found; orphaned"

/-- Demote a sibling that is active. -/
def demote (v s : DatasetVersion) : Api Unit :=
  if s.name = v.name ∨ s.state ≠ some .active then return ()
  else patchStatus s.name fun s => { s with state := some .retired }

/-- Demote the active siblings, and promote the version. -/
def reconcileReady (v : DatasetVersion) : Api Result := do
  let siblings ← listVersions v.dataset
  siblings.forM (demote v)
  patchStatus v.name fun v => { v with state := some .active }
  return {}

/-- Delete the volume and the version, when the volume is attached nowhere. -/
def reconcileRetired (r : Reconciler) (ans : Answers) (v : DatasetVersion) : Api Result :=
  match if v.pvName ≠ "" then ans.attachments else .ok [] with
  | .error err => throw err
  | .ok attached =>
    if v.pvName ∈ attached then return { requeueAfter := 30 }
    else
      match if v.pvName ≠ "" ∧ r.hasVolume then ans.deletePV else none with
      | some err => throw err
      | none => do
        deleteVersion v.name
        return {}

/-- Clean up what a failed build left; the version stays. -/
def reconcileFailed (ans : Answers) : Api Result :=
  match ans.cancel with
  | some _ => return { requeueAfter := 10 }
  | none => return {}

/-- Advance a version by one step. -/
def reconcile (r : Reconciler) (name : String) (ans : Answers) : Api Result := do
  match ← getVersion name with
  | none => return {}
  | some v =>
    match v.state.getD .building with
    | .building => reconcileBuilding r ans v
    | .ready => reconcileReady v
    | .active => return {}
    | .retired => reconcileRetired r ans v
    | .failed => reconcileFailed ans

/-! ### Runs -/

/-- A call of `Reconcile`, and what others do to the versions. -/
inductive Request where
  | reconcile (name : String) (ans : Answers)
  | create (name dataset versionID : String) (shardCount creationTimestamp : Int)
  | delete (name : String)

/-- Create a version; a name that is taken is refused. -/
def createVersion (v : DatasetVersion) : Api Result := do
  modify fun versions => if versions.any (·.name = v.name) then versions else v :: versions
  return {}

/-- The program of a request. -/
def handle (r : Reconciler) : Request → Api Result
  | .reconcile name ans => reconcile r name ans
  | .create name dataset versionID shardCount creationTimestamp =>
    createVersion (.new name dataset versionID shardCount creationTimestamp)
  | .delete name => do
    deleteVersion name
    return {}

/-- The sessions of requests, one after the other, from an empty cluster; calls can fail, and
the process can die. -/
abbrev VersionsReachable (r : Reconciler) :
    Session (List DatasetVersion) String Empty Result Request → List DatasetVersion → Prop :=
  Crash.Reachable (.none _) (handle r) (· = []) fun _ _ _ => True

/-- The active versions of a dataset. -/
def activeVersions (dataset : String) (versions : List DatasetVersion) : List DatasetVersion :=
  versions.filter fun v => v.state = some .active ∧ v.dataset = dataset

/-! ### The invariant -/

/-- The names are distinct, every version has the label of its dataset, and two active
versions of a dataset have the same name. -/
structure VersionsInv (versions : List DatasetVersion) : Prop where
  names : (versions.map (·.name)).Nodup
  labels : ∀ v ∈ versions, v.datasetLabel = v.dataset
  active : ∀ v ∈ versions, ∀ w ∈ versions, v.state = some .active → w.state = some .active →
    v.dataset = w.dataset → v.name = w.name

section

variable {versions : List DatasetVersion} {name : String} {change : DatasetVersion → DatasetVersion}

theorem VersionsInv.eq_of_name (h : VersionsInv versions) {v w : DatasetVersion}
    (hv : v ∈ versions) (hw : w ∈ versions) (hname : v.name = w.name) :
  v = w
  :=
  List.inj_on_of_nodup_map h.names hv hw hname

/-- A dataset has at most one active version. -/
theorem VersionsInv.length_le_one (h : VersionsInv versions) (dataset : String) :
  (activeVersions dataset versions).length ≤ 1
  := by
  have hnodup : (activeVersions dataset versions).Nodup := (List.Nodup.of_map _ h.names).filter _
  have heq : ∀ v ∈ activeVersions dataset versions, ∀ w ∈ activeVersions dataset versions, v = w := by
    intro v hv w hw
    obtain ⟨hv, hv'⟩ := List.mem_filter.mp hv
    obtain ⟨hw, hw'⟩ := List.mem_filter.mp hw
    obtain ⟨hvactive, hvdataset⟩ := of_decide_eq_true hv'
    obtain ⟨hwactive, hwdataset⟩ := of_decide_eq_true hw'
    exact h.eq_of_name hv hw (h.active v hv w hw hvactive hwactive (hvdataset.trans hwdataset.symm))
  match hl : activeVersions dataset versions with
  | [] => simp
  | [_] => simp
  | v :: w :: rest =>
    rw [hl] at hnodup heq
    have hvw : v = w := heq v List.mem_cons_self w (List.mem_cons_of_mem _ List.mem_cons_self)
    rw [hvw] at hnodup
    simp at hnodup

/-- A patch keeps what makes a version. -/
structure KeepsIdentity (change : DatasetVersion → DatasetVersion) : Prop where
  name : ∀ v, (change v).name = v.name
  datasetLabel : ∀ v, (change v).datasetLabel = v.datasetLabel
  dataset : ∀ v, (change v).dataset = v.dataset

/-- A version of the changed list was changed, or has another name. -/
theorem mem_changeVersion {w : DatasetVersion} :
  w ∈ changeVersion name change versions
    ↔ (∃ v ∈ versions, v.name = name ∧ change v = w) ∨ (w ∈ versions ∧ w.name ≠ name)
  := by
  unfold changeVersion
  rw [List.mem_map]
  constructor
  · rintro ⟨v, hv, rfl⟩
    by_cases hname : v.name = name
    · rw [if_pos hname]
      exact .inl ⟨v, hv, hname, rfl⟩
    · rw [if_neg hname]
      exact .inr ⟨hv, hname⟩
  · rintro (⟨v, hv, hname, rfl⟩ | ⟨hw, hname⟩)
    · exact ⟨v, hv, if_pos hname⟩
    · exact ⟨w, hw, if_neg hname⟩

theorem names_changeVersion (hname : ∀ v, (change v).name = v.name) :
  (changeVersion name change versions).map (·.name) = versions.map (·.name)
  := by
  unfold changeVersion
  rw [List.map_map]
  apply List.map_congr_left
  intro v _
  by_cases hv : v.name = name
  · simp [hv, hname]
  · simp [hv]

/-- A patch neither adds nor removes a version. -/
theorem any_changeVersion {other : String} (hname : ∀ v, (change v).name = v.name) :
  (changeVersion name change versions).any (·.name = other) = versions.any (·.name = other)
  := by
  unfold changeVersion
  rw [List.any_map]
  congr 1
  funext v
  by_cases hv : v.name = name
  · simp [hv, hname]
  · simp [hv]

/-- A patch keeps the invariant, if a version that it makes active is the only one of its
dataset. -/
theorem VersionsInv.patched (h : VersionsInv versions) (hkeeps : KeepsIdentity change)
    (hactive : ∀ v ∈ versions, v.name = name → (change v).state = some .active →
      ∀ w ∈ versions, w.name ≠ name → w.dataset = v.dataset → w.state ≠ some .active) :
  VersionsInv (changeVersion name change versions)
  := by
  refine ⟨?_, ?_, ?_⟩
  · rw [names_changeVersion hkeeps.name]
    exact h.names
  · intro w hw
    rcases mem_changeVersion.mp hw with ⟨v, hv, -, rfl⟩ | ⟨hw, -⟩
    · rw [hkeeps.datasetLabel, hkeeps.dataset]
      exact h.labels v hv
    · exact h.labels w hw
  · intro v hv w hw hvactive hwactive hdataset
    rcases mem_changeVersion.mp hv with ⟨v, hv', hvname, rfl⟩ | ⟨hv', hvname⟩
    · rcases mem_changeVersion.mp hw with ⟨w, hw', hwname, rfl⟩ | ⟨hw', hwname⟩
      · rw [hkeeps.name, hkeeps.name, hvname, hwname]
      · rw [hkeeps.dataset] at hdataset
        exact absurd hwactive (hactive v hv' hvname hvactive w hw' hwname hdataset.symm)
    · rcases mem_changeVersion.mp hw with ⟨w, hw', hwname, rfl⟩ | ⟨hw', hwname⟩
      · rw [hkeeps.dataset] at hdataset
        exact absurd hvactive (hactive w hw' hwname hwactive v hv' hvname hdataset)
      · exact h.active v hv' w hw' hvactive hwactive hdataset

/-- Removing versions keeps the invariant. -/
theorem VersionsInv.filter (h : VersionsInv versions) (p : DatasetVersion → Bool) :
  VersionsInv (versions.filter p)
  where
  names := h.names.sublist (List.filter_sublist.map _)
  labels v hv := h.labels v (List.mem_of_mem_filter hv)
  active v hv w hw := h.active v (List.mem_of_mem_filter hv) w (List.mem_of_mem_filter hw)

/-- A new version keeps the invariant. -/
theorem VersionsInv.create (h : VersionsInv versions) {v : DatasetVersion}
    (hlabel : v.datasetLabel = v.dataset) (hstate : v.state = none) :
  VersionsInv (if versions.any (·.name = v.name) then versions else v :: versions)
  := by
  split
  · exact h
  · next hnew =>
    have hfresh : ∀ w ∈ versions, w.name ≠ v.name := by
      simpa using hnew
    refine ⟨?_, ?_, ?_⟩
    · rw [List.map_cons, List.nodup_cons]
      refine ⟨?_, h.names⟩
      intro hmem
      obtain ⟨w, hw, hname⟩ := List.mem_map.mp hmem
      exact hfresh w hw hname
    · intro w hw
      rcases List.mem_cons.mp hw with rfl | hw
      · exact hlabel
      · exact h.labels w hw
    · intro w hw w' hw' hactive hactive'
      rcases List.mem_cons.mp hw with rfl | hw
      · rw [hstate] at hactive
        simp at hactive
      · rcases List.mem_cons.mp hw' with rfl | hw'
        · rw [hstate] at hactive'
          simp at hactive'
        · exact h.active w hw w' hw' hactive hactive'

/-! ### One call -/

/-- What a listing returns is a permutation of what it lists. -/
theorem permutations_getD (items : List DatasetVersion) (k : Nat) :
  (items.permutations.getD k items).Perm items
  := by
  rw [List.getD_eq_getElem?_getD]
  cases hk : items.permutations[k]? with
  | none => exact .refl _
  | some l => exact List.mem_permutations.mp (List.mem_of_getElem? hk)

/-- Only the named version has changed. -/
def OthersUnchanged (name : String) (before versions : List DatasetVersion) : Prop :=
  ∀ w ∈ versions, w.name ≠ name → ∃ v ∈ before, v.name = w.name ∧ v.state = w.state

/-- The named version is about to be promoted, or was. -/
def Promoting (name : String) (versions : List DatasetVersion) : Prop :=
  ∃ v ∈ versions, v.name = name ∧ (v.state = some .ready ∨ v.state = some .active)

/-- What holds at every point of a call that started with the versions `before`: other
versions change only while the named one is promoted. -/
structure During (name : String) (before versions : List DatasetVersion) : Prop where
  inv : VersionsInv versions
  others : OthersUnchanged name before versions ∨ Promoting name versions

theorem VersionsInv.during (h : VersionsInv versions) (name : String) :
  During name versions versions
  :=
  ⟨h, .inl fun w hw _ => ⟨w, hw, rfl, rfl⟩⟩

section

variable {I : List DatasetVersion → Prop} {P : Phases Empty (List DatasetVersion)}

theorem wp_getVersion {Q : Option DatasetVersion → List DatasetVersion → Prop} (hI : I versions)
    (hQ : Q (versions.find? (·.name = name)) versions) :
  wp P I Q (getVersion name) versions
  := by
  apply wp_bind
  apply wp_read hI
  exact wp_pure hI hQ

/-- The list has the versions with the label of the dataset, in some order. -/
theorem wp_listVersions {Q : List DatasetVersion → List DatasetVersion → Prop} {dataset : String}
    (hI : I versions)
    (hQ : ∀ items, items.Perm (versions.filter (·.datasetLabel = dataset)) → Q items versions) :
  wp P I Q (listVersions dataset) versions
  := by
  apply wp_bind
  apply wp_read hI
  apply wp_bind
  apply wp_pick hI
  intro k
  apply wp_pure hI
  exact hQ _ (permutations_getD _ k)

/-- A patch changes the version of its name, or fails without one. -/
theorem wp_patchStatus {Q : Unit → List DatasetVersion → Prop} (hI : I versions)
    (hpatched : versions.any (·.name = name) = true →
      I (changeVersion name change versions) ∧ Q () (changeVersion name change versions)) :
  wp P I Q (patchStatus name change) versions
  := by
  apply wp_atomic hI
  intro a s' h
  split at h
  · next hexists =>
    obtain ⟨rfl, rfl⟩ := Prod.mk.inj (Except.ok.inj h)
    exact hpatched hexists
  · simp at h

end

theorem keepsIdentity_state (state : VersionState) :
  KeepsIdentity fun v => { v with state := some state }
  := ⟨fun _ => rfl, fun _ => rfl, fun _ => rfl⟩

/-- A patch of the named version that does not make it active. -/
theorem wp_patchSelf (h : VersionsInv versions) (result : Result) (hkeeps : KeepsIdentity change)
    (hstate : ∀ v, (change v).state ≠ some .active) :
  wp (.none _) (During name versions) (fun _ _ => True)
    (patchStatus name change >>= fun _ => pure result) versions
  := by
  apply wp_bind
  apply wp_patchStatus (h.during name)
  intro _
  have hduring : During name versions (changeVersion name change versions) := by
    refine ⟨h.patched hkeeps fun v _ _ hactive => absurd hactive (hstate v), .inl ?_⟩
    intro w hw hname
    rcases mem_changeVersion.mp hw with ⟨v, -, hvname, rfl⟩ | ⟨hw, -⟩
    · rw [hkeeps.name] at hname
      exact absurd hvname hname
    · exact ⟨w, hw, rfl, rfl⟩
  exact ⟨hduring, wp_pure hduring trivial⟩

theorem wp_markFailed (h : VersionsInv versions) (v : DatasetVersion) (reason : String) :
  wp (.none _) (During v.name versions) (fun _ _ => True) (markFailed v reason) versions
  := by
  refine wp_patchSelf h _ ⟨?_, ?_, ?_⟩ ?_
  · exact fun _ => rfl
  · exact fun _ => rfl
  · exact fun _ => rfl
  · simp

/-- The start of a build makes no version active. -/
theorem wp_startBuild (h : VersionsInv versions) (ans : Answers) (v : DatasetVersion) :
  wp (.none _) (During v.name versions) (fun _ _ => True) (startBuild ans v) versions
  := by
  unfold startBuild
  split
  · apply wp_markFailed h
  · exact wp_throw (h.during _)
  · split
    · apply wp_markFailed h
    · refine wp_patchSelf h _ ⟨?_, ?_, ?_⟩ ?_
      · exact fun _ => rfl
      · exact fun _ => rfl
      · exact fun _ => rfl
      · simp

/-- The end of a build makes no version active. -/
theorem wp_completeBuild (h : VersionsInv versions) (r : Reconciler) (ans : Answers)
    (v : DatasetVersion) (snapPath pvName : String) :
  wp (.none _) (During v.name versions) (fun _ _ => True) (completeBuild r ans v snapPath pvName)
    versions
  := by
  unfold completeBuild
  dsimp only
  split
  · apply wp_markFailed h
  · refine wp_patchSelf h _ ⟨?_, ?_, ?_⟩ ?_
    · exact fun _ => rfl
    · exact fun _ => rfl
    · exact fun _ => rfl
    · simp

/-- The reconcile of a building version makes no version active. -/
theorem wp_reconcileBuilding (h : VersionsInv versions) (r : Reconciler) (ans : Answers)
    (v : DatasetVersion) :
  wp (.none _) (During v.name versions) (fun _ _ => True) (reconcileBuilding r ans v) versions
  := by
  unfold reconcileBuilding
  generalize (if r.buildTimeout = 0 then defaultBuildTimeout else r.buildTimeout) = timeout
  dsimp only
  split
  · apply wp_startBuild h
  · split
    · apply wp_markFailed h
    · split
      · exact wp_throw (h.during _)
      · exact wp_pure (h.during _) trivial
      · apply wp_completeBuild h
      · apply wp_markFailed h
      · apply wp_markFailed h

/-- The reconcile of a retired version makes no version active. -/
theorem wp_reconcileRetired (h : VersionsInv versions) (r : Reconciler) (ans : Answers)
    (v : DatasetVersion) :
  wp (.none _) (During v.name versions) (fun _ _ => True) (reconcileRetired r ans v) versions
  := by
  have hduring := h.during v.name
  unfold reconcileRetired
  split
  · exact wp_throw hduring
  · split
    · exact wp_pure hduring trivial
    · split
      · exact wp_throw hduring
      · have hdeleted : During v.name versions (versions.filter (·.name ≠ v.name)) := by
          refine ⟨h.filter _, .inl ?_⟩
          intro w hw _
          exact ⟨w, List.mem_of_mem_filter hw, rfl, rfl⟩
        apply wp_bind
        apply wp_modify hduring hdeleted
        exact wp_pure hdeleted trivial

/-! ### Promotion -/

/-- Before the rest of the siblings is demoted: the version is ready, and the other versions of
its dataset that are active are among the rest, which are all there. -/
structure Demoting (v : DatasetVersion) (rest versions : List DatasetVersion) : Prop where
  inv : VersionsInv versions
  ready : ∃ w ∈ versions, w.name = v.name ∧ w.dataset = v.dataset ∧ w.state = some .ready
  listed : ∀ x ∈ rest, versions.any (·.name = x.name) = true
  active : ∀ w ∈ versions, w.state = some .active → w.dataset = v.dataset →
    ∃ x ∈ rest, x.name = w.name ∧ x.state = some .active

theorem Demoting.during {v : DatasetVersion} {rest before : List DatasetVersion}
    (h : Demoting v rest versions) :
  During v.name before versions
  := by
  obtain ⟨w, hw, hname, -, hstate⟩ := h.ready
  exact ⟨h.inv, .inr ⟨w, hw, hname, .inl hstate⟩⟩

/-- A promotion starts with all versions of the dataset on its list. -/
theorem Demoting.start {v : DatasetVersion} {items : List DatasetVersion} (h : VersionsInv versions)
    (hv : v ∈ versions) (hready : v.state = some .ready)
    (hitems : items.Perm (versions.filter (·.datasetLabel = v.dataset))) :
  Demoting v items versions
  := by
  refine ⟨h, ⟨v, hv, rfl, rfl, hready⟩, ?_, ?_⟩
  · intro x hx
    have hmem := List.mem_of_mem_filter (hitems.mem_iff.mp hx)
    exact List.any_eq_true.mpr ⟨x, hmem, by simp⟩
  intro w hw hactive hdataset
  refine ⟨w, hitems.mem_iff.mpr (List.mem_filter.mpr ⟨hw, ?_⟩), rfl, hactive⟩
  simpa using (h.labels w hw).trans hdataset

/-- The version itself, and a sibling that is not active, are left as they are. -/
theorem Demoting.skip {v x : DatasetVersion} {rest : List DatasetVersion}
    (h : Demoting v (x :: rest) versions) (hskip : x.name = v.name ∨ x.state ≠ some .active) :
  Demoting v rest versions
  := by
  refine ⟨h.inv, h.ready, fun y hy => h.listed y (List.mem_cons_of_mem _ hy), ?_⟩
  intro w hw hactive hdataset
  obtain ⟨y, hy, hname, hyactive⟩ := h.active w hw hactive hdataset
  rcases List.mem_cons.mp hy with rfl | hy
  · rcases hskip with hself | hinactive
    · obtain ⟨u, hu, huname, -, hready⟩ := h.ready
      have heq : w = u := h.inv.eq_of_name hw hu (hname.symm.trans (hself.trans huname.symm))
      rw [heq, hready] at hactive
      simp at hactive
    · exact absurd hyactive hinactive
  · exact ⟨y, hy, hname, hyactive⟩

/-- The retirement of one more version brings the promotion on. -/
theorem Demoting.demoted {v x : DatasetVersion} {rest : List DatasetVersion}
    (h : Demoting v (x :: rest) versions) (hne : x.name ≠ v.name) :
  Demoting v rest (changeVersion x.name (fun s => { s with state := some .retired }) versions)
  := by
  refine ⟨?_, ?_, ?_, ?_⟩
  · apply h.inv.patched (keepsIdentity_state .retired)
    intro _ _ _ hactive
    simp at hactive
  · obtain ⟨u, hu, huname, hready⟩ := h.ready
    refine ⟨u, mem_changeVersion.mpr (.inr ⟨hu, ?_⟩), huname, hready⟩
    rw [huname]
    exact hne.symm
  · intro y hy
    rw [any_changeVersion (keepsIdentity_state .retired).name]
    exact h.listed y (List.mem_cons_of_mem _ hy)
  · intro w hw hactive hdataset
    rcases mem_changeVersion.mp hw with ⟨u, -, -, rfl⟩ | ⟨hw, hwname⟩
    · simp at hactive
    · obtain ⟨y, hy, hname, hyactive⟩ := h.active w hw hactive hdataset
      rcases List.mem_cons.mp hy with rfl | hy
      · exact absurd hname.symm hwname
      · exact ⟨y, hy, hname, hyactive⟩

/-- The version exists as long as its siblings are demoted. -/
theorem Demoting.exists_name {v : DatasetVersion} {rest : List DatasetVersion}
    (h : Demoting v rest versions) :
  versions.any (·.name = v.name) = true
  := by
  obtain ⟨u, hu, huname, -⟩ := h.ready
  exact List.any_eq_true.mpr ⟨u, hu, by simpa using huname⟩

/-- When no sibling is active any more the version can be promoted. -/
theorem Demoting.promoted {v : DatasetVersion} (h : Demoting v [] versions) :
  VersionsInv (changeVersion v.name (fun v => { v with state := some .active }) versions)
    ∧ ∃ w ∈ changeVersion v.name (fun v => { v with state := some .active }) versions,
      w.name = v.name ∧ w.state = some .active
  := by
  obtain ⟨u, hu, huname, hudataset, -⟩ := h.ready
  refine ⟨?_, ?_⟩
  · apply h.inv.patched (keepsIdentity_state .active)
    intro w hw hwname _ w' hw' _ hdataset hactive
    have heq : w = u := h.inv.eq_of_name hw hu (hwname.trans huname.symm)
    rw [heq, hudataset] at hdataset
    obtain ⟨y, hy, -⟩ := h.active w' hw' hactive hdataset
    exact absurd hy List.not_mem_nil
  · refine ⟨{ u with state := some .active }, ?_, huname, rfl⟩
    exact mem_changeVersion.mpr (.inl ⟨u, hu, huname, rfl⟩)

/-- A ready version is made active when no other version of its dataset is. -/
theorem wp_reconcileReady (h : VersionsInv versions) {v : DatasetVersion} (hv : v ∈ versions)
    (hready : v.state = some .ready) :
  wp (.none _) (During v.name versions) (fun _ _ => True) (reconcileReady v) versions
  := by
  apply wp_bind
  apply wp_listVersions (h.during _)
  intro items hitems
  apply wp_bind
  have hloop : wp (.none _) (During v.name versions) (fun _ s => Demoting v [] s)
      (items.forM (demote v)) versions := by
    apply wp_forM (fun rest s hs => hs.during) ?_ items versions (.start h hv hready hitems)
    intro x rest s hs
    unfold demote
    split
    · next hskip => exact wp_pure hs.during (hs.skip hskip)
    · next hskip =>
      have hdemoted := hs.demoted fun heq => hskip (.inl heq)
      exact wp_patchStatus hs.during fun _ => ⟨hdemoted.during, hdemoted⟩
  apply wp_mono hloop
  intro _ s _ hs
  apply wp_bind
  apply wp_patchStatus hs.during
  intro _
  obtain ⟨hinv, w, hw, hname, hactive⟩ := hs.promoted
  have hduring : During v.name versions
      (changeVersion v.name (fun v => { v with state := some .active }) s) :=
    ⟨hinv, .inr ⟨w, hw, hname, .inr hactive⟩⟩
  exact ⟨hduring, wp_pure hduring trivial⟩

/-- A call of `Reconcile` keeps the invariant at every point, and changes other versions only
while it promotes its own. -/
theorem wp_reconcile (h : VersionsInv versions) (r : Reconciler) (name : String) (ans : Answers) :
  wp (.none _) (During name versions) (fun _ _ => True) (reconcile r name ans) versions
  := by
  apply wp_bind
  apply wp_getVersion (h.during name)
  cases hfind : versions.find? (·.name = name) with
  | none => exact wp_pure (h.during name) trivial
  | some v =>
    have hv := List.mem_of_find?_eq_some hfind
    obtain rfl : v.name = name := by simpa using List.find?_some hfind
    dsimp only
    cases hstate : v.state with
    | none => apply wp_reconcileBuilding h
    | some state =>
      cases state with
      | building => apply wp_reconcileBuilding h
      | ready => apply wp_reconcileReady h hv hstate
      | active => exact wp_pure (h.during _) trivial
      | retired => apply wp_reconcileRetired h
      | failed =>
        unfold reconcileFailed
        dsimp only [Option.getD_some]
        split
        · exact wp_pure (h.during _) trivial
        · exact wp_pure (h.during _) trivial

/-- The reconciles of both controllers keep the invariant. -/
theorem wp_handle (h : VersionsInv versions) (r : Reconciler) (request : Request) :
  wp (.none _) VersionsInv (fun _ _ => True) (handle r request) versions
  := by
  cases request with
  | reconcile name ans => exact wp_weaken (wp_reconcile h r name ans) fun _ hs => hs.inv
  | create name dataset versionID shardCount creationTimestamp =>
    have hcreated := h.create
      (v := .new name dataset versionID shardCount creationTimestamp) rfl rfl
    apply wp_bind
    apply wp_modify h hcreated
    exact wp_pure hcreated trivial
  | delete name =>
    apply wp_bind
    apply wp_modify h (h.filter _)
    exact wp_pure (h.filter _) trivial

end

/-! ### Completing a promotion -/

/-- The named version is active. -/
def IsActive (name : String) (versions : List DatasetVersion) : Prop :=
  ∃ w ∈ versions, w.name = name ∧ w.state = some .active

theorem ends_patchStatus {name : String} {change : DatasetVersion → DatasetVersion}
    {versions : List DatasetVersion} {Q : Unit → List DatasetVersion → Prop}
    (hexists : versions.any (·.name = name) = true) (hQ : Q () (changeVersion name change versions)) :
  Ends Q (patchStatus name change) versions
  := by
  refine Ends.atomic ?_ hQ
  rw [if_pos hexists]

theorem ends_listVersions {dataset : String} {versions : List DatasetVersion}
    {Q : List DatasetVersion → List DatasetVersion → Prop}
    (hQ : ∀ items, items.Perm (versions.filter (·.datasetLabel = dataset)) → Q items versions) :
  Ends Q (listVersions dataset) versions
  := by
  intro k
  exact hQ _ (permutations_getD _ k)

/-- When no call fails, the reconcile of a ready version makes it active. -/
theorem ends_reconcileReady {versions : List DatasetVersion} (h : VersionsInv versions)
    {v : DatasetVersion} (hv : v ∈ versions) (hready : v.state = some .ready) :
  Ends (fun _ s => IsActive v.name s) (reconcileReady v) versions
  := by
  apply Ends.bind
  apply ends_listVersions
  intro items hitems
  apply Ends.bind
  have hloop : Ends (fun _ s => Demoting v [] s) (items.forM (demote v)) versions := by
    apply Ends.forM ?_ _ versions (.start h hv hready hitems)
    intro x rest s hs
    unfold demote
    split
    · next hskip => exact hs.skip hskip
    · next hskip =>
      have hne : x.name ≠ v.name := fun heq => hskip (.inl heq)
      exact ends_patchStatus (hs.listed x List.mem_cons_self) (hs.demoted hne)
  apply hloop.mono
  intro _ s hs
  apply Ends.bind
  exact ends_patchStatus hs.exists_name hs.promoted.2

/-- A version that is ready, or active already, is active after a call without failures. -/
theorem Promoting.ends {name : String} {versions : List DatasetVersion}
    (hpromoting : Promoting name versions) (h : VersionsInv versions) (r : Reconciler) (ans : Answers) :
  Ends (fun _ s => IsActive name s) (reconcile r name ans) versions
  := by
  obtain ⟨v, hv, rfl, hstate⟩ := hpromoting
  have hfind : versions.find? (·.name = v.name) = some v := by
    cases hfind : versions.find? (·.name = v.name) with
    | none =>
      have hnone := List.find?_eq_none.mp hfind v hv
      simp at hnone
    | some w =>
      have hname : w.name = v.name := by simpa using List.find?_some hfind
      rw [h.eq_of_name (List.mem_of_find?_eq_some hfind) hv hname]
  apply Ends.bind
  change Ends _ (match versions.find? (·.name = v.name) with | none => _ | some v => _) versions
  rw [hfind]
  rcases hstate with hready | hactive
  · dsimp only
    rw [hready]
    apply ends_reconcileReady h hv hready
  · dsimp only
    rw [hactive]
    exact ⟨v, hv, rfl, hactive⟩

/-! ### Sessions -/

/-- The invariant holds at every point of a session. -/
theorem VersionsReachable.inv {r : Reconciler}
    {x : Session (List DatasetVersion) String Empty Result Request} {versions : List DatasetVersion}
    (h : VersionsReachable r x versions) :
  VersionsInv versions
  := by
  have hsafe := Crash.Reachable.safe (J := fun _ => VersionsInv) (Q := fun _ _ _ => True)
    (by
      rintro s rfl
      exact ⟨List.nodup_nil, by simp, by simp⟩)
    (fun _ request s hs _ => wp_handle hs r request) h
  exact hsafe.inv

/-- In every session each dataset has at most one active version at every point; and after a
call that demoted a sibling of its version, at whatever point it died, a call without
failures leaves the version active. -/
theorem oneActive_and_promotes (r : Reconciler)
    (x : Session (List DatasetVersion) String Empty Result Request) (versions : List DatasetVersion)
    (h : VersionsReachable r x versions) :
  (∀ dataset, (activeVersions dataset versions).length ≤ 1)
    ∧ ∀ name ans p after, Steps (.none _) (reconcile r name ans) versions p after →
      (∃ v ∈ versions, ∃ w ∈ after, v.name = w.name ∧ v.name ≠ name
        ∧ v.state = some .active ∧ w.state = some .retired) →
      ∀ ans', Ends (fun _ s => IsActive name s) (reconcile r name ans') after
  := by
  have hinv := h.inv
  refine ⟨hinv.length_le_one, ?_⟩
  rintro name ans p after hsteps ⟨v, hv, w, hw, hname, hne, hactive, hretired⟩ ans'
  have hduring := wp_inv (wp_steps (wp_reconcile hinv r name ans) hsteps)
  rcases hduring.others with hunchanged | hpromoting
  · obtain ⟨v', hv', hname', hstate⟩ := hunchanged w hw (hname ▸ hne)
    have heq : v' = v := hinv.eq_of_name hv' hv (hname'.trans hname.symm)
    rw [heq, hactive, hretired] at hstate
    simp at hstate
  · exact hpromoting.ends hduring.inv r ans'

/-- The versions after some requests that are all completed. -/
def afterRequests (r : Reconciler) (requests : List Request) : List DatasetVersion :=
  requests.foldl (fun versions request => ((handle r request).run 0 versions).2) []

/-- Requests that are handled to their ends one after the other are a session. -/
theorem afterRequests_reachable (r : Reconciler) (requests : List Request) :
  ∃ x, x.Stopped ∧ VersionsReachable r x (afterRequests r requests)
  := by
  unfold afterRequests
  suffices hall : ∀ x versions, Session.Stopped x → VersionsReachable r x versions →
      ∃ x, x.Stopped ∧ VersionsReachable r x
        (requests.foldl (fun versions request => ((handle r request).run 0 versions).2) versions) from
    hall (.idle none) [] trivial (.init rfl)
  induction requests with
  | nil =>
    intro x versions hstopped hreachable
    exact ⟨x, hstopped, hreachable⟩
  | cons request requests ih =>
    intro x versions hstopped hreachable
    exact ih (.returned request _) _ trivial (hreachable.run hstopped trivial 0)

/-- Answers under which a build is started and is complete. -/
def goodAnswers : Answers :=
  ⟨0, .found, .ok "job", .ok (.complete "/snap" ""), none, some "meta", .ok [], none, none⟩

/-- The first version of `users` is active, and the second is ready. -/
def secondReady : List Request :=
  [.create "users-1" "users" "v1" 1 0, .reconcile "users-1" goodAnswers,
    .reconcile "users-1" goodAnswers, .reconcile "users-1" goodAnswers,
    .create "users-2" "users" "v2" 1 0, .reconcile "users-2" goodAnswers,
    .reconcile "users-2" goodAnswers]

/-- The promotion of the second version dies after the first was demoted. -/
theorem oneActive_and_promotes_second :
  ((afterRequests {} secondReady).map fun v => (v.name, v.state))
      = [("users-2", some .ready), ("users-1", some .active)]
    ∧ (∀ dataset, (activeVersions dataset (afterRequests {} secondReady)).length ≤ 1)
    ∧ Ends (fun _ s => IsActive "users-2" s) (reconcile {} "users-2" goodAnswers)
      (changeVersion "users-1" (fun s => { s with state := some .retired })
        (afterRequests {} secondReady))
  := by
  obtain ⟨x, -, hreachable⟩ := afterRequests_reachable {} secondReady
  obtain ⟨hactive, hpromotes⟩ := oneActive_and_promotes {} x _ hreachable
  refine ⟨by decide, hactive, ?_⟩
  refine hpromotes "users-2" goodAnswers _ _ (.head .op (.head .op (.head (.choose 0) (.head .op .refl)))) ?_ _
  decide

end ControlPlane
