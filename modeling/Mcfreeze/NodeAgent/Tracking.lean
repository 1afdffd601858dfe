import Mcfreeze.NodeAgent.Agent

/-!
# The disks and mounts of an agent

What the agent has attached and mounted should be in its records, because `Shutdown` releases
what the records name and nothing else.  There is one record for a dataset, which has to
account for the version that is active and for the one that is worked on, and does so for the
last of them only.

A reconcile keeps track of everything exactly when what the previous record held is in the
new record or in that of another dataset, or is released by the cleanup, and when its own
mount is followed by a promotion.
-/

namespace NodeAgent

open ControlPlane Agent

/-- `AttachDisk` of a volume has succeeded, and `DetachDisk` has not since. -/
def Attached (pvName : String) : List Event → Prop
  | [] => False
  | .attach pvName' true :: before => pvName' = pvName ∨ Attached pvName before
  | .detach pvName' true :: before => pvName' ≠ pvName ∧ Attached pvName before
  | _ :: before => Attached pvName before

/-- `Mount` at a path has succeeded, and `Unmount` has not since. -/
def Mounted (path : String) : List Event → Prop
  | [] => False
  | .mount path' _ true :: before => path' = path ∨ Mounted path before
  | .unmount path' true :: before => path' ≠ path ∧ Mounted path before
  | _ :: before => Mounted path before

namespace Agent

/-- What is attached and mounted is in the records. -/
structure Tracked (a : Agent) : Prop where
  disk : ∀ pvName, Attached pvName a.history → ∃ ds ∈ a.datasets, ds.pvName = pvName
  mount : ∀ path, Mounted path a.history → ∃ ds ∈ a.datasets, ds.mountPath = path

/-- `Shutdown` tries to release what is attached and mounted. -/
def ShutdownReleases (a : Agent) : Prop :=
  ∀ snapshot o, List.Perm snapshot a.datasets → ∃ events,
    (a.shutdown snapshot o).history = events ++ a.history
      ∧ (∀ path, Mounted path a.history → ∃ ok, .unmount path ok ∈ events)
      ∧ ∀ pvName, Attached pvName a.history → ∃ ok, .detach pvName ok ∈ events

/-- What the record of a dataset holds is not lost when the record is replaced, nor is the
mount of a reconcile that fails afterwards. -/
structure Keeps (cfg : Config) (a : Agent) (assign : NodeAssignment) (o : Outcomes) : Prop where
  disk : ¬ a.Skips assign → Attached (a.datasetState assign.dataset).pvName a.history →
    (a.datasetState assign.dataset).pvName = assign.version.pvName
      ∨ (∃ ds ∈ a.datasets, ds.dataset ≠ assign.dataset
        ∧ ds.pvName = (a.datasetState assign.dataset).pvName)
      ∨ (Succeeds cfg assign o ∧ a.Replaces assign ∧ o.detachDisk = none)
  mount : ¬ a.Skips assign → Mounted (a.datasetState assign.dataset).mountPath a.history →
    (∃ ds ∈ a.datasets, ds.dataset ≠ assign.dataset
        ∧ ds.mountPath = (a.datasetState assign.dataset).mountPath)
      ∨ (Succeeds cfg assign o
        ∧ ((a.datasetState assign.dataset).mountPath = cfg.mountPath assign.dataset assign.version.id
          ∨ a.Replaces assign ∧ o.unmount = none))
  newMount : ¬ a.Skips assign → Mounts cfg assign o → Succeeds cfg assign o
    ∨ ∃ ds ∈ a.datasets, ds.dataset ≠ assign.dataset
      ∧ ds.mountPath = cfg.mountPath assign.dataset assign.version.id

section

variable {cfg : Config} {assign : NodeAssignment} {o : Outcomes} {a : Agent}

/-! ### What is attached and mounted after the events of a reconcile -/

/-- A reconcile that fails early attaches at most its own volume, and detaches none. -/
theorem attached_early {events history : List Event} (h : EarlyFailure cfg assign events)
    (pvName : String) :
  (Attached pvName history → Attached pvName (events ++ history))
    ∧ (Attached pvName (events ++ history) →
      (pvName = assign.version.pvName ∧ pvName ≠ "") ∨ Attached pvName history)
  := by
  cases h with
  | volume => exact ⟨id, .inr⟩
  | attach => exact ⟨id, .inr⟩
  | device hpv =>
    refine ⟨.inr, ?_⟩
    rintro (rfl | h)
    · exact .inl ⟨rfl, hpv⟩
    · exact .inr h
  | mount hpv =>
    refine ⟨.inr, ?_⟩
    rintro (rfl | h)
    · exact .inl ⟨rfl, hpv⟩
    · exact .inr h

theorem mounted_early {events history : List Event} (h : EarlyFailure cfg assign events)
    (path : String) :
  Mounted path (events ++ history) ↔ Mounted path history
  := by
  cases h with
  | volume => rfl
  | attach => rfl
  | device => rfl
  | mount => rfl

theorem attached_mountEvents {history : List Event} (h : Mounts cfg assign o) (pvName : String) :
  (Attached pvName history → Attached pvName (mountEvents cfg assign ++ history))
    ∧ (Attached pvName (mountEvents cfg assign ++ history) →
      (pvName = assign.version.pvName ∧ pvName ≠ "") ∨ Attached pvName history)
  := by
  refine ⟨.inr, ?_⟩
  rintro (rfl | hattached)
  · exact .inl ⟨rfl, h.1⟩
  · exact .inr hattached

theorem mounted_mountEvents {history : List Event} (h : Mounts cfg assign o) (path : String) :
  Mounted path (mountEvents cfg assign ++ history)
    ↔ Mounts cfg assign o ∧ cfg.mountPath assign.dataset assign.version.id = path
      ∨ Mounted path history
  := by
  rw [and_iff_right h]
  rfl

theorem attached_detach {history : List Event} {ok : Bool} (pvName pvName' : String) :
  Attached pvName (.detach pvName' ok :: history)
    ↔ Attached pvName history ∧ ¬ (ok = true ∧ pvName' = pvName)
  := by
  cases ok with
  | false => simp [Attached]
  | true => simp [Attached, and_comm]

theorem mounted_unmount {history : List Event} {ok : Bool} (path path' : String) :
  Mounted path (.unmount path' ok :: history)
    ↔ Mounted path history ∧ ¬ (ok = true ∧ path' = path)
  := by
  cases ok with
  | false => simp [Mounted]
  | true => simp [Mounted, and_comm]

theorem attached_unmount {history : List Event} {ok : Bool} (pvName path : String) :
  Attached pvName (.unmount path ok :: history) ↔ Attached pvName history
  := by
  cases ok <;> rfl

theorem mounted_detach {history : List Event} {ok : Bool} (path pvName : String) :
  Mounted path (.detach pvName ok :: history) ↔ Mounted path history
  := by
  cases ok <;> rfl

/-- After a cleanup everything is still attached but what it has detached. -/
theorem attached_cleanup {prev : DatasetState} {history : List Event} (pvName : String) :
  Attached pvName (cleanupEvents prev o ++ history)
    ↔ Attached pvName history ∧ ¬ (prev.pvName ≠ "" ∧ o.detachDisk = none ∧ prev.pvName = pvName)
  := by
  unfold cleanupEvents
  by_cases hpv : prev.pvName = ""
  · by_cases hpath : prev.mountPath = ""
    · simp [hpv, hpath]
    · simp [hpv, hpath, attached_unmount]
  · by_cases hpath : prev.mountPath = ""
    · simp [hpv, hpath, attached_detach]
    · simp [hpv, hpath, attached_detach, attached_unmount]

/-- After a cleanup everything is still mounted but what it has unmounted. -/
theorem mounted_cleanup {prev : DatasetState} {history : List Event} (path : String) :
  Mounted path (cleanupEvents prev o ++ history)
    ↔ Mounted path history ∧ ¬ (prev.mountPath ≠ "" ∧ o.unmount = none ∧ prev.mountPath = path)
  := by
  unfold cleanupEvents
  by_cases hpv : prev.pvName = ""
  · by_cases hpath : prev.mountPath = ""
    · simp [hpv, hpath]
    · simp [hpv, hpath, mounted_unmount]
  · by_cases hpath : prev.mountPath = ""
    · simp [hpv, hpath, mounted_detach]
    · simp [hpv, hpath, mounted_unmount, mounted_detach]

/-! ### One reconcile -/

/-- The cleanup of a reconcile detaches a volume. -/
def Detaches (cfg : Config) (a : Agent) (assign : NodeAssignment) (o : Outcomes) (pvName : String) : Prop :=
  Succeeds cfg assign o ∧ a.Replaces assign ∧ (a.datasetState assign.dataset).pvName ≠ ""
    ∧ o.detachDisk = none ∧ (a.datasetState assign.dataset).pvName = pvName

/-- The cleanup of a reconcile unmounts a path. -/
def Unmounts (cfg : Config) (a : Agent) (assign : NodeAssignment) (o : Outcomes) (path : String) : Prop :=
  Succeeds cfg assign o ∧ a.Replaces assign ∧ (a.datasetState assign.dataset).mountPath ≠ ""
    ∧ o.unmount = none ∧ (a.datasetState assign.dataset).mountPath = path

/-- What a reconcile that is not skipped does to the records, the disks and the mounts. -/
structure Effect (cfg : Config) (a : Agent) (assign : NodeAssignment) (o : Outcomes) (a' : Agent)
    (r : DatasetState) : Prop where
  records : a'.datasets = (a.insert r).datasets
  dataset : r.dataset = assign.dataset
  pvName : r.pvName = assign.version.pvName
  mountPath : Succeeds cfg assign o ∧ r.mountPath = cfg.mountPath assign.dataset assign.version.id
    ∨ ¬ Succeeds cfg assign o ∧ r.mountPath = ""
  attached : ∀ pvName, Attached pvName a'.history →
    (pvName = assign.version.pvName ∧ pvName ≠ "" ∨ Attached pvName a.history)
      ∧ ¬ Detaches cfg a assign o pvName
  stillAttached : ∀ pvName, Attached pvName a.history → ¬ Detaches cfg a assign o pvName →
    Attached pvName a'.history
  mounted : ∀ path, Mounted path a'.history
    ↔ (Mounts cfg assign o ∧ cfg.mountPath assign.dataset assign.version.id = path
      ∨ Mounted path a.history) ∧ ¬ Unmounts cfg a assign o path

/-- A failure detaches and unmounts nothing. -/
theorem Effect.failed {err : String} {catalog : Option (List CatalogEntry)} {history : List Event}
    (hsucceeds : ¬ Succeeds cfg assign o)
    (hattached : ∀ pvName, (Attached pvName a.history → Attached pvName history)
      ∧ (Attached pvName history →
        (pvName = assign.version.pvName ∧ pvName ≠ "") ∨ Attached pvName a.history))
    (hmounted : ∀ path, Mounted path history
      ↔ Mounts cfg assign o ∧ cfg.mountPath assign.dataset assign.version.id = path
        ∨ Mounted path a.history) :
  Effect cfg a assign o ⟨(a.insert (a.errorRecord assign err)).datasets, catalog, history⟩
    (a.errorRecord assign err)
  where
  records := rfl
  dataset := rfl
  pvName := rfl
  mountPath := .inr ⟨hsucceeds, rfl⟩
  attached pvName h := ⟨(hattached pvName).2 h, fun h => hsucceeds h.1⟩
  stillAttached pvName h _ := (hattached pvName).1 h
  mounted path := by
    rw [hmounted]
    constructor
    · intro h
      exact ⟨h, fun h => hsucceeds h.1⟩
    · exact And.left

/-- A promotion, with its cleanup if there is one. -/
theorem Effect.promoted (hsucceeds : Succeeds cfg assign o) :
  Effect cfg a assign o
    (if a.Replaces assign
      then (promoted cfg assign a).cleanupOldVersion (a.datasetState assign.dataset) o
      else promoted cfg assign a) (activeRecord cfg assign)
  := by
  by_cases hreplaces : a.Replaces assign
  · rw [if_pos hreplaces, cleanupOldVersion_eq]
    refine ⟨rfl, rfl, rfl, .inl ⟨hsucceeds, rfl⟩, ?_, ?_, ?_⟩
    · intro pvName h
      obtain ⟨h, hdetach⟩ := (attached_cleanup pvName).mp h
      exact ⟨(attached_mountEvents hsucceeds.1 pvName).2 h, fun h => hdetach h.2.2⟩
    · intro pvName h hdetach
      refine (attached_cleanup pvName).mpr ⟨.inr h, ?_⟩
      intro h
      exact hdetach ⟨hsucceeds, hreplaces, h⟩
    · intro path
      rw [mounted_cleanup]
      apply and_congr
      · exact mounted_mountEvents hsucceeds.1 path
      · exact not_congr ⟨fun h => ⟨hsucceeds, hreplaces, h⟩, fun h => h.2.2⟩
  · rw [if_neg hreplaces]
    refine ⟨rfl, rfl, rfl, .inl ⟨hsucceeds, rfl⟩, ?_, ?_, ?_⟩
    · intro pvName h
      exact ⟨(attached_mountEvents hsucceeds.1 pvName).2 h, fun h => hreplaces h.2.1⟩
    · intro pvName h _
      exact .inr h
    · intro path
      rw [and_iff_left fun h => hreplaces h.2.1]
      exact mounted_mountEvents hsucceeds.1 path

/-- What a reconcile does that is not skipped. -/
theorem reconcile_effect (cfg : Config) (o : Outcomes) (hskips : ¬ a.Skips assign) :
  ∃ r, Effect cfg a assign o (a.reconcile cfg assign o) r
  := by
  rcases reconcile_cases cfg assign o a with ⟨h, -⟩ | ⟨-, hmounts, err, events, hevents, heq⟩
    | ⟨-, hmounts, hsucceeds, err, heq | heq⟩ | ⟨-, hsucceeds, heq⟩
  · exact absurd h hskips
  · rw [heq]
    refine ⟨_, Effect.failed (fun h => hmounts h.1) (attached_early hevents) ?_⟩
    intro path
    rw [mounted_early hevents]
    simp [hmounts]
  · rw [heq]
    exact ⟨_, Effect.failed hsucceeds (attached_mountEvents hmounts) (mounted_mountEvents hmounts)⟩
  · rw [heq]
    exact ⟨_, Effect.failed hsucceeds (attached_mountEvents hmounts) (mounted_mountEvents hmounts)⟩
  · rw [heq]
    exact ⟨_, Effect.promoted hsucceeds⟩

/-- No volume and no path without a name is attached or mounted. -/
structure Named (a : Agent) : Prop where
  disk : ∀ pvName, Attached pvName a.history → pvName ≠ ""
  mount : ∀ path, Mounted path a.history → path ≠ ""

/-- A reconcile attaches and mounts nothing without a name. -/
theorem Named.reconcile (h : a.Named) (cfg : Config) (assign : NodeAssignment) (o : Outcomes) :
  (a.reconcile cfg assign o).Named
  := by
  by_cases hskips : a.Skips assign
  · rw [reconcile_skips hskips]
    exact h
  · obtain ⟨r, heffect⟩ := reconcile_effect cfg o hskips
    refine ⟨?_, ?_⟩
    · intro pvName hattached
      rcases (heffect.attached pvName hattached).1 with h' | h'
      · exact h'.2
      · exact h.disk pvName h'
    · intro path hmounted
      rcases ((heffect.mounted path).mp hmounted).1 with ⟨hmounts, rfl⟩ | h'
      · intro hempty
        have hmount := hmounts.2.2.2
        rw [hempty] at hmount
        simp [mountFailure] at hmount
      · exact h.mount path h'

/-- A record that holds something is that of the dataset, or of another one. -/
theorem OneRecord.prev_or_other (h : a.OneRecord) {P : DatasetState → Prop} (dataset : String)
    (hds : ∃ ds ∈ a.datasets, P ds) :
  P (a.datasetState dataset) ∨ ∃ ds ∈ a.datasets, ds.dataset ≠ dataset ∧ P ds
  := by
  obtain ⟨ds, hmem, hP⟩ := hds
  by_cases heq : ds.dataset = dataset
  · left
    rw [← heq, h.datasetState_eq hmem]
    exact hP
  · right
    exact ⟨ds, hmem, heq, hP⟩

/-- After a reconcile a record that holds something is the new one, or of another dataset. -/
theorem Effect.exists_record {a' : Agent} {r : DatasetState} (h : Effect cfg a assign o a' r)
    {P : DatasetState → Prop} :
  (∃ ds ∈ a'.datasets, P ds) ↔ P r ∨ ∃ ds ∈ a.datasets, ds.dataset ≠ assign.dataset ∧ P ds
  := by
  rw [h.records, ← h.dataset]
  constructor
  · rintro ⟨ds, hmem, hP⟩
    rcases mem_insert.mp hmem with rfl | ⟨hmem, hne⟩
    · exact .inl hP
    · exact .inr ⟨ds, hmem, hne, hP⟩
  · rintro (hP | ⟨ds, hmem, hne, hP⟩)
    · exact ⟨r, mem_insert.mpr (.inl rfl), hP⟩
    · exact ⟨ds, mem_insert.mpr (.inr ⟨hmem, hne⟩), hP⟩

/-- A reconcile keeps track of everything, if what the previous record held is not lost. -/
theorem Tracked.reconcile (h : a.Tracked) (hone : a.OneRecord) (hnamed : a.Named)
    (hkeeps : Keeps cfg a assign o) :
  (a.reconcile cfg assign o).Tracked
  := by
  by_cases hskips : a.Skips assign
  · rw [reconcile_skips hskips]
    exact h
  obtain ⟨r, heffect⟩ := reconcile_effect cfg o hskips
  refine ⟨?_, ?_⟩
  · intro pvName hattached
    rw [heffect.exists_record, heffect.pvName]
    obtain ⟨⟨rfl, -⟩ | hbefore, hdetaches⟩ := heffect.attached pvName hattached
    · exact .inl rfl
    · rcases hone.prev_or_other assign.dataset (h.disk pvName hbefore) with rfl | hother
      · rcases hkeeps.disk hskips hbefore with hsame | hother | ⟨hsucceeds, hreplaces, hdetach⟩
        · exact .inl hsame.symm
        · exact .inr hother
        · exact absurd ⟨hsucceeds, hreplaces, hnamed.disk _ hbefore, hdetach, rfl⟩ hdetaches
      · exact .inr hother
  · intro path hmounted
    rw [heffect.exists_record]
    obtain ⟨⟨hmounts, rfl⟩ | hbefore, hunmounts⟩ := (heffect.mounted path).mp hmounted
    · rcases hkeeps.newMount hskips hmounts with hsucceeds | hother
      · rcases heffect.mountPath with ⟨-, hpath⟩ | ⟨hfails, -⟩
        · exact .inl hpath
        · exact absurd hsucceeds hfails
      · exact .inr hother
    · rcases hone.prev_or_other assign.dataset (h.mount path hbefore) with rfl | hother
      · rcases hkeeps.mount hskips hbefore with hother | ⟨hsucceeds, hsame | ⟨hreplaces, hunmount⟩⟩
        · exact .inr hother
        · rcases heffect.mountPath with ⟨-, hpath⟩ | ⟨hfails, -⟩
          · exact .inl (hpath.trans hsame.symm)
          · exact absurd hsucceeds hfails
        · exact absurd ⟨hsucceeds, hreplaces, hnamed.mount _ hbefore, hunmount, rfl⟩ hunmounts
      · exact .inr hother

/-- A reconcile after which everything is tracked has lost nothing. -/
theorem Tracked.keeps (hnamed : a.Named) (h : (a.reconcile cfg assign o).Tracked) :
  Keeps cfg a assign o
  := by
  refine ⟨?_, ?_, ?_⟩
  · intro hskips hattached
    obtain ⟨r, heffect⟩ := reconcile_effect cfg o hskips
    by_cases hdetaches : Detaches cfg a assign o (a.datasetState assign.dataset).pvName
    · obtain ⟨hsucceeds, hreplaces, -, hdetach, -⟩ := hdetaches
      exact .inr (.inr ⟨hsucceeds, hreplaces, hdetach⟩)
    · have hrecord := h.disk _ (heffect.stillAttached _ hattached hdetaches)
      rw [heffect.exists_record, heffect.pvName] at hrecord
      rcases hrecord with hsame | hother
      · exact .inl hsame.symm
      · exact .inr (.inl hother)
  · intro hskips hmounted
    obtain ⟨r, heffect⟩ := reconcile_effect cfg o hskips
    by_cases hunmounts : Unmounts cfg a assign o (a.datasetState assign.dataset).mountPath
    · obtain ⟨hsucceeds, hreplaces, -, hunmount, -⟩ := hunmounts
      exact .inr ⟨hsucceeds, .inr ⟨hreplaces, hunmount⟩⟩
    · have hrecord := h.mount _ ((heffect.mounted _).mpr ⟨.inr hmounted, hunmounts⟩)
      rw [heffect.exists_record] at hrecord
      rcases hrecord with hsame | hother
      · rcases heffect.mountPath with ⟨hsucceeds, hpath⟩ | ⟨-, hpath⟩
        · exact .inr ⟨hsucceeds, .inl (hsame.symm.trans hpath)⟩
        · exact absurd (hsame.symm.trans hpath) (hnamed.mount _ hmounted)
      · exact .inl hother
  · intro hskips hmounts
    obtain ⟨r, heffect⟩ := reconcile_effect cfg o hskips
    by_cases hsucceeds : Succeeds cfg assign o
    · exact .inl hsucceeds
    · right
      have hmounted : Mounted (cfg.mountPath assign.dataset assign.version.id)
          (a.reconcile cfg assign o).history :=
        (heffect.mounted _).mpr ⟨.inl ⟨hmounts, rfl⟩, fun h => hsucceeds h.1⟩
      have hrecord := h.mount _ hmounted
      rw [heffect.exists_record] at hrecord
      rcases hrecord with hsame | hother
      · rcases heffect.mountPath with ⟨h, -⟩ | ⟨-, hpath⟩
        · exact absurd h hsucceeds
        · exact absurd (hsame.symm.trans hpath) ((hnamed.reconcile cfg assign o).mount _ hmounted)
      · exact hother

/-! ### Shutdown -/

/-- Unmounting with retries tries at least once. -/
theorem unmountWithRetry_history (path : String) (first : UnmountResult) (rest : List UnmountResult)
    (a : Agent) :
  ∃ events, (unmountWithRetry path first rest a).history = events ++ a.history
    ∧ ∃ ok, .unmount path ok ∈ events
  := by
  induction rest generalizing first a with
  | nil =>
    cases first with
    | ok => exact ⟨[.unmount path true], rfl, true, List.mem_singleton_self _⟩
    | busy => exact ⟨[.unmount path false], rfl, false, List.mem_singleton_self _⟩
    | failed => exact ⟨[.unmount path false], rfl, false, List.mem_singleton_self _⟩
  | cons next rest ih =>
    cases first with
    | ok => exact ⟨[.unmount path true], rfl, true, List.mem_singleton_self _⟩
    | failed => exact ⟨[.unmount path false], rfl, false, List.mem_singleton_self _⟩
    | busy =>
      obtain ⟨events, heq, ok, hmem⟩ := ih next (a.record (.unmount path false))
      refine ⟨events ++ [.unmount path false], ?_, ok, List.mem_append_left _ hmem⟩
      rw [unmountWithRetry, heq, List.append_assoc]
      rfl

/-- The release of a record tries to unmount and to detach what the record holds. -/
theorem release_history (a : Agent) (ds : DatasetState) (o : ShutdownOutcome) :
  ∃ events, (a.release ds o).history = events ++ a.history
    ∧ (ds.mountPath ≠ "" → ∃ ok, .unmount ds.mountPath ok ∈ events)
    ∧ (ds.pvName ≠ "" → ∃ ok, .detach ds.pvName ok ∈ events)
  := by
  have hunmount : ∃ events, (if ds.mountPath ≠ "" then
        unmountWithRetry ds.mountPath o.first o.rest a else a).history = events ++ a.history
      ∧ (ds.mountPath ≠ "" → ∃ ok, .unmount ds.mountPath ok ∈ events) := by
    by_cases hpath : ds.mountPath ≠ ""
    · rw [if_pos hpath]
      obtain ⟨events, heq, htries⟩ := unmountWithRetry_history ds.mountPath o.first o.rest a
      exact ⟨events, heq, fun _ => htries⟩
    · rw [if_neg hpath]
      exact ⟨[], rfl, fun h => absurd h hpath⟩
  obtain ⟨events, heq, htries⟩ := hunmount
  unfold release
  by_cases hpv : ds.pvName ≠ ""
  · rw [if_pos hpv]
    refine ⟨.detach ds.pvName o.detachDisk :: events, ?_, ?_, ?_⟩
    · rw [record, heq]
      rfl
    · intro hpath
      obtain ⟨ok, hmem⟩ := htries hpath
      exact ⟨ok, List.mem_cons_of_mem _ hmem⟩
    · intro _
      exact ⟨_, List.mem_cons_self⟩
  · rw [if_neg hpv]
    exact ⟨events, heq, htries, fun h => absurd h hpv⟩

/-- The shutdown tries to unmount and to detach all that is on record. -/
theorem shutdown_history (a : Agent) (snapshot : List DatasetState) (o : DatasetState → ShutdownOutcome) :
  ∃ events, (a.shutdown snapshot o).history = events ++ a.history
    ∧ ∀ ds ∈ snapshot, (ds.mountPath ≠ "" → ∃ ok, .unmount ds.mountPath ok ∈ events)
      ∧ (ds.pvName ≠ "" → ∃ ok, .detach ds.pvName ok ∈ events)
  := by
  induction snapshot generalizing a with
  | nil => exact ⟨[], rfl, fun ds hmem => absurd hmem List.not_mem_nil⟩
  | cons ds rest ih =>
    obtain ⟨released, hreleased, hmount, hdisk⟩ := release_history a ds (o ds)
    obtain ⟨events, heq, hrest⟩ := ih (a.release ds (o ds))
    refine ⟨events ++ released, ?_, ?_⟩
    · rw [List.append_assoc, ← hreleased]
      exact heq
    · intro ds' hmem
      rcases List.mem_cons.mp hmem with rfl | hmem
      · refine ⟨?_, ?_⟩
        · intro hpath
          obtain ⟨ok, h⟩ := hmount hpath
          exact ⟨ok, List.mem_append_right _ h⟩
        · intro hpv
          obtain ⟨ok, h⟩ := hdisk hpv
          exact ⟨ok, List.mem_append_right _ h⟩
      · obtain ⟨hmount', hdisk'⟩ := hrest ds' hmem
        refine ⟨?_, ?_⟩
        · intro hpath
          obtain ⟨ok, h⟩ := hmount' hpath
          exact ⟨ok, List.mem_append_left _ h⟩
        · intro hpv
          obtain ⟨ok, h⟩ := hdisk' hpv
          exact ⟨ok, List.mem_append_left _ h⟩

/-- `Shutdown` releases what is in the records. -/
theorem Tracked.shutdownReleases (h : a.Tracked) (hnamed : a.Named) :
  a.ShutdownReleases
  := by
  intro snapshot o hperm
  obtain ⟨events, heq, hreleases⟩ := shutdown_history a snapshot o
  refine ⟨events, heq, ?_, ?_⟩
  · intro path hmounted
    obtain ⟨ds, hmem, rfl⟩ := h.mount path hmounted
    exact (hreleases ds (hperm.mem_iff.mpr hmem)).1 (hnamed.mount _ hmounted)
  · intro pvName hattached
    obtain ⟨ds, hmem, rfl⟩ := h.disk pvName hattached
    exact (hreleases ds (hperm.mem_iff.mpr hmem)).2 (hnamed.disk _ hattached)

end

/-! ### Runs -/

theorem Reached.named {cfg : Config} {allowed : Agent → NodeAssignment → Outcomes → Prop}
    {a : Agent} (h : Reached cfg allowed a) :
  a.Named
  := by
  induction h with
  | new => exact ⟨fun _ h => h.elim, fun _ h => h.elim⟩
  | reconcile assign o _ _ ih => exact ih.reconcile cfg assign o

/-- The agent never loses track of a disk or a mount, in any of the runs of allowed
reconciles, exactly if no allowed reconcile loses what the previous record held or its own
mount. -/
theorem tracked_iff (cfg : Config) (allowed : Agent → NodeAssignment → Outcomes → Prop) :
  (∀ a, Reached cfg allowed a → a.Tracked ∧ a.ShutdownReleases)
    ↔ ∀ a assign o, Reached cfg allowed a → allowed a assign o → Keeps cfg a assign o
  := by
  constructor
  · intro h a assign o hreached hallowed
    exact Tracked.keeps hreached.named (h _ (.reconcile assign o hreached hallowed)).1
  · intro h a hreached
    have htracked : a.Tracked := by
      induction hreached with
      | new => exact ⟨fun _ h => h.elim, fun _ h => h.elim⟩
      | reconcile assign o hreached hallowed ih =>
        exact ih.reconcile hreached.oneRecord hreached.named (h _ assign o hreached hallowed)
    exact ⟨htracked, htracked.shutdownReleases hreached.named⟩

/-- The upgrade of `users` fails to attach its disk: the disk and the mount of the previous
version, which is still served, are in no record. -/
theorem not_tracked_failedUpgrade :
  ¬ ∀ cfg a, Reached cfg (fun _ _ _ => True) a → a.Tracked ∧ a.ShutdownReleases
  := by
  intro h
  have htracked := (h ⟨"/mnt/kv"⟩ _
    (.reconcile (.of "users" "v2" "pvc-2") { attachDisk := some "timed out" }
      (.reconcile (.of "users" "v1" "pvc-1") {} .new trivial) trivial)).1
  obtain ⟨ds, hmem, hpv⟩ := htracked.disk "pvc-1" (.inl rfl)
  revert ds
  decide

end Agent

end NodeAgent
