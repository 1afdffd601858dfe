import Mcfreeze.Lib.Interleave
import Mcfreeze.ControlPlane.Controllers

/-!
# Deleting versions

Two reconcilers delete retired versions.  `DatasetVersionReconciler` waits until the volume of a
version is attached nowhere, deletes the volume and then the version; `DatasetReconciler`
deletes the oldest retired versions in excess of the retention, and does nothing about their
volumes.

The three controllers run side by side, an API call at a time, while users and agents change
the cluster.  In the runs in which the dataset reconciler never finds more retired versions
than the retention allows, every version with a volume that is deleted was drained before: its
volume had been deleted, and the attachments that were listed before that did not name it.
-/

namespace ControlPlane

open Crash Prog

namespace ApiServer

/-! ### Workers -/

/-- Each controller makes one call at a time. -/
inductive Worker where
  | dataset
  | version
  | cron
  deriving DecidableEq

def Call.worker : Call → Worker
  | .dataset _ _ _ => .dataset
  | .version _ _ => .version
  | .fire _ _ _ => .cron

/-- The calls of a worker. -/
def Starts (r : Reconciler) (i : Worker) (p : Control Result) : Prop :=
  ∃ c : Call, c.worker = i ∧ p = c.program r

/-- What is done from outside. -/
def Changes (s s' : ApiServer) : Prop :=
  ∃ o : Outside, s' = o.apply s

/-- The states the controllers reach together from an empty cluster, all of which are `within`
what is assumed. -/
abbrev Running (r : Reconciler) (within : ApiServer → Prop) :
    (Worker → Option (Control Result)) → ApiServer → Prop :=
  Interleaved Changes (Starts r) Blank within

/-! ### Histories -/

/-- The sources of the attachments that were listed last. -/
def lastListed : List Event → Option (List (Option String))
  | [] => none
  | .listedAttachments sources :: _ => some sources
  | _ :: history => lastListed history

/-- The volume was deleted, and the attachments listed before that did not name it. -/
def drained (pvName : String) : List Event → Bool
  | [] => false
  | .deletedPV pv :: history =>
    (pv = pvName && (lastListed history).any fun sources => !sources.contains (some pvName))
      || drained pvName history
  | _ :: history => drained pvName history

/-- Every version with a volume was drained before it was deleted. -/
def drainedBeforeDeletion : List Event → Bool
  | [] => true
  | .deletedVersion v :: history =>
    (v.pvName = "" || drained v.pvName history) && drainedBeforeDeletion history
  | _ :: history => drainedBeforeDeletion history

/-- Whenever the dataset reconciler listed the versions of a dataset, its retention allowed for
the retired ones. -/
def withinRetention : List Event → Bool
  | [] => true
  | .listedVersions ds items :: history =>
    (ds.retention ≤ 0 || (retiredVersions items).length ≤ ds.retention) && withinRetention history
  | _ :: history => withinRetention history

/-- Events that have nothing to do with volumes. -/
def quiet : Event → Bool
  | .listedVersions _ _ | .created _ _ => true
  | _ => false

theorem quiet_cases {e : Event} (h : quiet e = true) :
  (∃ ds items, e = .listedVersions ds items) ∨ ∃ v others, e = .created v others
  := by
  cases e with
  | listedVersions ds items => exact .inl ⟨ds, items, rfl⟩
  | created v others => exact .inr ⟨v, others, rfl⟩
  | listedAttachments sources => simp [quiet] at h
  | deletedPV pvName => simp [quiet] at h
  | deletedVersion v => simp [quiet] at h

section

variable {events history : List Event}

theorem lastListed_append (h : ∀ e ∈ events, quiet e = true) :
  lastListed (events ++ history) = lastListed history
  := by
  induction events with
  | nil => rfl
  | cons e events ih =>
    have hrest := ih fun e he => h e (List.mem_cons_of_mem _ he)
    obtain ⟨ds, items, rfl⟩ | ⟨v, others, rfl⟩ := quiet_cases (h e List.mem_cons_self)
    · exact hrest
    · exact hrest

theorem drained_append {pvName : String} (h : drained pvName history = true) :
  drained pvName (events ++ history) = true
  := by
  induction events with
  | nil => exact h
  | cons e events ih =>
    cases e with
    | deletedPV pv => simp [drained, ih]
    | _ => exact ih

theorem drainedBeforeDeletion_append (h : ∀ e ∈ events, quiet e = true) :
  drainedBeforeDeletion (events ++ history) = drainedBeforeDeletion history
  := by
  induction events with
  | nil => rfl
  | cons e events ih =>
    have hrest := ih fun e he => h e (List.mem_cons_of_mem _ he)
    obtain ⟨ds, items, rfl⟩ | ⟨v, others, rfl⟩ := quiet_cases (h e List.mem_cons_self)
    · exact hrest
    · exact hrest

end

/-! ### Terms -/

/-- The names are distinct, and the versions that were deleted had been drained. -/
structure DrainsInv (s : ApiServer) : Prop where
  names : (s.versions.map (·.name)).Nodup
  deleted : drainedBeforeDeletion s.history = true

/-- What the version reconciler leaves to others: they do not list attachments or delete
volumes and versions, and a version they create has no volume. -/
structure Leaves (s s' : ApiServer) : Prop where
  history : ∃ events, s'.history = events ++ s.history ∧ ∀ e ∈ events, quiet e = true
  volumes : ∀ w ∈ s'.versions, w.pvName ≠ "" →
    ∃ v ∈ s.versions, v.name = w.name ∧ v.pvName = w.pvName

theorem Leaves.refl (s : ApiServer) :
  Leaves s s
  where
  history := ⟨[], rfl, by simp⟩
  volumes w hw _ := ⟨w, hw, rfl, rfl⟩

/-- Two steps leave to others what each of them leaves. -/
theorem Leaves.trans {s₁ s₂ s₃ : ApiServer} (h₁ : Leaves s₁ s₂) (h₂ : Leaves s₂ s₃) :
  Leaves s₁ s₃
  := by
  constructor
  · obtain ⟨events₁, heq₁, hquiet₁⟩ := h₁.history
    obtain ⟨events₂, heq₂, hquiet₂⟩ := h₂.history
    refine ⟨events₂ ++ events₁, by rw [heq₂, heq₁, List.append_assoc], ?_⟩
    intro e he
    rcases List.mem_append.mp he with he | he
    · exact hquiet₂ e he
    · exact hquiet₁ e he
  · intro w hw hpv
    obtain ⟨v, hv, hname, hpv'⟩ := h₂.volumes w hw hpv
    obtain ⟨u, hu, huname, hupv⟩ := h₁.volumes v hv (hpv' ▸ hpv)
    exact ⟨u, hu, huname.trans hname, hupv.trans hpv'⟩

/-- The terms of a worker: only the version reconciler relies on the others. -/
def terms : Worker → Terms ApiServer
  | .version => ⟨DrainsInv, (withinRetention ·.history = true), Leaves, fun _ _ => True⟩
  | _ => ⟨DrainsInv, (withinRetention ·.history = true), fun _ _ => True, Leaves⟩

/-! ### The dataset reconciler and the cron table -/

section

variable {s : ApiServer} {T : Terms ApiServer}

theorem Leaves.record (s : ApiServer) {e : Event} (he : quiet e = true) :
  Leaves s { s with history := e :: s.history }
  where
  history := ⟨[e], rfl, by simpa using he⟩
  volumes w hw _ := ⟨w, hw, rfl, rfl⟩

theorem DrainsInv.record (h : DrainsInv s) {e : Event} (he : quiet e = true) :
  DrainsInv { s with history := e :: s.history }
  where
  names := h.names
  deleted := by
    have happend : drainedBeforeDeletion ([e] ++ s.history) = drainedBeforeDeletion s.history := by
      apply drainedBeforeDeletion_append
      simpa using he
    exact happend.trans h.deleted

/-- Nothing depends on the datasets and the attachments. -/
theorem DrainsInv.unchanged (h : DrainsInv s) {s' : ApiServer} (hversions : s'.versions = s.versions)
    (hhistory : s'.history = s.history) :
  DrainsInv s' ∧ Leaves s s'
  := by
  refine ⟨⟨?_, ?_⟩, ⟨[], hhistory, by simp⟩, ?_⟩
  · rw [hversions]
    exact h.names
  · rw [hhistory]
    exact h.deleted
  · rw [hversions]
    exact (Leaves.refl s).volumes

/-- A version that is created has no volume. -/
theorem DrainsInv.create (h : DrainsInv s) {v : DatasetVersion} (hpv : v.pvName = "")
    (hnew : ¬ s.versions.any (·.name = v.name)) :
  DrainsInv { s with versions := v :: s.versions } ∧ Leaves s { s with versions := v :: s.versions }
  := by
  have hfresh : ∀ w ∈ s.versions, w.name ≠ v.name := by simpa using hnew
  refine ⟨⟨?_, h.deleted⟩, ⟨⟨[], rfl, by simp⟩, ?_⟩⟩
  · rw [List.map_cons, List.nodup_cons]
    refine ⟨?_, h.names⟩
    intro hmem
    obtain ⟨w, hw, hname⟩ := List.mem_map.mp hmem
    exact hfresh w hw hname
  · intro w hw hwpv
    rcases List.mem_cons.mp hw with rfl | hw
    · exact absurd hpv hwpv
    · exact ⟨w, hw, rfl, rfl⟩

/-- A version is created without a volume. -/
theorem behaves_create {v : DatasetVersion} {Q : Unit → ApiServer → Prop} (hpv : v.pvName = "")
    (hQ : ∀ s, Q () s) :
  Behaves (terms .dataset) Q (create v) s
  := by
  apply Behaves.modify
  intro s' _ hs' _
  suffices hcreated : DrainsInv (if s'.versions.any (·.name = v.name) then s'
        else { s' with versions := v :: s'.versions, history := .created v s'.versions :: s'.history })
      ∧ Leaves s' (if s'.versions.any (·.name = v.name) then s'
        else { s' with versions := v :: s'.versions, history := .created v s'.versions :: s'.history }) from
    ⟨hcreated.1, hcreated.2, hQ _⟩
  split
  · exact ⟨hs', .refl s'⟩
  · next hnew =>
    obtain ⟨hinv, hleaves⟩ := hs'.create hpv hnew
    exact ⟨hinv.record rfl, hleaves.trans (.record _ rfl)⟩

theorem behaves_getDataset {name : String} {Q : Option DatasetObject → ApiServer → Prop}
    (hrefl : ∀ s, T.guarantee s s) (hQ : ∀ ds s', T.rely s s' → Q ds s') :
  Behaves T Q (getDataset name) s
  := by
  apply Behaves.bind
  apply Behaves.read hrefl
  intro s' hrely _
  exact hQ _ s' hrely

/-- A listing shows no more retired versions than the retention allows. -/
theorem behaves_listVersions {ds : DatasetObject} {Q : List DatasetVersion → ApiServer → Prop}
    (hQ : ∀ items s, (ds.retention ≤ 0 ∨ (retiredVersions items).length ≤ ds.retention) → Q items s) :
  Behaves (terms .dataset) Q (listVersions ds) s
  := by
  apply Behaves.bind
  apply Behaves.pick
  intro k
  apply Behaves.atomic Leaves.refl
  intro s' _ hs' items s'' heq hwithin
  obtain ⟨rfl, rfl⟩ := Prod.mk.inj (Except.ok.inj heq)
  refine ⟨hs'.record rfl, .record s' rfl, hQ _ _ ?_⟩
  have hretention := (Bool.and_eq_true_iff.mp hwithin).1
  simpa using hretention

/-- Nothing is deleted when the retention allows for all retired versions. -/
theorem enforceRetention_within {ds : DatasetObject} {items : List DatasetVersion}
    (h : ds.retention ≤ 0 ∨ (retiredVersions items).length ≤ ds.retention) :
  enforceRetention ds items = pure ()
  := by
  unfold enforceRetention
  split
  · rfl
  · next hpos =>
    have hlength := h.resolve_left hpos
    dsimp only
    rw [if_pos hlength]

/-- The status of a dataset is no concern of its versions. -/
theorem behaves_patchAggregateStatus {ds : DatasetObject} {items : List DatasetVersion}
    {Q : Unit → ApiServer → Prop} (hQ : ∀ s, Q () s) :
  Behaves (terms .dataset) Q (patchAggregateStatus ds items) s
  := by
  unfold patchAggregateStatus
  dsimp only
  split
  · exact hQ s
  · apply Behaves.atomic Leaves.refl
    intro s' _ hs' _ s'' heq _
    split at heq
    · obtain ⟨-, rfl⟩ := Prod.mk.inj (Except.ok.inj heq)
      have hunchanged : ∀ datasets, DrainsInv { s' with datasets } ∧ Leaves s' { s' with datasets } :=
        fun _ => hs'.unchanged rfl rfl
      exact ⟨(hunchanged _).1, (hunchanged _).2, hQ _⟩
    · simp at heq

/-- The dataset controller deletes only versions whose volume has been taken care of. -/
theorem behaves_reconcileDataset (name : String) (sync : Option String) (now : Int) :
  Behaves (terms .dataset) (fun _ _ => True) (reconcileDataset name sync now) s
  := by
  apply Behaves.bind
  apply behaves_getDataset Leaves.refl
  intro ds s₁ _
  cases ds with
  | none => trivial
  | some ds =>
    cases sync with
    | some err => trivial
    | none =>
      apply Behaves.bind
      apply behaves_listVersions
      intro items s₂ hretention
      apply Behaves.bind
      suffices hrest : ∀ s, Behaves (terms .dataset) (fun _ _ => True)
          (do
            enforceRetention ds items
            patchAggregateStatus ds items
            return {} : Control Result) s by
        unfold ensureVersion
        split
        · exact hrest s₂
        · exact behaves_create rfl hrest
      intro s₃
      rw [enforceRetention_within hretention]
      apply Behaves.bind (p := patchAggregateStatus ds items)
      apply behaves_patchAggregateStatus
      intro s₄
      trivial

theorem always_listVersions (dataset : String) :
  (ControlPlane.listVersions dataset).Always fun versions versions' => versions' = versions
  :=
  ⟨fun _ => rfl, fun _ _ => trivial⟩

/-- The cron entry of a dataset deletes nothing. -/
theorem behaves_fire (ds : DatasetObject) (versionID : String) (now : Int) :
  Behaves (terms .dataset) (fun _ _ => True) (fire ds versionID now) s
  := by
  apply Behaves.bind
  have hlist : Behaves (terms .dataset) (fun _ _ => True)
      (onVersions (ControlPlane.listVersions ds.name)) s := by
    apply Behaves.lift _ (always_listVersions ds.name)
    rintro _ s' hs' rfl
    exact ⟨hs', .refl s'⟩
  apply hlist.mono
  intro siblings s' _
  split
  · trivial
  · apply Behaves.bind
    apply behaves_create rfl
    intro s''
    trivial

/-! ### The version reconciler -/

/-- The names of the versions stay. -/
def SameNames (versions versions' : List DatasetVersion) : Prop :=
  versions'.map (·.name) = versions.map (·.name)

/-- A patch keeps the names of all versions. -/
theorem always_patchStatus {name : String} {change : DatasetVersion → DatasetVersion}
    (hname : ∀ v, (change v).name = v.name) :
  (patchStatus name change).Always SameNames
  := by
  have hrefl : ∀ versions, SameNames versions versions := fun _ => rfl
  apply Always.atomic hrefl
  intro versions _ versions' heq
  split at heq
  · obtain ⟨-, rfl⟩ := Prod.mk.inj (Except.ok.inj heq)
    exact names_changeVersion hname
  · simp at heq

theorem always_markFailed (v : DatasetVersion) (reason : String) :
  (markFailed v reason).Always SameNames
  :=
  Always.bind (always_patchStatus fun _ => rfl) fun _ => trivial

theorem always_startBuild (ans : Answers) (v : DatasetVersion) :
  (startBuild ans v).Always SameNames
  := by
  unfold startBuild
  split
  · apply always_markFailed
  · trivial
  · split
    · apply always_markFailed
    · exact Always.bind (always_patchStatus fun _ => rfl) fun _ => trivial

theorem always_completeBuild (r : Reconciler) (ans : Answers) (v : DatasetVersion)
    (snapPath pvName : String) :
  (completeBuild r ans v snapPath pvName).Always SameNames
  := by
  unfold completeBuild
  dsimp only
  generalize (if pvName = "" ∧ r.volumeBase ≠ "" then ans.symlink else none) = symlink
  split
  · apply always_markFailed
  · exact Always.bind (always_patchStatus fun _ => rfl) fun _ => trivial

/-- The reconcile of a building version keeps the names of all versions. -/
theorem always_reconcileBuilding (r : Reconciler) (ans : Answers) (v : DatasetVersion) :
  (reconcileBuilding r ans v).Always SameNames
  := by
  unfold reconcileBuilding
  generalize (if r.buildTimeout = 0 then defaultBuildTimeout else r.buildTimeout) = timeout
  dsimp only
  split
  · apply always_startBuild
  · split
    · apply always_markFailed
    · split
      · trivial
      · trivial
      · apply always_completeBuild
      · apply always_markFailed
      · apply always_markFailed

/-- The reconcile of a ready version keeps the names of all versions. -/
theorem always_reconcileReady (v : DatasetVersion) :
  (reconcileReady v).Always SameNames
  := by
  apply Always.bind
  · exact ⟨fun _ => rfl, fun _ _ => trivial⟩
  · intro siblings
    apply Always.bind
    · apply Always.forM
      intro w
      unfold demote
      split
      · trivial
      · exact always_patchStatus fun _ => rfl
    · intro _
      exact Always.bind (always_patchStatus fun _ => rfl) fun _ => trivial

theorem always_reconcileFailed (ans : Answers) :
  (reconcileFailed ans).Always SameNames
  := by
  unfold reconcileFailed
  split
  · trivial
  · trivial

/-- A program over the versions whose names stay. -/
theorem behaves_onVersions {α : Type} {p : Api α} (hp : p.Always SameNames) :
  Behaves (terms .version) (fun _ _ => True) (onVersions p) s
  := by
  apply Behaves.lift _ hp
  intro versions s' hs' hnames
  refine ⟨⟨?_, hs'.deleted⟩, trivial⟩
  exact hnames ▸ hs'.names

/-- What the call on a version knows of it: under its name there is no other volume. -/
def Knows (v : DatasetVersion) (s : ApiServer) : Prop :=
  ∀ w ∈ s.versions, w.name = v.name → w.pvName ≠ "" → w.pvName = v.pvName

theorem Knows.leaves {v : DatasetVersion} {s' : ApiServer} (h : Knows v s) (hleaves : Leaves s s') :
  Knows v s'
  := by
  intro w hw hname hpv
  obtain ⟨u, hu, huname, hupv⟩ := hleaves.volumes w hw hpv
  rw [← hupv]
  exact h u hu (huname.trans hname) (hupv ▸ hpv)

/-- A version that has been drained, if it has a volume, can be deleted. -/
theorem behaves_delete {v : DatasetVersion} {Q : Unit → ApiServer → Prop} (hknows : Knows v s)
    (hdrained : v.pvName ≠ "" → drained v.pvName s.history = true) (hQ : ∀ s, Q () s) :
  Behaves (terms .version) Q (delete v.name) s
  := by
  apply Behaves.modify
  intro s' hrely hs' _
  refine ⟨?_, trivial, hQ _⟩
  obtain ⟨-, heq⟩ | ⟨w, hw, hname, heq⟩ := deleted_cases v.name s'
  · rw [heq]
    exact hs'
  · rw [heq]
    refine ⟨hs'.names.sublist (List.filter_sublist.map _), ?_⟩
    rw [drainedBeforeDeletion, hs'.deleted, Bool.and_true, Bool.or_eq_true, decide_eq_true_eq]
    by_cases hpv : w.pvName = ""
    · exact .inl hpv
    · right
      have hsame := hknows.leaves hrely w hw hname hpv
      rw [hsame] at hpv ⊢
      obtain ⟨events, hevents, -⟩ := hrely.history
      rw [hevents]
      exact drained_append (hdrained hpv)

/-- The version controller lets go of a retired version only when it was drained and its volume
is deleted. -/
theorem behaves_reconcileRetired {r : Reconciler} (hvolume : r.hasVolume = true) {v : DatasetVersion}
    (hknows : Knows v s) :
  Behaves (terms .version) (fun _ _ => True) (reconcileRetired r v) s
  := by
  unfold reconcileRetired
  split
  · next hpv =>
    apply Behaves.bind
    apply behaves_delete hknows (absurd hpv)
    intro _
    trivial
  · apply Behaves.bind
    apply Behaves.atomic (fun _ => trivial)
    intro s₁ hrely₁ hs₁ sources s₂ heq _
    obtain ⟨rfl, rfl⟩ := Prod.mk.inj (Except.ok.inj heq)
    refine ⟨⟨hs₁.names, hs₁.deleted⟩, trivial, ?_⟩
    have hknows₁ := hknows.leaves hrely₁
    split
    · trivial
    · next hsources =>
      apply Behaves.bind
      apply Behaves.modify
      intro s₃ hrely₃ hs₃ _
      refine ⟨⟨hs₃.names, hs₃.deleted⟩, trivial, ?_⟩
      apply Behaves.bind
      have hknows₂ : Knows v { s₁ with history := .listedAttachments s₁.attachments :: s₁.history } :=
        hknows₁
      have hknows₃ : Knows v s₃ := hknows₂.leaves hrely₃
      apply behaves_delete (s := { s₃ with history := .deletedPV v.pvName :: s₃.history }) hknows₃
      · intro _
        obtain ⟨events, heq, hquiet⟩ := hrely₃.history
        have hlisted : lastListed s₃.history = some s₁.attachments := by
          rw [heq, lastListed_append hquiet]
          rfl
        simp [drained, hlisted, hsources]
      · intro _
        trivial

/-- The lookup of the dataset of a version changes nothing. -/
theorem behaves_parentDataset (v : DatasetVersion) :
  Behaves (terms .version) (fun _ _ => True) (parentDataset v) s
  := by
  unfold parentDataset
  split
  · apply Behaves.bind
    apply behaves_getDataset (fun _ => trivial)
    intro ds s' _
    cases ds with
    | none => trivial
    | some ds => trivial
  · trivial

theorem behaves_getVersion {name : String} {Q : Option DatasetVersion → ApiServer → Prop}
    (hQ : ∀ s, DrainsInv s → Q (s.versions.find? (·.name = name)) s) :
  Behaves (terms .version) Q (onVersions (getVersion name)) s
  := by
  intro s' _ hs' _
  exact ⟨hs', trivial, hQ s' hs'⟩

/-- Every reconcile of the version controller keeps to what it has promised the others. -/
theorem behaves_reconcileVersion {r : Reconciler} (hvolume : r.hasVolume = true) (name : String)
    (ans : Answers) :
  Behaves (terms .version) (fun _ _ => True) (reconcileVersion r name ans) s
  := by
  have hbuilding : ∀ v s, Behaves (terms .version) (fun _ _ => True)
      (do
        let dataset ← parentDataset v
        onVersions (reconcileBuilding r { ans with dataset } v) : Control Result) s := by
    intro v s
    apply Behaves.bind
    apply (behaves_parentDataset v).mono
    intro dataset s' _
    exact behaves_onVersions (always_reconcileBuilding _ _ _)
  apply Behaves.bind
  apply behaves_getVersion
  intro s' hs'
  cases hfind : s'.versions.find? (·.name = name) with
  | none => trivial
  | some v =>
    dsimp only
    cases v.state.getD .building with
    | building => apply hbuilding
    | ready => exact behaves_onVersions (always_reconcileReady v)
    | active => trivial
    | retired =>
      apply behaves_reconcileRetired hvolume
      intro w hw hname _
      have hv := List.mem_of_find?_eq_some hfind
      rw [List.inj_on_of_nodup_map hs'.names hw hv hname]
    | failed => exact behaves_onVersions (always_reconcileFailed ans)

end

/-! ### Runs -/

/-- What is done from outside keeps the invariant, and leaves the version reconciler alone. -/
theorem Outside.leaves (o : Outside) {s : ApiServer} (h : DrainsInv s) :
  DrainsInv (o.apply s) ∧ Leaves s (o.apply s)
  := by
  cases o with
  | create ds versionID now =>
    unfold Outside.apply
    dsimp only
    split
    · exact ⟨h, .refl s⟩
    · next hnew => exact h.create rfl hnew
  | delete name =>
    refine ⟨⟨h.names.sublist (List.filter_sublist.map _), h.deleted⟩, ⟨⟨[], rfl, by simp⟩, ?_⟩⟩
    intro w hw _
    exact ⟨w, List.mem_of_mem_filter hw, rfl, rfl⟩
  | edit datasets => exact h.unchanged rfl rfl
  | attach attachments => exact h.unchanged rfl rfl

/-- With a volume manager, in every run in which the dataset reconciler never lists more retired
versions than the retention of the dataset allows, every version with a volume had been
drained before it was deleted. -/
theorem deleted_versions_were_drained (r : Reconciler) (hvolume : r.hasVolume = true)
    (calls : Worker → Option (Control Result)) (s : ApiServer)
    (h : Running r (withinRetention ·.history = true) calls s) :
  drainedBeforeDeletion s.history = true
  := by
  have hsafe := Interleaved.safe (T := terms) (I := DrainsInv) ?_ ?_ ?_ ?_ ?_ ?_ ?_ h
  · exact hsafe.1.deleted
  · intro i
    cases i <;> exact ⟨rfl, rfl⟩
  · intro i s
    cases i with
    | version => exact .refl s
    | _ => trivial
  · intro i s₁ s₂ s₃ h₁ h₂
    cases i with
    | version => exact Leaves.trans h₁ h₂
    | _ => trivial
  · rintro s ⟨hversions, hhistory⟩
    refine ⟨?_, ?_⟩
    · rw [hversions]
      exact List.nodup_nil
    · rw [hhistory]
      rfl
  · rintro s _ hs ⟨o, rfl⟩
    obtain ⟨hinv, hleaves⟩ := o.leaves hs
    refine ⟨hinv, ?_⟩
    intro i
    cases i with
    | version => exact hleaves
    | _ => trivial
  · rintro i p s ⟨c, rfl, rfl⟩ _
    cases c with
    | dataset name sync now => exact behaves_reconcileDataset name sync now
    | version name ans => exact behaves_reconcileVersion hvolume name ans
    | fire ds versionID now => exact behaves_fire ds versionID now
  · intro i j s s' hij hguarantee
    cases j with
    | version =>
      cases i with
      | version => exact absurd rfl hij
      | _ => exact hguarantee
    | _ => trivial

/-! ### Runs that are computed -/

/-- The states that some commands come by, one after the other. -/
def trail (r : Reconciler) : List (Call ⊕ Outside) → ApiServer → List ApiServer
  | [], _ => []
  | .inl c :: commands, s =>
    (c.program r).visited 0 s ++ trail r commands ((c.program r).run 0 s).2
  | .inr o :: commands, s => o.apply s :: trail r commands (o.apply s)

/-- Calls that are made one after the other are a run. -/
theorem after_running {r : Reconciler} {within : ApiServer → Prop} (commands : List (Call ⊕ Outside))
    {s : ApiServer} (h : Running r within (fun _ => none) s)
    (hwithin : ∀ t ∈ trail r commands s, within t) :
  Running r within (fun _ => none) (after r commands s)
  := by
  induction commands generalizing s with
  | nil => exact h
  | cons c commands ih =>
    cases c with
    | inl c =>
      apply ih (s := ((c.program r).run 0 s).2)
      · apply h.run 0 rfl ⟨c, rfl, rfl⟩
        intro t ht
        exact hwithin t (List.mem_append_left _ ht)
      · intro t ht
        exact hwithin t (List.mem_append_right _ ht)
    | inr o =>
      apply ih (s := o.apply s)
      · exact .world h ⟨o, rfl⟩ (hwithin _ List.mem_cons_self)
      · intro t ht
        exact hwithin t (List.mem_cons_of_mem _ ht)

/-- The calls that take a version from its creation to its promotion. -/
def promoted (name : String) : List (Call ⊕ Outside) :=
  [.inl (.version name goodAnswers), .inl (.version name goodAnswers), .inl (.version name goodAnswers)]

/-- The first version of `users` is replaced by a second one, and reconciled when it is
retired. -/
def firstRetired : List (Call ⊕ Outside) :=
  [.inr (.edit [users]), .inl (.dataset "users" none 0)] ++ promoted "users-v1"
    ++ [.inl (.fire users "20260101-000000" 1)] ++ promoted "users-20260101-000000"
    ++ [.inl (.dataset "users" none 2), .inl (.version "users-v1" goodAnswers)]

/-- The volume of the first version is deleted, and then the version. -/
theorem deleted_versions_were_drained_first :
  ((after {} firstRetired blank).versions.map fun v => (v.name, v.state))
      = [("users-20260101-000000", some .active)]
    ∧ .deletedPV "pv-users-v1" ∈ (after {} firstRetired blank).history
    ∧ drainedBeforeDeletion (after {} firstRetired blank).history = true
  := by
  have hwithin : ∀ t ∈ trail {} firstRetired blank, withinRetention t.history = true := by
    decide +kernel
  have hrunning : Running {} (withinRetention ·.history = true) (fun _ => none)
      (after {} firstRetired blank) := after_running firstRetired (.init ⟨rfl, rfl⟩) hwithin
  exact ⟨by decide +kernel, by decide +kernel, deleted_versions_were_drained {} rfl _ _ hrunning⟩

/-- Two versions of `users` are retired while the first one is attached, and the dataset is
reconciled. -/
def attachedRetired : List (Call ⊕ Outside) :=
  [.inr (.edit [users]), .inl (.dataset "users" none 0)] ++ promoted "users-v1"
    ++ [.inr (.attach [some "pv-users-v1"]), .inl (.fire users "20260101-000000" 1)]
    ++ promoted "users-20260101-000000" ++ [.inl (.fire users "20260102-000000" 2)]
    ++ promoted "users-20260102-000000" ++ [.inl (.dataset "users" none 3)]

/-- The oldest version is deleted although its volume is attached and was never deleted. -/
theorem retention_deletes_attached :
  Running {} (fun _ => True) (fun _ => none) (after {} attachedRetired blank)
    ∧ ((after {} attachedRetired blank).versions.map fun v => (v.name, v.state))
      = [("users-20260102-000000", some .active), ("users-20260101-000000", some .retired)]
    ∧ some "pv-users-v1" ∈ (after {} attachedRetired blank).attachments
    ∧ drainedBeforeDeletion (after {} attachedRetired blank).history = false
  := by
  refine ⟨after_running attachedRetired (.init ⟨rfl, rfl⟩) fun _ _ => trivial, ?_, ?_, ?_⟩
  · decide +kernel
  · decide +kernel
  · decide +kernel

end ApiServer

end ControlPlane
