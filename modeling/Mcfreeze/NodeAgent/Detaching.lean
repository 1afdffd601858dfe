import Mcfreeze.NodeAgent.Tracking

/-!
# Detaching a disk

A disk should be detached only when nothing is mounted from it.  The agent detaches in the
cleanup of an upgrade and in `Shutdown`, in both cases after an unmount whose failure is only
logged, and without one when the record has no mount path.

In the runs in which a mount is always followed by a promotion, in which no two records share
a disk, and in which the unmounts that matter succeed, no disk is detached that is still
mounted.
-/

namespace NodeAgent

open ControlPlane Agent

/-- A volume was mounted at a path, and the path has not been unmounted since. -/
def StillMounted (path pvName : String) : List Event → Prop
  | [] => False
  | .mount path' pvName' true :: before =>
    path' = path ∧ pvName' = pvName ∨ StillMounted path pvName before
  | .unmount path' true :: before => path' ≠ path ∧ StillMounted path pvName before
  | _ :: before => StillMounted path pvName before

/-- Whenever a disk was detached, nothing was mounted from it. -/
def DetachesUnmounted (history : List Event) : Prop :=
  ∀ pvName ok before, (.detach pvName ok :: before) <:+ history →
    ∀ path, ¬ StillMounted path pvName before

/-- What keeps the mounts and the records of volumes together: a reconcile that mounts is
completed; a volume that is still mounted is reconciled with success and at the same path; it
is not the volume of another dataset; and the volume of the previous version is another one,
whose unmount succeeds. -/
structure Confined (cfg : Config) (a : Agent) (assign : NodeAssignment) (o : Outcomes) : Prop where
  completes : ¬ a.Skips assign → Mounts cfg assign o → Succeeds cfg assign o
  elsewhere : ¬ a.Skips assign → ∀ path, StillMounted path assign.version.pvName a.history →
    Succeeds cfg assign o ∧ path = cfg.mountPath assign.dataset assign.version.id
  others : ¬ a.Skips assign → Mounts cfg assign o → ∀ ds ∈ a.datasets,
    ds.dataset ≠ assign.dataset → ds.pvName ≠ assign.version.pvName
  cleanup : ¬ a.Skips assign → Succeeds cfg assign o → a.Replaces assign →
    (a.datasetState assign.dataset).pvName ≠ assign.version.pvName
      ∧ (StillMounted (a.datasetState assign.dataset).mountPath
          (a.datasetState assign.dataset).pvName a.history → o.unmount = none)

/-- The attempts to unmount end in success. -/
def unmounts : UnmountResult → List UnmountResult → Bool
  | .ok, _ => true
  | .failed, _ => false
  | .busy, [] => false
  | .busy, next :: rest => unmounts next rest

/-- In `Shutdown` the path of a record is unmounted, if the volume of the record is still
mounted there. -/
def ShutdownUnmounts (a : Agent) (o : DatasetState → ShutdownOutcome) : Prop :=
  ∀ ds ∈ a.datasets, StillMounted ds.mountPath ds.pvName a.history →
    unmounts (o ds).first (o ds).rest = true

/-- The agents of the runs of allowed reconciles, before and after an allowed `Shutdown`. -/
inductive Run (cfg : Config) (allowed : Agent → NodeAssignment → Outcomes → Prop)
    (allowedShutdown : Agent → (DatasetState → ShutdownOutcome) → Prop) : Agent → Prop where
  | running {a} : Reached cfg allowed a → Run cfg allowed allowedShutdown a
  | shutdown {a} (snapshot : List DatasetState) (o : DatasetState → ShutdownOutcome) :
      Reached cfg allowed a → snapshot.Perm a.datasets → allowedShutdown a o →
      Run cfg allowed allowedShutdown (a.shutdown snapshot o)

section

variable {cfg : Config} {assign : NodeAssignment} {o : Outcomes} {a : Agent}

/-- A path with a volume that is still mounted is mounted. -/
theorem StillMounted.mounted {path pvName : String} {history : List Event}
    (h : StillMounted path pvName history) :
  Mounted path history
  := by
  fun_induction StillMounted path pvName history with
  | case1 => exact h
  | case2 path' pvName' before ih =>
    rcases h with ⟨heq, -⟩ | h
    · exact .inl heq
    · exact .inr (ih h)
  | case3 path' before ih => exact ⟨h.1, ih h.2⟩
  | case4 event before hmount hunmount ih =>
    rw [Mounted]
    · exact ih h
    · exact hmount
    · exact hunmount

theorem stillMounted_unmount {history : List Event} {ok : Bool} {path path' pvName : String} :
  StillMounted path pvName (.unmount path' ok :: history)
    ↔ StillMounted path pvName history ∧ ¬ (ok = true ∧ path' = path)
  := by
  cases ok with
  | false => simp [StillMounted]
  | true => simp [StillMounted, and_comm]

theorem stillMounted_detach {history : List Event} {ok : Bool} {path pvName pvName' : String} :
  StillMounted path pvName (.detach pvName' ok :: history) ↔ StillMounted path pvName history
  := by
  cases ok <;> rfl

theorem stillMounted_early {events history : List Event} (h : EarlyFailure cfg assign events)
    {path pvName : String} :
  StillMounted path pvName (events ++ history) ↔ StillMounted path pvName history
  := by
  cases h with
  | volume => rfl
  | attach => rfl
  | device => rfl
  | mount => rfl

theorem stillMounted_promoted {path pvName : String} :
  StillMounted path pvName (promoted cfg assign a).history
    ↔ cfg.mountPath assign.dataset assign.version.id = path ∧ assign.version.pvName = pvName
      ∨ StillMounted path pvName a.history
  := Iff.rfl

/-- An event that is not a detach does not matter. -/
theorem DetachesUnmounted.cons {history : List Event} {event : Event} (h : DetachesUnmounted history)
    (hevent : ∀ pvName ok, event ≠ .detach pvName ok) :
  DetachesUnmounted (event :: history)
  := by
  intro pvName ok before hsuffix
  apply h pvName ok before (List.suffix_of_suffix_cons hsuffix (hevent pvName ok))

theorem DetachesUnmounted.detach {history : List Event} {pvName : String} (ok : Bool)
    (h : DetachesUnmounted history) (hmounted : ∀ path, ¬ StillMounted path pvName history) :
  DetachesUnmounted (.detach pvName ok :: history)
  := by
  intro pvName' ok' before hsuffix
  rcases List.suffix_cons_iff.mp hsuffix with heq | hsuffix
  · rw [List.cons.injEq, Event.detach.injEq] at heq
    obtain ⟨⟨rfl, -⟩, rfl⟩ := heq
    exact hmounted
  · apply h pvName' ok' before hsuffix

theorem DetachesUnmounted.early {events history : List Event} (h : DetachesUnmounted history)
    (hevents : EarlyFailure cfg assign events) :
  DetachesUnmounted (events ++ history)
  := by
  cases hevents with
  | volume => exact h
  | attach => exact h.cons (by simp)
  | device => exact h.cons (by simp)
  | mount => exact (h.cons (by simp)).cons (by simp)

/-- A record knows the only path at which its volume is still mounted. -/
def Agent.KnowsMounts (a : Agent) : Prop :=
  ∀ path pvName, StillMounted path pvName a.history →
    ∀ ds ∈ a.datasets, ds.pvName = pvName → ds.mountPath = path

/-- A failure before the `Mount`, on a volume that is mounted nowhere. -/
theorem Agent.KnowsMounts.failed (h : a.KnowsMounts)
    (helsewhere : ∀ path, ¬ StillMounted path assign.version.pvName a.history) {err : String}
    {catalog : Option (List CatalogEntry)} {history : List Event}
    (hhistory : ∀ path pvName, StillMounted path pvName history ↔ StillMounted path pvName a.history) :
  KnowsMounts ⟨(a.insert (a.errorRecord assign err)).datasets, catalog, history⟩
  := by
  intro path pvName hmounted ds hmem hpv
  rw [hhistory] at hmounted
  rcases mem_insert.mp hmem with rfl | ⟨hmem, -⟩
  · subst hpv
    exact absurd hmounted (helsewhere path)
  · exact h path pvName hmounted ds hmem hpv

/-- A promotion records what it mounts. -/
theorem Agent.KnowsMounts.promoted (h : a.KnowsMounts) (hskips : ¬ a.Skips assign)
    (hsucceeds : Succeeds cfg assign o) (hconfined : Confined cfg a assign o) :
  (promoted cfg assign a).KnowsMounts
  := by
  intro path pvName hmounted ds hmem hpv
  rcases mem_insert.mp hmem with rfl | ⟨hmem, hne⟩
  · rcases stillMounted_promoted.mp hmounted with ⟨hpath, -⟩ | hbefore
    · exact hpath
    · subst hpv
      exact (hconfined.elsewhere hskips path hbefore).2.symm
  · rcases stillMounted_promoted.mp hmounted with ⟨-, hsame⟩ | hbefore
    · exact absurd (hpv.trans hsame.symm) (hconfined.others hskips hsucceeds.1 ds hmem hne)
    · exact h path pvName hbefore ds hmem hpv

/-- A cleanup mounts nothing. -/
theorem stillMounted_cleanup {prev : DatasetState} {history : List Event} {path pvName : String}
    (h : StillMounted path pvName (cleanupEvents prev o ++ history)) :
  StillMounted path pvName history
  := by
  unfold cleanupEvents at h
  rw [List.append_assoc] at h
  have hunmount : StillMounted path pvName ((if prev.mountPath ≠ "" then
      [.unmount prev.mountPath o.unmount.isNone] else []) ++ history) := by
    split at h
    · exact stillMounted_detach.mp h
    · exact h
  split at hunmount
  · exact (stillMounted_unmount.mp hunmount).1
  · exact hunmount

/-- A cleanup detaches a volume that is mounted nowhere, if it can only be mounted at the path
of the record and the unmount succeeds when it is mounted there. -/
theorem DetachesUnmounted.cleanup {prev : DatasetState} {history : List Event}
    (h : DetachesUnmounted history)
    (hmounted : ∀ path, StillMounted path prev.pvName history →
      prev.mountPath = path ∧ path ≠ "" ∧ o.unmount = none) :
  DetachesUnmounted (cleanupEvents prev o ++ history)
  := by
  have hunmount : DetachesUnmounted ((if prev.mountPath ≠ "" then
      [.unmount prev.mountPath o.unmount.isNone] else []) ++ history) := by
    split
    · exact h.cons (by simp)
    · exact h
  unfold cleanupEvents
  rw [List.append_assoc]
  split
  · refine hunmount.detach _ ?_
    intro path hstill
    by_cases hpath : prev.mountPath ≠ ""
    · rw [if_pos hpath] at hstill
      obtain ⟨hstill, hkept⟩ := stillMounted_unmount.mp hstill
      obtain ⟨heq, -, hok⟩ := hmounted path hstill
      rw [hok] at hkept
      exact hkept ⟨rfl, heq⟩
    · rw [if_neg hpath] at hstill
      obtain ⟨heq, hne, -⟩ := hmounted path hstill
      rw [heq] at hpath
      exact hpath hne
  · exact hunmount

/-- A reconcile that is confined keeps what the records know, and detaches nothing that is
mounted. -/
theorem Agent.KnowsMounts.reconcile (h : a.KnowsMounts) (hnamed : a.Named)
    (hdetaches : DetachesUnmounted a.history) (hconfined : Confined cfg a assign o) :
  (a.reconcile cfg assign o).KnowsMounts ∧ DetachesUnmounted (a.reconcile cfg assign o).history
  := by
  rcases reconcile_cases cfg assign o a with ⟨-, heq⟩ | ⟨hskips, hmounts, err, events, hevents, heq⟩
    | ⟨hskips, hmounts, hsucceeds, -⟩ | ⟨hskips, hsucceeds, heq⟩
  · rw [heq]
    exact ⟨h, hdetaches⟩
  · rw [heq]
    refine ⟨h.failed ?_ fun path pvName => stillMounted_early hevents, hdetaches.early hevents⟩
    intro path hmounted
    exact hmounts (hconfined.elsewhere hskips path hmounted).1.1
  · exact absurd (hconfined.completes hskips hmounts) hsucceeds
  · have hpromoted := h.promoted hskips hsucceeds hconfined
    have hevents : DetachesUnmounted (Agent.promoted cfg assign a).history := by
      refine DetachesUnmounted.cons (DetachesUnmounted.cons ?_ (by simp)) (by simp)
      exact (hdetaches.cons (by simp)).cons (by simp)
    rw [heq]
    by_cases hreplaces : a.Replaces assign
    · rw [if_pos hreplaces, cleanupOldVersion_eq]
      refine ⟨?_, ?_⟩
      · intro path pvName hmounted
        apply hpromoted path pvName (stillMounted_cleanup hmounted)
      · apply hevents.cleanup
        intro path hmounted
        obtain ⟨hother, hunmount⟩ := hconfined.cleanup hskips hsucceeds hreplaces
        rcases stillMounted_promoted.mp hmounted with ⟨-, hsame⟩ | hbefore
        · exact absurd hsame.symm hother
        · have hstate : a.datasetState assign.dataset ≠ {} := by
            intro hempty
            have hversion := hreplaces.2
            rw [hempty] at hversion
            exact hversion rfl
          have hpath := h path _ hbefore _ (datasetState_mem hstate).1 rfl
          subst hpath
          exact ⟨rfl, hnamed.mount _ hbefore.mounted, hunmount hbefore⟩
    · rw [if_neg hreplaces]
      exact ⟨hpromoted, hevents⟩

/-! ### Shutdown -/

/-- What is still mounted after an unmount was mounted before, and is not what was unmounted. -/
theorem stillMounted_unmountWithRetry {path path' pvName : String} (first : UnmountResult)
    (rest : List UnmountResult) (a : Agent)
    (h : StillMounted path' pvName (unmountWithRetry path first rest a).history) :
  StillMounted path' pvName a.history ∧ ¬ (unmounts first rest = true ∧ path = path')
  := by
  fun_induction unmountWithRetry path first rest a with
  | case1 rest a =>
    rw [unmounts]
    exact stillMounted_unmount.mp h
  | case2 rest a =>
    exact ⟨h, by simp [unmounts]⟩
  | case3 a =>
    exact ⟨h, by simp [unmounts]⟩
  | case4 next rest a ih =>
    obtain ⟨hbefore, hkept⟩ := ih h
    exact ⟨hbefore, hkept⟩

theorem DetachesUnmounted.unmountWithRetry (path : String) (first : UnmountResult)
    (rest : List UnmountResult) (a : Agent) (h : DetachesUnmounted a.history) :
  DetachesUnmounted (unmountWithRetry path first rest a).history
  := by
  fun_induction Agent.unmountWithRetry path first rest a with
  | case1 rest a => exact h.cons (by simp)
  | case2 rest a => exact h.cons (by simp)
  | case3 a => exact h.cons (by simp)
  | case4 next rest a ih => exact ih (h.cons (by simp))

/-- The release of a record detaches a volume that is mounted nowhere, if it can only be
mounted at the path of the record and is unmounted there. -/
theorem DetachesUnmounted.release {ds : DatasetState} {o : ShutdownOutcome}
    (h : DetachesUnmounted a.history)
    (hmounted : ∀ path, StillMounted path ds.pvName a.history →
      ds.mountPath = path ∧ path ≠ "" ∧ unmounts o.first o.rest = true) :
  DetachesUnmounted (a.release ds o).history
    ∧ ∀ path pvName, StillMounted path pvName (a.release ds o).history →
      StillMounted path pvName a.history
  := by
  unfold Agent.release
  by_cases hpath : ds.mountPath ≠ ""
  · rw [if_pos hpath]
    set b := Agent.unmountWithRetry ds.mountPath o.first o.rest a with hb
    have hunmounted : DetachesUnmounted b.history := h.unmountWithRetry _ _ _ _
    have hstill : ∀ path pvName, StillMounted path pvName b.history →
        StillMounted path pvName a.history ∧ ¬ (unmounts o.first o.rest = true ∧ ds.mountPath = path) := by
      intro path pvName hmounted
      exact stillMounted_unmountWithRetry _ _ _ hmounted
    split
    · refine ⟨hunmounted.detach _ ?_, ?_⟩
      · intro path hmounted'
        obtain ⟨hbefore, hkept⟩ := hstill path _ hmounted'
        obtain ⟨heq, -, hok⟩ := hmounted path hbefore
        exact hkept ⟨hok, heq⟩
      · intro path pvName hmounted'
        exact (hstill path pvName (stillMounted_detach.mp hmounted')).1
    · exact ⟨hunmounted, fun path pvName hmounted' => (hstill path pvName hmounted').1⟩
  · rw [if_neg hpath]
    split
    · refine ⟨h.detach _ ?_, ?_⟩
      · intro path hmounted'
        obtain ⟨heq, hne, -⟩ := hmounted path hmounted'
        rw [heq] at hpath
        exact hpath hne
      · intro path pvName hmounted'
        exact stillMounted_detach.mp hmounted'
    · exact ⟨h, fun path pvName => id⟩

/-- The shutdown detaches nothing that is mounted, if its records are right and its unmounts go
well. -/
theorem DetachesUnmounted.shutdown {snapshot : List DatasetState} {o : DatasetState → ShutdownOutcome}
    (h : DetachesUnmounted a.history)
    (hmounted : ∀ ds ∈ snapshot, ∀ path, StillMounted path ds.pvName a.history →
      ds.mountPath = path ∧ path ≠ "" ∧ unmounts (o ds).first (o ds).rest = true) :
  DetachesUnmounted (a.shutdown snapshot o).history
  := by
  induction snapshot generalizing a with
  | nil => exact h
  | cons ds rest ih =>
    obtain ⟨hreleased, hstill⟩ := h.release (hmounted ds List.mem_cons_self)
    apply ih hreleased
    intro ds' hmem path hmounted'
    exact hmounted ds' (List.mem_cons_of_mem _ hmem) path (hstill path _ hmounted')

theorem Agent.Reached.knowsMounts (h : Reached cfg (Confined cfg) a) :
  a.KnowsMounts ∧ DetachesUnmounted a.history
  := by
  induction h with
  | new =>
    refine ⟨fun _ _ h => h.elim, ?_⟩
    intro pvName ok before hsuffix
    exact absurd (List.suffix_nil.mp hsuffix) (by simp)
  | reconcile assign o hreached hconfined ih =>
    exact ih.1.reconcile hreached.named ih.2 hconfined

end

/-- In every run of confined reconciles, up to and after a `Shutdown` that unmounts what is
still mounted, a disk is detached only when nothing is mounted from it. -/
theorem detachesUnmounted_of_confined (cfg : Config) (a : Agent)
    (h : Run cfg (Confined cfg) ShutdownUnmounts a) :
  DetachesUnmounted a.history
  := by
  cases h with
  | running hreached => exact hreached.knowsMounts.2
  | @shutdown a snapshot o hreached hperm hunmounts =>
    obtain ⟨hknows, hdetaches⟩ := hreached.knowsMounts
    apply hdetaches.shutdown
    intro ds hmem path hmounted
    have hmem' := hperm.mem_iff.mp hmem
    have hpath := hknows path _ hmounted ds hmem' rfl
    subst hpath
    exact ⟨rfl, hreached.named.mount _ hmounted.mounted, hunmounts ds hmem' hmounted⟩

/-- An upgrade whose cleanup succeeds, and a shutdown in which the path is busy at first. -/
theorem detachesUnmounted_of_confined_upgrade :
  ∃ a, Run ⟨"/mnt/kv"⟩ (Confined ⟨"/mnt/kv"⟩) ShutdownUnmounts a
    ∧ a.history.count (.detach "pvc-2" true) = 1 ∧ DetachesUnmounted a.history
  := by
  have hfirst : Confined ⟨"/mnt/kv"⟩ new (.of "users" "v1" "pvc-1") {} := by
    refine ⟨fun _ _ => by decide, fun _ _ h => h.elim, fun _ _ ds hmem => ?_, fun _ _ h => ?_⟩
    · exact absurd hmem List.not_mem_nil
    · exact absurd rfl h.2
  have hsecond : Confined ⟨"/mnt/kv"⟩ (new.reconcile ⟨"/mnt/kv"⟩ (.of "users" "v1" "pvc-1") {})
      (.of "users" "v2" "pvc-2") {} := by
    refine ⟨fun _ _ => by decide, ?_, fun _ _ => by decide, fun _ _ _ => ⟨by decide, fun _ => rfl⟩⟩
    rintro _ path (⟨-, h⟩ | h)
    · exact absurd h (by decide)
    · exact h.elim
  have hrun : Run ⟨"/mnt/kv"⟩ (Confined ⟨"/mnt/kv"⟩) ShutdownUnmounts
      (((new.reconcile ⟨"/mnt/kv"⟩ (.of "users" "v1" "pvc-1") {}).reconcile ⟨"/mnt/kv"⟩
        (.of "users" "v2" "pvc-2") {}).shutdown
          [⟨"users", "users", "v2", .active, "pvc-2", "/mnt/kv/users/v2", ""⟩]
          fun _ => ⟨.busy, [.ok], true⟩) :=
    .shutdown _ _ (.reconcile _ _ (.reconcile _ _ .new hfirst) hsecond) (by decide) fun _ _ _ => rfl
  exact ⟨_, hrun, by decide, detachesUnmounted_of_confined _ _ hrun⟩

/-- The unmount of the previous version of `users` fails, and its disk is detached all the
same. -/
theorem not_detachesUnmounted_failedUnmount :
  ¬ ∀ cfg a, Run cfg (fun _ _ _ => True) (fun _ _ => True) a → DetachesUnmounted a.history
  := by
  intro h
  have hdetaches := h ⟨"/mnt/kv"⟩ _ (.running
    (.reconcile (.of "users" "v2" "pvc-2") { unmount := some "device or resource busy" }
      (.reconcile (.of "users" "v1" "pvc-1") {} .new trivial) trivial))
  refine hdetaches "pvc-1" true _ List.suffix_rfl "/mnt/kv/users/v1" (.inr (.inl ⟨?_, rfl⟩))
  decide

end NodeAgent
