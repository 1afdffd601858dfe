import Mcfreeze.ControlPlane.Controllers

/-!
# Automatic builds

`ensureVersion` and `fire` create a version of a dataset when nothing is being built for it.
A version that was just created has no state, until `DatasetVersionReconciler` takes it up and
treats it as building.  The other two controllers do not: `ensureVersion` skips a dataset with
a version that is building, ready, active or failed, and `fire` one with a version that is
building.

In the runs in which no call of the two meets a version without a state, unless it also meets
one that makes it skip, no version is created while another one is pending.
-/

namespace ControlPlane

open Crash Prog

namespace ApiServer

/-- A version whose build is not over. -/
def pending (v : DatasetVersion) : Bool :=
  match v.state with
  | some .ready | some .active | some .retired | some .failed => false
  | _ => true

/-- No version was created automatically while another one of its dataset was pending. -/
def NoOverlap (history : List Event) : Prop :=
  ∀ v others, .created v others ∈ history →
    ∀ w ∈ others, w.dataset = v.dataset → pending w = false

/-- A version of the dataset has not been taken up yet. -/
def HasFresh (dataset : String) (s : ApiServer) : Prop :=
  ∃ w ∈ s.versions, w.dataset = dataset ∧ w.state = none

/-- The call meets no version without a state, or it meets one that makes it skip. -/
def Guarded (s : ApiServer) : Call → Prop
  | .dataset name _ _ =>
    HasFresh name s → ∃ w ∈ s.versions, w.dataset = name ∧ keepsDataset w = true
  | .fire ds _ _ =>
    HasFresh ds.name s → ∃ w ∈ s.versions, w.dataset = ds.name ∧ w.state = some .building
  | .version _ _ => True

/-- What is done from outside is always allowed. -/
def Allows (allowed : ApiServer → Call → Prop) (s : ApiServer) : Call ⊕ Outside → Prop
  | .inl call => allowed s call
  | .inr _ => True

/-- The sessions of calls, one after the other, from an empty cluster, in which every call is
made in a state that is `allowed` for it. -/
abbrev SessionReachable (r : Reconciler) (allowed : ApiServer → Call → Prop) :
    Session ApiServer String Empty Result (Call ⊕ Outside) → ApiServer → Prop :=
  Crash.Reachable (.none _) (perform r) Blank fun _ c s => Allows allowed s c

/-! ### The invariant -/

/-- The versions are in order, and no builds have overlapped. -/
structure BuildsInv (s : ApiServer) : Prop where
  versions : VersionsInv s.versions
  overlap : NoOverlap s.history

theorem NoOverlap.cons {history : List Event} {e : Event} (h : NoOverlap history)
    (he : ∀ v others, e = .created v others →
      ∀ w ∈ others, w.dataset = v.dataset → pending w = false) :
  NoOverlap (e :: history)
  := by
  intro v others hmem
  rcases List.mem_cons.mp hmem with heq | hmem
  · exact he v others heq.symm
  · exact h v others hmem

/-- A program over the versions. -/
theorem wp_onVersions {α : Type} {p : Api α} {J : List DatasetVersion → Prop}
    {R : α → List DatasetVersion → Prop} {s : ApiServer} (h : BuildsInv s)
    (hJ : ∀ versions, J versions → VersionsInv versions) (hp : wp (.none _) J R p s.versions) :
  wp (.none _) BuildsInv
    (fun a s' => BuildsInv s' ∧ J s'.versions ∧ R a s'.versions) (onVersions p) s
  := by
  apply wp_lift (G := fun s' => s'.history = s.history) (J := J) (R := R) ?_ ?_ ?_ rfl hp
  · intro s' hhistory hversions
    exact ⟨hJ _ hversions, hhistory ▸ h.overlap⟩
  · intro _ s' hhistory _ _
    exact hhistory
  · intro _ s' hhistory hversions hR
    exact ⟨⟨hJ _ hversions, hhistory ▸ h.overlap⟩, hversions, hR⟩

/-- A program that only looks at the versions. -/
theorem wp_onVersions_read {α : Type} {p : Api α} {R : α → Prop} {Q : α → ApiServer → Prop}
    {s : ApiServer} (h : BuildsInv s)
    (hp : wp (.none _) (· = s.versions) (fun a _ => R a) p s.versions)
    (hQ : ∀ a s', BuildsInv s' → s'.versions = s.versions → R a → Q a s') :
  wp (.none _) BuildsInv Q (onVersions p) s
  := by
  have hJ : ∀ versions, versions = s.versions → VersionsInv versions := by
    rintro _ rfl
    exact h.versions
  apply wp_mono (wp_onVersions h hJ hp)
  rintro a s' - ⟨h', hversions, hR⟩
  exact hQ a s' h' hversions hR

/-- A version is created, unbuilt, for a dataset none of whose other versions is pending. -/
theorem wp_create {s : ApiServer} {v : DatasetVersion} {Q : Unit → ApiServer → Prop} (h : BuildsInv s)
    (hlabel : v.datasetLabel = v.dataset) (hstate : v.state = none)
    (hothers : ∀ w ∈ s.versions, w.dataset = v.dataset → pending w = false)
    (hQ : ∀ s', BuildsInv s' → Q () s') :
  wp (.none _) BuildsInv Q (create v) s
  := by
  have hversions := h.versions.create hlabel hstate
  suffices hcreated : BuildsInv (if s.versions.any (·.name = v.name) then s
      else { s with versions := v :: s.versions, history := .created v s.versions :: s.history }) from
    wp_modify h hcreated (hQ _ hcreated)
  split
  · exact h
  · next hnew =>
    rw [if_neg hnew] at hversions
    refine ⟨hversions, h.overlap.cons ?_⟩
    rintro _ _ ⟨⟩
    exact hothers

/-- The deletion of a version keeps the invariant. -/
theorem wp_delete {s : ApiServer} {name : String} {Q : Unit → ApiServer → Prop} (h : BuildsInv s)
    (hQ : ∀ s', BuildsInv s' → Q () s') :
  wp (.none _) BuildsInv Q (delete name) s
  := by
  have hdeleted : BuildsInv (deleted name s) := by
    obtain ⟨-, heq⟩ | ⟨v, -, -, heq⟩ := deleted_cases name s
    · rw [heq]
      exact h
    · rw [heq]
      refine ⟨h.versions.filter _, h.overlap.cons ?_⟩
      rintro _ _ ⟨⟩
  exact wp_modify h hdeleted (hQ _ hdeleted)

/-- Another event than a creation. -/
theorem BuildsInv.record {s : ApiServer} {e : Event} (h : BuildsInv s)
    (he : ∀ v others, e ≠ .created v others) :
  BuildsInv { s with history := e :: s.history }
  := by
  refine ⟨h.versions, h.overlap.cons ?_⟩
  intro v others heq
  exact absurd heq (he v others)

/-! ### The calls -/

/-- The versions of a dataset are those a listing finds. -/
theorem mem_listed {versions items : List DatasetVersion} (h : VersionsInv versions)
    {dataset : String} (hitems : items.Perm (versions.filter (·.datasetLabel = dataset)))
    {w : DatasetVersion} (hw : w ∈ versions) (hdataset : w.dataset = dataset) :
  w ∈ items
  := by
  apply hitems.mem_iff.mpr
  apply List.mem_filter.mpr
  refine ⟨hw, ?_⟩
  rw [decide_eq_true_eq, h.labels w hw]
  exact hdataset

/-- The list has the versions with the label of the dataset, in some order. -/
theorem wp_listVersions {s : ApiServer} {ds : DatasetObject}
    {Q : List DatasetVersion → ApiServer → Prop} (h : BuildsInv s)
    (hQ : ∀ items s', items.Perm (s.versions.filter (·.datasetLabel = ds.name)) →
      BuildsInv s' → s'.versions = s.versions → Q items s') :
  wp (.none _) BuildsInv Q (listVersions ds) s
  := by
  apply wp_bind
  apply wp_pick h
  intro k
  apply wp_atomic h
  intro items s' heq
  obtain ⟨rfl, rfl⟩ := Prod.mk.inj (Except.ok.inj heq)
  have hlisted : ∀ items, BuildsInv { s with history := .listedVersions ds items :: s.history } := by
    intro items
    apply h.record
    simp
  exact ⟨hlisted _, hQ _ _ (permutations_getD _ k) (hlisted _) rfl⟩

theorem pending_of_not_building {w : DatasetVersion} (hbuilding : w.state ≠ some .building)
    (hstate : w.state ≠ none) :
  pending w = false
  := by
  unfold pending
  cases hs : w.state with
  | none => exact absurd hs hstate
  | some state => cases state <;> simp_all

/-- When no version that was listed makes a call skip, no version of the dataset is pending. -/
theorem not_pending {s : ApiServer} {items : List DatasetVersion} {dataset : String}
    {skips : DatasetVersion → Bool} (h : VersionsInv s.versions)
    (hitems : items.Perm (s.versions.filter (·.datasetLabel = dataset)))
    (hbuilding : ∀ w, w.state = some .building → skips w = true)
    (hguard : HasFresh dataset s → ∃ w ∈ s.versions, w.dataset = dataset ∧ skips w = true)
    (hnone : ¬ items.any skips) :
  ∀ w ∈ s.versions, w.dataset = dataset → pending w = false
  := by
  have hskips : ∀ w ∈ s.versions, w.dataset = dataset → skips w ≠ true := by
    intro w hw hdataset hskips
    have hmem := mem_listed h hitems hw hdataset
    exact hnone (List.any_eq_true.mpr ⟨w, hmem, hskips⟩)
  intro w hw hdataset
  apply pending_of_not_building
  · intro hstate
    exact hskips w hw hdataset (hbuilding w hstate)
  · intro hstate
    obtain ⟨u, hu, hudataset, huskips⟩ := hguard ⟨w, hw, hdataset, hstate⟩
    exact hskips u hu hudataset huskips

/-- A version is created only for a dataset without one that is fresh, unless one keeps the
dataset. -/
theorem wp_ensureVersion {s : ApiServer} {ds : DatasetObject} {now : Int}
    {items : List DatasetVersion} {Q : Unit → ApiServer → Prop} (h : BuildsInv s)
    (hitems : items.Perm (s.versions.filter (·.datasetLabel = ds.name)))
    (hguard : HasFresh ds.name s → ∃ w ∈ s.versions, w.dataset = ds.name ∧ keepsDataset w = true)
    (hQ : ∀ s', BuildsInv s' → Q () s') :
  wp (.none _) BuildsInv Q (ensureVersion ds now items) s
  := by
  unfold ensureVersion
  split
  · exact wp_pure h (hQ s h)
  · next hnone =>
    have hbuilding : ∀ w : DatasetVersion, w.state = some .building → keepsDataset w = true := by
      intro w hstate
      simp [keepsDataset, hstate]
    exact wp_create h rfl rfl (not_pending h.versions hitems hbuilding hguard hnone) hQ

/-- The retention of a dataset keeps the invariant. -/
theorem wp_enforceRetention {s : ApiServer} {ds : DatasetObject} {items : List DatasetVersion}
    {Q : Unit → ApiServer → Prop} (h : BuildsInv s) (hQ : ∀ s', BuildsInv s' → Q () s') :
  wp (.none _) BuildsInv Q (enforceRetention ds items) s
  := by
  unfold enforceRetention
  split
  · exact wp_pure h (hQ s h)
  · dsimp only
    split
    · exact wp_pure h (hQ s h)
    · apply wp_mono (wp_forM (R := fun _ => BuildsInv) (fun _ _ hs => hs) ?_ _ s h)
      · intro _ s' _ hs'
        exact hQ s' hs'
      · intro v _ s' hs'
        exact wp_delete hs' fun _ hs'' => hs''

/-- The status of a dataset is no concern of the invariant. -/
theorem wp_patchAggregateStatus {s : ApiServer} {ds : DatasetObject} {items : List DatasetVersion}
    {Q : Unit → ApiServer → Prop} (h : BuildsInv s) (hQ : ∀ s', BuildsInv s' → Q () s') :
  wp (.none _) BuildsInv Q (patchAggregateStatus ds items) s
  := by
  unfold patchAggregateStatus
  dsimp only
  split
  · exact wp_pure h (hQ s h)
  · apply wp_atomic h
    intro _ s' heq
    split at heq
    · obtain ⟨-, rfl⟩ := Prod.mk.inj (Except.ok.inj heq)
      have hpatched : ∀ datasets, BuildsInv { s with datasets } := fun _ => ⟨h.versions, h.overlap⟩
      exact ⟨hpatched _, hQ _ (hpatched _)⟩
    · simp at heq

theorem wp_getDataset {s : ApiServer} {name : String} {Q : Option DatasetObject → ApiServer → Prop}
    (h : BuildsInv s) (hQ : ∀ ds, (∀ d, ds = some d → d.name = name) → Q ds s) :
  wp (.none _) BuildsInv Q (getDataset name) s
  := by
  apply wp_bind
  apply wp_read h
  apply wp_pure h
  apply hQ
  intro d hd
  simpa using List.find?_some hd

/-- A reconcile of a dataset keeps the invariant, if a fresh version of the dataset has one
that keeps it beside it. -/
theorem wp_reconcileDataset {s : ApiServer} {name : String} {sync : Option String} {now : Int}
    (h : BuildsInv s)
    (hguard : HasFresh name s → ∃ w ∈ s.versions, w.dataset = name ∧ keepsDataset w = true) :
  wp (.none _) BuildsInv (fun _ _ => True) (reconcileDataset name sync now) s
  := by
  apply wp_bind
  apply wp_getDataset h
  intro ds hname
  cases ds with
  | none => exact wp_pure h trivial
  | some ds =>
    obtain rfl := hname ds rfl
    cases sync with
    | some err => exact wp_throw h
    | none =>
      apply wp_bind
      apply wp_listVersions h
      intro items s₁ hitems h₁ hversions
      apply wp_bind
      unfold HasFresh at hguard
      rw [← hversions] at hitems hguard
      apply wp_ensureVersion h₁ hitems hguard
      intro s₂ h₂
      apply wp_bind
      apply wp_enforceRetention h₂
      intro s₃ h₃
      apply wp_bind
      apply wp_patchAggregateStatus h₃
      intro s₄ h₄
      exact wp_pure h₄ trivial

/-- The cron entry of a dataset keeps the invariant, if a fresh version of the dataset has one
that is building beside it. -/
theorem wp_fire {s : ApiServer} {ds : DatasetObject} {versionID : String} {now : Int}
    (h : BuildsInv s)
    (hguard : HasFresh ds.name s →
      ∃ w ∈ s.versions, w.dataset = ds.name ∧ w.state = some .building) :
  wp (.none _) BuildsInv (fun _ _ => True) (fire ds versionID now) s
  := by
  apply wp_bind
  apply wp_onVersions_read h (ControlPlane.wp_listVersions rfl fun _ hitems => hitems)
  intro items s' h' hversions hitems
  split
  · exact wp_pure h' trivial
  · next hnone =>
    apply wp_bind
    apply wp_create h' rfl rfl
    · rw [hversions]
      apply not_pending h.versions hitems ?_ ?_ hnone
      · simp
      · simpa using hguard
    · intro s'' h''
      exact wp_pure h'' trivial

/-- The reconcile of a retired version starts no build. -/
theorem wp_reconcileRetired {s : ApiServer} (h : BuildsInv s) (r : Reconciler) (v : DatasetVersion) :
  wp (.none _) BuildsInv (fun _ _ => True) (reconcileRetired r v) s
  := by
  have hdelete : ∀ s, BuildsInv s → wp (.none _) BuildsInv (fun _ _ => True)
      (do delete v.name; return {} : Control Result) s := by
    intro s hs
    apply wp_bind
    apply wp_delete hs
    intro s' hs'
    exact wp_pure hs' trivial
  unfold reconcileRetired
  split
  · exact hdelete s h
  · apply wp_bind
    apply wp_atomic h
    intro sources s' heq
    obtain ⟨rfl, rfl⟩ := Prod.mk.inj (Except.ok.inj heq)
    have hlisted : BuildsInv { s with history := .listedAttachments s.attachments :: s.history } := by
      apply h.record
      simp
    refine ⟨hlisted, ?_⟩
    split
    · exact wp_pure hlisted trivial
    · split
      · have hdeleted : BuildsInv { s with
            history := .deletedPV v.pvName :: .listedAttachments s.attachments :: s.history } := by
          apply hlisted.record
          simp
        apply wp_bind
        apply wp_modify hlisted hdeleted
        exact hdelete _ hdeleted
      · exact hdelete _ hlisted

/-- The lookup of the dataset of a version changes nothing. -/
theorem wp_parentDataset {s : ApiServer} {v : DatasetVersion} {Q : ParentDataset → ApiServer → Prop}
    (h : BuildsInv s) (hQ : ∀ dataset, Q dataset s) :
  wp (.none _) BuildsInv Q (parentDataset v) s
  := by
  unfold parentDataset
  split
  · apply wp_bind
    apply wp_getDataset h
    intro ds _
    cases ds with
    | none => exact wp_pure h (hQ _)
    | some ds => exact wp_pure h (hQ _)
  · exact wp_pure h (hQ _)

/-- A reconcile of a version keeps the invariant, whatever the answers to its calls. -/
theorem wp_reconcileVersion {s : ApiServer} (h : BuildsInv s) (r : Reconciler) (name : String)
    (ans : Answers) :
  wp (.none _) BuildsInv (fun _ _ => True) (reconcileVersion r name ans) s
  := by
  have hlifted : ∀ {p : Api Result} {v : DatasetVersion} {s : ApiServer}, BuildsInv s →
      wp (.none _) (During v.name s.versions) (fun _ _ => True) p s.versions →
      wp (.none _) BuildsInv (fun _ _ => True) (onVersions p) s := by
    intro p v s hs hp
    apply wp_mono (wp_onVersions hs (fun _ hduring => hduring.inv) hp)
    intros
    trivial
  have hbuilding : ∀ s v, BuildsInv s → wp (.none _) BuildsInv (fun _ _ => True)
      (do
        let dataset ← parentDataset v
        onVersions (reconcileBuilding r { ans with dataset } v) : Control Result) s := by
    intro s v hs
    apply wp_bind
    apply wp_parentDataset hs
    intro dataset
    exact hlifted hs (wp_reconcileBuilding hs.versions r _ v)
  apply wp_bind
  apply wp_onVersions_read (R := fun found => ∀ v, found = some v → v ∈ s.versions) h
    (wp_getVersion rfl fun v hv => List.mem_of_find?_eq_some hv)
  intro found s' h' hversions hfound
  cases found with
  | none => exact wp_pure h' trivial
  | some v =>
    have hv := hfound v rfl
    rw [← hversions] at hv
    dsimp only
    cases hstate : v.state with
    | none => exact hbuilding s' v h'
    | some state =>
      cases state with
      | building => exact hbuilding s' v h'
      | ready => exact hlifted h' (ControlPlane.wp_reconcileReady h'.versions hv hstate)
      | active => exact wp_pure h' trivial
      | retired => exact wp_reconcileRetired h' r v
      | failed =>
        apply hlifted (v := v) h'
        unfold reconcileFailed
        split
        · exact wp_pure (h'.versions.during _) trivial
        · exact wp_pure (h'.versions.during _) trivial

/-- What others do to the objects keeps the invariant. -/
theorem wp_outside {s : ApiServer} (h : BuildsInv s) (o : Outside) :
  BuildsInv (o.apply s)
  := by
  cases o with
  | create ds versionID now =>
    have hversions := h.versions.create (v := newVersion ds versionID now) rfl rfl
    unfold Outside.apply
    dsimp only
    split
    · exact h
    · next hnew =>
      rw [if_neg hnew] at hversions
      exact ⟨hversions, h.overlap⟩
  | delete name => exact ⟨h.versions.filter _, h.overlap⟩
  | edit datasets => exact ⟨h.versions, h.overlap⟩
  | attach attachments => exact ⟨h.versions, h.overlap⟩

/-- Every call of the controllers that the guard allows keeps the invariant. -/
theorem wp_perform {s : ApiServer} (h : BuildsInv s) (r : Reconciler) (c : Call ⊕ Outside)
    (hguard : Allows Guarded s c) :
  wp (.none _) BuildsInv (fun _ _ => True) (perform r c) s
  := by
  cases c with
  | inl call =>
    cases call with
    | dataset name sync now => exact wp_reconcileDataset h hguard
    | version name ans => exact wp_reconcileVersion h r name ans
    | fire ds versionID now => exact wp_fire h hguard
  | inr o =>
    have happlied := wp_outside h o
    apply wp_bind
    apply wp_modify h happlied
    exact wp_pure happlied trivial

/-- In every session in which each call is guarded, no version is created automatically while
another one of its dataset is pending. -/
theorem builds_do_not_overlap (r : Reconciler)
    (x : Session ApiServer String Empty Result (Call ⊕ Outside)) (s : ApiServer)
    (h : SessionReachable r Guarded x s) :
  NoOverlap s.history
  := by
  have hsafe := Crash.Reachable.safe (J := fun _ => BuildsInv) (Q := fun _ _ _ => True)
    (by
      rintro s ⟨hversions, hhistory⟩
      refine ⟨?_, ?_⟩
      · rw [hversions]
        exact ⟨List.nodup_nil, by simp, by simp⟩
      · rw [hhistory]
        intro _ _ hmem
        exact absurd hmem List.not_mem_nil)
    (fun _ c s hs hguard => wp_perform hs r c hguard) h
  exact hsafe.inv.overlap

/-! ### Runs that are computed -/

instance (s : ApiServer) (c : Call) : Decidable (Guarded s c) :=
  match c with
  | .dataset _ _ _ => inferInstanceAs (Decidable ((∃ _, _ ∧ _) → _))
  | .fire _ _ _ => inferInstanceAs (Decidable ((∃ _, _ ∧ _) → _))
  | .version _ _ => inferInstanceAs (Decidable True)

/-- Every command is allowed when its turn comes. -/
def Along (r : Reconciler) (allowed : ApiServer → Call → Prop) :
    List (Call ⊕ Outside) → ApiServer → Prop
  | [], _ => True
  | c :: commands, s => Allows allowed s c ∧ Along r allowed commands ((perform r c).run 0 s).2

instance decidableAlong (r : Reconciler) : (commands : List (Call ⊕ Outside)) → (s : ApiServer) →
    Decidable (Along r Guarded commands s)
  | [], _ => .isTrue trivial
  | .inl c :: commands, s =>
    have := decidableAlong r commands ((perform r (.inl c)).run 0 s).2
    inferInstanceAs (Decidable (Guarded s c ∧ _))
  | .inr o :: commands, s =>
    have := decidableAlong r commands ((perform r (.inr o)).run 0 s).2
    inferInstanceAs (Decidable (True ∧ _))

/-- Calls that run to their ends one after the other, each allowed when it starts, are a
session. -/
theorem after_reachable {r : Reconciler} {allowed : ApiServer → Call → Prop}
    (commands : List (Call ⊕ Outside)) {s : ApiServer} (hblank : Blank s)
    (halong : Along r allowed commands s) :
  ∃ x, SessionReachable r allowed x (after r commands s)
  := by
  suffices hall : ∀ x s, Session.Stopped x → SessionReachable r allowed x s →
      Along r allowed commands s → ∃ x, SessionReachable r allowed x (after r commands s) from
    hall (.idle none) s trivial (.init hblank) halong
  clear halong
  induction commands with
  | nil =>
    intro x s _ h _
    exact ⟨x, h⟩
  | cons c commands ih =>
    intro x s hstopped h halong
    exact ih (.returned c _) _ trivial (h.run hstopped halong.1 0) halong.2

/-- The dataset is applied and reconciled, its first version is taken up, and the schedule
fires. -/
def guardedCommands : List (Call ⊕ Outside) :=
  [.inr (.edit [users]), .inl (.dataset "users" none 0), .inl (.version "users-v1" goodAnswers),
    .inl (.fire users "20260101-000000" 1)]

/-- The second build is skipped, as the first one goes on. -/
theorem builds_do_not_overlap_users :
  ((after {} guardedCommands blank).versions.map fun v => (v.name, v.state))
      = [("users-v1", some .building)]
    ∧ NoOverlap (after {} guardedCommands blank).history
  := by
  refine ⟨by decide +kernel, ?_⟩
  have hblank : Blank blank := ⟨rfl, rfl⟩
  have halong : Along {} Guarded guardedCommands blank := by decide +kernel
  obtain ⟨x, h⟩ := after_reachable guardedCommands hblank halong
  exact builds_do_not_overlap {} x _ h

/-- The dataset is reconciled twice before its first version is taken up. -/
def reconciledTwice : List (Call ⊕ Outside) :=
  [.inr (.edit [users]), .inl (.dataset "users" none 0), .inl (.dataset "users" none 1)]

/-- The second version is created while the first one is pending. -/
theorem fresh_version_is_overlooked :
  ∃ x, SessionReachable {} (fun _ _ => True) x (after {} reconciledTwice blank)
    ∧ ((after {} reconciledTwice blank).versions.map fun v => (v.name, v.state))
      = [("users-v2", none), ("users-v1", none)]
    ∧ ¬ NoOverlap (after {} reconciledTwice blank).history
  := by
  have hblank : Blank blank := ⟨rfl, rfl⟩
  have halong : Along {} (fun _ _ => True) reconciledTwice blank :=
    ⟨trivial, trivial, trivial, trivial⟩
  obtain ⟨x, h⟩ := after_reachable reconciledTwice hblank halong
  refine ⟨x, h, by decide +kernel, ?_⟩
  intro hoverlap
  have hcreated : Event.created (newVersion users "v2" 1) [newVersion users "v1" 0]
      ∈ (after {} reconciledTwice blank).history := by decide +kernel
  have hpending := hoverlap _ _ hcreated (newVersion users "v1" 0) List.mem_cons_self rfl
  simp [pending, newVersion, DatasetVersion.new] at hpending

end ApiServer

end ControlPlane
