import Mcfreeze.ControlPlane.Retention
import Mathlib.Logic.Relation

/-!
# The record of a version

The life of a version (`controller/datasetversion.go`): its build is started, it becomes ready
or fails, it is promoted, and retired when another version is promoted.  Every status patch
writes the fields that go with its step.

The controllers run side by side, an API call at a time, while users and agents change the
cluster.  A read gives what is in the cluster at that time, as when the cache of the client is
up to date.  As long as a version exists its record takes only these steps, although a call
works with what it has read before.  When a version is deleted and created again under its
name during a call, the new one can be promoted without ever having been built.
-/

namespace ControlPlane

open Crash Prog

/-! ### Lives -/

/-- The build of a version is not over. -/
def Building (v : DatasetVersion) : Prop :=
  v.state.getD .building = .building

/-- A step in the life of a version. -/
inductive Advance : DatasetVersion → DatasetVersion → Prop where
  | started {v : DatasetVersion} (handle : String) (h : Building v) (hjob : v.buildJob = "") :
    Advance v { v with state := some .building, buildJob := handle }
  | completed {v : DatasetVersion} (pvName snapshotPath snapshotMeta : String) (h : Building v)
    (hjob : v.buildJob ≠ "") (hpv : pvName ≠ "") :
    Advance v { v with state := some .ready, pvName, snapshotPath, snapshotMeta }
  | failed {v : DatasetVersion} (reason : String) (h : Building v) :
    Advance v { v with state := some .failed, error := reason }
  | promoted {v : DatasetVersion} (h : v.state = some .ready) :
    Advance v { v with state := some .active }
  | retired {v : DatasetVersion} (h : v.state = some .active) :
    Advance v { v with state := some .retired }

/-- Some steps in the life of a version. -/
abbrev Life : DatasetVersion → DatasetVersion → Prop := Relation.ReflTransGen Advance

/-- The build of a version was successful. -/
def Built (v : DatasetVersion) : Prop :=
  v.state = some .ready ∨ v.state = some .active ∨ v.state = some .retired

/-- The fields of a version go with its state. -/
structure Record (v : DatasetVersion) : Prop where
  building : Building v → v.pvName = "" ∧ v.error = ""
  built : Built v → v.buildJob ≠ "" ∧ v.pvName ≠ "" ∧ v.error = ""
  failed : v.state = some .failed → v.pvName = ""

theorem record_new (name dataset versionID : String) (shardCount creationTimestamp : Int) :
  Record (.new name dataset versionID shardCount creationTimestamp)
  where
  building _ := ⟨rfl, rfl⟩
  built h := by simp [Built, DatasetVersion.new] at h
  failed h := by simp [DatasetVersion.new] at h

/-- What the record of a version says survives each advance of its life. -/
theorem Record.advance {v w : DatasetVersion} (h : Record v) (hadvance : Advance v w) :
  Record w
  := by
  cases hadvance with
  | started handle hbuilding hjob =>
    exact ⟨fun _ => h.building hbuilding, fun hbuilt => by simp [Built] at hbuilt,
      fun hfailed => by simp at hfailed⟩
  | completed pvName snapshotPath snapshotMeta hbuilding hjob hpv =>
    exact ⟨fun h => by simp [Building] at h, fun _ => ⟨hjob, hpv, (h.building hbuilding).2⟩,
      fun hfailed => by simp at hfailed⟩
  | failed reason hbuilding =>
    exact ⟨fun h => by simp [Building] at h, fun hbuilt => by simp [Built] at hbuilt,
      fun _ => (h.building hbuilding).1⟩
  | promoted hready =>
    exact ⟨fun h => by simp [Building] at h, fun _ => h.built (.inl hready),
      fun hfailed => by simp at hfailed⟩
  | retired hactive =>
    exact ⟨fun h => by simp [Building] at h, fun _ => h.built (.inr (.inl hactive)),
      fun hfailed => by simp at hfailed⟩

theorem Record.life {v w : DatasetVersion} (h : Record v) (hlife : Life v w) :
  Record w
  := by
  induction hlife with
  | refl => exact h
  | tail _ hadvance ih => exact ih.advance hadvance

theorem Built.not_building {v : DatasetVersion} (h : Built v) :
  ¬ Building v
  := by
  obtain h | h | h := h
  all_goals simp [Building, h]

/-- What was built is not built again: only the state changes. -/
theorem Built.life {v w : DatasetVersion} (h : Built v) (hlife : Life v w) :
  Built w ∧ w = { v with state := w.state }
  := by
  induction hlife with
  | refl => exact ⟨h, rfl⟩
  | tail _ hadvance ih =>
    obtain ⟨hbuilt, heq⟩ := ih
    cases hadvance with
    | started handle hbuilding =>
      exact absurd hbuilding hbuilt.not_building
    | completed pvName snapshotPath snapshotMeta hbuilding =>
      exact absurd hbuilding hbuilt.not_building
    | failed reason hbuilding =>
      exact absurd hbuilding hbuilt.not_building
    | promoted hready =>
      refine ⟨.inr (.inl rfl), ?_⟩
      rw [heq]
    | retired hactive =>
      refine ⟨.inr (.inr rfl), ?_⟩
      rw [heq]

/-! ### Terms -/

/-- The names are distinct, and the version is there with a life behind it. -/
structure LivesInv (v₀ : DatasetVersion) (versions : List DatasetVersion) : Prop where
  names : (versions.map (·.name)).Nodup
  alive : ∃ w ∈ versions, w.name = v₀.name ∧ Life v₀ w

/-- There is a version of the name. -/
def HasVersion (name : String) (versions : List DatasetVersion) : Prop :=
  ∃ w ∈ versions, w.name = name

/-- The version of the name is as it was. -/
def Untouched (name : String) (versions versions' : List DatasetVersion) : Prop :=
  ∀ w ∈ versions', w.name = name → w ∈ versions

theorem Untouched.refl (name : String) (versions : List DatasetVersion) :
  Untouched name versions versions
  :=
  fun _ hw _ => hw

theorem Untouched.trans {name : String} {l₁ l₂ l₃ : List DatasetVersion}
    (h₁ : Untouched name l₁ l₂) (h₂ : Untouched name l₂ l₃) :
  Untouched name l₁ l₃
  :=
  fun w hw hname => h₁ w (h₂ w hw hname) hname

/-- The terms of the version reconciler, on the versions. -/
def livesTerms (v₀ : DatasetVersion) : Terms (List DatasetVersion) :=
  ⟨LivesInv v₀, HasVersion v₀.name, Untouched v₀.name, fun _ _ => True⟩

/-- The terms of the others. -/
def othersTerms (v₀ : DatasetVersion) : Terms (List DatasetVersion) :=
  ⟨LivesInv v₀, HasVersion v₀.name, fun _ _ => True, Untouched v₀.name⟩

/-- What a call has read of the version is what it is now. -/
def Current (name : String) (v : DatasetVersion) (versions : List DatasetVersion) : Prop :=
  v.name = name → ∀ w ∈ versions, w.name = name → w = v

theorem Current.untouched {name : String} {v : DatasetVersion}
    {versions versions' : List DatasetVersion} (h : Current name v versions)
    (hrely : Untouched name versions versions') :
  Current name v versions'
  :=
  fun hname w hw hwname => h hname w (hrely w hw hwname) hwname

/-- A version that is listed is current. -/
theorem LivesInv.current {v₀ v : DatasetVersion} {versions : List DatasetVersion}
    (h : LivesInv v₀ versions) (hv : v ∈ versions) :
  Current v₀.name v versions
  :=
  fun hname _ hw hwname => List.inj_on_of_nodup_map h.names hw hv (hwname.trans hname.symm)

/-! ### Patches -/

section

variable {v₀ v : DatasetVersion} {versions : List DatasetVersion}

/-- A patch of a version that was read is a step in its life. -/
theorem LivesInv.patched {change : DatasetVersion → DatasetVersion} (h : LivesInv v₀ versions)
    (hname : ∀ v, (change v).name = v.name) (hcurrent : Current v₀.name v versions)
    (hadvance : Advance v (change v)) :
  LivesInv v₀ (changeVersion v.name change versions)
  where
  names := by
    rw [names_changeVersion hname]
    exact h.names
  alive := by
    obtain ⟨w, hw, hwname, hlife⟩ := h.alive
    by_cases hv : v.name = v₀.name
    · obtain rfl := hcurrent hv w hw hwname
      exact ⟨change w, mem_changeVersion.2 (.inl ⟨w, hw, rfl, rfl⟩), (hname w).trans hwname,
        hlife.tail hadvance⟩
    · have hne : w.name ≠ v.name := fun heq => hv (heq.symm.trans hwname)
      exact ⟨w, mem_changeVersion.2 (.inr ⟨hw, hne⟩), hwname, hlife⟩

/-- A patch of another version. -/
theorem Current.patched {change : DatasetVersion → DatasetVersion} {u : DatasetVersion}
    (h : Current v₀.name u versions) (hname : ∀ v, (change v).name = v.name)
    (hne : u.name ≠ v.name) :
  Current v₀.name u (changeVersion v.name change versions)
  := by
  intro hu w hw hwname
  obtain ⟨x, hx, hxname, rfl⟩ | ⟨hw, -⟩ := mem_changeVersion.1 hw
  · have heq : x.name = u.name := (hname x).symm.trans (hwname.trans hu.symm)
    exact absurd (heq.symm.trans hxname) hne
  · exact h hu w hw hwname

/-- A patch of the version may advance it, and touches no other. -/
theorem lives_patch {change : DatasetVersion → DatasetVersion}
    {Q : Unit → List DatasetVersion → Prop} (hcurrent : Current v₀.name v versions)
    (hname : ∀ v, (change v).name = v.name) (hadvance : Advance v (change v))
    (hQ : ∀ versions', Untouched v₀.name versions versions' →
      Q () (changeVersion v.name change versions')) :
  Behaves (livesTerms v₀) Q (patchStatus v.name change) versions
  := by
  apply Behaves.atomic fun _ => trivial
  intro versions' hrely hinv _ versions'' heq _
  split at heq
  · obtain ⟨-, rfl⟩ := Prod.mk.inj (Except.ok.inj heq)
    exact ⟨hinv.patched hname (hcurrent.untouched hrely) hadvance, trivial, hQ versions' hrely⟩
  · simp at heq

/-- A patch with which a call ends. -/
theorem lives_patchLast {change : DatasetVersion → DatasetVersion} {result : Result}
    (hcurrent : Current v₀.name v versions) (hname : ∀ v, (change v).name = v.name)
    (hadvance : Advance v (change v)) :
  Behaves (livesTerms v₀) (fun _ _ => True)
    (patchStatus v.name change >>= fun _ => pure result) versions
  := by
  apply Behaves.bind
  apply lives_patch hcurrent hname hadvance
  intro _ _
  trivial

theorem lives_markFailed (hcurrent : Current v₀.name v versions) (h : Building v)
    (reason : String) :
  Behaves (livesTerms v₀) (fun _ _ => True) (markFailed v reason) versions
  :=
  lives_patchLast hcurrent (fun _ => rfl) (.failed reason h)

/-- A build that starts leaves its version building. -/
theorem lives_startBuild (hcurrent : Current v₀.name v versions) (h : Building v)
    (hjob : v.buildJob = "") (ans : Answers) :
  Behaves (livesTerms v₀) (fun _ _ => True) (startBuild ans v) versions
  := by
  unfold startBuild
  split
  · exact lives_markFailed hcurrent h _
  · trivial
  · split
    · exact lives_markFailed hcurrent h _
    · exact lives_patchLast hcurrent (fun _ => rfl) (.started _ h hjob)

/-- A build that completes makes its version ready. -/
theorem lives_completeBuild (hcurrent : Current v₀.name v versions) (h : Building v)
    (hjob : v.buildJob ≠ "") (r : Reconciler) (ans : Answers) (snapPath pvName : String) :
  Behaves (livesTerms v₀) (fun _ _ => True) (completeBuild r ans v snapPath pvName) versions
  := by
  unfold completeBuild
  dsimp only
  have hlinked :
      (if pvName = "" then "pv-" ++ v.dataset ++ "-" ++ v.versionID else pvName) ≠ "" := by
    split_ifs with hpv
    · intro heq
      have hlength := congrArg String.length heq
      simp at hlength
    · exact hpv
  generalize (if pvName = "" ∧ r.volumeBase ≠ "" then ans.symlink else none) = symlink
  split
  · exact lives_markFailed hcurrent h _
  · exact lives_patchLast hcurrent (fun _ => rfl) (.completed _ _ _ h hjob hlinked)

/-- The reconcile of a building version leaves it building, makes it ready, or lets it fail. -/
theorem lives_reconcileBuilding (hcurrent : Current v₀.name v versions) (h : Building v)
    (r : Reconciler) (ans : Answers) :
  Behaves (livesTerms v₀) (fun _ _ => True) (reconcileBuilding r ans v) versions
  := by
  unfold reconcileBuilding
  split
  · next hjob => exact lives_startBuild hcurrent h hjob ans
  · next hjob =>
    generalize (if r.buildTimeout = 0 then defaultBuildTimeout else r.buildTimeout) = timeout
    dsimp only
    split
    · exact lives_markFailed hcurrent h _
    · split
      · trivial
      · trivial
      · exact lives_completeBuild hcurrent h hjob r ans _ _
      · exact lives_markFailed hcurrent h _
      · exact lives_markFailed hcurrent h _

/-! ### Promotion -/

/-- Before the rest of the siblings is demoted, what is known of them is current. -/
structure Promotes (v₀ v : DatasetVersion) (rest versions : List DatasetVersion) : Prop where
  self : Current v₀.name v versions
  names : (rest.map (·.name)).Nodup
  listed : ∀ x ∈ rest, Current v₀.name x versions

theorem Promotes.tail {x : DatasetVersion} {rest : List DatasetVersion}
    (h : Promotes v₀ v (x :: rest) versions) :
  Promotes v₀ v rest versions
  where
  self := h.self
  names := (List.nodup_cons.1 h.names).2
  listed y hy := h.listed y (List.mem_cons_of_mem x hy)

/-- A promotion goes on when one more version of the list is retired. -/
theorem Promotes.demoted {x : DatasetVersion} {rest versions' : List DatasetVersion}
    (h : Promotes v₀ v (x :: rest) versions) (hne : x.name ≠ v.name)
    (hrely : Untouched v₀.name versions versions') :
  Promotes v₀ v rest
    (changeVersion x.name (fun s => { s with state := some .retired }) versions')
  where
  self := (h.self.untouched hrely).patched (fun _ => rfl) hne.symm
  names := (List.nodup_cons.1 h.names).2
  listed y hy := by
    have hyx : y.name ≠ x.name := by
      intro heq
      have hmem := List.mem_map_of_mem (f := (·.name)) hy
      rw [heq] at hmem
      exact (List.nodup_cons.1 h.names).1 hmem
    exact ((h.listed y (List.mem_cons_of_mem x hy)).untouched hrely).patched (fun _ => rfl) hyx

/-- One more active version of the list is retired. -/
theorem lives_demote {x : DatasetVersion} {rest : List DatasetVersion}
    (h : Promotes v₀ v (x :: rest) versions) :
  Behaves (livesTerms v₀) (fun _ versions' => Promotes v₀ v rest versions') (demote v x) versions
  := by
  unfold demote
  split
  · exact h.tail
  · next hactive =>
    have hne : x.name ≠ v.name := fun heq => hactive (.inl heq)
    have hstate : x.state = some .active := not_not.1 fun hstate => hactive (.inr hstate)
    exact lives_patch (h.listed x List.mem_cons_self) (fun _ => rfl) (.retired hstate)
      fun versions' hrely => h.demoted hne hrely

theorem lives_listVersions {dataset : String} {Q : List DatasetVersion → List DatasetVersion → Prop}
    (hQ : ∀ versions' items, Untouched v₀.name versions versions' → LivesInv v₀ versions' →
      items.Perm (versions'.filter (·.datasetLabel = dataset)) → Q items versions') :
  Behaves (livesTerms v₀) Q (ControlPlane.listVersions dataset) versions
  := by
  intro versions' hrely hinv _
  refine ⟨hinv, trivial, fun k => ?_⟩
  exact hQ versions' _ hrely hinv (permutations_getD _ k)

/-- The reconcile of a ready version retires other versions, and promotes its own. -/
theorem lives_reconcileReady (hcurrent : Current v₀.name v versions)
    (hready : v.state = some .ready) :
  Behaves (livesTerms v₀) (fun _ _ => True) (reconcileReady v) versions
  := by
  apply Behaves.bind
  apply lives_listVersions
  intro versions' items hrely hinv hitems
  have hpromotes : Promotes v₀ v items versions' :=
    { self := hcurrent.untouched hrely
      names := (hitems.map _).nodup_iff.2 (hinv.names.sublist (List.filter_sublist.map _))
      listed := fun x hx => hinv.current (List.mem_of_mem_filter (hitems.mem_iff.1 hx)) }
  apply Behaves.bind
  apply (Behaves.forM (R := Promotes v₀ v) (fun x rest _ h => lives_demote h) items hpromotes).mono
  intro _ versions'' h
  exact lives_patchLast h.self (fun _ => rfl) (.promoted hready)

end

namespace ApiServer

/-! ### What the others do -/

/-- No version is changed; versions that come have new names. -/
structure Mild (s s' : ApiServer) : Prop where
  names : (s.versions.map (·.name)).Nodup → (s'.versions.map (·.name)).Nodup
  versions : ∀ w ∈ s'.versions, w ∈ s.versions ∨ ∀ u ∈ s.versions, u.name ≠ w.name

theorem Mild.of_eq {s s' : ApiServer} (h : s'.versions = s.versions) :
  Mild s s'
  where
  names hnodup := h ▸ hnodup
  versions _ hw := .inl (h ▸ hw)

theorem Mild.of_filter {s s' : ApiServer} {p : DatasetVersion → Bool}
    (h : s'.versions = s.versions.filter p) :
  Mild s s'
  where
  names hnodup := by
    rw [h]
    exact hnodup.sublist (List.filter_sublist.map _)
  versions w hw := by
    rw [h] at hw
    exact .inl (List.mem_of_mem_filter hw)

/-- A version with a new name may be added. -/
theorem Mild.of_cons {s s' : ApiServer} {v : DatasetVersion}
    (hnew : ∀ u ∈ s.versions, u.name ≠ v.name) (h : s'.versions = v :: s.versions) :
  Mild s s'
  where
  names hnodup := by
    rw [h, List.map_cons, List.nodup_cons]
    refine ⟨fun hmem => ?_, hnodup⟩
    obtain ⟨u, hu, hname⟩ := List.mem_map.1 hmem
    exact hnew u hu hname
  versions w hw := by
    rw [h] at hw
    obtain rfl | hw := List.mem_cons.1 hw
    · exact .inr hnew
    · exact .inl hw

/-- The version that is there before and after a mild step is untouched. -/
theorem Mild.lives {v₀ : DatasetVersion} {s s' : ApiServer} (h : Mild s s')
    (hinv : LivesInv v₀ s.versions) (hexists : HasVersion v₀.name s'.versions) :
  LivesInv v₀ s'.versions ∧ Untouched v₀.name s.versions s'.versions
  := by
  obtain ⟨w, hw, hname, hlife⟩ := hinv.alive
  have huntouched : Untouched v₀.name s.versions s'.versions := by
    intro x hx hxname
    obtain hx | hnew := h.versions x hx
    · exact hx
    · exact absurd (hname.trans hxname.symm) (hnew w hw)
  refine ⟨⟨h.names hinv.names, ?_⟩, huntouched⟩
  obtain ⟨x, hx, hxname⟩ := hexists
  obtain rfl := hinv.current hw hname x (huntouched x hx hxname) hxname
  exact ⟨x, hx, hxname, hlife⟩

theorem mild_create (v : DatasetVersion) :
  (create v).Always Mild
  := by
  refine ⟨fun s => ?_, fun _ => trivial⟩
  dsimp only
  split
  · exact .of_eq rfl
  · next hnew => exact .of_cons (by simpa using hnew) rfl

theorem mild_delete (name : String) :
  (delete name).Always Mild
  :=
  ⟨fun s => .of_filter (versions_deleted name s), fun _ => trivial⟩

theorem mild_getDataset (name : String) :
  (getDataset name).Always Mild
  :=
  ⟨fun _ => .of_eq rfl, fun _ => trivial⟩

theorem mild_listVersions (ds : DatasetObject) :
  (listVersions ds).Always Mild
  :=
  fun _ => ⟨fun _ => .of_eq rfl, fun _ => trivial⟩

theorem mild_enforceRetention (ds : DatasetObject) (versions : List DatasetVersion) :
  (enforceRetention ds versions).Always Mild
  := by
  unfold enforceRetention
  split
  · trivial
  · dsimp only
    split
    · trivial
    · exact Always.forM _ fun v => mild_delete v.name

/-- The status of a dataset is no concern of its versions. -/
theorem mild_patchAggregateStatus (ds : DatasetObject) (versions : List DatasetVersion) :
  (patchAggregateStatus ds versions).Always Mild
  := by
  unfold patchAggregateStatus
  dsimp only
  split
  · trivial
  · apply Always.atomic fun _ => .of_eq rfl
    intro s _ s' heq
    split at heq
    · obtain ⟨-, rfl⟩ := Prod.mk.inj (Except.ok.inj heq)
      exact .of_eq rfl
    · simp at heq

/-- The reconcile of a dataset only creates versions and deletes retired ones. -/
theorem mild_reconcileDataset (name : String) (sync : Option String) (now : Int) :
  (reconcileDataset name sync now).Always Mild
  := by
  apply Always.bind (mild_getDataset name)
  intro ds
  cases ds with
  | none => trivial
  | some ds =>
    cases sync with
    | some err => trivial
    | none =>
      apply Always.bind (mild_listVersions ds)
      intro versions
      apply Always.bind
      · unfold ensureVersion
        split
        · trivial
        · exact mild_create _
      · intro _
        apply Always.bind (mild_enforceRetention ds versions)
        intro _
        exact Always.bind (mild_patchAggregateStatus ds versions) fun _ => trivial

/-- The cron entry of a dataset only creates versions. -/
theorem mild_fire (ds : DatasetObject) (versionID : String) (now : Int) :
  (fire ds versionID now).Always Mild
  := by
  apply Always.bind
  · refine Always.lift (S := fun versions versions' => versions' = versions) ?_
      (always_listVersions ds.name)
    intro versions s h
    exact .of_eq h
  · intro siblings
    split
    · trivial
    · exact Always.bind (mild_create _) fun _ => trivial

/-- The reconcile of a retired version changes no state. -/
theorem mild_reconcileRetired (r : Reconciler) (v : DatasetVersion) :
  (reconcileRetired r v).Always Mild
  := by
  have hdelete : (do
      delete v.name
      return {} : Control Result).Always Mild :=
    Always.bind (mild_delete v.name) fun _ => trivial
  unfold reconcileRetired
  split
  · exact hdelete
  · apply Always.bind
    · exact Always.atomic (fun _ => .of_eq rfl) fun s a s' heq => by
        obtain ⟨-, rfl⟩ := Prod.mk.inj (Except.ok.inj heq)
        exact .of_eq rfl
    · intro sources
      split
      · trivial
      · split
        · exact Always.bind ⟨fun _ => .of_eq rfl, fun _ => trivial⟩ fun _ => hdelete
        · exact hdelete

/-- What others do changes no version. -/
theorem Outside.mild (o : Outside) (s : ApiServer) :
  Mild s (o.apply s)
  := by
  cases o with
  | create ds versionID now =>
    unfold Outside.apply
    dsimp only
    split
    · exact .of_eq rfl
    · next hnew => exact .of_cons (by simpa using hnew) rfl
  | delete name => exact .of_filter rfl
  | edit datasets => exact .of_eq rfl
  | attach attachments => exact .of_eq rfl

/-! ### The version reconciler -/

/-- The terms of a worker: only the version reconciler relies on the others. -/
def recordTerms (v₀ : DatasetVersion) : Worker → Terms ApiServer
  | .version => (livesTerms v₀).part versionsPart ()
  | _ => (othersTerms v₀).part versionsPart ()

section

variable {v₀ : DatasetVersion} {s : ApiServer}

theorem lives_getVersion {name : String} {Q : Option DatasetVersion → ApiServer → Prop}
    (hQ : ∀ s, LivesInv v₀ s.versions → Q (s.versions.find? (·.name = name)) s) :
  Behaves (recordTerms v₀ .version) Q (onVersions (getVersion name)) s
  := by
  intro s' _ hinv _
  exact ⟨hinv, trivial, hQ s' hinv⟩

/-- While the parent is looked for, what was read of the version stays current. -/
theorem lives_parentDataset {v : DatasetVersion} (hcurrent : Current v₀.name v s.versions) :
  Behaves (recordTerms v₀ .version) (fun _ s' => Current v₀.name v s'.versions) (parentDataset v) s
  := by
  unfold parentDataset
  split
  · apply Behaves.bind
    apply behaves_getDataset (fun _ => trivial)
    intro ds s' hrely
    cases ds with
    | none => exact hcurrent.untouched hrely
    | some ds => exact hcurrent.untouched hrely
  · exact hcurrent

theorem lives_onVersions {α : Type} {p : Api α}
    (hp : Behaves (livesTerms v₀) (fun _ _ => True) p s.versions) :
  Behaves (recordTerms v₀ .version) (fun _ _ => True) (onVersions p) s
  :=
  Behaves.part (L := versionsPart) (k := ()) hp

/-- A reconcile of the version controller advances the version that it is asked for, and else
retires active ones only. -/
theorem lives_reconcileVersion (r : Reconciler) (name : String) (ans : Answers) :
  Behaves (recordTerms v₀ .version) (fun _ _ => True) (reconcileVersion r name ans) s
  := by
  apply Behaves.bind
  apply lives_getVersion
  intro s' hinv
  cases hfind : s'.versions.find? (·.name = name) with
  | none => trivial
  | some v =>
    have hcurrent : Current v₀.name v s'.versions := hinv.current (List.mem_of_find?_eq_some hfind)
    dsimp only
    cases hstate : v.state.getD .building with
    | building =>
      apply Behaves.bind
      apply (lives_parentDataset hcurrent).mono
      intro dataset s'' hcurrent'
      exact lives_onVersions (lives_reconcileBuilding hcurrent' hstate _ _)
    | ready =>
      have hready : v.state = some .ready := by
        cases h : v.state with
        | none => simp [h] at hstate
        | some state => exact congrArg some (by simpa [h] using hstate)
      exact lives_onVersions (lives_reconcileReady hcurrent hready)
    | active => trivial
    | retired =>
      exact (mild_reconcileRetired r v).behaves fun s s' hinv hexists hmild =>
        ⟨(hmild.lives hinv hexists).1, trivial⟩
    | failed =>
      apply lives_onVersions
      unfold reconcileFailed
      split
      · trivial
      · trivial

/-! ### Runs -/

/-- What the controllers, users and agents reach together from a state in which no call is
under way, as long as a version of the name exists. -/
abbrev WhileExists (r : Reconciler) (s₀ : ApiServer) (name : String) :
    (Worker → Option (Control Result)) → ApiServer → Prop :=
  Interleaved Changes (Starts r) (· = s₀) fun s => HasVersion name s.versions

/-- As long as a version exists, its record goes through its life: its fields go with its
state, and when it was built nothing but the state changes. -/
theorem life_of_version (r : Reconciler) {s₀ : ApiServer}
    (hnames : (s₀.versions.map (·.name)).Nodup) {v : DatasetVersion} (hv : v ∈ s₀.versions)
    {calls : Worker → Option (Control Result)} {s : ApiServer}
    (h : WhileExists r s₀ v.name calls s) {w : DatasetVersion} (hw : w ∈ s.versions)
    (hname : w.name = v.name) :
  Life v w ∧ (Record v → Record w) ∧ (Built v → w = { v with state := w.state })
  := by
  have hsafe := Interleaved.safe (T := recordTerms v) (I := fun s => LivesInv v s.versions)
    ?_ ?_ ?_ ?_ ?_ ?_ ?_ h.within_world
  · obtain ⟨x, hx, hxname, hlife⟩ := hsafe.1.alive
    obtain rfl := hsafe.1.current hx hxname w hw hname
    exact ⟨hlife, fun hrecord => hrecord.life hlife, fun hbuilt => (hbuilt.life hlife).2⟩
  · intro i
    cases i <;> exact ⟨rfl, rfl⟩
  · intro i s
    cases i with
    | version => exact .refl _ _
    | _ => trivial
  · intro i s₁ s₂ s₃ h₁ h₂
    cases i with
    | version => exact Untouched.trans h₁ h₂
    | _ => trivial
  · rintro s rfl
    exact ⟨hnames, v, hv, rfl, .refl⟩
  · rintro s _ hinv ⟨⟨o, rfl⟩, hexists⟩
    obtain ⟨hinv', huntouched⟩ := (o.mild s).lives hinv hexists
    refine ⟨hinv', fun i => ?_⟩
    cases i with
    | version => exact huntouched
    | _ => trivial
  · rintro i p s ⟨c, rfl, rfl⟩ _
    cases c with
    | dataset name sync now =>
      exact (mild_reconcileDataset name sync now).behaves fun _ _ hinv hexists hmild =>
        hmild.lives hinv hexists
    | version name ans => exact lives_reconcileVersion r name ans
    | fire ds versionID now =>
      exact (mild_fire ds versionID now).behaves fun _ _ hinv hexists hmild =>
        hmild.lives hinv hexists
  · intro i j s s' hij hguarantee
    cases j with
    | version =>
      cases i with
      | version => exact absurd rfl hij
      | _ => exact hguarantee
    | _ => trivial

end

/-! ### Runs that are computed -/

instance (name : String) (versions : List DatasetVersion) : Decidable (HasVersion name versions) :=
  inferInstanceAs (Decidable (∃ w ∈ versions, w.name = name))

/-- The first version of `users` was just created. -/
def createdFirst : ApiServer :=
  after {} [.inr (.edit [users]), .inl (.dataset "users" none 0)] blank

theorem life_of_version_users :
  ∃ w ∈ (after {} (promoted "users-v1") createdFirst).versions,
    w.state = some .active ∧ Life (newVersion users "v1" 0) w ∧ Record w
  := by
  have hstart : WhileExists {} createdFirst "users-v1" (fun _ => none) createdFirst := .init rfl
  have hstarted := hstart.run 0 rfl ⟨.version "users-v1" goodAnswers, rfl, rfl⟩ (by decide +kernel)
  have hready := hstarted.run 0 rfl ⟨.version "users-v1" goodAnswers, rfl, rfl⟩ (by decide +kernel)
  have hactive := hready.run 0 rfl ⟨.version "users-v1" goodAnswers, rfl, rfl⟩ (by decide +kernel)
  have hmem : { newVersion users "v1" 0 with
      state := some .active, buildJob := "job", pvName := "pv-users-v1", snapshotPath := "/snap",
      snapshotMeta := "meta" } ∈ (after {} (promoted "users-v1") createdFirst).versions := by
    decide +kernel
  have hlife := life_of_version {} (by decide +kernel) (v := newVersion users "v1" 0)
    (by decide +kernel) hactive hmem rfl
  exact ⟨_, hmem, rfl, hlife.1, hlife.2.1 (record_new _ _ _ _ _)⟩

/-- The version is ready and about to be promoted when it is deleted and created again. -/
def recreated : ApiServer :=
  let s := after {} ([.inr (.edit [users]), .inl (.dataset "users" none 0)]
    ++ (promoted "users-v1").take 2) blank
  let call := (Call.program {} (.version "users-v1" goodAnswers)).follow [] s
  let s' := (Outside.create users "v1" 5).apply ((Outside.delete "users-v1").apply call.2)
  (call.1.run 0 s').2

/-- The new version is active, though it has neither a build nor a volume. -/
theorem recreated_is_promoted :
  (∃ calls, Running {} (fun _ => True) calls recreated)
    ∧ recreated.versions.map (fun v => (v.name, v.state, v.buildJob, v.pvName))
      = [("users-v1", some .active, "", "")]
  := by
  refine ⟨?_, by decide +kernel⟩
  have hready := after_running (r := {})
    ([.inr (.edit [users]), .inl (.dataset "users" none 0)] ++ (promoted "users-v1").take 2)
    (s := blank) (.init ⟨rfl, rfl⟩) fun _ _ => trivial
  have hcall := Interleaved.start .version _ hready rfl ⟨.version "users-v1" goodAnswers, rfl, rfl⟩
  have hread := hcall.steps (Function.update_self _ _ _) (steps_follow _ [] _ _)
  have hdeleted := Interleaved.world hread ⟨.delete "users-v1", rfl⟩ trivial
  have hcreated := Interleaved.world hdeleted ⟨.create users "v1" 5, rfl⟩ trivial
  exact ⟨_, hcreated.steps (Function.update_self _ _ _) (steps_run _ 0 _ _)⟩

end ApiServer

end ControlPlane
