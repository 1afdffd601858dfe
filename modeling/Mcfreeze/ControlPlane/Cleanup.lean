import Mcfreeze.ControlPlane.Finalize
import Mcfreeze.ControlPlane.Names

/-!
# Starting and cancelling a build

`Job` (`builder/job.go`) creates the claim, the `ConfigMap` and the Job of a build, in this
order, and `Cancel` deletes them.  `Cancel` is given the name of the Job only; the names of the
other two objects it computes from the labels of the Job, if it gets to see it.

When a build has failed, `reconcileFailed` (`datasetversion.go`) cancels it again and again,
until a `Cancel` reports no error.
-/

namespace ControlPlane.Cleanup

open Crash Prog

open NodeAgent (ApiError)

/-! ### Objects -/

/-- The objects in the API server, with the data of the `ConfigMap`s by name. -/
structure Resources where
  objects : Objects
  configMaps : String → Option String

def Resources.inObjects : Parts Unit Resources Objects where
  get _ s := s.objects
  put _ t s := { s with objects := t }
  get_put _ _ _ := rfl
  put_get _ _ := rfl
  get_put_ne _ _ _ _ h := absurd rfl h

/-- A program of calls to the API server. -/
abbrev Builder (α : Type) := Prog Resources Empty Empty α

/-- A call that has to do with the other objects. -/
def onObjects {α : Type} (p : Kube α) : Builder α :=
  p.lift Resources.inObjects ()

/-- The answer to a call about a `ConfigMap`, and the objects after it. -/
def answerMaps {α : Type} (f : Resources → Except ApiError (α × Resources)) (outcome : Outcome)
    (s : Resources) : Except ApiError α × Resources :=
  match outcome with
  | .answered =>
    match f s with
    | .ok (a, s') => (.ok a, s')
    | .error e => (.error e, s)
  | .refused => (.error unavailable, s)
  | .lost =>
    match f s with
    | .ok (_, s') => (.error unavailable, s')
    | .error _ => (.error unavailable, s)

/-- A call about a `ConfigMap`. -/
def callMaps {α : Type} (f : Resources → Except ApiError (α × Resources)) :
    Builder (Except ApiError α) := do
  let k ← pick
  atomic fun s => .ok (answerMaps f (outcomeOf k) s)

def createConfigMap (name data : String) : Builder (Except ApiError Unit) :=
  callMaps fun s =>
    match s.configMaps name with
    | some _ => .error .alreadyExists
    | none => .ok ((), { s with configMaps := Function.update s.configMaps name (some data) })

def deleteConfigMap (name : String) : Builder (Except ApiError Unit) :=
  callMaps fun s =>
    match s.configMaps name with
    | some _ => .ok ((), { s with configMaps := Function.update s.configMaps name none })
    | none => .error .notFound

def createClaim (name : String) : Kube (Except ApiError Unit) :=
  call fun s =>
    match s.claims name with
    | some _ => .error .alreadyExists
    | none =>
      .ok ((), { s with claims := Function.update s.claims name (some ⟨.pending, "", false⟩) })

def createJob (name : String) (job : JobObject) : Kube (Except ApiError Unit) :=
  call fun s =>
    match s.jobs name with
    | some _ => .error .alreadyExists
    | none => .ok ((), { s with jobs := Function.update s.jobs name (some job) })

def deleteJob (name : String) : Kube (Except ApiError Unit) :=
  call fun s =>
    match s.jobs name with
    | some _ => .ok ((), { s with jobs := Function.update s.jobs name none })
    | none => .error .notFound

/-! ### The builder -/

/-- An object that exists already is no error. -/
def ignoreAlreadyExists : Except ApiError Unit → Except ApiError Unit
  | .error .alreadyExists => .ok ()
  | r => r

/-- Create the objects of a build; `config` is the text of its `worker.json`.  The handle is the
name of the Job. -/
def start (dataset versionID config : String) : Builder (Except String String) := do
  let handle := jobName dataset versionID
  let cmName := configMapName dataset versionID
  let pvcName := pvcName dataset versionID
  match ignoreAlreadyExists (← onObjects (createClaim pvcName)) with
  | .error e =>
    return .error ("job builder: create PVC \"" ++ pvcName ++ "\": "
      ++ errorText "persistentvolumeclaims" pvcName e)
  | .ok () =>
    match ignoreAlreadyExists (← createConfigMap cmName config) with
    | .error e =>
      return .error ("job builder: create ConfigMap \"" ++ cmName ++ "\": "
        ++ errorText "configmaps" cmName e)
    | .ok () =>
      match ignoreAlreadyExists (← onObjects (createJob handle ⟨dataset, versionID, [], none⟩)) with
      | .error e =>
        return .error ("job builder: create Job \"" ++ handle ++ "\": " ++ errorText "jobs" handle e)
      | .ok () => return .ok handle

/-- The labels of the Job that was found, or empty texts. -/
def labelsOf : Except ApiError JobObject → String × String
  | .ok job => (job.dataset, job.version)
  | .error _ => ("", "")

/-- `Cancel` after it has looked for the Job, with what it found. -/
def cancelFound (handle : String) (found : Except ApiError JobObject) :
    Builder (Except String Unit) := do
  let labels := labelsOf found
  onObjects (deleteJobPods handle)
  match ignoreNotFound (← onObjects (deleteJob handle)) with
  | .error e =>
    return .error ("job builder: delete Job \"" ++ handle ++ "\": " ++ errorText "jobs" handle e)
  | .ok () =>
    if labels.1 ≠ "" ∧ labels.2 ≠ "" then
      let cmName := configMapName labels.1 labels.2
      match ignoreNotFound (← deleteConfigMap cmName) with
      | .error e =>
        return .error ("job builder: delete ConfigMap \"" ++ cmName ++ "\": "
          ++ errorText "configmaps" cmName e)
      | .ok () =>
        let pvcName := pvcName labels.1 labels.2
        match ignoreNotFound (← onObjects (deleteClaim pvcName)) with
        | .error e =>
          return .error ("job builder: delete PVC \"" ++ pvcName ++ "\": "
            ++ errorText "persistentvolumeclaims" pvcName e)
        | .ok () => return .ok ()
    else return .ok ()

/-- Delete the objects of a build. -/
def cancel (handle : String) : Builder (Except String Unit) := do
  cancelFound handle (← onObjects (getJob handle))

/-- Cancel a build that has failed; after an error it is tried again. -/
def reconcileFailed (dataset versionID : String) : Builder Result := do
  match ← cancel (jobName dataset versionID) with
  | .error _ => return { requeueAfter := 10 }
  | .ok () => return {}

/-! ### Builds -/

/-- A build, of a dataset and a version that have names. -/
structure BuildId where
  dataset : String
  version : String
  dataset_ne : dataset ≠ ""
  version_ne : version ≠ ""

namespace BuildId

variable (b : BuildId)

@[irreducible] def handle : String := jobName b.dataset b.version

@[irreducible] def configMap : String := configMapName b.dataset b.version

@[irreducible] def claim : String := pvcName b.dataset b.version

/-- The claim is there, and not being deleted. -/
def Claimed (s : Resources) : Prop :=
  ∃ claim, s.objects.claims b.claim = some claim ∧ claim.terminating = false

/-- The objects of the build do not exist. -/
structure Gone (s : Resources) : Prop where
  job : s.objects.jobs b.handle = none
  configMap : s.configMaps b.configMap = none
  claim : ¬ b.Claimed s

/-- The Job carries the names of the build. -/
def Labelled (s : Resources) : Prop :=
  ∀ job, s.objects.jobs b.handle = some job → job.dataset = b.dataset ∧ job.version = b.version

/-- No object of the build comes into being, and the Job keeps its labels. -/
structure Shrinks (s t : Resources) : Prop where
  job : ∀ job', t.objects.jobs b.handle = some job' →
    ∃ job, s.objects.jobs b.handle = some job ∧ job'.dataset = job.dataset ∧ job'.version = job.version
  configMap : s.configMaps b.configMap = none → t.configMaps b.configMap = none
  claim : b.Claimed t → b.Claimed s

/-- The `ConfigMap` and the claim of the build stay as they are. -/
structure Keeps (s t : Resources) : Prop where
  configMap : t.configMaps b.configMap = s.configMaps b.configMap
  claim : b.Claimed t ↔ b.Claimed s

variable {b} {s t u : Resources}

theorem Shrinks.refl (s : Resources) :
  b.Shrinks s s
  :=
  ⟨fun job h => ⟨job, h, rfl, rfl⟩, id, id⟩

theorem Shrinks.trans (h : b.Shrinks s t) (h' : b.Shrinks t u) :
  b.Shrinks s u
  := by
  refine ⟨?_, fun hs => h'.configMap (h.configMap hs), fun hu => h.claim (h'.claim hu)⟩
  intro job'' hjob''
  obtain ⟨job', hjob', hdataset', hversion'⟩ := h'.job job'' hjob''
  obtain ⟨job, hjob, hdataset, hversion⟩ := h.job job' hjob'
  exact ⟨job, hjob, hdataset'.trans hdataset, hversion'.trans hversion⟩

theorem Shrinks.job_none (h : b.Shrinks s t) (hs : s.objects.jobs b.handle = none) :
  t.objects.jobs b.handle = none
  := by
  cases ht : t.objects.jobs b.handle with
  | none => rfl
  | some job' =>
    obtain ⟨job, hjob, -⟩ := h.job job' ht
    rw [hs] at hjob
    cases hjob

theorem Gone.shrinks (hs : b.Gone s) (h : b.Shrinks s t) :
  b.Gone t
  :=
  ⟨h.job_none hs.job, h.configMap hs.configMap, fun ht => hs.claim (h.claim ht)⟩

theorem Labelled.shrinks (hs : b.Labelled s) (h : b.Shrinks s t) :
  b.Labelled t
  := by
  intro job' hjob'
  obtain ⟨job, hjob, hdataset, hversion⟩ := h.job job' hjob'
  obtain ⟨hd, hv⟩ := hs job hjob
  exact ⟨hdataset.trans hd, hversion.trans hv⟩

end BuildId

/-! ### Calls -/

section

variable {J : Objects → Prop} {o : Objects} {α : Type}

/-- What holds of the objects whatever happens to pods and to Jobs that are deleted. -/
structure Undisturbed (J : Objects → Prop) : Prop where
  settle : ∀ o, J o → J o.settle
  fail : ∀ o, J o → J o.fail
  pods : ∀ o p, J o → J { o with pods := o.pods.filter p }
  jobs : ∀ o name, J o → J { o with jobs := Function.update o.jobs name none }

theorem Undisturbed.and {J K : Objects → Prop} (hJ : Undisturbed J) (hK : Undisturbed K) :
  Undisturbed fun o => J o ∧ K o
  where
  settle o h := ⟨hJ.settle o h.1, hK.settle o h.2⟩
  fail o h := ⟨hJ.fail o h.1, hK.fail o h.2⟩
  pods o p h := ⟨hJ.pods o p h.1, hK.pods o p h.2⟩
  jobs o name h := ⟨hJ.jobs o name h.1, hK.jobs o name h.2⟩

/-- A call is answered or it fails, perhaps after it has been carried out. -/
theorem wp_call {Q : Except ApiError α → Objects → Prop}
    {f : Objects → Except ApiError (α × Objects)} (hJ : Undisturbed J) (ho : J o)
    (hok : ∀ o a o', J o → f o = .ok (a, o') → J o' ∧ Q (.ok a) o')
    (herror : ∀ o e, J o → f o = .error e → Q (.error e) o)
    (hfailed : ∀ o, J o → Q (.error unavailable) o) :
  wp (.none _) J Q (call f) o
  := by
  refine ⟨ho, fun k => ⟨ho, ?_⟩⟩
  suffices hall : ∀ o, J o → J (answer f (outcomeOf k) o).2 ∧
      Q (answer f (outcomeOf k) o).1 (answer f (outcomeOf k) o).2 by
    apply hall (if k / 3 % 2 = 1 then o.settle else o)
    split
    · exact hJ.settle o ho
    · exact ho
  intro o ho
  unfold answer
  cases outcomeOf k with
  | answered =>
    cases hf : f o with
    | ok r => exact hok o r.1 r.2 ho hf
    | error e => exact ⟨ho, herror o e ho hf⟩
  | refused => exact ⟨hJ.fail o ho, hfailed _ (hJ.fail o ho)⟩
  | lost =>
    cases hf : f o with
    | ok r =>
      have hfail := hJ.fail r.2 (hok o r.1 r.2 ho hf).1
      exact ⟨hfail, hfailed _ hfail⟩
    | error e => exact ⟨hJ.fail o ho, hfailed _ (hJ.fail o ho)⟩

/-- A Job that is read is there. -/
theorem wp_getJob (hJ : Undisturbed J) (ho : J o) (name : String) :
  wp (.none _) J (fun r o => ∀ job, r = .ok job → o.jobs name = some job) (getJob name) o
  := by
  apply wp_call hJ ho
  · intro o job o' ho hf
    split at hf
    · next hjob =>
      obtain ⟨rfl, rfl⟩ := Prod.mk.inj (Except.ok.inj hf)
      refine ⟨ho, ?_⟩
      rintro _ ⟨⟩
      exact hjob
    · cases hf
  · intro o e _ _ job h
    cases h
  · intro o _ job h
    cases h

/-- The deletion of a pod disturbs nothing else. -/
theorem wp_deletePod (hJ : Undisturbed J) (ho : J o) (name : String) :
  wp (.none _) J (fun _ _ => True) (deletePod name) o
  := by
  apply wp_call hJ ho
  · intro o _ o' ho hf
    split at hf
    · obtain ⟨-, rfl⟩ := Prod.mk.inj (Except.ok.inj hf)
      exact ⟨hJ.pods o _ ho, trivial⟩
    · cases hf
  · exact fun _ _ _ _ => trivial
  · exact fun _ _ => trivial

/-- The deletion of the pods of a Job disturbs nothing else. -/
theorem wp_deleteJobPods (hJ : Undisturbed J) (ho : J o) (name : String) :
  wp (.none _) J (fun _ _ => True) (deleteJobPods name) o
  := by
  have hlist : wp (.none _) J (fun _ _ => True) (listPods name) o := by
    apply wp_call hJ ho
    · intro o _ o' ho hf
      obtain ⟨-, rfl⟩ := Prod.mk.inj (Except.ok.inj hf)
      exact ⟨ho, trivial⟩
    · exact fun _ _ _ _ => trivial
    · exact fun _ _ => trivial
  apply wp_bind
  apply wp_mono hlist
  intro r o ho _
  cases r with
  | error e => exact wp_pure ho trivial
  | ok pods =>
    apply wp_mono (wp_forM (R := fun _ => J) (fun _ _ ho => ho) ?_ pods o ho)
    · exact fun _ _ _ _ => trivial
    · intro pod _ o ho
      apply wp_bind
      apply wp_mono (wp_deletePod hJ ho pod.name)
      intro _ o ho _
      exact wp_pure ho ho

/-- No error is left when the Job is gone. -/
theorem wp_deleteJob (hJ : Undisturbed J) (ho : J o) (name : String) :
  wp (.none _) J (fun r o => ignoreNotFound r = .ok () → o.jobs name = none) (deleteJob name) o
  := by
  apply wp_call hJ ho
  · intro o _ o' ho hf
    split at hf
    · obtain ⟨-, rfl⟩ := Prod.mk.inj (Except.ok.inj hf)
      exact ⟨hJ.jobs o name ho, fun _ => Function.update_self _ _ _⟩
    · cases hf
  · intro o e _ hf _
    split at hf
    · cases hf
    · next hnone => exact hnone
  · intro o _ h
    cases h

/-- No error is left when the claim is gone or being deleted. -/
theorem wp_deleteClaim (hJ : Undisturbed J) (ho : J o) (name : String)
    (hclaims : ∀ o claim, J o → o.claims name = some claim → J { o with
      claims := Function.update o.claims name (some { claim with terminating := true }) }) :
  wp (.none _) J (fun r o => ignoreNotFound r = .ok () →
    ∀ claim, o.claims name = some claim → claim.terminating = true) (deleteClaim name) o
  := by
  apply wp_call hJ ho
  · intro o _ o' ho hf
    split at hf
    · next claim hclaim =>
      obtain ⟨-, rfl⟩ := Prod.mk.inj (Except.ok.inj hf)
      refine ⟨hclaims o claim ho hclaim, ?_⟩
      intro _ claim' hclaim'
      dsimp only at hclaim'
      rw [Function.update_self] at hclaim'
      cases hclaim'
      rfl
    · cases hf
  · intro o e _ hf _ claim hclaim
    rw [hclaim] at hf
    cases hf
  · intro o _ h
    cases h

end

section

variable {I : Resources → Prop} {s : Resources} {α : Type}

/-- A call that has to do with the other objects leaves the `ConfigMap`s alone. -/
theorem wp_onObjects {Q : α → Resources → Prop} {R : α → Objects → Prop} {p : Kube α}
    (h : wp (.none _) (fun o => I { s with objects := o }) R p s.objects)
    (hQ : ∀ a o, I { s with objects := o } → R a o → Q a { s with objects := o }) :
  wp (.none _) I Q (onObjects p) s
  := by
  apply wp_lift (G := fun t => t.configMaps = s.configMaps) (R := R) ?_ ?_ ?_ rfl h
  · rintro ⟨o, maps⟩ rfl hI
    exact hI
  · rintro o ⟨_, maps⟩ rfl _ _
    rfl
  · rintro a ⟨o, maps⟩ rfl hI hR
    exact hQ a o hI hR

/-- A call maps the resources, or fails, also after it took effect. -/
theorem wp_callMaps {Q : Except ApiError α → Resources → Prop}
    {f : Resources → Except ApiError (α × Resources)} (hs : I s)
    (hok : ∀ a t, f s = .ok (a, t) → I t ∧ Q (.ok a) t ∧ Q (.error unavailable) t)
    (herror : ∀ e, f s = .error e → Q (.error e) s) (hfailed : Q (.error unavailable) s) :
  wp (.none _) I Q (callMaps f) s
  := by
  refine ⟨hs, fun k => ⟨hs, ?_⟩⟩
  change I (answerMaps f (outcomeOf k) s).2 ∧
    Q (answerMaps f (outcomeOf k) s).1 (answerMaps f (outcomeOf k) s).2
  unfold answerMaps
  cases outcomeOf k with
  | answered =>
    cases hf : f s with
    | ok r =>
      obtain ⟨hI, hQ, -⟩ := hok r.1 r.2 hf
      exact ⟨hI, hQ⟩
    | error e => exact ⟨hs, herror e hf⟩
  | refused => exact ⟨hs, hfailed⟩
  | lost =>
    cases hf : f s with
    | ok r =>
      obtain ⟨hI, -, hQ⟩ := hok r.1 r.2 hf
      exact ⟨hI, hQ⟩
    | error e => exact ⟨hs, hfailed⟩

end

/-! ### Cancelling -/

namespace BuildId

variable {b : BuildId} {s t : Resources}

/-- The claim in one state of the objects is the one in another, or it is being deleted. -/
theorem claimed_settle (s : Resources) :
  b.Claimed { s with objects := s.objects.settle } ↔ b.Claimed s
  := by
  constructor
  · rintro ⟨claim, hclaim, hterminating⟩
    rcases Build.settle_claims s.objects b.claim with heq | ⟨heq, -⟩
    · exact ⟨claim, heq ▸ hclaim, hterminating⟩
    · exact absurd (heq.symm.trans hclaim) nofun
  · rintro ⟨claim, hclaim, hterminating⟩
    rcases Build.settle_claims s.objects b.claim with heq | ⟨-, other, hother, hgoing⟩
    · exact ⟨claim, heq.trans hclaim, hterminating⟩
    · obtain rfl := Option.some.inj (hclaim.symm.trans hother)
      rw [hterminating] at hgoing
      cases hgoing

theorem Shrinks.objects {o o' : Objects} (h : b.Shrinks s { t with objects := o })
    (hjobs : ∀ job, o'.jobs b.handle = some job → o.jobs b.handle = some job)
    (hclaim : b.Claimed { t with objects := o' } → b.Claimed { t with objects := o }) :
  b.Shrinks s { t with objects := o' }
  :=
  h.trans ⟨fun job hjob => ⟨job, hjobs job hjob, rfl, rfl⟩, id, hclaim⟩

/-- A Job that has not been deleted. -/
theorem of_update_none {jobs : String → Option JobObject} {name handle : String} {job : JobObject}
    (h : Function.update jobs name none handle = some job) :
  jobs handle = some job
  := by
  by_cases hname : handle = name
  · rw [hname, Function.update_self] at h
    cases h
  · rwa [Function.update_of_ne hname] at h

theorem Shrinks.undisturbed (s t : Resources) :
  Undisturbed fun o => b.Shrinks s { t with objects := o }
  where
  settle o h := h.objects (fun _ hjob => hjob) (claimed_settle { t with objects := o }).mp
  fail _ h := h.objects (fun _ hjob => hjob) id
  pods _ _ h := h.objects (fun _ hjob => hjob) id
  jobs _ _ h := h.objects (fun _ hjob => of_update_none hjob) id

theorem Keeps.undisturbed (s t : Resources) :
  Undisturbed fun o => b.Keeps s { t with objects := o }
  where
  settle o h := ⟨h.configMap, (claimed_settle { t with objects := o }).trans h.claim⟩
  fail _ h := ⟨h.configMap, h.claim⟩
  pods _ _ h := ⟨h.configMap, h.claim⟩
  jobs _ _ h := ⟨h.configMap, h.claim⟩

/-- The next program of a sequence goes on from where the first one has come to. -/
theorem wp_bind_shrinks {α β : Type} {Q : α → Resources → Prop} {R : β → Resources → Prop}
    {p : Builder α} {f : α → Builder β} (hp : wp (.none _) (b.Shrinks s) Q p s)
    (hf : ∀ a t, b.Shrinks s t → Q a t → wp (.none _) (b.Shrinks t) R (f a) t) :
  wp (.none _) (b.Shrinks s) R (p >>= f) s
  := by
  apply wp_bind
  apply wp_mono hp
  intro a t hst hQ
  exact wp_weaken (hf a t hst hQ) fun u htu => hst.trans htu

theorem wp_deleteJobPods_shrinks (s : Resources) :
  wp (.none _) (b.Shrinks s) (fun _ _ => True) (onObjects (deleteJobPods b.handle)) s
  :=
  wp_onObjects (wp_deleteJobPods (Shrinks.undisturbed s s) (Shrinks.refl s) _) fun _ _ _ _ => trivial

theorem wp_deleteJob_shrinks (s : Resources) :
  wp (.none _) (b.Shrinks s)
    (fun r t => ignoreNotFound r = .ok () → t.objects.jobs b.handle = none)
    (onObjects (deleteJob b.handle)) s
  :=
  wp_onObjects (wp_deleteJob (Shrinks.undisturbed s s) (Shrinks.refl s) _) fun _ _ _ h => h

/-- A claim whose deletion went well, or that was not there, is gone. -/
theorem wp_deleteClaim_shrinks (s : Resources) :
  wp (.none _) (b.Shrinks s) (fun r t => ignoreNotFound r = .ok () → ¬ b.Claimed t)
    (onObjects (deleteClaim b.claim)) s
  := by
  refine wp_onObjects (wp_deleteClaim (Shrinks.undisturbed s s) (Shrinks.refl s) _ ?_) ?_
  · intro o claim h hclaim
    refine h.objects (fun _ hjob => hjob) ?_
    rintro ⟨claim', hclaim', hterminating⟩
    dsimp only at hclaim'
    rw [Function.update_self] at hclaim'
    cases hclaim'
    cases hterminating
  · rintro r o _ h hok ⟨claim, hclaim, hterminating⟩
    rw [h hok claim hclaim] at hterminating
    cases hterminating

/-- A ConfigMap whose deletion went well, or that was not there, is gone. -/
theorem wp_deleteConfigMap_shrinks (s : Resources) :
  wp (.none _) (b.Shrinks s)
    (fun r t => ignoreNotFound r = .ok () → t.configMaps b.configMap = none)
    (deleteConfigMap b.configMap) s
  := by
  apply wp_callMaps (Shrinks.refl s)
  · intro _ t hf
    split at hf
    · obtain ⟨-, rfl⟩ := Prod.mk.inj (Except.ok.inj hf)
      have hnone : Function.update s.configMaps b.configMap none b.configMap = none :=
        Function.update_self _ _ _
      refine ⟨⟨fun job hjob => ⟨job, hjob, rfl, rfl⟩, fun _ => hnone, id⟩, fun _ => hnone, ?_⟩
      intro h
      cases h
    · cases hf
  · intro e hf _
    split at hf
    · cases hf
    · next hnone => exact hnone
  · intro h
    cases h

/-- A `Cancel` that has seen the Job and reports no error has deleted all. -/
theorem wp_cancelFound_ok {job : JobObject} (s : Resources) (hdataset : job.dataset = b.dataset)
    (hversion : job.version = b.version) :
  wp (.none _) (b.Shrinks s) (fun r t => r = .ok () → b.Gone t) (cancelFound b.handle (.ok job)) s
  := by
  have hcm : configMapName job.dataset job.version = b.configMap := by
    rw [configMap, hdataset, hversion]
  have hpvc : pvcName job.dataset job.version = b.claim := by
    rw [claim, hdataset, hversion]
  apply wp_bind_shrinks (wp_deleteJobPods_shrinks s)
  intro _ t _ _
  apply wp_bind_shrinks (wp_deleteJob_shrinks t)
  intro r u _ hjob
  cases hr : ignoreNotFound r with
  | error e => exact wp_pure (Shrinks.refl u) fun h => by cases h
  | ok _ =>
    have hjob := hjob hr
    simp only [labelsOf, hcm, hpvc]
    rw [if_pos ⟨hdataset ▸ b.dataset_ne, hversion ▸ b.version_ne⟩]
    apply wp_bind_shrinks (wp_deleteConfigMap_shrinks u)
    intro r v huv hconfigMap
    cases hr : ignoreNotFound r with
    | error e => exact wp_pure (Shrinks.refl v) fun h => by cases h
    | ok _ =>
      have hconfigMap := hconfigMap hr
      apply wp_bind_shrinks (wp_deleteClaim_shrinks v)
      intro r w hvw hclaim
      cases hr : ignoreNotFound r with
      | error e => exact wp_pure (Shrinks.refl w) fun h => by cases h
      | ok _ =>
        apply wp_pure (Shrinks.refl w)
        intro _
        exact ⟨(huv.trans hvw).job_none hjob, hvw.configMap hconfigMap, hclaim hr⟩

/-- A `Cancel` that has not seen the Job deletes nothing else. -/
theorem wp_cancelFound_error {I : Resources → Prop} {e : ApiError} (s : Resources)
    (hI : ∀ t, I t → Undisturbed fun o => I { t with objects := o }) (hs : I s) :
  wp (.none _) I (fun r t => r = .ok () → t.objects.jobs b.handle = none)
    (cancelFound b.handle (.error e)) s
  := by
  apply wp_bind
  apply wp_onObjects (wp_deleteJobPods (hI s hs) hs _)
  intro _ o ht _
  apply wp_bind
  apply wp_onObjects (wp_deleteJob (hI _ ht) ht _)
  intro r o' hu hjob
  cases hr : ignoreNotFound r with
  | error e => exact wp_pure hu fun h => by cases h
  | ok _ =>
    simp only [labelsOf, ne_eq, not_true_eq_false, and_self, if_false]
    exact wp_pure hu fun _ => hjob hr

/-! ### Starting -/

theorem Labelled.undisturbed (s : Resources) :
  Undisturbed fun o => b.Labelled { s with objects := o }
  where
  settle _ h := h
  fail _ h := h
  pods _ _ h := h
  jobs _ _ h job hjob := h job (of_update_none hjob)

theorem wp_createClaim_labelled {s : Resources} (hs : b.Labelled s) (name : String) :
  wp (.none _) b.Labelled (fun _ _ => True) (onObjects (createClaim name)) s
  := by
  refine wp_onObjects (R := fun _ _ => True) ?_ fun _ _ _ _ => trivial
  apply wp_call (Labelled.undisturbed s) hs ?_ (fun _ _ _ _ => trivial) fun _ _ => trivial
  intro o _ o' ho hf
  split at hf
  · cases hf
  · obtain ⟨-, rfl⟩ := Prod.mk.inj (Except.ok.inj hf)
    exact ⟨ho, trivial⟩

theorem wp_createConfigMap_labelled {s : Resources} (hs : b.Labelled s) (name config : String) :
  wp (.none _) b.Labelled (fun _ _ => True) (createConfigMap name config) s
  := by
  refine wp_callMaps hs ?_ (fun _ _ => trivial) trivial
  intro _ t hf
  split at hf
  · cases hf
  · obtain ⟨-, rfl⟩ := Prod.mk.inj (Except.ok.inj hf)
    exact ⟨hs, trivial, trivial⟩

/-- The Job that is created carries the names of the build. -/
theorem wp_createJob_labelled {s : Resources} (hs : b.Labelled s) :
  wp (.none _) b.Labelled (fun _ _ => True)
    (onObjects (createJob b.handle ⟨b.dataset, b.version, [], none⟩)) s
  := by
  refine wp_onObjects (R := fun _ _ => True) ?_ fun _ _ _ _ => trivial
  apply wp_call (Labelled.undisturbed s) hs ?_ (fun _ _ _ _ => trivial) fun _ _ => trivial
  intro o _ o' ho hf
  split at hf
  · cases hf
  · obtain ⟨-, rfl⟩ := Prod.mk.inj (Except.ok.inj hf)
    refine ⟨?_, trivial⟩
    intro job hjob
    dsimp only at hjob
    rw [Function.update_self] at hjob
    cases hjob
    exact ⟨rfl, rfl⟩

/-- A `Start` goes on after a call only if the call made the object, or found it. -/
theorem wp_start {s : Resources} (hs : b.Labelled s) (config : String) :
  wp (.none _) b.Labelled (fun _ _ => True) (start b.dataset b.version config) s
  := by
  apply wp_bind
  apply wp_mono (wp_createClaim_labelled hs _)
  intro r t ht _
  cases ignoreAlreadyExists r with
  | error e => exact wp_pure ht trivial
  | ok _ =>
    apply wp_bind
    apply wp_mono (wp_createConfigMap_labelled ht _ _)
    intro r u hu _
    cases ignoreAlreadyExists r with
    | error e => exact wp_pure hu trivial
    | ok _ =>
      have hjob := wp_createJob_labelled hu
      rw [handle] at hjob
      apply wp_bind
      apply wp_mono hjob
      intro r v hv _
      cases ignoreAlreadyExists r with
      | error e => exact wp_pure hv trivial
      | ok _ => exact wp_pure hv trivial

end BuildId

/-! ### Runs -/

namespace BuildId

/-- What has become of a build: it is started and cancelled any number of times, any call can
fail, any of the programs can be killed, and others leave the objects of the build alone or
delete them.  The flag says that a `Cancel` has returned without an error, and no `Start` has
been called since; this is only `allowed` for what such a `Cancel` found. -/
inductive Runs (b : BuildId) (allowed : Resources → Except ApiError JobObject → Prop) :
    Bool → Resources → Prop where
  | init {s} : b.Gone s → Runs b allowed false s
  | others {cleaned s s'} : Runs b allowed cleaned s → b.Shrinks s s' → Runs b allowed cleaned s'
  | start {cleaned s p s'} (config : String) : Runs b allowed cleaned s →
      Steps (.none _) (start b.dataset b.version config) s p s' → Runs b allowed false s'
  | cancel {cleaned s p s'} : Runs b allowed cleaned s →
      Steps (.none _) (cancel b.handle) s p s' → p ≠ done (.ok (.ok ())) → Runs b allowed cleaned s'
  | reconcileFailed {cleaned s p s'} : Runs b allowed cleaned s →
      Steps (.none _) (reconcileFailed b.dataset b.version) s p s' → p ≠ done (.ok {}) →
      Runs b allowed cleaned s'
  | returned {cleaned s found t u} : Runs b allowed cleaned s →
      Steps (.none _) (onObjects (getJob b.handle)) s (done (.ok found)) t →
      Steps (.none _) (cancelFound b.handle found) t (done (.ok (.ok ()))) u → allowed s found →
      Runs b allowed true u

/-- The Job is found, or nothing else is left. -/
def Finds (b : BuildId) (s : Resources) (found : Except ApiError JobObject) : Prop :=
  (∃ job, found = .ok job) ∨ s.configMaps b.configMap = none ∧ ¬ b.Claimed s

variable {b : BuildId} {s t : Resources}

/-- The build is as it was, but for the Job. -/
theorem undisturbed (s t : Resources) :
  Undisturbed fun o => b.Shrinks s { t with objects := o } ∧ b.Keeps s { t with objects := o }
  :=
  (Shrinks.undisturbed s t).and (Keeps.undisturbed s t)

theorem wp_getJob_shrinks (hs : b.Labelled s) :
  wp (.none _) (fun t => b.Shrinks s t ∧ b.Keeps s t)
    (fun found _ => ∀ job, found = .ok job → job.dataset = b.dataset ∧ job.version = b.version)
    (onObjects (getJob b.handle)) s
  := by
  have hrefl : b.Shrinks s s ∧ b.Keeps s s := ⟨Shrinks.refl s, rfl, Iff.rfl⟩
  apply wp_onObjects (wp_getJob (undisturbed s s) hrefl _)
  intro found o h hfound job hjob
  exact hs.shrinks h.1 job (hfound job hjob)

/-- At any point of a cancel, there are no more resources of the build than at its start. -/
theorem wp_cancel (hs : b.Labelled s) :
  wp (.none _) (b.Shrinks s) (fun _ _ => True) (cancel b.handle) s
  := by
  apply wp_bind_shrinks (wp_weaken (wp_getJob_shrinks hs) fun _ h => h.1)
  intro found t _ hlabels
  cases found with
  | ok job =>
    obtain ⟨hdataset, hversion⟩ := hlabels job rfl
    exact wp_mono (wp_cancelFound_ok t hdataset hversion) fun _ _ _ _ => trivial
  | error e =>
    refine wp_mono (wp_cancelFound_error t ?_ (Shrinks.refl t)) fun _ _ _ _ => trivial
    exact fun u _ => Shrinks.undisturbed t u

/-- At any point of the reconcile of a failed version, there are no more resources of its build
than at its start. -/
theorem wp_reconcileFailed (hs : b.Labelled s) :
  wp (.none _) (b.Shrinks s) (fun _ _ => True) (reconcileFailed b.dataset b.version) s
  := by
  have hcancel := wp_cancel hs
  rw [handle] at hcancel
  apply wp_bind
  apply wp_mono hcancel
  intro r t ht _
  cases r with
  | error e => exact wp_pure ht trivial
  | ok _ => exact wp_pure ht trivial

/-- The Job of a build has the labels of the build, whatever has happened. -/
theorem Runs.labelled {allowed : Resources → Except ApiError JobObject → Prop} {cleaned : Bool}
    (h : b.Runs allowed cleaned s) :
  b.Labelled s
  := by
  induction h with
  | init hs =>
    intro job hjob
    rw [hs.job] at hjob
    cases hjob
  | others _ hshrinks ih => exact ih.shrinks hshrinks
  | start config _ hsteps ih => exact wp_inv (wp_steps (wp_start ih config) hsteps)
  | cancel _ hsteps _ ih => exact ih.shrinks (wp_inv (wp_steps (wp_cancel ih) hsteps))
  | reconcileFailed _ hsteps _ ih =>
    exact ih.shrinks (wp_inv (wp_steps (wp_reconcileFailed ih) hsteps))
  | returned _ hget hrest _ ih =>
    have hsteps : Steps (.none _) (Cleanup.cancel b.handle) _ _ _ :=
      (Steps.bind (f := fun found => cancelFound b.handle found) hget).trans hrest
    exact ih.shrinks (wp_inv (wp_steps (wp_cancel ih) hsteps))

/-- A `Cancel` that returns without an error leaves nothing behind if and only if it has found
the Job, or there was nothing else. -/
theorem gone_iff_finds {found : Except ApiError JobObject} {u : Resources} (hs : b.Labelled s)
    (hget : Steps (.none _) (onObjects (getJob b.handle)) s (done (.ok found)) t)
    (hrest : Steps (.none _) (cancelFound b.handle found) t (done (.ok (.ok ()))) u) :
  b.Gone u ↔ b.Finds s found
  := by
  obtain ⟨hst, hlabels⟩ := wp_steps (wp_getJob_shrinks hs) hget
  cases found with
  | ok job =>
    obtain ⟨hdataset, hversion⟩ := hlabels job rfl
    obtain ⟨-, hgone⟩ := wp_steps (wp_cancelFound_ok t hdataset hversion) hrest
    exact ⟨fun _ => .inl ⟨job, rfl⟩, fun _ => hgone rfl⟩
  | error e =>
    obtain ⟨⟨_, hkeeps⟩, hjob⟩ := wp_steps (wp_cancelFound_error
      (I := fun u => b.Shrinks s u ∧ b.Keeps s u) t (fun u _ => undisturbed s u) hst) hrest
    constructor
    · intro hgone
      exact .inr ⟨hkeeps.configMap ▸ hgone.configMap, fun h => hgone.claim (hkeeps.claim.mpr h)⟩
    · rintro (⟨_, ⟨⟩⟩ | ⟨hconfigMap, hclaim⟩)
      exact ⟨hjob rfl, hkeeps.configMap.trans hconfigMap, fun h => hclaim (hkeeps.claim.mp h)⟩

/-- Once a `Cancel` has returned without an error there is nothing left of the build, in every
run in which each such `Cancel` has found the Job or there was nothing else; and in any run, such
a `Cancel` that has not leaves something behind. -/
theorem cancel_complete_iff (b : BuildId) :
  (∀ s, b.Runs b.Finds true s → b.Gone s) ∧
    ∀ allowed cleaned s found t u, b.Runs allowed cleaned s →
      Steps (.none _) (onObjects (getJob b.handle)) s (done (.ok found)) t →
      Steps (.none _) (cancelFound b.handle found) t (done (.ok (.ok ()))) u →
      (b.Gone u ↔ b.Finds s found)
  := by
  constructor
  · suffices hall : ∀ cleaned s, b.Runs b.Finds cleaned s → cleaned = true → b.Gone s from
      fun s h => hall true s h rfl
    intro cleaned s h
    induction h with
    | init _ => exact fun h => by cases h
    | others _ hshrinks ih => exact fun h => (ih h).shrinks hshrinks
    | start config _ _ _ => exact fun h => by cases h
    | cancel hruns hsteps _ ih =>
      exact fun h => (ih h).shrinks (wp_inv (wp_steps (wp_cancel hruns.labelled) hsteps))
    | reconcileFailed hruns hsteps _ ih =>
      exact fun h => (ih h).shrinks (wp_inv (wp_steps (wp_reconcileFailed hruns.labelled) hsteps))
    | returned hruns hget hrest hfinds _ =>
      exact fun _ => (gone_iff_finds hruns.labelled hget hrest).mpr hfinds
  · intro _ _ s found t u hruns hget hrest
    exact gone_iff_finds hruns.labelled hget hrest

end BuildId

/-! ### A retry that finds no Job -/

/-- The first build of `users`. -/
def usersBuild : BuildId :=
  ⟨"users", "v1", by decide, by decide⟩

/-- Nothing exists. -/
def nothing : Resources :=
  ⟨⟨fun _ => none, [], fun _ => none, fun _ => none, 0⟩, fun _ => none⟩

/-- The build has been started. -/
def started : Resources :=
  ((start "users" "v1" "worker").run 0 nothing).2

/-- A `Cancel` has died after it has deleted the Job. -/
def interrupted : Resources :=
  ((cancel usersBuild.handle).follow [0, 0, 0] started).2

theorem runs_started (allowed : Resources → Except ApiError JobObject → Prop) :
  usersBuild.Runs allowed false started
  := by
  apply BuildId.Runs.start "worker" (.init (s := nothing) ⟨rfl, rfl, ?_⟩) (steps_run (.none _) 0 _ _)
  rintro ⟨claim, hclaim, -⟩
  cases hclaim

/-- A call that returns when all its calls are answered. -/
theorem steps_of_run {α : Type} {p : Builder α} {s : Resources} {a : α}
    (h : (p.run 0 s).1 = .ok a) :
  Steps (.none _) p s (done (.ok a)) (p.run 0 s).2
  := by
  rw [← h]
  apply steps_run

/-- A `Cancel` of a build that has been started, all of whose calls are answered. -/
theorem cancel_complete_users :
  ∃ s, usersBuild.Runs usersBuild.Finds true s ∧ usersBuild.Gone s
  := by
  have hget : ((onObjects (getJob usersBuild.handle)).run 0 started).1 =
      .ok (.ok ⟨"users", "v1", [], none⟩) := by decide +kernel
  have hrest : ((cancelFound usersBuild.handle (.ok ⟨"users", "v1", [], none⟩)).run 0
      ((onObjects (getJob usersBuild.handle)).run 0 started).2).1 = .ok (.ok ()) := by decide +kernel
  have hruns : usersBuild.Runs usersBuild.Finds true _ :=
    .returned (runs_started _) (steps_of_run hget) (steps_of_run hrest) (.inl ⟨_, rfl⟩)
  exact ⟨_, hruns, (BuildId.cancel_complete_iff usersBuild).1 _ hruns⟩

/-- After a `Cancel` that has died, the next one finds no Job, and leaves the `ConfigMap` and the
claim. -/
theorem retry_leaves_claim :
  ∃ s, usersBuild.Runs (fun _ _ => True) true s ∧ ¬ usersBuild.Gone s
  := by
  have hdied : ((cancel usersBuild.handle).follow [0, 0, 0] started).1.isDone = false := by
    decide +kernel
  have hget : ((onObjects (getJob usersBuild.handle)).run 0 interrupted).1 =
      .ok (.error .notFound) := by decide +kernel
  have hrest : ((cancelFound usersBuild.handle (.error .notFound)).run 0
      ((onObjects (getJob usersBuild.handle)).run 0 interrupted).2).1 = .ok (.ok ()) := by
    decide +kernel
  have hleft : ((cancelFound usersBuild.handle (.error .notFound)).run 0
      ((onObjects (getJob usersBuild.handle)).run 0 interrupted).2).2.configMaps
        usersBuild.configMap = some "worker" := by decide +kernel
  have hinterrupted : usersBuild.Runs (fun _ _ => True) false interrupted := by
    apply BuildId.Runs.cancel (runs_started _) (steps_follow (.none _) [0, 0, 0] _ _)
    intro h
    rw [h] at hdied
    cases hdied
  refine ⟨_, .returned hinterrupted (steps_of_run hget) (steps_of_run hrest) trivial, ?_⟩
  intro hgone
  rw [hgone.configMap] at hleft
  cases hleft

end ControlPlane.Cleanup
