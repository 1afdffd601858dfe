import Mcfreeze.Lib.Exec
import Mcfreeze.ControlPlane.Job

/-!
# Polling a build that is complete

The only record that a build has been finalized is the annotation that `Poll` writes on the Job
at the end.  Before that, the name of the volume is known from the claim, which the finalization
deletes on its way.

A `Poll` without failures completes the build exactly when the Job is annotated or the claim is
there and not being deleted; this is so after any number of polls before, whichever of their
calls failed, and wherever they died.
-/

namespace ControlPlane

open Crash Prog

open NodeAgent (ApiError)

/-! ### Builds -/

/-- A build: its Job, the claim of the Job, and the volume that the claim was bound to. -/
structure Build where
  handle : String
  claim : String
  volume : String
  volume_ne : volume ≠ ""

/-- The condition that decides about the Job says that it is complete. -/
def JobObject.IsComplete (job : JobObject) : Prop :=
  ∃ c, job.outcome = some c ∧ c.type = .complete

/-- A volume that outlives its claim, is not bound, and is read-only. -/
def PersistentVolume.Final (v : PersistentVolume) : Prop :=
  v.reclaimPolicy = .retain ∧ v.claimRef = none ∧ v.accessModes = [.readOnlyMany]

namespace Build

variable (b : Build)

/-- The claim is there, and not being deleted. -/
def Open (s : Objects) : Prop :=
  ∃ claim, s.claims b.claim = some claim ∧ claim.terminating = false

/-- The annotation is there. -/
def Annotated (s : Objects) : Prop :=
  ∃ job pvName, s.jobs b.handle = some job ∧ job.pvName = some pvName

/-- The claim is gone, and the volume is as it should be. -/
def Finished (s : Objects) : Prop :=
  s.claims b.claim = none ∧ ∃ v, s.volumes b.volume = some v ∧ v.Final

/-- The volume is kept when the claim goes. -/
def Retained (s : Objects) : Prop :=
  ∃ v, s.volumes b.volume = some v ∧ v.reclaimPolicy = .retain

/-- A Job that is complete and has not been polled. -/
structure Fresh (s : Objects) : Prop where
  job : ∃ job, s.jobs b.handle = some job ∧ job.IsComplete ∧ pvcName job.dataset job.version = b.claim
    ∧ job.pvName = none
  volume : ∃ v, s.volumes b.volume = some v ∧ v.claimRef = some b.claim
  claim : ∃ claim, s.claims b.claim = some claim ∧ claim.phase = .bound
    ∧ claim.volumeName = b.volume ∧ claim.terminating = false
  pods : ∀ pod ∈ s.pods, pod.claim = b.claim → pod.job = b.handle

/-- What polls keep: an annotated Job is finished, and the volume stays as long as anything
needs it. -/
structure Kept (s : Objects) : Prop where
  job : ∃ job, s.jobs b.handle = some job ∧ job.IsComplete ∧ pvcName job.dataset job.version = b.claim
    ∧ ∀ pvName, job.pvName = some pvName → pvName = b.volume ∧ b.Finished s
  volume : ∃ v, s.volumes b.volume = some v ∧ (∀ claim, v.claimRef = some claim → claim = b.claim)
    ∧ (b.Open s ∨ v.reclaimPolicy = .retain)
  claim : ∀ claim, s.claims b.claim = some claim →
    claim.phase = .bound ∧ claim.volumeName = b.volume
  pods : ∀ pod ∈ s.pods, pod.claim = b.claim → pod.job = b.handle

variable {b} {s : Objects}

/-- A build that has not been finalized has what the next Poll needs. -/
theorem Fresh.kept (h : b.Fresh s) :
  b.Kept s
  := by
  obtain ⟨claim, hclaim, hphase, hvolume, hterminating⟩ := h.claim
  refine ⟨?_, ?_, ?_, h.pods⟩
  · obtain ⟨job, hjob, hcomplete, hname, hnone⟩ := h.job
    refine ⟨job, hjob, hcomplete, hname, ?_⟩
    rw [hnone]
    simp
  · obtain ⟨v, hv, href⟩ := h.volume
    refine ⟨v, hv, ?_, .inl ⟨claim, hclaim, hterminating⟩⟩
    intro other hother
    rw [href] at hother
    exact (Option.some.inj hother).symm
  · intro other hother
    rw [hclaim] at hother
    cases hother
    exact ⟨hphase, hvolume⟩

/-! ### Claims that go -/

/-- A claim is unchanged, or it is gone. -/
theorem settle_claims (s : Objects) (name : String) :
  s.settle.claims name = s.claims name
    ∨ s.settle.claims name = none ∧ ∃ claim, s.claims name = some claim ∧ claim.terminating = true
  := by
  unfold Objects.settle
  dsimp only
  split
  · next hgoes =>
    right
    refine ⟨rfl, ?_⟩
    unfold Objects.goes at hgoes
    split at hgoes
    · next claim hclaim => exact ⟨claim, hclaim, (Bool.and_eq_true_iff.mp hgoes).1⟩
    · simp at hgoes
  · exact .inl rfl

theorem Open.settle (h : b.Open s) :
  b.Open s.settle
  := by
  obtain ⟨claim, hclaim, hterminating⟩ := h
  rcases settle_claims s b.claim with heq | ⟨-, other, hother, hgoing⟩
  · exact ⟨claim, heq.trans hclaim, hterminating⟩
  · rw [hclaim] at hother
    cases hother
    rw [hterminating] at hgoing
    simp at hgoing

/-- The volume does not go with its claim. -/
theorem Kept.settle_volume (h : b.Kept s) {v : PersistentVolume} (hv : s.volumes b.volume = some v) :
  s.settle.volumes b.volume = some v
  := by
  obtain ⟨w, hw, href, hretain⟩ := h.volume
  rw [hv] at hw
  cases hw
  change (s.volumes b.volume).filter _ = some v
  rw [hv, Option.filter_some, if_pos]
  rw [Bool.not_eq_true', Bool.and_eq_false_iff]
  rcases hretain with ⟨claim, hclaim, hterminating⟩ | hretain
  · right
    cases hclaimRef : v.claimRef with
    | none => rfl
    | some name =>
      obtain rfl := href name hclaimRef
      simp [Objects.goes, hclaim, hterminating]
  · left
    simp [hretain]

theorem Finished.settle (h : b.Finished s) (hkept : b.Kept s) :
  b.Finished s.settle
  := by
  obtain ⟨hclaim, v, hv, hfinal⟩ := h
  refine ⟨?_, v, hkept.settle_volume hv, hfinal⟩
  rcases settle_claims s b.claim with heq | ⟨heq, -⟩
  · exact heq.trans hclaim
  · exact heq

/-- The deletion of a released claim takes nothing that the build still needs. -/
theorem Kept.settle (h : b.Kept s) :
  b.Kept s.settle
  := by
  refine ⟨?_, ?_, ?_, h.pods⟩
  · obtain ⟨job, hjob, hcomplete, hname, hannotated⟩ := h.job
    refine ⟨job, hjob, hcomplete, hname, ?_⟩
    intro pvName hpvName
    obtain ⟨heq, hfinished⟩ := hannotated pvName hpvName
    exact ⟨heq, hfinished.settle h⟩
  · obtain ⟨v, hv, href, hretain⟩ := h.volume
    refine ⟨v, h.settle_volume hv, href, ?_⟩
    rcases hretain with hopen | hretain
    · exact .inl hopen.settle
    · exact .inr hretain
  · intro claim hclaim
    rcases settle_claims s b.claim with heq | ⟨heq, -⟩
    · exact h.claim claim (heq ▸ hclaim)
    · rw [heq] at hclaim
      simp at hclaim

theorem Retained.settle (h : b.Retained s) (hkept : b.Kept s) :
  b.Retained s.settle
  := by
  obtain ⟨v, hv, hretain⟩ := h
  exact ⟨v, hkept.settle_volume hv, hretain⟩

/-! ### Calls -/

/-- A point of a poll at which `P` is known, and `n` is the number of failures before it. -/
structure Stage (b : Build) (n : Nat) (P : Objects → Prop) (s : Objects) : Prop where
  kept : b.Kept s
  failures : n ≤ s.failures
  known : P s

/-- What holds at every point of a poll. -/
abbrev Polling (b : Build) (n : Nat) : Objects → Prop :=
  Stage b n fun _ => True

section

variable {n : Nat} {P : Objects → Prop} {α : Type}

theorem Stage.polling (h : Stage b n P s) :
  Polling b n s
  :=
  ⟨h.kept, h.failures, trivial⟩

theorem Stage.fail (h : Stage b n P s) :
  Polling b n s.fail ∧ n < s.fail.failures
  :=
  ⟨⟨⟨h.kept.job, h.kept.volume, h.kept.claim, h.kept.pods⟩, Nat.le_succ_of_le h.failures, trivial⟩,
    Nat.lt_succ_of_le h.failures⟩

/-- What is known survives the claims that go. -/
def Settles (b : Build) (P : Objects → Prop) : Prop :=
  ∀ s, b.Kept s → P s → P s.settle

/-- A call at a point: it is refused, it answers with an error, or it is carried out and the
answer may get lost. -/
theorem Stage.answer {f : Objects → Except ApiError (α × Objects)}
    {Q : Except ApiError α → Objects → Prop} {t : Objects} (h : Stage b n P t)
    (hrefused : Q (.error unavailable) t.fail)
    (herror : ∀ e, f t = .error e → Q (.error e) t)
    (hok : ∀ a t', f t = .ok (a, t') →
      Polling b n t' ∧ Q (.ok a) t' ∧ Q (.error unavailable) t'.fail) (outcome : Outcome) :
  Polling b n (answer f outcome t).2 ∧ Q (answer f outcome t).1 (answer f outcome t).2
  := by
  unfold ControlPlane.answer
  cases outcome with
  | answered =>
    cases hf : f t with
    | ok x =>
      obtain ⟨hpolling, hanswered, -⟩ := hok x.1 x.2 hf
      exact ⟨hpolling, hanswered⟩
    | error e => exact ⟨h.polling, herror e hf⟩
  | refused => exact ⟨h.fail.1, hrefused⟩
  | lost =>
    cases hf : f t with
    | ok x =>
      obtain ⟨hpolling, -, hlost⟩ := hok x.1 x.2 hf
      exact ⟨hpolling.fail.1, hlost⟩
    | error e => exact ⟨h.fail.1, hrefused⟩

/-- One call: others may act first, then it is refused, fails, or takes effect, and also then
it can be reported as failed. -/
theorem Stage.wp_call {f : Objects → Except ApiError (α × Objects)}
    {Q : Except ApiError α → Objects → Prop} (h : Stage b n P s) (hP : Settles b P)
    (hrefused : ∀ t, Stage b n P t → Q (.error unavailable) t.fail)
    (herror : ∀ t e, Stage b n P t → f t = .error e → Q (.error e) t)
    (hok : ∀ t a t', Stage b n P t → f t = .ok (a, t') →
      Polling b n t' ∧ Q (.ok a) t' ∧ Q (.error unavailable) t'.fail) :
  wp (.none _) (Polling b n) Q (call f) s
  := by
  apply wp_bind
  apply wp_pick h.polling
  intro k
  apply wp_atomic h.polling
  intro r s' heq
  have hstage : Stage b n P (if k / 3 % 2 = 1 then s.settle else s) := by
    split
    · exact ⟨h.kept.settle, h.failures, hP s h.kept h.known⟩
    · exact h
  obtain ⟨rfl, rfl⟩ := Prod.mk.inj (Except.ok.inj heq)
  exact hstage.answer (hrefused _ hstage) (herror _ · hstage) (hok _ · · hstage) _

/-- A call whose failure ends what is going on. -/
theorem Stage.wp_call_or_fail {f : Objects → Except ApiError (α × Objects)}
    {Q : Except ApiError α → Objects → Prop} (h : Stage b n P s) (hP : Settles b P)
    (hfail : ∀ t, Polling b n t → n < t.failures → Q (.error unavailable) t)
    (herror : ∀ t e, Stage b n P t → f t = .error e → Q (.error e) t)
    (hok : ∀ t a t', Stage b n P t → f t = .ok (a, t') → Polling b n t' ∧ Q (.ok a) t') :
  wp (.none _) (Polling b n) Q (call f) s
  := by
  apply h.wp_call hP ?_ herror
  · intro t a t' hstage hf
    obtain ⟨hpolling, hQ⟩ := hok t a t' hstage hf
    exact ⟨hpolling, hQ, hfail _ hpolling.fail.1 hpolling.fail.2⟩
  · intro t hstage
    exact hfail _ hstage.fail.1 hstage.fail.2

/-- Get an object: it fails, or tells whether the object is there. -/
theorem Stage.wp_getObject {objects : Objects → String → Option α} {name : String}
    {Q : Except ApiError α → Objects → Prop} (h : Stage b n P s) (hP : Settles b P)
    (hfail : ∀ t, Polling b n t → n < t.failures → Q (.error unavailable) t)
    (hnone : ∀ t, Stage b n P t → objects t name = none → Q (.error .notFound) t)
    (hsome : ∀ t a, Stage b n P t → objects t name = some a → Q (.ok a) t) :
  wp (.none _) (Polling b n) Q (getObject objects name) s
  := by
  apply h.wp_call_or_fail hP hfail
  · intro t e hstage hf
    split at hf
    · simp at hf
    · next hobject =>
      cases hf
      exact hnone t hstage hobject
  · intro t a t' hstage hf
    split at hf
    · next hobject =>
      obtain ⟨rfl, rfl⟩ := Prod.mk.inj (Except.ok.inj hf)
      exact ⟨hstage.polling, hsome _ _ hstage hobject⟩
    · simp at hf

/-- Get the volume, which is there. -/
theorem Stage.wp_getVolume {Q : Except ApiError PersistentVolume → Objects → Prop}
    (h : Stage b n P s) (hP : Settles b P)
    (hfail : ∀ t, Polling b n t → n < t.failures → Q (.error unavailable) t)
    (hsome : ∀ t v, Stage b n P t → t.volumes b.volume = some v → Q (.ok v) t) :
  wp (.none _) (Polling b n) Q (getVolume b.volume) s
  := by
  apply h.wp_getObject hP hfail _ hsome
  intro t hstage hnone
  obtain ⟨v, hv, -⟩ := hstage.kept.volume
  rw [hv] at hnone
  simp at hnone

/-- A wait: every look gives a result, or leaves things as they are. -/
theorem wp_pollUntil {look : Kube (Except String (Except String α))}
    {Q : Except String α → Objects → Prop}
    (hlook : ∀ s, Stage b n P s → wp (.none _) (Polling b n)
      (fun found s => match found with
        | .ok r => Q r s
        | .error _ => Stage b n P s) look s)
    (hlate : ∀ t late, Polling b n t → n < t.failures → Q (.error late) t)
    (m : Nat) (s : Objects) (h : Stage b n P s) :
  wp (.none _) (Polling b n) Q (pollUntil look m) s
  := by
  induction m generalizing s with
  | zero =>
    apply wp_bind
    apply wp_mono (hlook s h)
    intro found s' hpolling hfound
    cases found with
    | ok r => exact wp_pure hpolling hfound
    | error late =>
      obtain ⟨hfailed, hlt⟩ := hfound.fail
      apply wp_bind
      apply wp_modify hpolling hfailed
      exact wp_pure hfailed (hlate _ late hfailed hlt)
  | succ m ih =>
    apply wp_bind
    apply wp_mono (hlook s h)
    intro found s' hpolling hfound
    cases found with
    | ok r => exact wp_pure hpolling hfound
    | error late => exact ih s' hfound

end

/-! ### What the calls change -/

section

variable {job : JobObject}

/-- The Job was read, and is not annotated. -/
def Unmarked (b : Build) (job : JobObject) (s : Objects) : Prop :=
  s.jobs b.handle = some job ∧ job.pvName = none

/-- An update of the volume keeps what the build needs, if it stays bound to the claim of the
build and is retained. -/
theorem Kept.updateVolume (h : b.Kept s) (hunmarked : b.Unmarked job s) {v : PersistentVolume}
    (href : ∀ claim, v.claimRef = some claim → claim = b.claim) (hretain : v.reclaimPolicy = .retain) :
  b.Kept { s with volumes := Function.update s.volumes b.volume (some v) }
  := by
  refine ⟨?_, ⟨v, Function.update_self _ _ _, href, .inr hretain⟩, h.claim, h.pods⟩
  obtain ⟨job', hjob', hcomplete, hname, -⟩ := h.job
  refine ⟨job', hjob', hcomplete, hname, ?_⟩
  rw [hunmarked.1] at hjob'
  cases hjob'
  rw [hunmarked.2]
  simp

/-- The claim may be deleted when its volume is retained. -/
theorem Kept.deleteClaim (h : b.Kept s) (hretained : b.Retained s) {claim : VolumeClaim}
    (hclaim : s.claims b.claim = some claim) :
  b.Kept { s with
    claims := Function.update s.claims b.claim (some { claim with terminating := true }) }
  := by
  refine ⟨?_, ?_, ?_, h.pods⟩
  · obtain ⟨job, hjob, hcomplete, hname, hannotated⟩ := h.job
    refine ⟨job, hjob, hcomplete, hname, ?_⟩
    intro pvName hpvName
    obtain ⟨-, hgone, -⟩ := hannotated pvName hpvName
    rw [hclaim] at hgone
    simp at hgone
  · obtain ⟨v, hv, href, -⟩ := h.volume
    obtain ⟨w, hw, hretain⟩ := hretained
    rw [hv] at hw
    cases hw
    exact ⟨v, hv, href, .inr hretain⟩
  · intro other hother
    dsimp only at hother
    rw [Function.update_self] at hother
    cases hother
    exact h.claim claim hclaim

theorem Kept.deletePods (h : b.Kept s) (p : Pod → Bool) :
  b.Kept { s with pods := s.pods.filter p }
  :=
  ⟨h.job, h.volume, h.claim, fun pod hpod => h.pods pod (List.mem_of_mem_filter hpod)⟩

/-- The mark on the Job keeps what the build needs, once the build is finished. -/
theorem Kept.updateJob (h : b.Kept s) (hfinished : b.Finished s) (hjob : s.jobs b.handle = some job) :
  b.Kept { s with
    jobs := Function.update s.jobs b.handle (some { job with pvName := some b.volume }) }
  := by
  refine ⟨?_, h.volume, h.claim, h.pods⟩
  obtain ⟨job', hjob', hcomplete, hname, -⟩ := h.job
  rw [hjob] at hjob'
  cases hjob'
  refine ⟨_, Function.update_self _ _ _, hcomplete, hname, ?_⟩
  intro pvName hpvName
  exact ⟨(Option.some.inj hpvName).symm, hfinished⟩

/-! ### The volume manager -/

variable {n : Nat} {good : Prop}

/-- Before the claim is deleted; `good` says that it was not being deleted at first. -/
def Before (b : Build) (job : JobObject) (good : Prop) (s : Objects) : Prop :=
  b.Unmarked job s ∧ (good → b.Open s)

/-- While the claim is deleted. -/
def Deleting (b : Build) (job : JobObject) (s : Objects) : Prop :=
  b.Unmarked job s ∧ b.Retained s

/-- When the claim is gone. -/
def Gone (b : Build) (job : JobObject) (s : Objects) : Prop :=
  b.Deleting job s ∧ s.claims b.claim = none

theorem settles_before :
  b.Settles (b.Before job good)
  := by
  intro s _ h
  exact ⟨h.1, fun hgood => (h.2 hgood).settle⟩

theorem settles_deleting :
  b.Settles (b.Deleting job)
  := by
  intro s hkept h
  exact ⟨h.1, h.2.settle hkept⟩

theorem settles_gone :
  b.Settles (b.Gone job)
  := by
  intro s hkept h
  refine ⟨settles_deleting s hkept h.1, ?_⟩
  rcases settle_claims s b.claim with heq | ⟨heq, -⟩
  · exact heq.trans h.2
  · exact heq

/-- The wait gives the volume of the build, or fails with a call of its own if the build is
good. -/
theorem wp_waitForBound (h : b.Stage n (b.Before job good) s) :
  wp (.none _) (b.Polling n)
    (fun r s => match r with
      | .ok pvName => pvName = b.volume ∧ b.Stage n (b.Before job good) s
      | .error _ => good → n < s.failures) (waitForBound b.claim) s
  := by
  apply wp_bind
  apply wp_pick h.polling
  intro m
  apply wp_pollUntil (P := b.Before job good) _ _ m s h
  · intro s h
    apply wp_bind
    apply h.wp_getObject settles_before
    · intro t hpolling hlt
      exact wp_pure hpolling fun _ => hlt
    · intro t hstage hnone
      apply wp_pure hstage.polling
      intro hgood
      obtain ⟨claim, hclaim, -⟩ := hstage.known.2 hgood
      rw [hclaim] at hnone
      simp at hnone
    · intro t claim hstage hclaim
      obtain ⟨hphase, hvolume⟩ := hstage.kept.claim claim hclaim
      dsimp only
      rw [if_pos ⟨hphase, hvolume ▸ b.volume_ne⟩]
      exact wp_pure hstage.polling ⟨hvolume, hstage⟩
  · intro t late _ hlt _
    exact hlt

/-- An update of the volume of the build fails, or stores the volume. -/
theorem wp_updateVolume {P : Objects → Prop} {v : PersistentVolume}
    {Q : Except ApiError Unit → Objects → Prop} (h : b.Stage n P s) (hP : b.Settles P)
    (hunmarked : ∀ t, P t → b.Unmarked job t)
    (href : ∀ claim, v.claimRef = some claim → claim = b.claim) (hretain : v.reclaimPolicy = .retain)
    (hfail : ∀ t, b.Polling n t → n < t.failures → Q (.error unavailable) t)
    (hok : ∀ t t', b.Stage n P t → b.Polling n t' →
      t' = { t with volumes := Function.update t.volumes b.volume (some v) } → Q (.ok ()) t') :
  wp (.none _) (b.Polling n) Q (updateVolume b.volume v) s
  := by
  apply h.wp_call_or_fail hP hfail
  · intro t e hstage hf
    obtain ⟨w, hw, -⟩ := hstage.kept.volume
    rw [hw] at hf
    simp at hf
  · intro t _ t' hstage hf
    obtain ⟨w, hw, -⟩ := hstage.kept.volume
    rw [hw] at hf
    obtain ⟨-, rfl⟩ := Prod.mk.inj (Except.ok.inj hf)
    have hkept := hstage.kept.updateVolume (hunmarked t hstage.known) href hretain
    exact ⟨⟨hkept, hstage.failures, trivial⟩, hok t _ hstage ⟨hkept, hstage.failures, trivial⟩ rfl⟩

/-- After the policy is set, the volume survives its claim. -/
theorem wp_setRetainPolicy (h : b.Stage n (b.Before job good) s) :
  wp (.none _) (b.Polling n)
    (fun r s => match r with
      | .ok _ => b.Stage n (b.Deleting job) s
      | .error _ => n < s.failures) (setRetainPolicy b.volume) s
  := by
  apply wp_bind
  apply h.wp_getVolume settles_before
  · intro t hpolling hlt
    exact wp_pure hpolling hlt
  · intro t v hstage hv
    dsimp only
    split
    · next hretain =>
      exact wp_pure hstage.polling ⟨hstage.kept, hstage.failures, hstage.known.1, v, hv, hretain⟩
    · apply wp_bind
      obtain ⟨w, hw, href, -⟩ := hstage.kept.volume
      rw [hv] at hw
      cases hw
      apply wp_updateVolume hstage settles_before (fun _ ht => ht.1) (by simpa using href) rfl
      · intro t hpolling hlt
        exact wp_pure hpolling hlt
      · rintro t t' hstage hpolling rfl
        apply wp_pure hpolling
        exact ⟨hpolling.kept, hpolling.failures, hstage.known.1, _, Function.update_self _ _ _, rfl⟩

/-- The deletion of the claim fails, or the claim is going. -/
theorem wp_deleteClaim {Q : Except ApiError Unit → Objects → Prop} (h : b.Stage n (b.Deleting job) s)
    (hfail : ∀ t, b.Polling n t → n < t.failures → Q (.error unavailable) t)
    (hok : ∀ r t, ignoreNotFound r = .ok () → b.Stage n (b.Deleting job) t → Q r t) :
  wp (.none _) (b.Polling n) Q (deleteClaim b.claim) s
  := by
  apply h.wp_call_or_fail settles_deleting hfail
  · intro t e hstage hf
    split at hf
    · simp at hf
    · cases hf
      exact hok _ t rfl hstage
  · intro t _ t' hstage hf
    split at hf
    · next claim hclaim =>
      obtain ⟨-, rfl⟩ := Prod.mk.inj (Except.ok.inj hf)
      have hkept := hstage.kept.deleteClaim hstage.known.2 hclaim
      have hnext : b.Stage n (b.Deleting job) { t with
          claims := Function.update t.claims b.claim (some { claim with terminating := true }) } :=
        ⟨hkept, hstage.failures, hstage.known⟩
      exact ⟨hnext.polling, hok _ _ rfl hnext⟩
    · simp at hf

/-- After the wait the claim is gone. -/
theorem wp_waitForPVCDeleted (h : b.Stage n (b.Deleting job) s) :
  wp (.none _) (b.Polling n)
    (fun r s => match r with
      | .ok _ => b.Stage n (b.Gone job) s
      | .error _ => n < s.failures) (waitForPVCDeleted b.claim) s
  := by
  apply wp_bind
  apply wp_pick h.polling
  intro m
  apply wp_pollUntil (P := b.Deleting job) _ _ m s h
  · intro s h
    apply wp_bind
    apply h.wp_getObject settles_deleting
    · intro t hpolling hlt
      exact wp_pure hpolling hlt
    · intro t hstage hnone
      exact wp_pure hstage.polling ⟨hstage.kept, hstage.failures, hstage.known, hnone⟩
    · intro t claim hstage _
      exact wp_pure hstage.polling hstage
  · intro t late _ hlt
    exact hlt

/-- After its claim is gone, the volume is freed of it and is marked as read-only. -/
theorem wp_finalizePV (h : b.Stage n (b.Gone job) s) :
  wp (.none _) (b.Polling n)
    (fun r s => match r with
      | .ok _ => b.Stage n (fun s => b.Unmarked job s ∧ b.Finished s) s
      | .error _ => n < s.failures) (finalizePV b.volume) s
  := by
  apply wp_bind
  apply h.wp_getVolume settles_gone
  · intro t hpolling hlt
    exact wp_pure hpolling hlt
  · intro t v hstage hv
    obtain ⟨w, hw, hretain⟩ := hstage.known.1.2
    rw [hv] at hw
    cases hw
    apply wp_bind
    have href : ∀ claim, (none : Option String) = some claim → claim = b.claim := by simp
    apply wp_updateVolume (v := { v with claimRef := none, accessModes := [.readOnlyMany] }) hstage
      settles_gone (fun _ ht => ht.1.1) href hretain
    · intro t hpolling hlt
      exact wp_pure hpolling hlt
    · rintro t t' hstage hpolling rfl
      apply wp_pure hpolling
      refine ⟨hpolling.kept, hpolling.failures, hstage.known.1.1, hstage.known.2, _,
        Function.update_self _ _ _, hretain, rfl, rfl⟩

/-- A finalize that returns well has finished the build; one that fails, of a good build, has
met a failed call. -/
theorem wp_finalizeBuild (h : b.Stage n (b.Before job good) s) :
  wp (.none _) (b.Polling n)
    (fun r s => match r with
      | .ok pvName => pvName = b.volume ∧ b.Stage n (fun s => b.Unmarked job s ∧ b.Finished s) s
      | .error _ => good → n < s.failures) (finalizeBuild b.claim) s
  := by
  apply wp_bind
  apply wp_mono (wp_waitForBound h)
  intro r s hpolling hr
  cases r with
  | error e => exact wp_pure hpolling hr
  | ok pvName =>
    obtain ⟨rfl, h⟩ := hr
    apply wp_bind
    apply wp_mono (wp_setRetainPolicy h)
    intro r s hpolling hr
    cases r with
    | error e => exact wp_pure hpolling fun _ => hr
    | ok _ =>
      apply wp_bind
      apply wp_deleteClaim hr
      · intro t hpolling hlt
        exact wp_pure hpolling fun _ => hlt
      · intro r s hignored h
        rw [hignored]
        apply wp_bind
        apply wp_mono (wp_waitForPVCDeleted h)
        intro r s hpolling hr
        cases r with
        | error e => exact wp_pure hpolling fun _ => hr
        | ok _ =>
          apply wp_bind
          apply wp_mono (wp_finalizePV hr)
          intro r s hpolling hr
          cases r with
          | error e => exact wp_pure hpolling fun _ => hr
          | ok _ => exact wp_pure hpolling ⟨rfl, hr⟩

/-! ### The builder -/

/-- Nothing that is known before the claim is deleted depends on the pods or on failures. -/
theorem Stage.deletePods (h : b.Stage n (b.Before job good) s) (p : Pod → Bool) :
  b.Stage n (b.Before job good) { s with pods := s.pods.filter p }
  :=
  ⟨h.kept.deletePods p, h.failures, h.known⟩

theorem Stage.failed (h : b.Stage n (b.Before job good) s) :
  b.Stage n (b.Before job good) s.fail
  :=
  ⟨h.fail.1.kept, h.fail.1.failures, h.known⟩

/-- The deletion of a pod keeps the stage of the build. -/
theorem wp_deletePod (h : b.Stage n (b.Before job good) s) (name : String) :
  wp (.none _) (b.Polling n) (fun _ s => b.Stage n (b.Before job good) s) (deletePod name) s
  := by
  apply h.wp_call settles_before
  · intro t hstage
    exact hstage.failed
  · intro t e hstage _
    exact hstage
  · intro t _ t' hstage hf
    split at hf
    · obtain ⟨-, rfl⟩ := Prod.mk.inj (Except.ok.inj hf)
      have hdeleted := hstage.deletePods (·.name ≠ name)
      exact ⟨hdeleted.polling, hdeleted, hdeleted.failed⟩
    · simp at hf

/-- The deletion of the pods changes nothing that a Poll looks at. -/
theorem wp_deleteJobPods (h : b.Stage n (b.Before job good) s) :
  wp (.none _) (b.Polling n) (fun _ s => b.Stage n (b.Before job good) s) (deleteJobPods b.handle) s
  := by
  apply wp_bind
  have hlist : wp (.none _) (b.Polling n) (fun _ s => b.Stage n (b.Before job good) s)
      (listPods b.handle) s := by
    apply h.wp_call settles_before
    · intro t hstage
      exact hstage.failed
    · intro t e hstage _
      exact hstage
    · intro t _ t' hstage hf
      obtain ⟨-, rfl⟩ := Prod.mk.inj (Except.ok.inj hf)
      exact ⟨hstage.polling, hstage, hstage.failed⟩
  apply wp_mono hlist
  intro r s hpolling h
  cases r with
  | error e => exact wp_pure hpolling h
  | ok pods =>
    apply wp_forM (R := fun _ => b.Stage n (b.Before job good)) (fun _ _ h => h.polling) ?_ pods s h
    intro pod _ s h
    apply wp_bind
    apply wp_mono (wp_deletePod h pod.name)
    intro _ s hpolling h
    exact wp_pure hpolling h

/-- The Job is marked when the build is finished. -/
theorem wp_updateJob (h : b.Stage n (fun s => b.Unmarked job s ∧ b.Finished s) s) :
  wp (.none _) (b.Polling n) (fun _ s => b.Finished s)
    (updateJob b.handle { job with pvName := some b.volume }) s
  := by
  have hsettles : b.Settles fun s => b.Unmarked job s ∧ b.Finished s := by
    intro s hkept h
    exact ⟨h.1, h.2.settle hkept⟩
  apply h.wp_call hsettles
  · intro t hstage
    exact hstage.known.2
  · intro t e hstage _
    exact hstage.known.2
  · intro t _ t' hstage hf
    split at hf
    · obtain ⟨-, rfl⟩ := Prod.mk.inj (Except.ok.inj hf)
      have hkept := hstage.kept.updateJob hstage.known.2 hstage.known.1.1
      exact ⟨⟨hkept, hstage.failures, trivial⟩, hstage.known.2, hstage.known.2⟩
    · simp at hf

/-- A Job that is not annotated is finalized, unless a call fails or the claim was being
deleted. -/
theorem wp_pollComplete (h : b.Stage n (b.Before job good) s)
    (hname : pvcName job.dataset job.version = b.claim) :
  wp (.none _) (b.Polling n)
    (fun r s => good → s.failures = n → r = .ok (.complete "" b.volume) ∧ b.Finished s)
    (pollComplete b.handle job) s
  := by
  unfold pollComplete
  rw [h.known.1.2, hname]
  apply wp_bind
  apply wp_mono (wp_deleteJobPods h)
  intro _ s _ h
  apply wp_bind
  apply wp_mono (wp_finalizeBuild h)
  intro r s hpolling hr
  cases r with
  | error e =>
    apply wp_pure hpolling
    intro hgood hfailures
    exact absurd (hr hgood) (by omega)
  | ok pvName =>
    obtain ⟨rfl, h⟩ := hr
    apply wp_bind
    apply wp_mono (wp_updateJob h)
    intro _ s hpolling hfinished
    exact wp_pure hpolling fun _ _ => ⟨rfl, hfinished⟩

end

/-- What a poll has to return, and what has to hold after it. -/
def Completes (b : Build) (r : Except String BuildStatus) (s : Objects) : Prop :=
  r = .ok (.complete "" b.volume) ∧ b.Finished s

/-- A poll from an annotated Job, or while the claim is there and not being deleted, completes
the build if no call fails. -/
theorem wp_poll (h : b.Kept s) :
  wp (.none _) (b.Polling s.failures)
    (fun r s' => b.Annotated s ∨ b.Open s → s'.failures = s.failures → b.Completes r s')
    (poll b.handle) s
  := by
  obtain ⟨job, hjob, ⟨c, houtcome, hcomplete⟩, hname, hannotated⟩ := h.job
  have hstage : b.Stage s.failures (fun t => t.jobs b.handle = some job ∧ (b.Open s → b.Open t)) s :=
    ⟨h, Nat.le_refl _, hjob, id⟩
  have hsettles : b.Settles fun t => t.jobs b.handle = some job ∧ (b.Open s → b.Open t) := by
    intro t _ ht
    exact ⟨ht.1, fun hopen => (ht.2 hopen).settle⟩
  apply wp_bind
  apply hstage.wp_getObject hsettles
  · intro t hpolling hlt
    apply wp_pure hpolling
    intro _ hfailures
    omega
  · intro t hstage hnone
    rw [show t.jobs b.handle = some job from hstage.known.1] at hnone
    simp at hnone
  · intro t job' hstage hjob'
    rw [show t.jobs b.handle = some job from hstage.known.1] at hjob'
    cases hjob'
    dsimp only
    rw [houtcome]
    dsimp only
    rw [if_pos hcomplete]
    cases hpvName : job.pvName with
    | some pvName =>
      obtain ⟨job', hjob', -, -, hfinished⟩ := hstage.kept.job
      rw [show t.jobs b.handle = some job from hstage.known.1] at hjob'
      cases hjob'
      obtain ⟨rfl, hfinished⟩ := hfinished pvName hpvName
      unfold pollComplete
      rw [hpvName]
      exact wp_pure hstage.polling fun _ _ => ⟨rfl, hfinished⟩
    | none =>
      have hbefore : b.Stage s.failures (b.Before job (b.Open s)) t :=
        ⟨hstage.kept, hstage.failures, ⟨hstage.known.1, hpvName⟩, hstage.known.2⟩
      apply wp_mono (wp_pollComplete hbefore hname)
      intro r s' _ hr hgood hfailures
      rcases hgood with ⟨job', pvName, hjob', hpvName'⟩ | hopen
      · rw [hjob] at hjob'
        cases hjob'
        rw [hpvName] at hpvName'
        simp at hpvName'
      · exact hr hopen hfailures

/-! ### When the claim is being deleted -/

/-- Claims only vanish. -/
def Vanishes (s s' : Objects) : Prop :=
  ∀ name claim, s'.claims name = some claim → s.claims name = some claim

theorem vanishes_settle (s : Objects) :
  Vanishes s s.settle
  := by
  intro name claim hclaim
  rcases settle_claims s name with heq | ⟨heq, -⟩
  · exact heq ▸ hclaim
  · rw [heq] at hclaim
    simp at hclaim

theorem Vanishes.not_open {s' : Objects} (h : Vanishes s s') (hopen : ¬ b.Open s) :
  ¬ b.Open s'
  := by
  rintro ⟨claim, hclaim, hterminating⟩
  exact hopen ⟨claim, h _ _ hclaim, hterminating⟩

/-- A claim that is being deleted goes when its pods are gone. -/
theorem settle_gone (h : ¬ b.Open s) (hpods : ∀ pod ∈ s.pods, pod.claim ≠ b.claim) :
  s.settle.claims b.claim = none
  := by
  change (if s.goes b.claim then none else s.claims b.claim) = none
  cases hclaim : s.claims b.claim with
  | none => simp
  | some claim =>
    have hterminating : claim.terminating = true := by
      by_contra hnot
      exact h ⟨claim, hclaim, by simpa using hnot⟩
    have hgoes : s.goes b.claim = true := by
      unfold Objects.goes
      rw [hclaim]
      simpa [hterminating] using hpods
    rw [if_pos hgoes]

/-- A call that is answered when the claims that can go are gone. -/
theorem run_call {α : Type} (f : Objects → Except ApiError (α × Objects)) (s : Objects) :
  (call f).run 3 s = (.ok (answer f .answered s.settle).1, (answer f .answered s.settle).2)
  :=
  rfl

/-- Without failures a pod that is deleted is gone. -/
theorem run_deletePod (name : String) (s : Objects) :
  ∃ r s', (deletePod name).run 3 s = (.ok r, s') ∧ s'.failures = s.failures ∧ Vanishes s s'
    ∧ ∀ pod ∈ s'.pods, pod ∈ s.pods ∧ pod.name ≠ name
  := by
  refine ⟨_, _, run_call _ s, ?_⟩
  by_cases hany : s.settle.pods.any (·.name = name)
  · simp only [answer, hany, if_true]
    refine ⟨rfl, vanishes_settle s, ?_⟩
    intro pod hpod
    obtain ⟨hmem, hne⟩ := List.mem_filter.mp hpod
    exact ⟨hmem, by simpa using hne⟩
  · simp only [answer, hany]
    refine ⟨rfl, vanishes_settle s, ?_⟩
    intro pod hpod
    refine ⟨hpod, ?_⟩
    intro hname
    exact hany (List.any_eq_true.mpr ⟨pod, hpod, by simpa using hname⟩)

/-- Without failures all pods of a list are gone. -/
theorem run_deletePods (l : List Pod) (s : Objects) :
  ∃ s', (l.forM fun pod => do
      let _ ← deletePod pod.name
      return () : Kube Unit).run 3 s = (.ok (), s')
    ∧ s'.failures = s.failures ∧ Vanishes s s'
    ∧ ∀ pod ∈ s'.pods, pod ∈ s.pods ∧ ∀ x ∈ l, pod.name ≠ x.name
  := by
  induction l generalizing s with
  | nil => exact ⟨s, rfl, rfl, fun _ _ h => h, fun pod hpod => ⟨hpod, by simp⟩⟩
  | cons x l ih =>
    obtain ⟨r, s₁, hrun, hfailures₁, hvanishes₁, hpods₁⟩ := run_deletePod x.name s
    obtain ⟨s', hrest, hfailures, hvanishes, hpods⟩ := ih s₁
    refine ⟨s', ?_, hfailures.trans hfailures₁,
      fun name claim h => hvanishes₁ name claim (hvanishes name claim h), ?_⟩
    · change run 3 ((deletePod x.name >>= fun _ => pure ()) >>= fun _ => l.forM _) s = _
      rw [run_bind, run_bind, hrun]
      exact hrest
    · intro pod hpod
      obtain ⟨hmem, hnames⟩ := hpods pod hpod
      obtain ⟨hmem, hne⟩ := hpods₁ pod hmem
      refine ⟨hmem, ?_⟩
      intro y hy
      rcases List.mem_cons.mp hy with rfl | hy
      · exact hne
      · exact hnames y hy

/-- Without failures no pod uses the claim after the deletion of the pods of the Job. -/
theorem run_deleteJobPods (h : b.Kept s) :
  ∃ s', (deleteJobPods b.handle).run 3 s = (.ok (), s') ∧ s'.failures = s.failures ∧ Vanishes s s'
    ∧ ∀ pod ∈ s'.pods, pod.claim ≠ b.claim
  := by
  obtain ⟨s', hrun, hfailures, hvanishes, hpods⟩ :=
    run_deletePods (s.settle.pods.filter (·.job = b.handle)) s.settle
  refine ⟨s', ?_, hfailures, ?_, ?_⟩
  · unfold deleteJobPods
    rw [run_bind]
    exact hrun
  · intro name claim hclaim
    exact vanishes_settle s name claim (hvanishes name claim hclaim)
  · intro pod hpod hclaim
    obtain ⟨hmem, hnames⟩ := hpods pod hpod
    have hjob := h.pods pod hmem hclaim
    exact hnames pod (List.mem_filter.mpr ⟨hmem, by simpa using hjob⟩) rfl

/-- The error of a finalization that does not find the claim. -/
def claimMissing (b : Build) : String :=
  "wait for PVC \"" ++ b.claim ++ "\" bound: "
    ++ errorText "persistentvolumeclaims" b.claim .notFound

/-- A claim that is gone when it is waited for makes the finalization fail. -/
theorem run_finalizeBuild (hgone : s.settle.claims b.claim = none) :
  (finalizeBuild b.claim).run 3 s = (.ok (.error b.claimMissing), s.settle)
  := by
  let text := errorText "persistentvolumeclaims" b.claim .notFound
  have hget : (getClaim b.claim).run 3 s = (.ok (.error .notFound), s.settle) := by
    refine (run_call _ s).trans ?_
    simp only [answer, hgone]
  have hlook : (lookBound b.claim).run 3 s = (.ok (.ok (.error text)), s.settle) := by
    unfold lookBound
    rw [run_bind, hget]
    rfl
  have hwait : (waitForBound b.claim).run 3 s = (.ok (.error text), s.settle) := by
    change (pollUntil (lookBound b.claim) 3).run 3 s = _
    rw [pollUntil, run_bind, hlook]
    rfl
  unfold finalizeBuild
  rw [run_bind, hwait]
  rfl

/-- Without the annotation, and when the claim is gone or being deleted, a poll can fail
although none of its calls does. -/
theorem run_poll (h : b.Kept s) (hannotated : ¬ b.Annotated s) (hopen : ¬ b.Open s) :
  ∃ s', (poll b.handle).run 3 s = (.ok (.ok (.failed ("finalize build: " ++ b.claimMissing))), s')
    ∧ s'.failures = s.failures
  := by
  obtain ⟨job, hjob, ⟨c, houtcome, hcomplete⟩, hname, -⟩ := h.job
  have hpvName : job.pvName = none := by
    cases hpvName : job.pvName with
    | none => rfl
    | some pvName => exact absurd ⟨job, pvName, hjob, hpvName⟩ hannotated
  obtain ⟨s₁, hpods, hfailures, hvanishes, hnone⟩ := run_deleteJobPods h.settle
  have hopen₁ := hvanishes.not_open ((vanishes_settle s).not_open hopen)
  have hfinalize := run_finalizeBuild (settle_gone hopen₁ hnone)
  refine ⟨s₁.settle, ?_, hfailures⟩
  have hget : (getJob b.handle).run 3 s = (.ok (.ok job), s.settle) := by
    refine (run_call _ s).trans ?_
    have hsettled : s.settle.jobs b.handle = some job := hjob
    simp only [answer, hsettled]
  unfold poll
  rw [run_bind, hget]
  dsimp only
  rw [houtcome]
  dsimp only
  rw [if_pos hcomplete]
  unfold pollComplete
  rw [hpvName]
  dsimp only
  rw [run_bind, hpods]
  dsimp only
  rw [hname, run_bind, hfinalize]
  rfl

/-! ### Polls without failures -/

/-- When every call is answered, and claims go as soon as they can, the program fails nowhere and
returns a result in `Q`. -/
def Smooth {α : Type} (Q : α → Objects → Prop) (p : Kube α) (s : Objects) : Prop :=
  ∃ a s', p.run 3 s = (.ok a, s') ∧ s'.failures = s.failures ∧ Q a s'

section

variable {α β : Type}

theorem Smooth.bind {Q : β → Objects → Prop} {p : Kube α} {f : α → Kube β}
    (h : Smooth (fun a s => Smooth Q (f a) s) p s) :
  Smooth Q (p >>= f) s
  := by
  obtain ⟨a, s₁, hp, hfailures₁, r, s₂, hf, hfailures₂, hQ⟩ := h
  refine ⟨r, s₂, ?_, hfailures₂.trans hfailures₁, hQ⟩
  rw [run_bind, hp]
  exact hf

theorem Smooth.mono {Q R : α → Objects → Prop} {p : Kube α} (h : Smooth Q p s)
    (hQ : ∀ a s, Q a s → R a s) :
  Smooth R p s
  := by
  obtain ⟨a, s', hp, hfailures, hq⟩ := h
  exact ⟨a, s', hp, hfailures, hQ a s' hq⟩

theorem Smooth.pure {Q : α → Objects → Prop} {a : α} (hQ : Q a s) :
  Smooth Q (Pure.pure a) s
  :=
  ⟨a, s, rfl, rfl, hQ⟩

/-- Without failures a call takes effect, or reports its own error. -/
theorem smooth_call {Q : Except ApiError α → Objects → Prop}
    {f : Objects → Except ApiError (α × Objects)}
    (herror : ∀ e, f s.settle = .error e → Q (.error e) s.settle)
    (hok : ∀ a t, f s.settle = .ok (a, t) → t.failures = s.failures ∧ Q (.ok a) t) :
  Smooth Q (call f) s
  := by
  refine ⟨_, _, run_call f s, ?_⟩
  cases hf : f s.settle with
  | ok x =>
    simp only [answer, hf]
    exact hok x.1 x.2 hf
  | error e =>
    simp only [answer, hf]
    exact ⟨rfl, herror e hf⟩

/-- An object is read, or there is none. -/
theorem smooth_getObject {objects : Objects → String → Option α} {name : String}
    {Q : Except ApiError α → Objects → Prop}
    (hnone : objects s.settle name = none → Q (.error .notFound) s.settle)
    (hsome : ∀ a, objects s.settle name = some a → Q (.ok a) s.settle) :
  Smooth Q (getObject objects name) s
  := by
  apply smooth_call
  · intro e hf
    split at hf
    · simp at hf
    · next hobject =>
      cases hf
      exact hnone hobject
  · intro a t hf
    split at hf
    · next hobject =>
      obtain ⟨rfl, rfl⟩ := Prod.mk.inj (Except.ok.inj hf)
      exact ⟨rfl, hsome _ hobject⟩
    · simp at hf

/-- The claim, if it is there, is bound, and no pod uses it. -/
structure Clear (b : Build) (s : Objects) : Prop where
  claim : ∀ claim, s.claims b.claim = some claim → claim.phase = .bound ∧ claim.volumeName = b.volume
  pods : ∀ pod ∈ s.pods, pod.claim ≠ b.claim

theorem Clear.settle (h : b.Clear s) :
  b.Clear s.settle
  :=
  ⟨fun claim hclaim => h.claim claim (vanishes_settle s _ _ hclaim), h.pods⟩

/-- Without failures an update of a volume ends. -/
theorem smooth_updateVolume (h : b.Clear s) (name : String) (v : PersistentVolume) :
  Smooth (fun _ s => b.Clear s) (updateVolume name v) s
  := by
  apply smooth_call
  · intro e _
    exact h.settle
  · intro _ t hf
    split at hf
    · obtain ⟨-, rfl⟩ := Prod.mk.inj (Except.ok.inj hf)
      exact ⟨rfl, h.settle.claim, h.settle.pods⟩
    · simp at hf

/-- Without failures the wait for the volume ends. -/
theorem smooth_waitForBound (h : b.Clear s) :
  Smooth (fun _ s => b.Clear s) (waitForBound b.claim) s
  := by
  have hlook : Smooth (fun found s => b.Clear s ∧ ∃ r, found = .ok r) (lookBound b.claim) s := by
    apply Smooth.bind
    apply smooth_getObject
    · intro _
      exact Smooth.pure ⟨h.settle, _, rfl⟩
    · intro claim hclaim
      obtain ⟨hphase, hvolume⟩ := h.settle.claim claim hclaim
      dsimp only
      rw [if_pos ⟨hphase, hvolume ▸ b.volume_ne⟩]
      exact Smooth.pure ⟨h.settle, _, rfl⟩
  change Smooth _ (pollUntil (lookBound b.claim) 3) s
  apply Smooth.bind
  apply hlook.mono
  rintro _ s' ⟨hclear, r, rfl⟩
  exact Smooth.pure hclear

/-- Without failures the policy is set. -/
theorem smooth_setRetainPolicy (h : b.Clear s) (pvName : String) :
  Smooth (fun _ s => b.Clear s) (setRetainPolicy pvName) s
  := by
  apply Smooth.bind
  apply smooth_getObject
  · intro _
    exact Smooth.pure h.settle
  · intro v _
    dsimp only
    split
    · exact Smooth.pure h.settle
    · apply Smooth.bind
      apply (smooth_updateVolume h.settle _ _).mono
      intro r s' hclear
      cases r with
      | ok _ => exact Smooth.pure hclear
      | error e => exact Smooth.pure hclear

/-- Without failures the claim is not open after its deletion. -/
theorem smooth_deleteClaim (h : b.Clear s) :
  Smooth (fun _ s => b.Clear s ∧ ¬ b.Open s) (deleteClaim b.claim) s
  := by
  apply smooth_call
  · intro e hf
    refine ⟨h.settle, ?_⟩
    rintro ⟨claim, hclaim, -⟩
    rw [hclaim] at hf
    simp at hf
  · intro _ t hf
    split at hf
    · next claim hclaim =>
      obtain ⟨-, rfl⟩ := Prod.mk.inj (Except.ok.inj hf)
      refine ⟨rfl, ⟨?_, h.settle.pods⟩, ?_⟩
      · intro other hother
        dsimp only at hother
        rw [Function.update_self] at hother
        cases hother
        exact h.settle.claim claim hclaim
      · rintro ⟨other, hother, hterminating⟩
        dsimp only at hother
        rw [Function.update_self] at hother
        cases hother
        simp at hterminating
    · simp at hf

/-- Without failures the wait for the deletion of the claim ends. -/
theorem smooth_waitForPVCDeleted (h : b.Clear s) (hopen : ¬ b.Open s) :
  Smooth (fun _ s => b.Clear s) (waitForPVCDeleted b.claim) s
  := by
  have hlook : Smooth (fun found s => b.Clear s ∧ found = .ok (.ok ())) (lookDeleted b.claim) s := by
    apply Smooth.bind
    apply smooth_getObject
    · intro _
      exact Smooth.pure ⟨h.settle, rfl⟩
    · intro claim hclaim
      rw [settle_gone hopen h.pods] at hclaim
      simp at hclaim
  change Smooth _ (pollUntil (lookDeleted b.claim) 3) s
  apply Smooth.bind
  apply hlook.mono
  rintro _ s' ⟨hclear, rfl⟩
  exact Smooth.pure hclear

/-- Without failures the last update of the volume ends. -/
theorem smooth_finalizePV (h : b.Clear s) (pvName : String) :
  Smooth (fun _ _ => True) (finalizePV pvName) s
  := by
  apply Smooth.bind
  apply smooth_getObject
  · intro _
    exact Smooth.pure trivial
  · intro v _
    apply Smooth.bind
    apply (smooth_updateVolume h.settle _ _).mono
    intro r s' _
    cases r with
    | ok _ => exact Smooth.pure trivial
    | error e => exact Smooth.pure trivial

/-- Without failures and without pods in the way, the finalize ends. -/
theorem smooth_finalizeBuild (h : b.Clear s) :
  Smooth (fun _ _ => True) (finalizeBuild b.claim) s
  := by
  apply Smooth.bind
  apply (smooth_waitForBound h).mono
  intro r s h
  cases r with
  | error e => exact Smooth.pure trivial
  | ok pvName =>
    apply Smooth.bind
    apply (smooth_setRetainPolicy h pvName).mono
    intro r s h
    cases r with
    | error e => exact Smooth.pure trivial
    | ok _ =>
      apply Smooth.bind
      apply (smooth_deleteClaim h).mono
      rintro r s ⟨h, hopen⟩
      cases ignoreNotFound r with
      | error e => exact Smooth.pure trivial
      | ok _ =>
        apply Smooth.bind
        apply (smooth_waitForPVCDeleted h hopen).mono
        intro r s h
        cases r with
        | error e => exact Smooth.pure trivial
        | ok _ =>
          apply Smooth.bind
          apply (smooth_finalizePV h pvName).mono
          intro r s _
          cases r with
          | error e => exact Smooth.pure trivial
          | ok _ => exact Smooth.pure trivial

/-- A Job that is complete can always be polled without a failure. -/
theorem smooth_poll (h : b.Kept s) :
  Smooth (fun _ _ => True) (poll b.handle) s
  := by
  obtain ⟨job, hjob, ⟨c, houtcome, hcomplete⟩, hname, -⟩ := h.job
  apply Smooth.bind
  apply smooth_getObject
  · intro _
    exact Smooth.pure trivial
  · intro job' hjob'
    rw [show s.settle.jobs b.handle = some job from hjob] at hjob'
    cases hjob'
    dsimp only
    rw [houtcome]
    dsimp only
    rw [if_pos hcomplete]
    unfold pollComplete
    split
    · exact Smooth.pure trivial
    · apply Smooth.bind
      obtain ⟨s₁, hrun, hfailures, hvanishes, hpods⟩ := run_deleteJobPods h.settle
      have hclear : b.Clear s₁ :=
        ⟨fun claim hclaim => h.settle.claim claim (hvanishes _ _ hclaim), hpods⟩
      refine ⟨(), s₁, hrun, hfailures, ?_⟩
      rw [hname]
      apply Smooth.bind
      apply (smooth_finalizeBuild hclear).mono
      intro r s₂ _
      cases r with
      | error e => exact Smooth.pure trivial
      | ok pvName =>
        apply Smooth.bind
        apply smooth_call
        · intro e _
          exact Smooth.pure trivial
        · intro _ t hf
          split at hf
          · obtain ⟨-, rfl⟩ := Prod.mk.inj (Except.ok.inj hf)
            exact ⟨rfl, Smooth.pure trivial⟩
          · simp at hf

end

/-! ### Sessions -/

/-- The sessions of polls of a Job that is complete: calls can fail, and the process can die at
any point. -/
abbrev PollReachable (b : Build) :
    Session Objects Empty Empty (Except String BuildStatus) Unit → Objects → Prop :=
  Crash.Reachable (.none _) (fun _ => poll b.handle) b.Fresh fun _ _ _ => True

/-- After any Polls, also such that died, the build has what the next one needs. -/
theorem PollReachable.kept {x : Session Objects Empty Empty (Except String BuildStatus) Unit}
    (h : b.PollReachable x s) :
  b.Kept s
  := by
  have hsafe := Crash.Reachable.safe (J := fun _ => b.Kept) (Q := fun _ _ _ => True)
    (fun _ hs => hs.kept)
    (fun _ _ s hs _ => by
      apply wp_mono (wp_weaken (wp_poll hs) fun _ hpolling => hpolling.kept)
      intros
      trivial) h
  exact hsafe.inv

/-- A poll none of whose calls fails. -/
def Polls (b : Build) (s : Objects) (r : Except String BuildStatus) (s' : Objects) : Prop :=
  Steps (.none _) (poll b.handle) s (done (.ok r)) s' ∧ s'.failures = s.failures

theorem Polls.of_run {k : Nat} {r : Except String BuildStatus} {s' : Objects}
    (hrun : (poll b.handle).run k s = (.ok r, s')) (hfailures : s'.failures = s.failures) :
  b.Polls s r s'
  := by
  have hsteps := steps_run (.none _) k (poll b.handle) s
  rw [hrun] at hsteps
  exact ⟨hsteps, hfailures⟩

/-- After any number of polls, whichever of their calls failed and wherever they died: a poll
none of whose calls fails is possible, and every such poll completes the build, if and only if
the Job is annotated or the claim is there and not being deleted. -/
theorem polls_complete_iff (b : Build)
    (x : Session Objects Empty Empty (Except String BuildStatus) Unit) (s : Objects)
    (h : b.PollReachable x s) :
  (∃ r s', b.Polls s r s') ∧ (∀ r s', b.Polls s r s' → b.Completes r s')
    ↔ b.Annotated s ∨ b.Open s
  := by
  have hkept := h.kept
  constructor
  · rintro ⟨-, hcompletes⟩
    by_contra hnot
    obtain ⟨hannotated, hopen⟩ := not_or.mp hnot
    obtain ⟨s', hrun, hfailures⟩ := run_poll hkept hannotated hopen
    obtain ⟨hcomplete, -⟩ := hcompletes _ _ (.of_run hrun hfailures)
    simp at hcomplete
  · intro hgood
    constructor
    · obtain ⟨r, s', hrun, hfailures, -⟩ := smooth_poll hkept
      exact ⟨r, s', .of_run hrun hfailures⟩
    · rintro r s' ⟨hsteps, hfailures⟩
      have hpost := wp_steps (wp_poll hkept) hsteps
      exact hpost.2 hgood hfailures

/-! ### Polls that die -/

/-- The first build of `users`. -/
def usersBuild : Build :=
  ⟨"mcf-build-users-v1", "mcf-pvc-users-v1", "pvc-1", by decide⟩

def usersJob : JobObject :=
  ⟨"users", "v1", [⟨.complete, true, "", ""⟩], none⟩

/-- The Job is complete, and its pod is still there. -/
def usersObjects : Objects where
  jobs := Function.update (fun _ => none) usersBuild.handle (some usersJob)
  pods := [⟨"mcf-build-users-v1-0", usersBuild.handle, usersBuild.claim⟩]
  claims := Function.update (fun _ => none) usersBuild.claim (some ⟨.bound, "pvc-1", false⟩)
  volumes := Function.update (fun _ => none) "pvc-1"
    (some ⟨.delete, some usersBuild.claim, [.readWriteOnce]⟩)
  failures := 0

theorem usersObjects_fresh :
  usersBuild.Fresh usersObjects
  := by
  refine ⟨⟨usersJob, rfl, ⟨_, rfl, rfl⟩, by decide, rfl⟩, ⟨_, rfl, rfl⟩, ⟨_, rfl, rfl, rfl, rfl⟩, ?_⟩
  intro pod hpod _
  obtain rfl := List.mem_singleton.mp hpod
  rfl

/-- The objects when a poll dies before the number that would be picked after `picks`. -/
def died (picks : List Nat) : Objects :=
  ((poll usersBuild.handle).follow picks usersObjects).2

theorem died_reachable (picks : List Nat) :
  usersBuild.PollReachable (.idle (some ())) (died picks)
  := by
  apply Crash.Reachable.kill
  apply Crash.Reachable.steps (Crash.Reachable.start () (.init usersObjects_fresh) trivial trivial)
  apply steps_follow

/-- A poll that dies before it deletes the claim is followed by one that completes the
build. -/
theorem polls_complete_users :
  (died [0, 0, 0, 0, 0, 0, 0]).volumes "pvc-1"
      = some ⟨.retain, some "mcf-pvc-users-v1", [.readWriteOnce]⟩
    ∧ (∃ r s', usersBuild.Polls (died [0, 0, 0, 0, 0, 0, 0]) r s')
    ∧ ∀ r s', usersBuild.Polls (died [0, 0, 0, 0, 0, 0, 0]) r s' → usersBuild.Completes r s'
  := by
  have hopen : usersBuild.Open (died [0, 0, 0, 0, 0, 0, 0]) := ⟨⟨.bound, "pvc-1", false⟩, rfl, rfl⟩
  exact ⟨rfl, (polls_complete_iff usersBuild _ _ (died_reachable _)).mpr (.inr hopen)⟩

/-- A poll that dies after it has deleted the claim is followed by one that fails, although no
call fails in either. -/
theorem deleted_claim_fails_build :
  ∃ s', usersBuild.PollReachable (.idle (some ())) (died [0, 0, 0, 0, 0, 0, 0, 0])
    ∧ (died [0, 0, 0, 0, 0, 0, 0, 0]).failures = 0
    ∧ usersBuild.Polls (died [0, 0, 0, 0, 0, 0, 0, 0])
      (.ok (.failed ("finalize build: " ++ usersBuild.claimMissing))) s'
  := by
  have hannotated : ¬ usersBuild.Annotated (died [0, 0, 0, 0, 0, 0, 0, 0]) := by
    rintro ⟨job, pvName, hjob, hpvName⟩
    have hjob' : some usersJob = some job := hjob
    cases hjob'
    simp [usersJob] at hpvName
  have hopen : ¬ usersBuild.Open (died [0, 0, 0, 0, 0, 0, 0, 0]) := by
    rintro ⟨claim, hclaim, hterminating⟩
    have hclaim' : some (⟨.bound, "pvc-1", true⟩ : VolumeClaim) = some claim := hclaim
    cases hclaim'
    simp at hterminating
  have hreachable := died_reachable [0, 0, 0, 0, 0, 0, 0, 0]
  obtain ⟨s', hrun, hfailures⟩ := run_poll hreachable.kept hannotated hopen
  exact ⟨s', hreachable, rfl, .of_run hrun hfailures⟩

end Build

end ControlPlane
