import Mcfreeze.NodeAgent.Volume
import Mcfreeze.ControlPlane.Versions

/-!
# Build jobs

`Job` (`builder/job.go`) runs a build as a Kubernetes Job that writes to a claimed volume.  When
the Job is complete, `Poll` has `LocalPathManager` (`volume/localpath.go`) turn the volume into a
read-only one, and records its name in an annotation of the Job: the policy of the volume is set
so that it outlives the claim, the claim is deleted, and the volume is cleared of it.

A program is a sequence of calls to the API server.  A call can be refused, its answer can get
lost, and a claim that is being deleted can go before any of them.
-/

namespace ControlPlane

open Crash Prog

open NodeAgent (ApiError toLower sanitize)

/-! ### Names -/

/-- The name of a build resource: lower-case letters and digits, with a hyphen for each stretch
of others. -/
def resourceName (kind dataset versionID : String) : String :=
  let name := (kind ++ "-" ++ dataset ++ "-" ++ versionID).toList.map toLower
  String.ofList (((sanitize false name).take 253).rdropWhile (· = '-'))

def pvcName (dataset versionID : String) : String :=
  resourceName "mcf-pvc" dataset versionID

/-! ### Objects -/

inductive JobConditionType where
  | complete
  | failed
  | other
  deriving DecidableEq, Repr

/-- A condition of a Job; `status` says that it holds. -/
structure JobCondition where
  type : JobConditionType
  status : Bool
  reason : String
  message : String
  deriving DecidableEq, Repr

/-- A Job, with the labels of its build and the annotation that records the volume. -/
structure JobObject where
  dataset : String
  version : String
  conditions : List JobCondition
  pvName : Option String
  deriving DecidableEq, Repr

/-- A pod of a Job, which uses a claim. -/
structure Pod where
  name : String
  job : String
  claim : String
  deriving DecidableEq, Repr

inductive ClaimPhase where
  | pending
  | bound
  | lost
  deriving DecidableEq, Repr

/-- How a phase is printed. -/
def ClaimPhase.text : ClaimPhase → String
  | .pending => "Pending"
  | .bound => "Bound"
  | .lost => "Lost"

/-- A claim to a volume; one that is being deleted is there until no pod uses it. -/
structure VolumeClaim where
  phase : ClaimPhase
  volumeName : String
  terminating : Bool
  deriving DecidableEq, Repr

inductive ReclaimPolicy where
  | delete
  | recycle
  | retain
  deriving DecidableEq, Repr

inductive AccessMode where
  | readWriteOnce
  | readOnlyMany
  | readWriteMany
  | readWriteOncePod
  deriving DecidableEq, Repr

/-- A volume, and the claim it is bound to. -/
structure PersistentVolume where
  reclaimPolicy : ReclaimPolicy
  claimRef : Option String
  accessModes : List AccessMode
  deriving DecidableEq, Repr

/-- The objects in the API server, by name, and the number of calls that failed so far and of
waits that ran into their deadline. -/
structure Objects where
  jobs : String → Option JobObject
  pods : List Pod
  claims : String → Option VolumeClaim
  volumes : String → Option PersistentVolume
  failures : Nat

/-- A claim that is being deleted can go when no pod uses it. -/
def Objects.goes (s : Objects) (name : String) : Bool :=
  match s.claims name with
  | some claim => claim.terminating && s.pods.all (·.claim ≠ name)
  | none => false

/-- The claims that can go are gone, and with them the volumes that are not to be kept. -/
def Objects.settle (s : Objects) : Objects :=
  { s with
    claims := fun name => if s.goes name then none else s.claims name
    volumes := fun name => (s.volumes name).filter fun v =>
      !(v.reclaimPolicy = .delete && v.claimRef.any s.goes) }

def Objects.fail (s : Objects) : Objects :=
  { s with failures := s.failures + 1 }

/-! ### Calls -/

/-- A program of calls to the API server; errors are values that the program looks at. -/
abbrev Kube (α : Type) := Prog Objects Empty Empty α

/-- How a call ends: with an answer, refused without effect, or with the answer lost. -/
inductive Outcome where
  | answered
  | refused
  | lost

/-- The number that the environment picks decides on the outcome. -/
def outcomeOf (k : Nat) : Outcome :=
  match k % 3 with
  | 0 => .answered
  | 1 => .refused
  | _ => .lost

/-- The error of a call that failed. -/
def unavailable : ApiError := .other "the server is currently unable to handle the request"

/-- The answer to a call, and the objects after it. -/
def answer {α : Type} (f : Objects → Except ApiError (α × Objects)) (outcome : Outcome) (s : Objects) :
    Except ApiError α × Objects :=
  match outcome with
  | .answered =>
    match f s with
    | .ok (a, s') => (.ok a, s')
    | .error e => (.error e, s)
  | .refused => (.error unavailable, s.fail)
  | .lost =>
    match f s with
    | .ok (_, s') => (.error unavailable, s'.fail)
    | .error _ => (.error unavailable, s.fail)

/-- A call, before which claims may go. -/
def call {α : Type} (f : Objects → Except ApiError (α × Objects)) : Kube (Except ApiError α) := do
  let k ← pick
  atomic fun s => .ok (answer f (outcomeOf k) (if k / 3 % 2 = 1 then s.settle else s))

/-- Get an object by its name. -/
def getObject {α : Type} (objects : Objects → String → Option α) (name : String) :
    Kube (Except ApiError α) :=
  call fun s =>
    match objects s name with
    | some a => .ok (a, s)
    | none => .error .notFound

def getJob : String → Kube (Except ApiError JobObject) := getObject Objects.jobs

def getClaim : String → Kube (Except ApiError VolumeClaim) := getObject Objects.claims

def getVolume : String → Kube (Except ApiError PersistentVolume) := getObject Objects.volumes

def updateJob (name : String) (job : JobObject) : Kube (Except ApiError Unit) :=
  call fun s =>
    match s.jobs name with
    | some _ => .ok ((), { s with jobs := Function.update s.jobs name (some job) })
    | none => .error .notFound

def updateVolume (name : String) (pv : PersistentVolume) : Kube (Except ApiError Unit) :=
  call fun s =>
    match s.volumes name with
    | some _ => .ok ((), { s with volumes := Function.update s.volumes name (some pv) })
    | none => .error .notFound

/-- Delete a claim: it is marked, and goes later. -/
def deleteClaim (name : String) : Kube (Except ApiError Unit) :=
  call fun s =>
    match s.claims name with
    | some claim =>
      .ok ((), { s with
        claims := Function.update s.claims name (some { claim with terminating := true }) })
    | none => .error .notFound

def listPods (job : String) : Kube (Except ApiError (List Pod)) :=
  call fun s => .ok (s.pods.filter (·.job = job), s)

def deletePod (name : String) : Kube (Except ApiError Unit) :=
  call fun s =>
    if s.pods.any (·.name = name) then .ok ((), { s with pods := s.pods.filter (·.name ≠ name) })
    else .error .notFound

/-- The text of an error about an object. -/
def errorText (resource name : String) : ApiError → String
  | .alreadyExists => resource ++ " \"" ++ name ++ "\" already exists"
  | .notFound => resource ++ " \"" ++ name ++ "\" not found"
  | .other message => message

/-! ### The volume manager -/

/-- Look until there is a result, or until the deadline, which comes after `n` more looks; a
look without a result says what to report at the deadline. -/
def pollUntil {α : Type} (look : Kube (Except String (Except String α))) : Nat → Kube (Except String α)
  | 0 => do
    match ← look with
    | .ok result => return result
    | .error late => do
      modify Objects.fail
      return .error late
  | n + 1 => do
    match ← look with
    | .ok result => return result
    | .error _ => pollUntil look n

/-- Look whether a claim is bound. -/
def lookBound (pvcName : String) : Kube (Except String (Except String String)) := do
  match ← getClaim pvcName with
  | .error e => return .ok (.error (errorText "persistentvolumeclaims" pvcName e))
  | .ok pvc =>
    if pvc.phase = .bound ∧ pvc.volumeName ≠ "" then return .ok (.ok pvc.volumeName)
    else return .error ("timed out waiting for PVC \"" ++ pvcName ++ "\" to bind (phase: "
      ++ pvc.phase.text ++ ")")

/-- Wait for a claim to be bound, and return the volume. -/
def waitForBound (pvcName : String) : Kube (Except String String) := do
  let n ← pick
  pollUntil (lookBound pvcName) n

/-- Set the policy of a volume, so that it survives the deletion of its claim. -/
def setRetainPolicy (pvName : String) : Kube (Except String Unit) := do
  match ← getVolume pvName with
  | .error e => return .error (errorText "persistentvolumes" pvName e)
  | .ok pv =>
    if pv.reclaimPolicy = .retain then return .ok ()
    else
      match ← updateVolume pvName { pv with reclaimPolicy := .retain } with
      | .error e => return .error (errorText "persistentvolumes" pvName e)
      | .ok () => return .ok ()

/-- Look whether a claim is gone. -/
def lookDeleted (pvcName : String) : Kube (Except String (Except String Unit)) := do
  match ← getClaim pvcName with
  | .error .notFound => return .ok (.ok ())
  | .error e => return .ok (.error (errorText "persistentvolumeclaims" pvcName e))
  | .ok _ => return .error ("timed out waiting for PVC \"" ++ pvcName ++ "\" to be deleted")

/-- Wait for a claim to be gone. -/
def waitForPVCDeleted (pvcName : String) : Kube (Except String Unit) := do
  let n ← pick
  pollUntil (lookDeleted pvcName) n

/-- Clear a volume of its claim, and make it read-only. -/
def finalizePV (pvName : String) : Kube (Except String Unit) := do
  match ← getVolume pvName with
  | .error e => return .error (errorText "persistentvolumes" pvName e)
  | .ok pv =>
    match ← updateVolume pvName { pv with claimRef := none, accessModes := [.readOnlyMany] } with
    | .error e => return .error (errorText "persistentvolumes" pvName e)
    | .ok () => return .ok ()

/-- An object that is gone already is no error. -/
def ignoreNotFound : Except ApiError Unit → Except ApiError Unit
  | .error .notFound => .ok ()
  | r => r

/-- Turn the volume of a claim into a read-only one, and return its name. -/
def finalizeBuild (pvcName : String) : Kube (Except String String) := do
  match ← waitForBound pvcName with
  | .error e => return .error ("wait for PVC \"" ++ pvcName ++ "\" bound: " ++ e)
  | .ok pvName =>
    match ← setRetainPolicy pvName with
    | .error e => return .error ("set retain policy on PV \"" ++ pvName ++ "\": " ++ e)
    | .ok () =>
      let deleted ← deleteClaim pvcName
      match ignoreNotFound deleted with
      | .error e =>
        return .error ("delete PVC \"" ++ pvcName ++ "\": "
          ++ errorText "persistentvolumeclaims" pvcName e)
      | .ok () =>
        match ← waitForPVCDeleted pvcName with
        | .error e => return .error ("wait for PVC \"" ++ pvcName ++ "\" deletion: " ++ e)
        | .ok () =>
          match ← finalizePV pvName with
          | .error e => return .error ("finalize PV \"" ++ pvName ++ "\": " ++ e)
          | .ok () => return .ok pvName

/-! ### The builder -/

/-- Delete the pods of a Job; errors are ignored. -/
def deleteJobPods (jobName : String) : Kube Unit := do
  match ← listPods jobName with
  | .error _ => return ()
  | .ok pods =>
    pods.forM fun pod => do
      let _ ← deletePod pod.name
      return ()

/-- Finalize the build of a Job that is complete, unless its annotation says that this was
done. -/
def pollComplete (jobName : String) (job : JobObject) : Kube (Except String BuildStatus) :=
  match job.pvName with
  | some pvName => return .ok (.complete "" pvName)
  | none => do
    deleteJobPods jobName
    match ← finalizeBuild (pvcName job.dataset job.version) with
    | .error e => return .ok (.failed ("finalize build: " ++ e))
    | .ok pvName =>
      let _ ← updateJob jobName { job with pvName := some pvName }
      return .ok (.complete "" pvName)

/-- Why a Job failed. -/
def JobCondition.failure (c : JobCondition) : String :=
  if c.message ≠ "" then c.message
  else if c.reason ≠ "" then c.reason
  else "job failed"

/-- The first condition that says how a Job ended. -/
def JobObject.outcome (job : JobObject) : Option JobCondition :=
  job.conditions.find? fun c => (c.type = .complete || c.type = .failed) && c.status

/-- Check the status of a Job. -/
def poll (jobName : String) : Kube (Except String BuildStatus) := do
  match ← getJob jobName with
  | .error .notFound => return .ok .notFound
  | .error e => return .error ("job builder: get Job \"" ++ jobName ++ "\": " ++ errorText "jobs" jobName e)
  | .ok job =>
    match job.outcome with
    | none => return .ok .running
    | some c =>
      if c.type = .complete then pollComplete jobName job
      else return .ok (.failed c.failure)

end ControlPlane
