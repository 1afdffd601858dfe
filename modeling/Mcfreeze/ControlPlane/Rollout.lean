import Mcfreeze.ControlPlane.Sync
import Mcfreeze.Lib.Lists

/-!
# Rollout counts

After a sync the reconciler counts, for an active version, the nodes that have converged on
it (`patchRollout` of `controller/nodeassignment.go`) and stores the counts in the status of
the version.

The status says of itself that it counts the nodes the version was pushed to and those that
report an error for this version.  The code counts every registered node, and an error of
the dataset at any version.
-/

namespace ControlPlane

/-- What a node reported last. -/
structure NodeState where
  node : String := ""
  datasets : List DatasetState
  reportedAt : Int := 0
  deriving DecidableEq, Repr

structure RolloutStatus where
  totalNodes : Nat
  convergedNodes : Nat
  pendingNodes : Nat
  errorNodes : Nat
  deriving DecidableEq, Repr

/-- Go through the datasets of a node up to the first entry of the dataset of `v`, and count
the node; without an entry it is pending. -/
def countDatasets (v : DatasetVersion) (rollout : RolloutStatus) : List DatasetState → RolloutStatus
  | [] => { rollout with pendingNodes := rollout.pendingNodes + 1 }
  | ds :: rest =>
    if ds.dataset ≠ v.dataset then countDatasets v rollout rest
    else if ds.phase = .error then { rollout with errorNodes := rollout.errorNodes + 1 }
    else if ds.phase = .active ∧ ds.versionID = v.versionID then
      { rollout with convergedNodes := rollout.convergedNodes + 1 }
    else { rollout with pendingNodes := rollout.pendingNodes + 1 }

/-- Count a node; one that never reported is pending. -/
def countNode (states : String → Option NodeState) (v : DatasetVersion) (rollout : RolloutStatus)
    (node : String) : RolloutStatus :=
  match states node with
  | none => { rollout with pendingNodes := rollout.pendingNodes + 1 }
  | some ns => countDatasets v rollout ns.datasets

/-- The counts over the registered nodes, which are listed in any order. -/
def rolloutOf (nodes : List String) (states : String → Option NodeState) (v : DatasetVersion) :
    RolloutStatus :=
  nodes.foldl (countNode states v) ⟨nodes.length, 0, 0, 0⟩

def rolloutsEqual (a b : Option RolloutStatus) : Bool :=
  match a, b with
  | some a, some b => a = b
  | none, none => true
  | _, _ => false

/-- The rollout in the status of a version after it was patched; equal counts are not written
again. -/
def patchRollout (nodes : List String) (states : String → Option NodeState) (v : DatasetVersion)
    (status : Option RolloutStatus) : Option RolloutStatus :=
  let rollout := rolloutOf nodes states v
  if rolloutsEqual status (some rollout) then status else some rollout

/-! ### What the counts are of -/

section

variable {states : String → Option NodeState} {v : DatasetVersion}

/-- What a node reports of the dataset of `v`: the first entry of it. -/
def reported (states : String → Option NodeState) (v : DatasetVersion) (node : String) :
    Option DatasetState :=
  (states node).bind fun ns => ns.datasets.find? fun ds => ds.dataset = v.dataset

/-- The node reports the dataset active at `v`. -/
def reportsActive (states : String → Option NodeState) (v : DatasetVersion) (node : String) : Bool :=
  (reported states v node).any fun ds => ds.phase = .active ∧ ds.versionID = v.versionID

/-- The node reports an error of the dataset, at any version. -/
def reportsAnyError (states : String → Option NodeState) (v : DatasetVersion) (node : String) : Bool :=
  (reported states v node).any fun ds => ds.phase = .error

/-- The node reports an error for `v`. -/
def reportsError (states : String → Option NodeState) (v : DatasetVersion) (node : String) : Bool :=
  (reported states v node).any fun ds => ds.phase = .error ∧ ds.versionID = v.versionID

/-- Only the first entry of a node that names the dataset counts. -/
theorem countDatasets_eq (rollout : RolloutStatus) (datasets : List DatasetState) :
  countDatasets v rollout datasets
    = let entry := datasets.find? fun ds => ds.dataset = v.dataset
      if entry.any fun ds => ds.phase = .error then
        { rollout with errorNodes := rollout.errorNodes + 1 }
      else if entry.any fun ds => ds.phase = .active ∧ ds.versionID = v.versionID then
        { rollout with convergedNodes := rollout.convergedNodes + 1 }
      else { rollout with pendingNodes := rollout.pendingNodes + 1 }
  := by
  induction datasets with
  | nil => rfl
  | cons ds rest ih =>
    by_cases h : ds.dataset = v.dataset
    · simp [countDatasets, h]
    · simp [countDatasets, h, ih]

/-- A node counts as an error, as converged or as pending, by what it reports of the
dataset. -/
theorem countNode_eq (rollout : RolloutStatus) (node : String) :
  countNode states v rollout node
    = if reportsAnyError states v node then { rollout with errorNodes := rollout.errorNodes + 1 }
      else if reportsActive states v node then
        { rollout with convergedNodes := rollout.convergedNodes + 1 }
      else { rollout with pendingNodes := rollout.pendingNodes + 1 }
  := by
  unfold countNode reportsAnyError reportsActive reported
  cases states node with
  | none => rfl
  | some ns =>
    simp only [countDatasets_eq, Option.bind_some]

theorem not_reportsAnyError_of_reportsActive {node : String} (h : reportsActive states v node = true) :
  reportsAnyError states v node = false
  := by
  unfold reportsActive reportsAnyError at *
  cases hr : reported states v node with
  | none => rfl
  | some ds =>
    simp only [hr, Option.any_some, decide_eq_true_eq] at h
    simp [h.1]

theorem reportsAnyError_of_reportsError {node : String} (h : reportsError states v node = true) :
  reportsAnyError states v node = true
  := by
  unfold reportsError reportsAnyError at *
  cases hr : reported states v node with
  | none => simp [hr] at h
  | some ds =>
    simp only [hr, Option.any_some, decide_eq_true_eq] at h
    simp [h.1]

/-- The fold adds to each count the nodes of its kind. -/
theorem foldl_countNode (nodes : List String) (rollout : RolloutStatus) :
  nodes.foldl (countNode states v) rollout
    = { rollout with
        convergedNodes := rollout.convergedNodes + nodes.countP (reportsActive states v)
        pendingNodes := rollout.pendingNodes
          + nodes.countP (fun n => !reportsActive states v n && !reportsAnyError states v n)
        errorNodes := rollout.errorNodes + nodes.countP (reportsAnyError states v) }
  := by
  induction nodes generalizing rollout with
  | nil => rfl
  | cons n nodes ih =>
    rw [List.foldl_cons, ih, countNode_eq]
    cases herror : reportsAnyError states v n with
    | true =>
      have hactive : reportsActive states v n = false := by
        by_contra h
        rw [not_reportsAnyError_of_reportsActive (Bool.not_eq_false _ ▸ h)] at herror
        cases herror
      simp [herror, hactive]
      omega
    | false =>
      cases hactive : reportsActive states v n with
      | true =>
        simp [herror, hactive]
        omega
      | false =>
        simp [herror, hactive]
        omega

theorem rolloutOf_eq (nodes : List String) :
  rolloutOf nodes states v
    = { totalNodes := nodes.length
        convergedNodes := nodes.countP (reportsActive states v)
        pendingNodes :=
          nodes.countP (fun n => !reportsActive states v n && !reportsAnyError states v n)
        errorNodes := nodes.countP (reportsAnyError states v) }
  := by
  rw [rolloutOf, foldl_countNode]
  simp only [Nat.zero_add]

/-- The order in which the nodes are listed does not matter. -/
theorem rolloutOf_perm {nodes nodes' : List String} (h : nodes.Perm nodes') :
  rolloutOf nodes states v = rolloutOf nodes' states v
  := by
  simp only [rolloutOf_eq, h.length_eq, h.countP_eq]

theorem patchRollout_eq (nodes : List String) (status : Option RolloutStatus) :
  patchRollout nodes states v status = some (rolloutOf nodes states v)
  := by
  unfold patchRollout rolloutsEqual
  cases status with
  | none => rfl
  | some s =>
    by_cases h : s = rolloutOf nodes states v
    · simp [h]
    · simp [h]

end

/-! ### The nodes of a version -/

section

variable {b : Broker} {states : String → Option NodeState} {v : DatasetVersion}

/-- The current assignments of a node contain `v`. -/
def hasVersion (b : Broker) (v : DatasetVersion) (node : String) : Bool :=
  ((b.assignments node).getD none).elems.any fun a =>
    a.dataset = v.dataset ∧ a.version.id = v.versionID

/-- The registered nodes that `v` is pushed to. -/
def pushedNodes (b : Broker) (v : DatasetVersion) : List String :=
  b.nodes.filter (hasVersion b v)

/-- The counts are those of the version's own nodes. -/
structure RolloutStatus.Describes (rollout : RolloutStatus) (b : Broker)
    (states : String → Option NodeState) (v : DatasetVersion) : Prop where
  total : rollout.totalNodes = (pushedNodes b v).length
  converged : rollout.convergedNodes = (pushedNodes b v).countP (reportsActive states v)
  error : rollout.errorNodes = (pushedNodes b v).countP (reportsError states v)
  pending : rollout.pendingNodes
    = (pushedNodes b v).countP fun n => !reportsActive states v n && !reportsError states v n
  addsUp : rollout.convergedNodes + rollout.pendingNodes + rollout.errorNodes = rollout.totalNodes

/-- Whatever is reported, the three counts add up to the registered nodes. -/
theorem rolloutOf_addsUp (nodes : List String) :
  (rolloutOf nodes states v).convergedNodes + (rolloutOf nodes states v).pendingNodes
      + (rolloutOf nodes states v).errorNodes
    = (rolloutOf nodes states v).totalNodes
  := by
  rw [rolloutOf_eq]
  induction nodes with
  | nil => rfl
  | cons n nodes ih =>
    simp only [List.countP_cons, List.length_cons] at ih ⊢
    cases hactive : reportsActive states v n with
    | true =>
      simp [not_reportsAnyError_of_reportsActive hactive]
      omega
    | false =>
      cases reportsAnyError states v n with
      | true =>
        simp
        omega
      | false =>
        simp
        omega

/-- An error of a node is always one for `v` exactly when the two tests agree. -/
theorem reportsError_of_any_iff {node : String} :
  (reportsAnyError states v node = true → reportsError states v node = true)
    ↔ ∀ ds, reported states v node = some ds → ds.phase = .error → ds.versionID = v.versionID
  := by
  unfold reportsAnyError reportsError
  cases reported states v node with
  | none => simp
  | some ds =>
    simp only [Option.any_some, decide_eq_true_eq, Option.some.injEq, forall_eq']
    constructor
    · intro h herror
      apply (h herror).2
    · intro h herror
      exact ⟨herror, h herror⟩

theorem pushedNodes_eq_self (h : ∀ n ∈ b.nodes, hasVersion b v n = true) :
  pushedNodes b v = b.nodes
  := by
  apply List.filter_eq_self.mpr h

/-- The patched rollout counts the version's own nodes exactly when every registered node has
the version among its assignments, and no registered node reports an error of the dataset at
another version. -/
theorem rollout_describes_iff {nodes : List String} (hnodes : nodes.Perm b.nodes)
    (states : String → Option NodeState) (v : DatasetVersion) (status : Option RolloutStatus) :
  (∃ rollout, patchRollout nodes states v status = some rollout ∧ rollout.Describes b states v)
    ↔ (∀ n ∈ b.nodes, hasVersion b v n = true)
      ∧ ∀ n ∈ b.nodes, ∀ ds, reported states v n = some ds → ds.phase = .error →
        ds.versionID = v.versionID
  := by
  simp only [patchRollout_eq, Option.some.injEq, exists_eq_left', rolloutOf_perm hnodes]
  constructor
  · intro h
    have hpushed : ∀ n ∈ b.nodes, hasVersion b v n = true := by
      have htotal := h.total
      rw [rolloutOf_eq, pushedNodes, ← List.countP_eq_length_filter] at htotal
      apply List.countP_eq_length.mp htotal.symm
    refine ⟨hpushed, fun n hn => ?_⟩
    have herror := h.error
    rw [rolloutOf_eq, pushedNodes_eq_self hpushed] at herror
    apply reportsError_of_any_iff.mp
    apply List.forall_of_countP_eq (fun _ => reportsAnyError_of_reportsError) herror n hn
  · rintro ⟨hpushed, herrors⟩
    have hsame : ∀ n ∈ b.nodes, reportsAnyError states v n = reportsError states v n := by
      intro n hn
      apply Bool.eq_iff_iff.mpr
      exact ⟨reportsError_of_any_iff.mpr (herrors n hn), reportsAnyError_of_reportsError⟩
    constructor
    case addsUp => apply rolloutOf_addsUp
    all_goals rw [rolloutOf_eq, pushedNodes_eq_self hpushed]
    case error =>
      apply List.countP_congr
      intro n hn
      rw [hsame n hn]
    case pending =>
      apply List.countP_congr
      intro n hn
      rw [hsame n hn]

end

/-! ### Where the counts are of other nodes -/

/-- Selectors as labels that all have to be there. -/
def matchLabelsEnv : SyncEnv Labels where
  labelSelectorAsSelector sel := some fun labels => sel.all fun l => labels.contains l
  parseMetaFields _ := ("", "", 0)

/-- A cluster with one active version and two nodes, of which a binding keeps the dataset from
the second. -/
def boundCluster : Cluster Labels where
  versions := [activeVersion]
  bindings := [⟨some [("pool", "batch")], some [("team", "batch")]⟩]
  dataset _ := some ⟨"users", [("team", "web")]⟩
  node n := if n = "node-a" then some [("pool", "web")] else some [("pool", "batch")]

/-- A broker where both nodes are registered. -/
def bothRegistered : Polling :=
  { registered "node-a" with broker := (registered "node-a").broker.registerNode "node-b" }

theorem bothRegistered_reachable :
  Polling.Reachable bothRegistered
  :=
  (registered_reachable "node-a").step (.register "node-b")

/-- The listing of that cluster. -/
def boundListing : Listing Labels :=
  ⟨boundCluster.versions, boundCluster.bindings, ["node-a", "node-b"]⟩

theorem boundListing_of :
  boundListing.Of boundCluster bothRegistered.broker.nodes
  := by
  have hnodes : bothRegistered.broker.nodes = ["node-a", "node-b"] := by decide
  refine ⟨.refl _, .refl _, ?_⟩
  rw [hnodes]
  exact .refl _

/-- A node that reports the dataset in a phase at a version. -/
def reports (node : String) (phase : DatasetPhase) (versionID : String) : String → Option NodeState :=
  fun n =>
    if n = node then some ⟨node, [{ dataset := "users", versionID := versionID, phase := phase }], 0⟩
    else none

/-- From every reachable broker, whatever the nodes report, the rollout of an active version is of its
own nodes after a sync. -/
def RolloutDescribes {Selector : Type} (env : SyncEnv Selector) (cluster : Cluster Selector) : Prop :=
  ∀ p, Polling.Reachable p → ∀ l : Listing Selector, l.Of cluster p.broker.nodes →
    ∀ states, ∀ v ∈ cluster.versions, v.state = some .active → ∀ status,
      ∃ rollout, patchRollout p.broker.nodes states v status = some rollout
        ∧ rollout.Describes (syncBroker env cluster l p.broker) states v

/-- The binding keeps the version from a node that is counted, and an error of the version
before is counted as one of this version. -/
theorem not_rolloutDescribes :
  ¬ RolloutDescribes matchLabelsEnv boundCluster ∧ ¬ RolloutDescribes plainEnv oneNode
  := by
  constructor
  · intro h
    obtain ⟨rollout, hpatch, hdescribes⟩ := h _ bothRegistered_reachable _ boundListing_of
      (fun _ => none) activeVersion List.mem_cons_self rfl none
    cases hpatch
    have htotal := hdescribes.total
    revert htotal
    decide
  · intro h
    obtain ⟨rollout, hpatch, hdescribes⟩ := h _ (registered_reachable "node-a") _
      (oneListing_of "node-a") (reports "node-a" .error "v0") activeVersion List.mem_cons_self rfl none
    cases hpatch
    have herror := hdescribes.error
    revert herror
    decide

/-- A node that has the version and reports it active: the counts are those of the version's
own nodes. -/
theorem rollout_describes_iff_oneNode :
  (∃ rollout, patchRollout ["node-a"] (reports "node-a" .active "v1") activeVersion none = some rollout
      ∧ rollout.Describes
        (syncBroker plainEnv oneNode (oneListing "node-a") (registered "node-a").broker)
        (reports "node-a" .active "v1") activeVersion)
    ∧ patchRollout ["node-a"] (reports "node-a" .active "v1") activeVersion none = some ⟨1, 1, 0, 0⟩
  := by
  have hnodes : (syncBroker plainEnv oneNode (oneListing "node-a") (registered "node-a").broker).nodes
      = ["node-a"] := by decide
  constructor
  · apply (rollout_describes_iff (hnodes ▸ List.Perm.refl _) _ _ _).mpr
    rw [hnodes]
    refine ⟨by decide, ?_⟩
    intro n hn ds hds herror
    obtain rfl := List.mem_singleton.mp hn
    obtain rfl : (⟨"users", "", "v1", .active, "", "", ""⟩ : DatasetState) = ds :=
      Option.some.inj hds
    cases herror
  · decide

end ControlPlane
