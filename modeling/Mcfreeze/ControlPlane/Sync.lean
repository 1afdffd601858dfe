import Mcfreeze.ControlPlane.Resources
import Mcfreeze.ControlPlane.Broker
import Mathlib.Data.List.Induction

/-!
# Syncing the broker

`syncBroker` of the node assignment reconciler (`controller/nodeassignment.go`) computes
the assignments of every registered node from the active versions and the bindings, and
pushes them to the broker.  The lists it reads come in any order.

A second sync of an unchanged cluster stores nothing for a node exactly when the node
exists, gets its assignments in the same order as before, and they are not the empty result
of a binding.
-/

namespace ControlPlane

/-- What a sync runs: the conversion of a label selector, which is outside the repository and
can fail, and `parseMetaFields`, which gives the descriptor, the message name and the size of
the index that are in a `meta.json`; nothing here depends on how it does that. -/
structure SyncEnv (Selector : Type) where
  labelSelectorAsSelector : Selector → Option (Labels → Bool)
  parseMetaFields : String → String × String × Int

/-- What a namespace holds; `dataset` and `node` get an object by its name. -/
structure Cluster (Selector : Type) where
  versions : List DatasetVersion
  bindings : List (DatasetBinding Selector)
  dataset : String → Option Dataset
  node : String → Option Labels

/-- The order in which a sync lists the versions, the bindings and the registered nodes. -/
structure Listing (Selector : Type) where
  versions : List DatasetVersion
  bindings : List (DatasetBinding Selector)
  nodes : List String

variable {Selector : Type}

/-- The listing is one of this cluster and these nodes. -/
structure Listing.Of (cluster : Cluster Selector) (nodes : List String) (l : Listing Selector) :
    Prop where
  versions : l.versions.Perm cluster.versions
  bindings : l.bindings.Perm cluster.bindings
  nodes : l.nodes.Perm nodes

/-- An assignment with the labels of its dataset. -/
structure DatasetAssignment where
  assignment : NodeAssignment
  datasetLabels : Labels

section

variable (env : SyncEnv Selector)

/-- A missing selector matches everything, and a malformed one nothing. -/
def selectorMatchesLabels (sel : Option Selector) (labels : Labels) : Bool :=
  match sel with
  | none => true
  | some sel =>
    match env.labelSelectorAsSelector sel with
    | none => false
    | some s => s labels

/-- The assignment of a version, if it is active and its dataset exists. -/
def assignmentOf (cluster : Cluster Selector) (v : DatasetVersion) : Option DatasetAssignment :=
  if v.state ≠ some .active then none
  else
    match cluster.dataset v.dataset with
    | none => none
    | some ds =>
      let (descriptor, messageName, indexBytes) := env.parseMetaFields v.snapshotMeta
      some
        { assignment :=
            { dataset := v.dataset
              keyPrefix := ds.keyPrefix
              version :=
                { id := v.versionID
                  dataset := v.dataset
                  pvName := v.pvName
                  state := .active
                  shardCount := v.shardCount
                  createdAt := v.creationTimestamp
                  descriptor := descriptor
                  messageName := messageName
                  diskURL := v.diskURL
                  indexBytes := indexBytes } }
          datasetLabels := ds.labels }

def allAssignments (cluster : Cluster Selector) (versions : List DatasetVersion) :
    List DatasetAssignment :=
  versions.filterMap (assignmentOf env cluster)

/-- The bindings that select a node. -/
def matchingBindings (nodeLabels : Labels) (bindings : List (DatasetBinding Selector)) :
    List (DatasetBinding Selector) :=
  bindings.filter fun b => selectorMatchesLabels env b.nodeSelector nodeLabels

/-- The assignments of a node: all of them when no binding selects the node, and otherwise
those whose dataset one of its bindings selects.  In the second case an empty result is
`nil`. -/
def filterAssignmentsForNode (nodeLabels : Labels) (all : List DatasetAssignment)
    (bindings : List (DatasetBinding Selector)) : Slice NodeAssignment :=
  let selecting := matchingBindings env nodeLabels bindings
  if selecting.length = 0 then some (all.map (·.assignment))
  else
    match all.filter fun a =>
        selecting.any fun b => selectorMatchesLabels env b.datasetSelector a.datasetLabels with
    | [] => none
    | result => some (result.map (·.assignment))

/-- What a sync pushes for a node; a node that is gone gets nothing. -/
def desired (cluster : Cluster Selector) (l : Listing Selector) (nodeName : String) :
    Slice NodeAssignment :=
  match cluster.node nodeName with
  | none => none
  | some labels =>
    filterAssignmentsForNode env labels (allAssignments env cluster l.versions) l.bindings

/-- Push assignments for some nodes, one after the other. -/
def pushAll (assignments : String → Slice NodeAssignment) (nodes : List String) (b : Broker) : Broker :=
  nodes.foldl (fun b nodeName => b.setAssignments nodeName (assignments nodeName)) b

def syncBroker (cluster : Cluster Selector) (l : Listing Selector) (b : Broker) : Broker :=
  pushAll (desired env cluster l) l.nodes b

/-- Several syncs, one after the other. -/
def syncs (cluster : Cluster Selector) (ls : List (Listing Selector)) (b : Broker) : Broker :=
  ls.foldl (fun b l => syncBroker env cluster l b) b

end

/-- Nothing happened between the two: no generation has changed, and no channel was
closed. -/
structure NoOp (b b' : Broker) : Prop where
  generation : ∀ node, b'.generation node = b.generation node
  closes : b'.closes = b.closes

/-! ### When a push stores nothing -/

section

variable {b : Broker} {node : String} {a : Slice NodeAssignment} {f : String → Slice NodeAssignment}
  {nodes : List String}

/-- What is stored for a slice: `nil` becomes empty. -/
def normalize (a : Slice NodeAssignment) : Slice NodeAssignment :=
  some a.elems

theorem setAssignments_of_eq (h : b.assignments node = some a) :
  b.setAssignments node a = b
  := by
  unfold Broker.setAssignments Broker.setStores
  rw [if_pos h]
  rfl

theorem setAssignments_of_ne (h : b.assignments node ≠ some a) :
  b.setAssignments node a = b.replace node (normalize a)
  := by
  unfold Broker.setAssignments Broker.setStores
  rw [if_neg h]
  cases a <;> rfl

/-- A store lets no generation go back. -/
theorem setAssignments_generation_le (m : String) :
  b.generation m ≤ (b.setAssignments node a).generation m
  := by
  by_cases h : b.assignments node = some a
  · simp only [setAssignments_of_eq h, Int.le_refl]
  · rw [setAssignments_of_ne h, Broker.replace_generation]
    split
    · next hm =>
      rw [hm]
      omega
    · apply Int.le_refl

theorem pushAll_cons (n : String) :
  pushAll f (n :: nodes) b = pushAll f nodes (b.setAssignments n (f n))
  :=
  rfl

/-- Pushing never lowers a generation. -/
theorem pushAll_generation_le (m : String) :
  b.generation m ≤ (pushAll f nodes b).generation m
  := by
  induction nodes generalizing b with
  | nil => apply Int.le_refl
  | cons n nodes ih =>
    rw [pushAll_cons]
    apply Int.le_trans _ ih
    apply setAssignments_generation_le

/-- Pushing what is stored already changes nothing. -/
theorem pushAll_eq_self (h : ∀ n ∈ nodes, b.assignments n = some (f n)) :
  pushAll f nodes b = b
  := by
  induction nodes with
  | nil => rfl
  | cons n nodes ih =>
    rw [pushAll_cons, setAssignments_of_eq (h n List.mem_cons_self)]
    apply ih
    intro m hm
    apply h m (List.mem_cons_of_mem _ hm)

/-- A push that raises no generation found everything stored already. -/
theorem stored_of_pushAll (h : ∀ m, (pushAll f nodes b).generation m = b.generation m) :
  ∀ n ∈ nodes, b.assignments n = some (f n)
  := by
  induction nodes with
  | nil =>
    intro n hn
    simp at hn
  | cons n nodes ih =>
    have hn : b.assignments n = some (f n) := by
      by_contra hne
      have hle : (b.setAssignments n (f n)).generation n
          ≤ (pushAll f nodes (b.setAssignments n (f n))).generation n := pushAll_generation_le n
      rw [← pushAll_cons, h, setAssignments_of_ne hne, Broker.replace_generation, if_pos rfl] at hle
      omega
    intro m hm
    rcases List.mem_cons.mp hm with rfl | hm
    · apply hn
    · apply ih _ m hm
      intro k
      have hk := h k
      rwa [pushAll_cons, setAssignments_of_eq hn] at hk

/-- What a push leaves for a node when no `nil` was stored. -/
theorem setAssignments_assignments (hb : ∀ n, b.assignments n ≠ some none) (m : String) :
  (b.setAssignments node a).assignments m = if m = node then some (normalize a) else b.assignments m
  := by
  by_cases h : b.assignments node = some a
  · rw [setAssignments_of_eq h]
    split
    · next hm =>
      rw [hm, h]
      cases a with
      | none => exact absurd h (hb node)
      | some l => rfl
    · rfl
  · rw [setAssignments_of_ne h, Broker.replace_assignments]

theorem setAssignments_ne_nil (hb : ∀ n, b.assignments n ≠ some none) (m : String) :
  (b.setAssignments node a).assignments m ≠ some none
  := by
  rw [setAssignments_assignments hb]
  split
  · simp [normalize]
  · apply hb

theorem pushAll_assignments_of_not_mem (hb : ∀ n, b.assignments n ≠ some none) {m : String}
    (hm : m ∉ nodes) :
  (pushAll f nodes b).assignments m = b.assignments m
  := by
  induction nodes generalizing b with
  | nil => rfl
  | cons n nodes ih =>
    rw [pushAll_cons, ih (setAssignments_ne_nil hb) (fun h => hm (List.mem_cons_of_mem _ h)),
      setAssignments_assignments hb, if_neg (fun h => hm (by rw [h]; exact List.mem_cons_self))]

/-- After a push the nodes have what was pushed for them. -/
theorem pushAll_assignments (hb : ∀ n, b.assignments n ≠ some none) {m : String} (hm : m ∈ nodes) :
  (pushAll f nodes b).assignments m = some (normalize (f m))
  := by
  induction nodes generalizing b with
  | nil => simp at hm
  | cons n nodes ih =>
    rw [pushAll_cons]
    by_cases hrest : m ∈ nodes
    · apply ih (setAssignments_ne_nil hb) hrest
    · obtain rfl : m = n := (List.mem_cons.mp hm).resolve_right hrest
      rw [pushAll_assignments_of_not_mem (setAssignments_ne_nil hb) hrest,
        setAssignments_assignments hb, if_pos rfl]

/-- What is stored is never `nil`. -/
theorem Polling.stores_ne_nil {p : Polling} {call : Call} (n : String) :
  p.stores n call ≠ some none
  := by
  cases call with
  | set m assignments =>
    simp only [Polling.stores, Broker.setStores]
    split
    · split
      · simp
      · split <;> simp
    · simp
  | merge m assignment =>
    simp only [Polling.stores, Broker.mergeStores]
    split
    · split <;> simp
    · simp
  | _ => simp [Polling.stores]

/-- A broker never has `nil` for a node. -/
theorem Polling.Reachable.ne_nil {p : Polling} (h : Polling.Reachable p) (n : String) :
  p.broker.assignments n ≠ some none
  := by
  induction h with
  | new => simp [Polling.new, Broker.new]
  | @step s s' call _ hstep ih =>
    rw [(hstep.stores n).2]
    cases hstores : s.stores n call with
    | none =>
      rw [Option.none_or]
      apply ih
    | some a =>
      rw [Option.some_or, ← hstores]
      apply Polling.stores_ne_nil

end

/-! ### Syncing an unchanged cluster -/

section

variable {env : SyncEnv Selector} {cluster : Cluster Selector}

/-- No binding selects the node, or one that does selects the dataset. -/
def selected (env : SyncEnv Selector) (nodeLabels : Labels) (bindings : List (DatasetBinding Selector))
    (a : DatasetAssignment) : Bool :=
  let selecting := matchingBindings env nodeLabels bindings
  selecting.isEmpty
    || selecting.any fun b => selectorMatchesLabels env b.datasetSelector a.datasetLabels

/-- The assignments that are selected for a node, in the order of the listing. -/
def assigned (env : SyncEnv Selector) (cluster : Cluster Selector) (nodeLabels : Labels)
    (l : Listing Selector) : List NodeAssignment :=
  ((allAssignments env cluster l.versions).filter (selected env nodeLabels l.bindings)).map
    (·.assignment)

/-- The node exists, it gets something if some binding selects it, and its assignments come
in the same order in both listings. -/
def Settled (env : SyncEnv Selector) (cluster : Cluster Selector) (first l : Listing Selector)
    (nodeName : String) : Prop :=
  ∃ labels, cluster.node nodeName = some labels
    ∧ (matchingBindings env labels cluster.bindings ≠ [] → assigned env cluster labels l ≠ [])
    ∧ assigned env cluster labels l = assigned env cluster labels first

/-- A node gets its assigned versions; it gets a list only if it has one, or if no binding
matches it. -/
theorem filterAssignmentsForNode_eq (nodeLabels : Labels) (l : Listing Selector) :
  filterAssignmentsForNode env nodeLabels (allAssignments env cluster l.versions) l.bindings
    = if matchingBindings env nodeLabels l.bindings ≠ [] ∧ assigned env cluster nodeLabels l = []
      then none else some (assigned env cluster nodeLabels l)
  := by
  unfold filterAssignmentsForNode assigned selected
  cases hm : matchingBindings env nodeLabels l.bindings with
  | nil =>
    have hall : (allAssignments env cluster l.versions).filter (fun _ => true)
        = allAssignments env cluster l.versions := List.filter_eq_self.mpr fun _ _ => rfl
    simp [hall]
  | cons b bs =>
    simp only [List.length_cons, Nat.add_eq_zero_iff, Nat.succ_ne_self, and_false, if_false,
      List.isEmpty_cons, Bool.false_or]
    generalize (allAssignments env cluster l.versions).filter _ = result
    cases result with
    | nil => simp
    | cons a as => simp

/-- Whether a binding matches does not depend on the order of the list. -/
theorem matchingBindings_eq_nil (env : SyncEnv Selector) {l : Listing Selector}
    (h : l.bindings.Perm cluster.bindings) (nodeLabels : Labels) :
  matchingBindings env nodeLabels l.bindings = [] ↔ matchingBindings env nodeLabels cluster.bindings = []
  := by
  have hperm : (matchingBindings env nodeLabels l.bindings).Perm
      (matchingBindings env nodeLabels cluster.bindings) := h.filter _
  constructor
  · intro heq
    rw [heq] at hperm
    apply List.nil_perm.mp hperm
  · intro heq
    rw [heq] at hperm
    apply List.perm_nil.mp hperm

/-- A node is settled exactly when the later push is what the first one stored. -/
theorem settled_iff {nodes : List String} {first l : Listing Selector} (hfirst : first.Of cluster nodes)
    (hl : l.Of cluster nodes) (nodeName : String) :
  Settled env cluster first l nodeName
    ↔ desired env cluster l nodeName = normalize (desired env cluster first nodeName)
  := by
  rw [Settled, desired, desired]
  cases hnode : cluster.node nodeName with
  | none => simp [normalize]
  | some labels =>
    have hb := matchingBindings_eq_nil env hl.bindings labels
    have hb' := matchingBindings_eq_nil env hfirst.bindings labels
    simp only [filterAssignmentsForNode_eq, ne_eq, hb, hb', Option.some.injEq, exists_eq_left']
    by_cases hm : matchingBindings env labels cluster.bindings = []
    · simp [hm, normalize, Slice.elems]
    · simp only [hm, not_false_eq_true, true_and, forall_const]
      by_cases hl' : assigned env cluster labels l = []
      · simp [hl', normalize]
      · by_cases hf : assigned env cluster labels first = []
        · simp [hl', hf, normalize, Slice.elems]
        · simp [hl', hf, normalize, Slice.elems]

theorem noOp_refl (b : Broker) :
  NoOp b b
  :=
  ⟨fun _ => rfl, rfl⟩

theorem syncs_snoc (ls : List (Listing Selector)) (l : Listing Selector) (b : Broker) :
  syncs env cluster (ls ++ [l]) b = syncBroker env cluster l (syncs env cluster ls b)
  := by
  rw [syncs, List.foldl_append]
  rfl

/-- Syncing settled nodes changes nothing. -/
theorem syncs_eq_self {b : Broker} {ls : List (Listing Selector)}
    (h : ∀ l ∈ ls, ∀ n ∈ l.nodes, b.assignments n = some (desired env cluster l n)) :
  syncs env cluster ls b = b
  := by
  induction ls with
  | nil => rfl
  | cons l ls ih =>
    have hfirst : syncBroker env cluster l b = b := pushAll_eq_self (h l List.mem_cons_self)
    rw [syncs, List.foldl_cons, hfirst]
    apply ih
    intro l' hl'
    apply h l' (List.mem_cons_of_mem _ hl')

/-- When the syncs up to a point are no-ops, what they push was stored already. -/
theorem stored_of_noOp {b : Broker} {ls : List (Listing Selector)}
    (h : ∀ done, done <+: ls → NoOp b (syncs env cluster done b)) (done : List (Listing Selector)) :
  done <+: ls → ∀ l ∈ done, ∀ n ∈ l.nodes, b.assignments n = some (desired env cluster l n)
  := by
  induction done using List.reverseRecOn with
  | nil =>
    intro _ l hl
    simp at hl
  | append_singleton done l ih =>
    intro hprefix
    have hdone := ih ((List.prefix_append done [l]).trans hprefix)
    have hnoOp := h _ hprefix
    rw [syncs_snoc, syncs_eq_self hdone] at hnoOp
    intro l' hl'
    rcases List.mem_append.mp hl' with hl' | hl'
    · apply hdone l' hl'
    · rw [List.mem_singleton.mp hl']
      apply stored_of_pushAll hnoOp.generation

/-- Syncing an unchanged cluster again, any number of times and whatever the order of the
lists, is a no-op exactly when every registered node is settled. -/
theorem resync_noOp_iff {p : Polling} (hp : Polling.Reachable p) {first : Listing Selector}
    (hfirst : first.Of cluster p.broker.nodes) {ls : List (Listing Selector)}
    (hls : ∀ l ∈ ls, l.Of cluster p.broker.nodes) :
  (∀ done, done <+: ls → NoOp (syncBroker env cluster first p.broker)
      (syncs env cluster done (syncBroker env cluster first p.broker)))
    ↔ ∀ l ∈ ls, ∀ n ∈ p.broker.nodes, Settled env cluster first l n
  := by
  have hstored : ∀ n ∈ p.broker.nodes, (syncBroker env cluster first p.broker).assignments n
      = some (normalize (desired env cluster first n)) := by
    intro n hn
    apply pushAll_assignments hp.ne_nil (hfirst.nodes.mem_iff.mpr hn)
  constructor
  · intro h l hl n hn
    have hpushed := stored_of_noOp h ls (List.prefix_refl ls) l hl n ((hls l hl).nodes.mem_iff.mpr hn)
    rw [hstored n hn] at hpushed
    apply (settled_iff hfirst (hls l hl) n).mpr (Option.some.inj hpushed).symm
  · intro h done hdone
    rw [syncs_eq_self]
    · apply noOp_refl
    · intro l hl n hn
      have hmem := hdone.subset hl
      have hn' := (hls l hmem).nodes.mem_iff.mp hn
      rw [hstored n hn', (settled_iff hfirst (hls l hmem) n).mp (h l hmem n hn')]

end

/-- Syncing an unchanged cluster again is a no-op. -/
def ResyncNoOp (env : SyncEnv Selector) (cluster : Cluster Selector) : Prop :=
  ∀ p, Polling.Reachable p → ∀ first : Listing Selector, first.Of cluster p.broker.nodes →
    ∀ ls : List (Listing Selector), (∀ l ∈ ls, l.Of cluster p.broker.nodes) →
      NoOp (syncBroker env cluster first p.broker)
        (syncs env cluster ls (syncBroker env cluster first p.broker))

/-- Selectors that match everything, and versions without `meta.json`. -/
def plainEnv : SyncEnv Unit where
  labelSelectorAsSelector _ := some fun _ => true
  parseMetaFields _ := ("", "", 0)

/-- An active version of a dataset. -/
def activeVersion : DatasetVersion :=
  { DatasetVersion.new "users-v1" "users" "v1" 1 0 with state := some .active, pvName := "pv-users-v1" }

/-- A cluster with one active version, one node and no bindings. -/
def oneNode : Cluster Unit where
  versions := [activeVersion]
  bindings := []
  dataset _ := some ⟨"users", []⟩
  node n := if n = "node-a" then some [] else none

/-- A broker where one node is registered. -/
def registered (node : String) : Polling :=
  { Polling.new with broker := Broker.new.registerNode node }

theorem registered_reachable (node : String) :
  Polling.Reachable (registered node)
  :=
  Polling.Reachable.new.step (.register node)

/-- The listing of that cluster. -/
def oneListing (node : String) : Listing Unit :=
  ⟨[activeVersion], [], [node]⟩

theorem oneListing_of (node : String) :
  (oneListing node).Of oneNode (registered node).broker.nodes
  := by
  have hnodes : (registered node).broker.nodes = [node] := by
    simp [registered, Broker.registerNode, Broker.new]
  refine ⟨.refl _, .refl _, ?_⟩
  rw [hnodes]
  exact .refl _

/-- An active version of another dataset. -/
def otherVersion : DatasetVersion :=
  { DatasetVersion.new "items-w1" "items" "w1" 1 0 with state := some .active, pvName := "pv-items-w1" }

/-- A cluster with an active version of each of two datasets, two nodes and no bindings. -/
def twoNodes : Cluster Unit where
  versions := [activeVersion, otherVersion]
  bindings := []
  dataset name := some ⟨name, []⟩
  node n := if n = "node-a" ∨ n = "node-b" then some [] else none

/-- A broker where two nodes are registered. -/
def registeredBoth : Polling :=
  { registered "node-a" with broker := (registered "node-a").broker.registerNode "node-b" }

theorem registeredBoth_reachable :
  Polling.Reachable registeredBoth
  :=
  (registered_reachable "node-a").step (.register "node-b")

/-- A listing of that cluster. -/
def bothListing (versions : List DatasetVersion) (nodes : List String) : Listing Unit :=
  ⟨versions, [], nodes⟩

theorem bothListing_of {versions : List DatasetVersion} {nodes : List String}
    (hversions : versions.Perm [activeVersion, otherVersion])
    (hnodes : nodes.Perm ["node-a", "node-b"]) :
  (bothListing versions nodes).Of twoNodes registeredBoth.broker.nodes
  :=
  ⟨hversions, .refl _, hnodes⟩

/-- The nodes in another order are settled, and a second sync is a no-op; the versions in
another order are not, and it is none. -/
theorem resync_noOp_iff_twoNodes :
  (∀ done, done <+: [bothListing [activeVersion, otherVersion] ["node-b", "node-a"]] →
      NoOp
        (syncBroker plainEnv twoNodes (bothListing [activeVersion, otherVersion] ["node-a", "node-b"])
          registeredBoth.broker)
        (syncs plainEnv twoNodes done (syncBroker plainEnv twoNodes
          (bothListing [activeVersion, otherVersion] ["node-a", "node-b"]) registeredBoth.broker)))
    ∧ ¬ ∀ done, done <+: [bothListing [otherVersion, activeVersion] ["node-a", "node-b"]] →
      NoOp
        (syncBroker plainEnv twoNodes (bothListing [activeVersion, otherVersion] ["node-a", "node-b"])
          registeredBoth.broker)
        (syncs plainEnv twoNodes done (syncBroker plainEnv twoNodes
          (bothListing [activeVersion, otherVersion] ["node-a", "node-b"]) registeredBoth.broker))
  := by
  have hfirst : (bothListing [activeVersion, otherVersion] ["node-a", "node-b"]).Of twoNodes
      registeredBoth.broker.nodes := bothListing_of (.refl _) (.refl _)
  constructor
  · rw [resync_noOp_iff registeredBoth_reachable hfirst]
    · intro l hl n hn
      obtain rfl := List.mem_singleton.mp hl
      obtain rfl | rfl : n = "node-a" ∨ n = "node-b" := by
        simpa [registeredBoth, registered, Broker.registerNode, Broker.new] using hn
      · exact ⟨[], rfl, by decide, by decide⟩
      · exact ⟨[], rfl, by decide, by decide⟩
    · intro l hl
      rw [List.mem_singleton.mp hl]
      exact bothListing_of (.refl _) (.swap _ _ _)
  · rw [resync_noOp_iff registeredBoth_reachable hfirst]
    · intro h
      obtain ⟨labels, hlabels, -, heq⟩ := h _ List.mem_cons_self "node-a" (by decide)
      obtain rfl := Option.some.inj hlabels
      revert heq
      decide
    · intro l hl
      rw [List.mem_singleton.mp hl]
      exact bothListing_of (.swap _ _ _) (.refl _)

/-- A registered node without a `Node` object is pushed `nil` by every sync, and each time
its generation is raised. -/
theorem not_resyncNoOp_goneNode :
  ¬ ResyncNoOp plainEnv oneNode
  := by
  intro h
  have hnoOp := h _ (registered_reachable "node-b") (oneListing "node-b") (oneListing_of "node-b")
    [oneListing "node-b"] (by
      intro l hl
      rw [List.mem_singleton.mp hl]
      apply oneListing_of)
  have hgen := hnoOp.generation "node-b"
  revert hgen
  decide

end ControlPlane
