import Mcfreeze.ControlPlane.Broker
import Mcfreeze.NodeAgent.Agent

/-!
# Waiting agents

The loop of the agent (`Agent.Run`) fetches the assignments of its node with the generation
of the last response, reconciles them one after another, and takes over the generation of the
response whatever came of it.  An assignment that failed is therefore tried again only when
the assignments of the node change; the same holds for an assignment that is skipped because
its version is active, though its volume or its key prefix is another one.

When every reconcile succeeds, or is skipped with the assigned volume and key prefix, an agent
that waits has converged.
-/

namespace NodeAgent

open ControlPlane Agent

/-- Where the loop is: it fetches, its handler has read for it, or it reconciles what is left
of a response. -/
inductive LoopState where
  | fetching
  | polling (read : Read)
  | reconciling (response : AssignmentsResponse) (rest : List NodeAssignment)

/-- The broker with its handlers, and one agent with its loop. -/
structure Loop where
  plane : Polling
  agent : Agent
  generation : Int
  state : LoopState

namespace Loop

def new : Loop := ⟨.new, .new, 0, .fetching⟩

section

variable (cfg : Config) (node : String)
  (allowed : Agent → NodeAssignment → List NodeAssignment → Outcomes → Prop)

/-- A call to the broker by someone else, the read of a fetch, its answer at once or after the
channel was closed, its loss, a reconcile that is allowed, or the end of a response. -/
inductive Step : Loop → Loop → Prop where
  | call {s call plane} : Polling.Step s.plane call plane → Step s { s with plane := plane }
  | request {s response chan broker} : s.state = .fetching →
      s.plane.broker.getAssignments node s.generation = (response, chan, broker) →
      Step s { s with
        plane := { s.plane with
          broker := broker
          reads := ⟨node, s.generation, response, chan⟩ :: s.plane.reads }
        state := .polling ⟨node, s.generation, response, chan⟩ }
  | answer {s read} : s.state = .polling read → read.chan = none →
      Step s { s with state := .reconciling read.response read.response.assignments.elems }
  | wake {s read ch response chan broker} : s.state = .polling read → read.chan = some ch →
      ch ∈ s.plane.broker.closes →
      s.plane.broker.getAssignments read.node read.afterGeneration = (response, chan, broker) →
      Step s { s with
        plane := ⟨broker, ⟨read.node, read.afterGeneration, response, chan⟩ :: s.plane.reads,
          ⟨read, response⟩ :: s.plane.waits⟩
        state := .reconciling response response.assignments.elems }
  | lost {s read} : s.state = .polling read → Step s { s with state := .fetching }
  | reconcile {s response assign rest} (o : Outcomes) :
      s.state = .reconciling response (assign :: rest) → allowed s.agent assign rest o →
      Step s { s with
        agent := s.agent.reconcile cfg assign o
        state := .reconciling response rest }
  | done {s response} : s.state = .reconciling response [] →
      Step s { s with generation := response.generation, state := .fetching }

/-- The states reached from a new broker and a new agent. -/
inductive Reachable : Loop → Prop where
  | new : Reachable .new
  | step {s s'} : Reachable s → Step cfg node allowed s s' → Reachable s'

end

/-- The fetch waits for a channel that is open, with the generation that the broker has. -/
def Blocked (node : String) (s : Loop) : Prop :=
  s.generation = s.plane.broker.generation node
    ∧ ∃ read ch, s.state = .polling read ∧ read.chan = some ch ∧ ch ∉ s.plane.broker.closes

/-- What the broker holds for a node. -/
def held (node : String) (s : Loop) : List NodeAssignment :=
  ((s.plane.broker.assignments node).getD none).elems

end Loop

/-- An assignment is active with its version, volume and key prefix, and the last catalog has
it. -/
def Converged (a : Agent) (assign : NodeAssignment) : Prop :=
  (a.datasetState assign.dataset).phase = .active
    ∧ (a.datasetState assign.dataset).versionID = assign.version.id
    ∧ (a.datasetState assign.dataset).pvName = assign.version.pvName
    ∧ ∃ entries, a.catalog = some entries
      ∧ ∃ entry ∈ entries, entry.dataset = assign.dataset ∧ entry.keyPrefix = assign.keyPrefix

/-- The record of an assignment has its version, volume and key prefix. -/
structure Settled (a : Agent) (assign : NodeAssignment) : Prop where
  phase : (a.datasetState assign.dataset).phase = .active
  versionID : (a.datasetState assign.dataset).versionID = assign.version.id
  pvName : (a.datasetState assign.dataset).pvName = assign.version.pvName
  keyPrefix : (a.datasetState assign.dataset).keyPrefix = assign.keyPrefix

/-- The same version, volume and key prefix. -/
def Agrees (assign assign' : NodeAssignment) : Prop :=
  assign.version.id = assign'.version.id ∧ assign.version.pvName = assign'.version.pvName
    ∧ assign.keyPrefix = assign'.keyPrefix

/-- A reconcile applies its assignment: it succeeds, or is skipped with the assigned volume
and key prefix, and no later assignment of the response disagrees with it. -/
def Applies (cfg : Config) (a : Agent) (assign : NodeAssignment) (rest : List NodeAssignment)
    (o : Outcomes) : Prop :=
  (¬ a.Skips assign ∧ Succeeds cfg assign o
      ∨ a.Skips assign ∧ (a.datasetState assign.dataset).pvName = assign.version.pvName
        ∧ (a.datasetState assign.dataset).keyPrefix = assign.keyPrefix)
    ∧ ∀ later ∈ rest, later.dataset = assign.dataset → Agrees later assign

section

variable {cfg : Config} {a : Agent} {assign : NodeAssignment} {rest : List NodeAssignment}
  {o : Outcomes}

/-! ### One reconcile -/

/-- A successful reconcile leaves the active record. -/
theorem reconcile_succeeds (hskips : ¬ a.Skips assign) (hsucceeds : Succeeds cfg assign o) :
  (a.reconcile cfg assign o).datasets = (a.insert (activeRecord cfg assign)).datasets
  := by
  rcases reconcile_cases cfg assign o a with ⟨h, -⟩ | ⟨-, h, -⟩ | ⟨-, -, h, -⟩ | ⟨-, -, heq⟩
  · exact absurd h hskips
  · exact absurd hsucceeds.1 h
  · exact absurd hsucceeds h
  · rw [heq]
    split
    · rw [cleanupOldVersion_eq]
      rfl
    · rfl

/-- A reconcile that applies settles its assignment. -/
theorem Settled.of_applies (h : Applies cfg a assign rest o) :
  Settled (a.reconcile cfg assign o) assign
  := by
  rcases h.1 with ⟨hskips, hsucceeds⟩ | ⟨hskips, hpv, hkp⟩
  · have hstate : (a.reconcile cfg assign o).datasetState assign.dataset = activeRecord cfg assign := by
      unfold datasetState
      rw [reconcile_succeeds hskips hsucceeds]
      exact datasetState_insert_self a (activeRecord cfg assign)
    refine ⟨?_, ?_, ?_, ?_⟩ <;> rw [hstate] <;> rfl
  · rw [reconcile_skips hskips]
    exact ⟨hskips.2, hskips.1, hpv, hkp⟩

theorem Settled.congr {assign' : NodeAssignment} (h : Settled a assign)
    (hdataset : assign.dataset = assign'.dataset) (hagrees : Agrees assign assign') :
  Settled a assign'
  := by
  obtain ⟨hid, hpv, hkp⟩ := hagrees
  refine ⟨?_, ?_, ?_, ?_⟩
  · rw [← hdataset, h.phase]
  · rw [← hdataset, h.versionID, hid]
  · rw [← hdataset, h.pvName, hpv]
  · rw [← hdataset, h.keyPrefix, hkp]

/-- What is settled stays so, when the next assignment is of another dataset or agrees. -/
theorem Settled.reconcile {assign' : NodeAssignment} (h : Settled a assign')
    (happlies : Applies cfg a assign rest o)
    (hagrees : assign.dataset = assign'.dataset → Agrees assign assign') :
  Settled (a.reconcile cfg assign o) assign'
  := by
  by_cases heq : assign.dataset = assign'.dataset
  · exact (Settled.of_applies happlies).congr heq (hagrees heq)
  · rcases happlies.1 with ⟨hskips, hsucceeds⟩ | ⟨hskips, -⟩
    · have hstate : (a.reconcile cfg assign o).datasetState assign'.dataset
          = a.datasetState assign'.dataset := by
        unfold datasetState
        rw [reconcile_succeeds hskips hsucceeds]
        exact datasetState_insert_of_ne a (Ne.symm heq)
      refine ⟨?_, ?_, ?_, ?_⟩ <;> rw [hstate]
      · exact h.phase
      · exact h.versionID
      · exact h.pvName
      · exact h.keyPrefix
    · rw [reconcile_skips hskips]
      exact h

/-- The last catalog has the datasets that are active. -/
def Agent.ListsActive (a : Agent) : Prop :=
  ∀ ds ∈ a.datasets, ds.phase = .active → ∃ entries, a.catalog = some entries
    ∧ ⟨ds.dataset, ds.keyPrefix, ds.versionID, ds.mountPath⟩ ∈ entries

/-- The catalog of a promotion has the other datasets that are active. -/
theorem mem_promotion {ds : DatasetState} (hmem : ds ∈ a.datasets) (hactive : ds.phase = .active)
    (hne : ds.dataset ≠ assign.dataset) :
  ⟨ds.dataset, ds.keyPrefix, ds.versionID, ds.mountPath⟩ ∈ promotion cfg assign a
  := by
  unfold promotion catalogEntries
  apply List.mem_append_left
  rw [List.mem_map]
  refine ⟨ds, List.mem_filter.mpr ⟨hmem, ?_⟩, rfl⟩
  simp [hactive, hne]

/-- An error record is not active, and the others are where they were or in the new catalog. -/
theorem Agent.ListsActive.failed (h : a.ListsActive) (cfg : Config) {err : String}
    {catalog : Option (List CatalogEntry)} {history : List Event}
    (hcatalog : catalog = a.catalog ∨ catalog = some (promotion cfg assign a)) :
  ListsActive ⟨(a.insert (a.errorRecord assign err)).datasets, catalog, history⟩
  := by
  intro ds hmem hactive
  rcases mem_insert.mp hmem with rfl | ⟨hbefore, hne⟩
  · simp [errorRecord, phaseRecord] at hactive
  · rcases hcatalog with rfl | rfl
    · exact h ds hbefore hactive
    · exact ⟨_, rfl, mem_promotion hbefore hactive hne⟩

/-- After a reconcile, the last catalog has the datasets that are active. -/
theorem Agent.ListsActive.reconcile (h : a.ListsActive) (cfg : Config) (assign : NodeAssignment)
    (o : Outcomes) :
  (a.reconcile cfg assign o).ListsActive
  := by
  rcases reconcile_cases cfg assign o a with ⟨-, heq⟩ | ⟨-, -, err, events, -, heq⟩
    | ⟨-, -, -, err, heq | heq⟩ | ⟨-, -, heq⟩
  · rw [heq]
    exact h
  · rw [heq]
    exact h.failed cfg (.inl rfl)
  · rw [heq]
    exact h.failed cfg (.inl rfl)
  · rw [heq]
    exact h.failed cfg (.inr rfl)
  · have hpromoted : (promoted cfg assign a).ListsActive := by
      intro ds hmem hactive
      refine ⟨_, rfl, ?_⟩
      rcases mem_insert.mp hmem with rfl | ⟨hmem, hne⟩
      · exact List.mem_append_right _ (List.mem_singleton_self _)
      · exact mem_promotion hmem hactive hne
    rw [heq]
    split
    · rw [cleanupOldVersion_eq]
      exact hpromoted
    · exact hpromoted

/-- A settled assignment has converged. -/
theorem Settled.converged (h : Settled a assign) (hlists : a.ListsActive) :
  Converged a assign
  := by
  refine ⟨h.phase, h.versionID, h.pvName, ?_⟩
  have hstate : a.datasetState assign.dataset ≠ {} := by
    intro hempty
    have hphase := h.phase
    rw [hempty] at hphase
    simp at hphase
  obtain ⟨hmem, hdataset⟩ := datasetState_mem hstate
  obtain ⟨entries, hcatalog, hentry⟩ := hlists _ hmem h.phase
  exact ⟨entries, hcatalog, _, hentry, hdataset, h.keyPrefix⟩

end

/-! ### Runs -/

namespace Loop

variable {cfg : Config} {node : String}

/-- What is known where the loop is.  Between two responses, what the broker holds is settled
unless it is newer; within one, its assignments are settled or still to come. -/
def StateInv (node : String) (s : Loop) : LoopState → Prop
  | .fetching =>
    s.generation = s.plane.broker.generation node → ∀ assign ∈ s.held node, Settled s.agent assign
  | .polling read =>
    (s.generation = s.plane.broker.generation node → ∀ assign ∈ s.held node, Settled s.agent assign)
      ∧ read ∈ s.plane.reads ∧ read.node = node
  | .reconciling response rest =>
    (∃ read ∈ s.plane.reads, read.node = node ∧ read.response = response)
      ∧ ∀ assign ∈ response.assignments.elems, assign ∈ rest
        ∨ Settled s.agent assign ∧ ∀ later ∈ rest, later.dataset = assign.dataset → Agrees later assign

/-- The invariant. -/
structure Inv (node : String) (s : Loop) : Prop where
  plane : Polling.Reachable s.plane
  lists : s.agent.ListsActive
  le : s.generation ≤ s.plane.broker.generation node
  state : StateInv node s s.state

/-- The generation of a node does not go back. -/
theorem le_call {plane plane' : Polling} {call : Call} (hcall : Polling.Step plane call plane') :
  plane.broker.generation node ≤ plane'.broker.generation node
  := by
  rw [(hcall.stores node).1]
  split <;> omega

/-- A call that stores nothing for the node leaves what it holds, and one that does makes the
generation of the agent an old one. -/
theorem settled_call {s : Loop} {call : Call} {plane : Polling}
    (hle : s.generation ≤ s.plane.broker.generation node)
    (h : s.generation = s.plane.broker.generation node → ∀ assign ∈ s.held node, Settled s.agent assign)
    (hcall : Polling.Step s.plane call plane) :
  s.generation = plane.broker.generation node →
    ∀ assign ∈ held node { s with plane := plane }, Settled s.agent assign
  := by
  obtain ⟨hgeneration, hassignments⟩ := hcall.stores node
  cases hstores : s.plane.stores node call with
  | none =>
    rw [hstores] at hgeneration hassignments
    have hheld : held node { s with plane := plane } = held node s := by
      unfold held
      rw [hassignments]
      rfl
    rw [hheld, hgeneration]
    simpa using h
  | some assignments =>
    rw [hstores] at hgeneration
    simp at hgeneration
    intro heq
    omega

/-- A call of the control plane keeps the invariant. -/
theorem Inv.call {s : Loop} {call : Call} {plane : Polling} (h : Inv node s)
    (hcall : Polling.Step s.plane call plane) :
  Inv node { s with plane := plane }
  := by
  refine ⟨h.plane.step hcall, h.lists, Int.le_trans h.le (le_call hcall), ?_⟩
  have hstate := h.state
  dsimp only
  cases hs : s.state with
  | fetching =>
    rw [hs] at hstate
    exact settled_call (s := s) h.le hstate hcall
  | polling read =>
    rw [hs] at hstate
    exact ⟨settled_call (s := s) h.le hstate.1 hcall, hcall.reads_mono read hstate.2.1, hstate.2.2⟩
  | reconciling response rest =>
    rw [hs] at hstate
    obtain ⟨⟨read, hmem, hread⟩, hsettled⟩ := hstate
    exact ⟨⟨read, hcall.reads_mono read hmem, hread⟩, hsettled⟩

/-- Every assignment of a response is still to come when it arrives. -/
theorem Inv.receive {s : Loop} {read : Read} (h : Inv node s) (hmem : read ∈ s.plane.reads)
    (hnode : read.node = node) :
  Inv node { s with state := .reconciling read.response read.response.assignments.elems }
  where
  plane := h.plane
  lists := h.lists
  le := h.le
  state := ⟨⟨read, hmem, hnode, rfl⟩, fun _ => .inl⟩

/-- A reconcile that applies keeps the invariant. -/
theorem Inv.reconcile {s : Loop} {response : AssignmentsResponse} {assign : NodeAssignment}
    {rest : List NodeAssignment} {o : Outcomes} (h : Inv node s)
    (hstate : s.state = .reconciling response (assign :: rest))
    (happlies : Applies cfg s.agent assign rest o) :
  Inv node
    { s with
      agent := s.agent.reconcile cfg assign o
      state := .reconciling response rest }
  := by
  have hinv := h.state
  rw [hstate] at hinv
  refine ⟨h.plane, h.lists.reconcile cfg assign o, h.le, hinv.1, ?_⟩
  intro assign' hmem
  rcases hinv.2 assign' hmem with hleft | ⟨hsettled, hagrees⟩
  · rcases List.mem_cons.mp hleft with rfl | hleft
    · exact .inr ⟨Settled.of_applies happlies, happlies.2⟩
    · exact .inl hleft
  · right
    refine ⟨hsettled.reconcile happlies (hagrees assign List.mem_cons_self), ?_⟩
    intro later hlater
    exact hagrees later (List.mem_cons_of_mem _ hlater)

/-- After the last assignment of a response everything that the broker held then is settled. -/
theorem Inv.done {s : Loop} {response : AssignmentsResponse} (h : Inv node s)
    (hstate : s.state = .reconciling response []) :
  Inv node { s with generation := response.generation, state := .fetching }
  := by
  have hinv := h.state
  rw [hstate] at hinv
  obtain ⟨⟨read, hmem, rfl, rfl⟩, hsettled⟩ := hinv
  have hread := h.plane.inv.reads read hmem
  refine ⟨h.plane, h.lists, hread.le, ?_⟩
  intro hgeneration assign hassign
  have hheld : held read.node s = read.response.assignments.elems := by
    rw [hread.current hgeneration]
    rfl
  rcases hsettled assign (hheld ▸ hassign) with hleft | ⟨hsettled, -⟩
  · exact absurd hleft List.not_mem_nil
  · exact hsettled

/-- A step keeps the invariant, if its reconcile applies. -/
theorem Inv.step {s s' : Loop} (h : Inv node s) (hstep : Step cfg node (Applies cfg) s s') :
  Inv node s'
  := by
  have hinv := h.state
  cases hstep with
  | call hcall => exact h.call hcall
  | request hstate hget =>
    rw [hstate] at hinv
    have hafter := h.call (.get node s.generation hget)
    have hsettled := hafter.state
    dsimp only at hsettled
    rw [hstate] at hsettled
    exact ⟨hafter.plane, h.lists, hafter.le, hsettled, List.mem_cons_self, rfl⟩
  | answer hstate =>
    rw [hstate] at hinv
    exact h.receive hinv.2.1 hinv.2.2
  | wake hstate hchan hclosed hget =>
    rw [hstate] at hinv
    have hafter := h.call (.wake hinv.2.1 hchan hclosed hget)
    exact hafter.receive List.mem_cons_self hinv.2.2
  | lost hstate =>
    rw [hstate] at hinv
    exact ⟨h.plane, h.lists, h.le, hinv.1⟩
  | reconcile o hstate happlies => exact h.reconcile hstate happlies
  | done hstate => exact h.done hstate

/-- The invariant holds in every run whose reconciles apply. -/
theorem Reachable.inv {s : Loop} (h : Reachable cfg node (Applies cfg) s) :
  Inv node s
  := by
  induction h with
  | new =>
    refine ⟨.new, ?_, Int.le_refl _, ?_⟩
    · intro ds hmem
      exact absurd hmem List.not_mem_nil
    · intro _ assign hmem
      exact absurd hmem List.not_mem_nil
  | step _ hstep ih => exact ih.step hstep

/-- When every reconcile applies its assignment, an agent that is blocked has converged. -/
theorem blocked_converged (cfg : Config) (node : String) (s : Loop)
    (h : Reachable cfg node (Applies cfg) s) (hblocked : s.Blocked node) :
  ∀ assign ∈ s.held node, Converged s.agent assign
  := by
  obtain ⟨hgeneration, read, ch, hstate, -⟩ := hblocked
  have hinv := h.inv.state
  rw [hstate] at hinv
  intro assign hmem
  exact (hinv.1 hgeneration assign hmem).converged h.inv.lists

/-- Two datasets are promoted, and then a new version of the first one, while the other is
skipped. -/
theorem blocked_converged_upgrade :
  ∃ s, Reachable ⟨"/mnt/kv"⟩ "node" (Applies ⟨"/mnt/kv"⟩) s ∧ s.Blocked "node"
    ∧ s.held "node" = [.of "users" "v2" "pvc-2", .of "items" "w1" "pvc-3"]
    ∧ ∀ assign ∈ s.held "node", Converged s.agent assign
  := by
  have hset : Reachable ⟨"/mnt/kv"⟩ "node" (Applies ⟨"/mnt/kv"⟩) _ :=
    Reachable.new.step (.call (.set "node" (some [.of "users" "v1" "pvc-1", .of "items" "w1" "pvc-3"])))
  have hanswer : Reachable ⟨"/mnt/kv"⟩ "node" (Applies ⟨"/mnt/kv"⟩) _ :=
    (hset.step (.request rfl rfl)).step (.answer rfl rfl)
  have hfirst : Reachable ⟨"/mnt/kv"⟩ "node" (Applies ⟨"/mnt/kv"⟩) _ :=
    hanswer.step (.reconcile {} rfl ⟨.inl (by decide), by simp [NodeAssignment.of]⟩)
  have hboth : Reachable ⟨"/mnt/kv"⟩ "node" (Applies ⟨"/mnt/kv"⟩) _ :=
    hfirst.step (.reconcile {} rfl ⟨.inl (by decide), by simp⟩)
  have hwaits : Reachable ⟨"/mnt/kv"⟩ "node" (Applies ⟨"/mnt/kv"⟩) _ :=
    (hboth.step (.done rfl)).step (.request rfl rfl)
  have hchanged : Reachable ⟨"/mnt/kv"⟩ "node" (Applies ⟨"/mnt/kv"⟩) _ :=
    hwaits.step (.call (.set "node" (some [.of "users" "v2" "pvc-2", .of "items" "w1" "pvc-3"])))
  have hwoken : Reachable ⟨"/mnt/kv"⟩ "node" (Applies ⟨"/mnt/kv"⟩) _ :=
    hchanged.step (.wake rfl rfl List.mem_cons_self rfl)
  have hupgrade : Reachable ⟨"/mnt/kv"⟩ "node" (Applies ⟨"/mnt/kv"⟩) _ :=
    hwoken.step (.reconcile {} rfl ⟨.inl (by decide), by simp [NodeAssignment.of]⟩)
  have hskipped : Reachable ⟨"/mnt/kv"⟩ "node" (Applies ⟨"/mnt/kv"⟩) _ :=
    hupgrade.step (.reconcile {} rfl ⟨.inr (by decide), by simp⟩)
  have hblocked : Reachable ⟨"/mnt/kv"⟩ "node" (Applies ⟨"/mnt/kv"⟩) _ :=
    (hskipped.step (.done rfl)).step (.request rfl rfl)
  refine ⟨_, hblocked, ⟨rfl, _, _, rfl, rfl, by decide⟩, rfl, ?_⟩
  exact blocked_converged _ _ _ hblocked ⟨rfl, _, _, rfl, rfl, by decide⟩

/-- One assignment, and a poll after it was reconciled. -/
theorem blocked_after (cfg : Config) (allowed : Agent → NodeAssignment → List NodeAssignment → Outcomes → Prop)
    (assign : NodeAssignment) (o : Outcomes) (h : allowed .new assign [] o) :
  ∃ s, Reachable cfg "node" allowed s ∧ s.Blocked "node" ∧ s.held "node" = [assign]
    ∧ s.agent = Agent.new.reconcile cfg assign o
  := by
  have hset : Reachable cfg "node" allowed _ := Reachable.new.step (.call (.set "node" (some [assign])))
  have hget : Reachable cfg "node" allowed _ := hset.step (.request rfl rfl)
  have hanswer : Reachable cfg "node" allowed _ := hget.step (.answer rfl rfl)
  have hreconcile : Reachable cfg "node" allowed _ := hanswer.step (.reconcile o rfl h)
  have hdone : Reachable cfg "node" allowed _ := hreconcile.step (.done rfl)
  have hblocked : Reachable cfg "node" allowed _ := hdone.step (.request rfl rfl)
  exact ⟨_, hblocked, ⟨rfl, _, _, rfl, rfl, List.not_mem_nil⟩, rfl, rfl⟩

/-- The disk of `users` is not attached; the agent takes over the generation of the response
and waits, though nothing will change. -/
theorem not_blocked_converged_failedAttach :
  ¬ ∀ cfg node s, Reachable cfg node (fun _ _ _ _ => True) s → s.Blocked node →
    ∀ assign ∈ s.held node, Converged s.agent assign
  := by
  intro h
  obtain ⟨s, hs, hblocked, hheld, hagent⟩ := blocked_after ⟨"/mnt/kv"⟩ (fun _ _ _ _ => True)
    (.of "users" "v1" "pvc-1") { attachDisk := some "timed out" } trivial
  have hconverged := h _ _ s hs hblocked (.of "users" "v1" "pvc-1") (by simp [hheld])
  have hphase := hconverged.1
  rw [hagent] at hphase
  revert hphase
  decide

end Loop

end NodeAgent
