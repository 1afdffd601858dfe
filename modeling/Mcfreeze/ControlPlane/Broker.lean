import Mcfreeze.ControlPlane.Api

/-!
# The assignment broker

The broker (`controlplane/broker.go`) holds the assignments of every node together with a
generation number and a channel that is closed when they are replaced.  The handler of a
long poll (`handleGetAssignments`) reads, waits for the channel if there is nothing new,
and reads again.

The methods hold a lock for their whole body, so an interleaving of calls is a sequence of
them.  Within one broker no wakeup is lost.  The generations are those of fewer than `2 ^ 63`
stores, so that they do not wrap.
-/

namespace ControlPlane

/-- The broker.  A channel is a number, and is only ever closed: `closes` are the channels
that were closed, in order, and `nextChan` is the next one to be made. -/
structure Broker where
  nodes : List String
  assignments : String → Option (Slice NodeAssignment)
  generation : String → Int
  notify : String → Option Nat
  nextChan : Nat
  closes : List Nat

namespace Broker

def new : Broker :=
  ⟨[], fun _ => none, fun _ => 0, fun _ => none, 0, []⟩

def registerNode (b : Broker) (nodeName : String) : Broker :=
  if nodeName ∈ b.nodes then b else { b with nodes := b.nodes ++ [nodeName] }

/-- Store the assignments of a node, count this, and wake who waits for it. -/
def replace (b : Broker) (nodeName : String) (assignments : Slice NodeAssignment) : Broker where
  nodes := b.nodes
  assignments := Function.update b.assignments nodeName (some assignments)
  generation := Function.update b.generation nodeName (b.generation nodeName + 1)
  notify := Function.update b.notify nodeName (some b.nextChan)
  nextChan := b.nextChan + 1
  closes :=
    match b.notify nodeName with
    | some ch => b.closes ++ [ch]
    | none => b.closes

/-- What `SetAssignments` stores; it returns early when the node has deeply equal
assignments. -/
def setStores (b : Broker) (nodeName : String) (assignments : Slice NodeAssignment) :
    Option (Slice NodeAssignment) :=
  if b.assignments nodeName = some assignments then none
  else
    match assignments with
    | none => some (some [])
    | some l => some (some l)

/-- What `MergeAssignment` stores: the assignments of the other datasets, and the new one;
it returns early when this is what the node has. -/
def mergeStores (b : Broker) (nodeName : String) (assignment : NodeAssignment) :
    Option (Slice NodeAssignment) :=
  let existing := (b.assignments nodeName).getD none
  let merged : Slice NodeAssignment :=
    some (existing.elems.filter (fun a => a.dataset ≠ assignment.dataset) ++ [assignment])
  if existing = merged then none else some merged

/-- Store something, or return early. -/
def store (b : Broker) (nodeName : String) (stores : Option (Slice NodeAssignment)) : Broker :=
  match stores with
  | none => b
  | some assignments => b.replace nodeName assignments

def setAssignments (b : Broker) (nodeName : String) (assignments : Slice NodeAssignment) : Broker :=
  b.store nodeName (b.setStores nodeName assignments)

def mergeAssignment (b : Broker) (nodeName : String) (assignment : NodeAssignment) : Broker :=
  b.store nodeName (b.mergeStores nodeName assignment)

/-- The current assignments of a node. -/
def response (b : Broker) (nodeName : String) : AssignmentsResponse :=
  ⟨b.generation nodeName, (b.assignments nodeName).getD none⟩

/-- Make the channel of a node. -/
def makeChan (b : Broker) (nodeName : String) : Broker :=
  { b with
    notify := Function.update b.notify nodeName (some b.nextChan)
    nextChan := b.nextChan + 1 }

/-- Read the assignments of a node.  Without a channel the caller is to answer at once, with
one it is to wait for it. -/
def getAssignments (b : Broker) (nodeName : String) (afterGeneration : Int) :
    AssignmentsResponse × Option Nat × Broker :=
  if b.generation nodeName > afterGeneration then (b.response nodeName, none, b)
  else
    match b.notify nodeName with
    | some ch => (b.response nodeName, some ch, b)
    | none => (b.response nodeName, some b.nextChan, b.makeChan nodeName)

/-! ### What the methods do -/

variable {b : Broker} {nodeName : String}

theorem replace_generation (assignments : Slice NodeAssignment) (m : String) :
  (b.replace nodeName assignments).generation m
    = if m = nodeName then b.generation nodeName + 1 else b.generation m
  := by
  by_cases h : m = nodeName
  · simp [replace, h]
  · simp [replace, h]

theorem replace_assignments (assignments : Slice NodeAssignment) (m : String) :
  (b.replace nodeName assignments).assignments m
    = if m = nodeName then some assignments else b.assignments m
  := by
  by_cases h : m = nodeName
  · simp [replace, h]
  · simp [replace, h]

theorem replace_notify (assignments : Slice NodeAssignment) (m : String) :
  (b.replace nodeName assignments).notify m
    = if m = nodeName then some b.nextChan else b.notify m
  := by
  by_cases h : m = nodeName
  · simp [replace, h]
  · simp [replace, h]

theorem mem_replace_closes {assignments : Slice NodeAssignment} {ch : Nat} :
  ch ∈ (b.replace nodeName assignments).closes ↔ ch ∈ b.closes ∨ b.notify nodeName = some ch
  := by
  rw [replace]
  cases b.notify nodeName with
  | none => simp
  | some c => simp [eq_comm]

theorem makeChan_notify (m : String) :
  (b.makeChan nodeName).notify m = if m = nodeName then some b.nextChan else b.notify m
  := by
  by_cases h : m = nodeName
  · simp [makeChan, h]
  · simp [makeChan, h]

/-- The three outcomes of a read: there is something new, the node has a channel, or it gets
one. -/
theorem getAssignments_cases {afterGeneration : Int} {response : AssignmentsResponse}
    {chan : Option Nat} {b' : Broker}
    (h : b.getAssignments nodeName afterGeneration = (response, chan, b')) :
  response = b.response nodeName
    ∧ (afterGeneration < b.generation nodeName ∧ chan = none ∧ b' = b
      ∨ b.generation nodeName ≤ afterGeneration ∧ b' = b
        ∧ (∃ ch, chan = some ch ∧ b.notify nodeName = some ch)
      ∨ b.generation nodeName ≤ afterGeneration ∧ b' = b.makeChan nodeName
        ∧ chan = some b.nextChan ∧ b.notify nodeName = none)
  := by
  rw [getAssignments] at h
  split at h
  · next hlt =>
    obtain ⟨rfl, rfl, rfl⟩ := by simpa using h
    exact ⟨rfl, .inl ⟨hlt, rfl, rfl⟩⟩
  · next hge =>
    have hle : b.generation nodeName ≤ afterGeneration := Int.not_lt.mp hge
    split at h
    · next ch hch =>
      obtain ⟨rfl, rfl, rfl⟩ := by simpa using h
      exact ⟨rfl, .inr (.inl ⟨hle, rfl, ch, rfl, hch⟩)⟩
    · next hnone =>
      obtain ⟨rfl, rfl, rfl⟩ := by simpa using h
      exact ⟨rfl, .inr (.inr ⟨hle, rfl, rfl, hnone⟩)⟩

end Broker

/-! ### Interleavings of calls -/

/-- A read of the assignments of a node. -/
structure Read where
  node : String
  afterGeneration : Int
  response : AssignmentsResponse
  chan : Option Nat

/-- A handler that has waited for the channel of its read, and read again. -/
structure Wait where
  read : Read
  answer : AssignmentsResponse

/-- A call of a method, or a handler that goes on after its channel was closed. -/
inductive Call where
  | register (node : String)
  | set (node : String) (assignments : Slice NodeAssignment)
  | merge (node : String) (assignment : NodeAssignment)
  | get (node : String) (afterGeneration : Int)
  | wake (read : Read)

/-- The broker with all that was read from it. -/
structure Polling where
  broker : Broker
  reads : List Read
  waits : List Wait

namespace Polling

def new : Polling := ⟨.new, [], []⟩

/-- What a call stores for a node. -/
def stores (s : Polling) (node : String) : Call → Option (Slice NodeAssignment)
  | .set m assignments => if node = m then s.broker.setStores m assignments else none
  | .merge m assignment => if node = m then s.broker.mergeStores m assignment else none
  | _ => none

/-- The result of a call. -/
inductive Step : Polling → Call → Polling → Prop where
  | register {s} (node : String) :
      Step s (.register node) { s with broker := s.broker.registerNode node }
  | set {s} (node : String) (assignments : Slice NodeAssignment) :
      Step s (.set node assignments) { s with broker := s.broker.setAssignments node assignments }
  | merge {s} (node : String) (assignment : NodeAssignment) :
      Step s (.merge node assignment) { s with broker := s.broker.mergeAssignment node assignment }
  | get {s} (node : String) (afterGeneration : Int) {response chan broker} :
      s.broker.getAssignments node afterGeneration = (response, chan, broker) →
      Step s (.get node afterGeneration)
        { s with
          broker := broker
          reads := ⟨node, afterGeneration, response, chan⟩ :: s.reads }
  | wake {s} {read : Read} {ch response chan broker} : read ∈ s.reads → read.chan = some ch →
      ch ∈ s.broker.closes →
      s.broker.getAssignments read.node read.afterGeneration = (response, chan, broker) →
      Step s (.wake read)
        ⟨broker, ⟨read.node, read.afterGeneration, response, chan⟩ :: s.reads,
          ⟨read, response⟩ :: s.waits⟩

/-- The states reached from a new broker. -/
inductive Reachable : Polling → Prop where
  | new : Reachable .new
  | step {s s' call} : Reachable s → Step s call s' → Reachable s'

/-- The channels of the nodes are open, and different from each other. -/
structure Channels (b : Broker) : Prop where
  fresh : ∀ node ch, b.notify node = some ch → ch < b.nextChan
  closed : ∀ ch ∈ b.closes, ch < b.nextChan
  open_ : ∀ node ch, b.notify node = some ch → ch ∉ b.closes
  injective : ∀ node node' ch, b.notify node = some ch → b.notify node' = some ch → node = node'
  nodup : b.closes.Nodup

/-- What is known of a read: it is not newer than the broker, it has the assignments of its
generation, and its channel is the node's until the generation changes. -/
structure Read.Ok (b : Broker) (r : Read) : Prop where
  le : r.response.generation ≤ b.generation r.node
  current : r.response.generation = b.generation r.node → r.response = b.response r.node
  waiting : ∀ ch, r.chan = some ch → r.response.generation = b.generation r.node →
    b.notify r.node = some ch
  woken : ∀ ch, r.chan = some ch → r.response.generation < b.generation r.node → ch ∈ b.closes

/-- The invariant. -/
structure Inv (s : Polling) : Prop where
  channels : Channels s.broker
  reads : ∀ r ∈ s.reads, Read.Ok s.broker r
  agree : ∀ r ∈ s.reads, ∀ r' ∈ s.reads, r.node = r'.node →
    r.response.generation = r'.response.generation → r.response.assignments = r'.response.assignments
  waits : ∀ w ∈ s.waits, w.read.response.generation < w.answer.generation

/-! ### The invariant -/

section

variable {b : Broker} {node : String}

/-- A node gets a new channel, and its old one is closed or was not there. -/
theorem Channels.renew {b' : Broker} (h : Channels b) (hnext : b'.nextChan = b.nextChan + 1)
    (hnotify : ∀ m, b'.notify m = if m = node then some b.nextChan else b.notify m)
    (hcloses : ∀ ch ∈ b'.closes, ch ∈ b.closes ∨ b.notify node = some ch)
    (hnodup : b'.closes.Nodup) :
  Channels b'
  := by
  have hold : ∀ m ch, b'.notify m = some ch →
      m = node ∧ ch = b.nextChan ∨ m ≠ node ∧ b.notify m = some ch := by
    intro m ch hm
    rw [hnotify] at hm
    split at hm
    · next hmn => exact .inl ⟨hmn, (Option.some.inj hm).symm⟩
    · next hmn => exact .inr ⟨hmn, hm⟩
  have hlt : ∀ ch ∈ b'.closes, ch < b.nextChan := by
    intro ch hch
    rcases hcloses ch hch with hch | hch
    · apply h.closed ch hch
    · apply h.fresh node ch hch
  refine ⟨?_, ?_, ?_, ?_, hnodup⟩
  · intro m ch hm
    rcases hold m ch hm with ⟨-, rfl⟩ | ⟨-, hm⟩
    · omega
    · have hfresh := h.fresh m ch hm
      omega
  · intro ch hch
    have hfresh := hlt ch hch
    omega
  · intro m ch hm hclosed
    rcases hold m ch hm with ⟨-, rfl⟩ | ⟨hmn, hm⟩
    · exact absurd (hlt _ hclosed) (Nat.lt_irrefl _)
    · rcases hcloses ch hclosed with hch | hch
      · apply h.open_ m ch hm hch
      · apply hmn (h.injective m node ch hm hch)
  · intro m m' ch hm hm'
    rcases hold m ch hm with ⟨hmn, hch⟩ | ⟨-, hm⟩
    · rcases hold m' ch hm' with ⟨hmn', -⟩ | ⟨-, hm'⟩
      · rw [hmn, hmn']
      · have hfresh := h.fresh m' ch hm'
        omega
    · rcases hold m' ch hm' with ⟨-, hch⟩ | ⟨-, hm'⟩
      · have hfresh := h.fresh m ch hm
        omega
      · apply h.injective m m' ch hm hm'

/-- A replacement renews the channel of its node, and keeps the others. -/
theorem Channels.replace (h : Channels b) (assignments : Slice NodeAssignment) :
  Channels (b.replace node assignments)
  := by
  apply h.renew rfl (Broker.replace_notify assignments) (fun ch => Broker.mem_replace_closes.mp)
  rw [Broker.replace]
  cases hnotify : b.notify node with
  | none => apply h.nodup
  | some ch =>
    apply List.nodup_append.mpr
    refine ⟨h.nodup, by simp, ?_⟩
    rintro c hc c' hc' rfl
    rw [List.mem_singleton.mp hc'] at hc
    apply h.open_ node ch hnotify hc

theorem Channels.makeChan (h : Channels b) :
  Channels (b.makeChan node)
  :=
  h.renew rfl Broker.makeChan_notify (fun _ => Or.inl) h.nodup

/-- Replacing the assignments of a node closes the channels of the reads that are no longer
current. -/
theorem Read.Ok.replace {r : Read} (h : Read.Ok b r) (assignments : Slice NodeAssignment) :
  Read.Ok (b.replace node assignments) r
  := by
  have hle := h.le
  by_cases hr : r.node = node
  · have hgen : (b.replace node assignments).generation r.node = b.generation r.node + 1 := by
      rw [Broker.replace_generation, if_pos hr, hr]
    refine ⟨by omega, ?_, ?_, ?_⟩
    · intro heq
      omega
    · intro ch _ heq
      omega
    · intro ch hch _
      apply Broker.mem_replace_closes.mpr
      rcases Int.lt_or_eq_of_le hle with hlt | heq
      · left
        apply h.woken ch hch hlt
      · right
        rw [← hr]
        apply h.waiting ch hch heq
  · have hgen : (b.replace node assignments).generation r.node = b.generation r.node := by
      rw [Broker.replace_generation, if_neg hr]
    have hassign : (b.replace node assignments).assignments r.node = b.assignments r.node := by
      rw [Broker.replace_assignments, if_neg hr]
    refine ⟨by omega, ?_, ?_, ?_⟩
    · intro heq
      rw [Broker.response, hgen, hassign]
      apply h.current (heq.trans hgen)
    · intro ch hch heq
      rw [Broker.replace_notify, if_neg hr]
      apply h.waiting ch hch (heq.trans hgen)
    · intro ch hch hlt
      apply Broker.mem_replace_closes.mpr
      left
      apply h.woken ch hch (by omega)

/-- A new channel of a node that had none disturbs no read. -/
theorem Read.Ok.makeChan {r : Read} (h : Read.Ok b r) (hnone : b.notify node = none) :
  Read.Ok (b.makeChan node) r
  := by
  refine ⟨h.le, h.current, ?_, h.woken⟩
  intro ch hch heq
  have hnotify := h.waiting ch hch heq
  rw [Broker.makeChan_notify]
  split
  · next hr =>
    rw [hr, hnone] at hnotify
    simp at hnotify
  · apply hnotify

end

section

variable {s s' : Polling}

/-- Storing keeps the invariant. -/
theorem Inv.store (h : Inv s) (node : String) (stores : Option (Slice NodeAssignment)) :
  Inv { s with broker := s.broker.store node stores }
  := by
  cases stores with
  | none => apply h
  | some assignments =>
    refine ⟨h.channels.replace assignments, ?_, h.agree, h.waits⟩
    intro r hr
    apply (h.reads r hr).replace

/-- Reading keeps the invariant. -/
theorem Inv.read (h : Inv s) {node : String} {afterGeneration : Int} {response : AssignmentsResponse}
    {chan : Option Nat} {broker : Broker}
    (hget : s.broker.getAssignments node afterGeneration = (response, chan, broker)) :
  Inv { s with
    broker := broker
    reads := ⟨node, afterGeneration, response, chan⟩ :: s.reads }
  := by
  obtain ⟨rfl, hcases⟩ := Broker.getAssignments_cases hget
  have hagree : ∀ r ∈ s.reads, r.node = node → r.response.generation = s.broker.generation node →
      r.response.assignments = (s.broker.response node).assignments := by
    rintro r hr rfl heq
    rw [(h.reads r hr).current heq]
  have hbroker : Channels broker ∧ (∀ r ∈ s.reads, Read.Ok broker r)
      ∧ Read.Ok broker ⟨node, afterGeneration, s.broker.response node, chan⟩ := by
    rcases hcases with ⟨_, rfl, rfl⟩ | ⟨_, rfl, ch, rfl, hch⟩ | ⟨_, rfl, rfl, hnone⟩
    · refine ⟨h.channels, h.reads, Int.le_refl _, fun _ => rfl, ?_, ?_⟩
      · rintro _ ⟨⟩
      · rintro _ ⟨⟩
    · refine ⟨h.channels, h.reads, Int.le_refl _, fun _ => rfl, ?_, ?_⟩
      · rintro _ ⟨⟩ _
        apply hch
      · intro _ _ hlt
        exact absurd hlt (Int.lt_irrefl _)
    · refine ⟨h.channels.makeChan, fun r hr => (h.reads r hr).makeChan hnone, Int.le_refl _,
        fun _ => rfl, ?_, ?_⟩
      · rintro _ ⟨⟩ _
        rw [Broker.makeChan_notify, if_pos rfl]
      · intro _ _ hlt
        exact absurd hlt (Int.lt_irrefl _)
  refine ⟨hbroker.1, ?_, ?_, h.waits⟩
  · intro r hr
    rcases List.mem_cons.mp hr with rfl | hr
    · apply hbroker.2.2
    · apply hbroker.2.1 r hr
  · intro r hr r' hr' hnode hgen
    rcases List.mem_cons.mp hr with rfl | hr
    · rcases List.mem_cons.mp hr' with rfl | hr'
      · rfl
      · exact (hagree r' hr' hnode.symm hgen.symm).symm
    · rcases List.mem_cons.mp hr' with rfl | hr'
      · apply hagree r hr hnode hgen
      · apply h.agree r hr r' hr' hnode hgen

/-- Every call keeps the invariant. -/
theorem Inv.step {call : Call} (h : Inv s) (hstep : Step s call s') :
  Inv s'
  := by
  cases hstep with
  | register node =>
    have hc := h.channels
    rw [Broker.registerNode]
    split
    · apply h
    · refine ⟨⟨hc.fresh, hc.closed, hc.open_, hc.injective, hc.nodup⟩, ?_, h.agree, h.waits⟩
      intro r hr
      obtain ⟨hle, hcurrent, hwaiting, hwoken⟩ := h.reads r hr
      exact ⟨hle, hcurrent, hwaiting, hwoken⟩
  | set node assignments => apply h.store
  | merge node assignment => apply h.store
  | get node afterGeneration hget => apply h.read hget
  | @wake read ch response chan broker hread hch hclosed hget =>
    have hafter := h.read hget
    refine ⟨hafter.channels, hafter.reads, hafter.agree, ?_⟩
    intro w hw
    rcases List.mem_cons.mp hw with rfl | hw
    · obtain ⟨rfl, -⟩ := Broker.getAssignments_cases hget
      have hok := h.reads read hread
      rcases Int.lt_or_eq_of_le hok.le with hlt | heq
      · apply hlt
      · exact absurd hclosed (h.channels.open_ _ _ (hok.waiting ch hch heq))
    · apply h.waits w hw

/-- The invariant holds after any calls. -/
theorem Reachable.inv (h : Reachable s) :
  Inv s
  := by
  induction h with
  | new =>
    refine ⟨⟨?_, ?_, ?_, ?_, List.nodup_nil⟩, ?_, ?_, ?_⟩
    · intro node ch hch
      simp [Polling.new, Broker.new] at hch
    · intro ch hch
      simp [Polling.new, Broker.new] at hch
    · intro node ch hch
      simp [Polling.new, Broker.new] at hch
    · intro node node' ch hch
      simp [Polling.new, Broker.new] at hch
    · intro r hr
      simp [Polling.new] at hr
    · intro r hr
      simp [Polling.new] at hr
    · intro w hw
      simp [Polling.new] at hw
  | step _ hstep ih => apply ih.step hstep

/-- What was read stays. -/
theorem Step.reads_mono {call : Call} (hstep : Step s call s') :
  ∀ r ∈ s.reads, r ∈ s'.reads
  := by
  intro r hr
  cases hstep with
  | register => apply hr
  | set => apply hr
  | merge => apply hr
  | get => exact List.mem_cons_of_mem _ hr
  | wake => exact List.mem_cons_of_mem _ hr

/-- The generation of a node counts what is stored for it, and changes nothing else. -/
theorem Step.stores {call : Call} (hstep : Step s call s') (node : String) :
  s'.broker.generation node
      = s.broker.generation node + (if (s.stores node call).isSome then 1 else 0)
    ∧ s'.broker.assignments node = (s.stores node call).or (s.broker.assignments node)
  := by
  have hstore : ∀ (m : String) (stores : Option (Slice NodeAssignment)),
      (s.broker.store m stores).generation node = s.broker.generation node
          + (if (if node = m then stores else none).isSome then 1 else 0)
        ∧ (s.broker.store m stores).assignments node
          = (if node = m then stores else none).or (s.broker.assignments node) := by
    intro m stores
    cases stores with
    | none => simp [Broker.store]
    | some a =>
      rw [Broker.store, Broker.replace_generation, Broker.replace_assignments]
      by_cases hm : node = m
      · simp [hm]
      · simp [hm]
  have hread : ∀ {m : String} {afterGeneration : Int} {response : AssignmentsResponse}
      {chan : Option Nat} {broker : Broker},
      s.broker.getAssignments m afterGeneration = (response, chan, broker) →
      broker.generation node = s.broker.generation node
        ∧ broker.assignments node = s.broker.assignments node := by
    intro m afterGeneration response chan broker hget
    rcases (Broker.getAssignments_cases hget).2 with ⟨_, _, rfl⟩ | ⟨_, rfl, _⟩ | ⟨_, rfl, _⟩
    · exact ⟨rfl, rfl⟩
    · exact ⟨rfl, rfl⟩
    · exact ⟨rfl, rfl⟩
  cases hstep with
  | register m =>
    rw [Broker.registerNode]
    split <;> simp [Polling.stores]
  | set m assignments => apply hstore
  | merge m assignment => apply hstore
  | get m afterGeneration hget => simpa [Polling.stores] using hread hget
  | wake _ _ _ hget => simpa [Polling.stores] using hread hget

/-- No wakeup is lost within one broker: the generation of a node counts what is stored for
it, reads of one generation agree, the channel of a read is closed exactly when the
generation has changed, no channel is closed twice, and a handler that waited for its
channel answers with a later generation. -/
theorem no_lost_wakeup (h : Reachable s) :
  (∀ call s', Step s call s' → ∀ node,
      s'.broker.generation node
          = s.broker.generation node + (if (s.stores node call).isSome then 1 else 0)
        ∧ s'.broker.assignments node = (s.stores node call).or (s.broker.assignments node))
    ∧ (∀ r ∈ s.reads, ∀ r' ∈ s.reads, r.node = r'.node →
      r.response.generation = r'.response.generation → r.response.assignments = r'.response.assignments)
    ∧ (∀ r ∈ s.reads, ∀ ch, r.chan = some ch → r.response.generation ≤ s.broker.generation r.node
      ∧ (ch ∈ s.broker.closes ↔ r.response.generation < s.broker.generation r.node))
    ∧ s.broker.closes.Nodup
    ∧ ∀ w ∈ s.waits, w.read.response.generation < w.answer.generation
  := by
  have hinv := h.inv
  refine ⟨fun call s' hstep => hstep.stores, hinv.agree, ?_, hinv.channels.nodup, hinv.waits⟩
  intro r hr ch hch
  have hok := hinv.reads r hr
  refine ⟨hok.le, ?_, hok.woken ch hch⟩
  intro hclosed
  rcases Int.lt_or_eq_of_le hok.le with hlt | heq
  · apply hlt
  · exact absurd hclosed (hinv.channels.open_ _ _ (hok.waiting ch hch heq))

end

/-- A handler waits for a node that has no assignments, and is woken when it gets some. -/
theorem no_lost_wakeup_first :
  ∃ s, Reachable s ∧ s.waits.map (fun w => w.answer) = [⟨1, some []⟩]
    ∧ ∀ w ∈ s.waits, w.read.response.generation < w.answer.generation
  := by
  have hread : Reachable _ := Reachable.new.step (.get "node" 0 rfl)
  have hset : Reachable _ := hread.step (.set "node" (some []))
  have hwake : Reachable _ := hset.step
    (@Step.wake _ ⟨"node", 0, ⟨0, none⟩, some 0⟩ 0 _ _ _ List.mem_cons_self rfl (by decide) rfl)
  refine ⟨_, hwake, ?_, (no_lost_wakeup hwake).2.2.2.2⟩
  decide

end Polling

end ControlPlane
