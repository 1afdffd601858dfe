import Mcfreeze.Format.Builder
import Mathlib.Logic.Function.Basic

/-!
# Scatter

The scatter phase of the loader (`scatter.rs`, `run_scatter_sources` in `lib.rs`).  Each
source has a producer that sends its records in batches to the partitions; each partition
has a channel of bounded capacity and a writer that drives the partition's appender.  The
main task waits for the producers, drops the senders, waits for the writers, and writes
`scatter.done`.  When it fails, the tasks that are left go on by themselves.

The tasks take their steps in any order.  Whatever the order is, no record is lost,
duplicated or sent to the wrong partition on its way.
-/

open Format Crash

namespace Loader

/-- What a source yields, batch by batch.  When it fails it is not asked again; what comes
after the failure are the records it still had. -/
abbrev Source := List (Except String (List Pair))

/-- All pairs of a source. -/
def Source.pairs : Source → List Pair
  | [] => []
  | .error _ :: rest => Source.pairs rest
  | .ok batch :: rest => batch ++ Source.pairs rest

/-- A record on its way to an appender; `origin` is the source that it comes from, which
no code looks at. -/
structure Record where
  origin : Nat
  key : Bytes
  fp : UInt64
  value : Bytes
  deriving DecidableEq, Repr

/-- What is sent to a partition at once. -/
abbrev PartitionBatch := List Record

structure Config where
  channelCapacity : Nat
  maxValueBytes : Nat

/-! ### Producers -/

/-- The fan-out of a producer: a sub-batch for each partition, and counters. -/
structure Fanout where
  subBatches : Nat → PartitionBatch
  nKeys : Nat
  dataBytes : Nat

def Fanout.new : Fanout := ⟨fun _ => [], 0, 0⟩

section

variable {σ τ App : Type} (F : FormatBuilder σ τ App) (cfg : Config)

/-- The record of a pair. -/
def recordOf (origin : Nat) (kv : Pair) : Record :=
  ⟨origin, kv.1, fingerprint F.hash kv.1, kv.2⟩

/-- Put a pair into the sub-batch of its partition. -/
def Fanout.push (origin : Nat) (f : Fanout) (kv : Pair) : Fanout :=
  let idx := F.layout.partitionOf (fingerprint F.hash kv.1)
  { subBatches := Function.update f.subBatches idx (f.subBatches idx ++ [recordOf F origin kv])
    nKeys := f.nKeys + 1
    dataBytes := f.dataBytes + kv.2.length }

/-- Go through a batch; a value above the cap fails the whole batch. -/
def Fanout.walk (origin : Nat) : List Pair → Fanout → Except Error Fanout
  | [], f => .ok f
  | kv :: batch, f =>
    if cfg.maxValueBytes < kv.2.length then
      .error (.sourceValueTooLarge kv.1 kv.2.length cfg.maxValueBytes)
    else Fanout.walk origin batch (f.push F origin kv)

end

/-- A producer fetches a batch, sends its sub-batches from partition `idx` on, or has
ended. -/
inductive ProducerState where
  | fetching (f : Fanout)
  | sending (f : Fanout) (idx : Nat)
  | ended (r : Except Error Fanout)

structure Producer where
  source : Source
  state : ProducerState

/-- The steps of a producer, with what it sends to which partition.  `hungUp` says whose
writer has exited, and `room` in whose channel there is room. -/
inductive Producer.Step {σ τ App : Type} (F : FormatBuilder σ τ App) (cfg : Config) (i : Nat)
    (hungUp room : Nat → Prop) : Producer → Option (Nat × PartitionBatch) → Producer → Prop where
  | exhausted {f} : Step F cfg i hungUp room ⟨[], .fetching f⟩ none ⟨[], .ended (.ok f)⟩
  | sourceFails {f e rest} : Step F cfg i hungUp room ⟨.error e :: rest, .fetching f⟩ none
      ⟨.error e :: rest, .ended (.error (.source e))⟩
  | oversized {f batch rest e} : f.walk F cfg i batch = .error e →
      Step F cfg i hungUp room ⟨.ok batch :: rest, .fetching f⟩ none
        ⟨.ok batch :: rest, .ended (.error e)⟩
  | walked {f f' batch rest} : f.walk F cfg i batch = .ok f' →
      Step F cfg i hungUp room ⟨.ok batch :: rest, .fetching f⟩ none ⟨rest, .sending f' 0⟩
  | skip {source f idx} : idx < F.n → f.subBatches idx = [] →
      Step F cfg i hungUp room ⟨source, .sending f idx⟩ none ⟨source, .sending f (idx + 1)⟩
  | send {source f idx} : idx < F.n → f.subBatches idx ≠ [] → ¬ hungUp idx → room idx →
      Step F cfg i hungUp room ⟨source, .sending f idx⟩ (some (idx, f.subBatches idx))
        ⟨source, .sending { f with subBatches := Function.update f.subBatches idx [] } (idx + 1)⟩
  | brokenPipe {source f idx} : idx < F.n → f.subBatches idx ≠ [] → hungUp idx →
      Step F cfg i hungUp room ⟨source, .sending f idx⟩ none
        ⟨source, .ended (.error (.io "partition writer task exited unexpectedly"))⟩
  | batchSent {source f idx} : F.n ≤ idx →
      Step F cfg i hungUp room ⟨source, .sending f idx⟩ none ⟨source, .fetching f⟩

/-! ### Writers -/

/-- What a writer returns. -/
structure PartitionStats where
  nKeys : Nat
  sumBytes : Nat
  deriving DecidableEq, Repr

/-- A writer waits for a batch, appends one of its records, finishes its appender, or has
ended. -/
inductive WriterState (τ App : Type) where
  | receiving (a : App)
  | appending (task : Prog τ Error Empty App) (r : Record) (rest : List Record)
  | finishing (task : Prog τ Error Empty Unit)
  | ended (r : Except Error PartitionStats)

/-- A writer with its counters.  Nothing looks at `log`, the records it has appended, and
`lost`, those it had received when it failed. -/
structure Writer (τ App : Type) where
  state : WriterState τ App
  nKeys : Nat
  sumBytes : Nat
  log : List Record
  lost : List Record

/-- Start to append the records of a batch. -/
def beginBatch {σ τ App : Type} (F : FormatBuilder σ τ App) (a : App) :
    PartitionBatch → WriterState τ App
  | [] => .receiving a
  | r :: rest => .appending (F.append a r.key r.fp r.value) r rest

/-- The steps of a writer, with its channel and the directory of its partition.  `closed`
says that all senders are dropped. -/
inductive Writer.Step {σ τ App : Type} (F : FormatBuilder σ τ App) (closed : Prop) :
    Writer τ App → List PartitionBatch → τ → Writer τ App → List PartitionBatch → τ → Prop where
  | receive {a n b log lost batch queue t} :
      Step F closed ⟨.receiving a, n, b, log, lost⟩ (batch :: queue) t
        ⟨beginBatch F a batch, n, b, log, lost⟩ queue t
  | close {a n b log lost t} : closed →
      Step F closed ⟨.receiving a, n, b, log, lost⟩ [] t
        ⟨.finishing (F.finish a), n, b, log, lost⟩ [] t
  | append {task task' r rest n b log lost queue t t'} : Prog.Step (.none τ) task t task' t' →
      Step F closed ⟨.appending task r rest, n, b, log, lost⟩ queue t
        ⟨.appending task' r rest, n, b, log, lost⟩ queue t'
  | appended {a r rest n b log lost queue t} :
      Step F closed ⟨.appending (.done (.ok a)) r rest, n, b, log, lost⟩ queue t
        ⟨beginBatch F a rest, n + 1, b + r.value.length, log ++ [r], lost⟩ queue t
  | appendFails {e r rest n b log lost queue t} :
      Step F closed ⟨.appending (.done (.error e)) r rest, n, b, log, lost⟩ queue t
        ⟨.ended (.error e), n, b, log, r :: rest⟩ [] t
  | finish {task task' n b log lost queue t t'} : Prog.Step (.none τ) task t task' t' →
      Step F closed ⟨.finishing task, n, b, log, lost⟩ queue t
        ⟨.finishing task', n, b, log, lost⟩ queue t'
  | finished {n b log lost queue t} :
      Step F closed ⟨.finishing (.done (.ok ())), n, b, log, lost⟩ queue t
        ⟨.ended (.ok ⟨n, b⟩), n, b, log, lost⟩ queue t
  | finishFails {e n b log lost queue t} :
      Step F closed ⟨.finishing (.done (.error e)), n, b, log, lost⟩ queue t
        ⟨.ended (.error e), n, b, log, lost⟩ queue t

/-! ### The main task -/

structure ScatterStats where
  nKeys : Nat
  dataBytes : Nat
  deriving DecidableEq, Repr

/-- The main task collects the fan-outs of the producers, joins the writers, or has
ended. -/
inductive Main where
  | collecting (fanouts : List Fanout)
  | joining (dataBytes : Nat) (stats : List PartitionStats)
  | ended (r : Except Error ScatterStats)

/-- The state of the phase. -/
structure Scatter (σ τ App : Type) where
  builder : FormatBuilder σ τ App
  config : Config
  nSources : Nat
  producers : Nat → Producer
  channels : Nat → List PartitionBatch
  writers : Nat → Writer τ App
  main : Main

/-- The contents of `scatter.done`. -/
def scatterDoneOf {σ τ App : Type} (F : FormatBuilder σ τ App) (dataBytes : Nat)
    (stats : List PartitionStats) : ScatterDone :=
  { format := F.format
    nKeys := (stats.map (·.nKeys)).sum
    nPartitions := F.n
    dataBytes := dataBytes
    partitions := stats.map (·.nKeys) }

namespace Scatter

variable {σ τ App : Type}

/-- The writer of the partition has exited, and dropped its receiver. -/
def HungUp (c : Scatter σ τ App) (p : Nat) : Prop :=
  ∃ r, (c.writers p).state = .ended r

/-- There is room in the channel of the partition. -/
def Room (c : Scatter σ τ App) (p : Nat) : Prop :=
  (c.channels p).length < max c.config.channelCapacity 1

/-- All senders are dropped: the main task has dropped its own and the fan-outs it has
collected, and the producers have ended. -/
def Closed (c : Scatter σ τ App) : Prop :=
  (∀ fanouts, c.main ≠ .collecting fanouts)
    ∧ ∀ i < c.nSources, ∃ r, (c.producers i).state = .ended r

/-- The channels after something is sent. -/
def sent (channels : Nat → List PartitionBatch) : Option (Nat × PartitionBatch) →
    Nat → List PartitionBatch
  | none => channels
  | some (p, batch) => Function.update channels p (channels p ++ [batch])

/-- The steps of the main task. -/
inductive MainStep (c : Scatter σ τ App) : Main → σ → Main → σ → Prop where
  | collect {fanouts f s} : fanouts.length < c.nSources →
      (c.producers fanouts.length).state = .ended (.ok f) →
      MainStep c (.collecting fanouts) s (.collecting (fanouts ++ [f])) s
  | collectFails {fanouts e s} : fanouts.length < c.nSources →
      (c.producers fanouts.length).state = .ended (.error e) →
      MainStep c (.collecting fanouts) s (.ended (.error e)) s
  | dropSenders {fanouts s} : fanouts.length = c.nSources →
      MainStep c (.collecting fanouts) s (.joining (fanouts.map (·.dataBytes)).sum []) s
  | join {dataBytes stats st s} : stats.length < c.builder.n →
      (c.writers stats.length).state = .ended (.ok st) →
      MainStep c (.joining dataBytes stats) s (.joining dataBytes (stats ++ [st])) s
  | joinFails {dataBytes stats e s} : stats.length < c.builder.n →
      (c.writers stats.length).state = .ended (.error e) →
      MainStep c (.joining dataBytes stats) s (.ended (.error e)) s
  | publish {dataBytes stats s} : stats.length = c.builder.n →
      MainStep c (.joining dataBytes stats) s
        (.ended (.ok ⟨(scatterDoneOf c.builder dataBytes stats).nKeys, dataBytes⟩))
        (c.builder.root.setScatterDone (scatterDoneOf c.builder dataBytes stats) s)
  | publishFails {dataBytes stats s} (e : Error) : stats.length = c.builder.n →
      MainStep c (.joining dataBytes stats) s (.ended (.error e)) s

/-- One of the tasks takes a step. -/
inductive Step (c : Scatter σ τ App) (s : σ) : Scatter σ τ App → σ → Prop where
  | produce {i producer batch} : i < c.nSources →
      Producer.Step c.builder c.config i c.HungUp c.Room (c.producers i) batch producer →
      Step c s { c with
        producers := Function.update c.producers i producer
        channels := sent c.channels batch } s
  | write {p writer queue t} : p < c.builder.n →
      Writer.Step c.builder c.Closed (c.writers p) (c.channels p) (c.builder.part p s) writer queue t →
      Step c s { c with
        writers := Function.update c.writers p writer
        channels := Function.update c.channels p queue }
        (c.builder.root.parts.put (c.builder.dirOf p) t s)
  | await {main s'} : MainStep c c.main s main s' → Step c s { c with main := main } s'

/-- All tasks have ended. -/
def Final (c : Scatter σ τ App) : Prop :=
  (∃ r, c.main = .ended r) ∧ (∀ i < c.nSources, ∃ r, (c.producers i).state = .ended r)
    ∧ ∀ p < c.builder.n, ∃ r, (c.writers p).state = .ended r

/-- The source of a producer. -/
def sourceOf (sources : List Source) (i : Nat) : Source :=
  sources[i]?.getD []

/-- The start of the phase, with the appenders of the partitions. -/
def start (F : FormatBuilder σ τ App) (cfg : Config) (sources : List Source) (appenders : Nat → App) :
    Scatter σ τ App where
  builder := F
  config := cfg
  nSources := sources.length
  producers i := ⟨sourceOf sources i, .fetching .new⟩
  channels _ := []
  writers p := ⟨.receiving (appenders p), 0, 0, [], []⟩
  main := .collecting []

/-- Scatter as a phase of a program. -/
def phases (σ τ App : Type) : Phases (Scatter σ τ App) σ where
  step := Step
  final := Final

end Scatter

/-! ### What a producer hands over -/

/-- The pairs that a source hands over: those of the batches before the first failure or
the first batch with a value above the cap. -/
def Source.handed (cap : Nat) : Source → List Pair
  | [] => []
  | .error _ :: _ => []
  | .ok batch :: rest =>
    if ∃ kv ∈ batch, cap < kv.2.length then [] else batch ++ Source.handed cap rest

/-- The number of bytes in the values of some pairs. -/
def valueBytes (kvs : List Pair) : Nat :=
  (kvs.map fun kv => kv.2.length).sum

section

variable {σ τ App : Type} (F : FormatBuilder σ τ App) (cfg : Config) (i : Nat)

/-- The records of the pairs that belong to partition `p`. -/
def routed (p : Nat) (kvs : List Pair) : List Record :=
  (pairsOf F.hash F.layout kvs p).map (recordOf F i)

theorem routed_append (p : Nat) (kvs kvs' : List Pair) :
  routed F i p (kvs ++ kvs') = routed F i p kvs ++ routed F i p kvs'
  := by
  simp only [routed, pairsOf, List.filter_append, List.map_append]

theorem mem_routed {F : FormatBuilder σ τ App} {i p : Nat} {kvs : List Pair} {r : Record}
    (h : r ∈ routed F i p kvs) :
  r.origin = i ∧ r.fp = fingerprint F.hash r.key ∧ F.layout.partitionOf r.fp = p
    ∧ (r.key, r.value) ∈ kvs
  := by
  obtain ⟨kv, hkv, rfl⟩ := List.mem_map.mp h
  obtain ⟨hmem, hp⟩ := mem_pairsOf.mp hkv
  exact ⟨rfl, rfl, hp, hmem⟩

/-- The fan-out of a producer that has not failed. -/
def Producer.fanout (producer : Producer) : Option Fanout :=
  match producer.state with
  | .fetching f => some f
  | .sending f _ => some f
  | .ended (.ok f) => some f
  | .ended (.error _) => none

/-- The records a producer still has to send to a partition. -/
def Producer.unsent (p : Nat) (producer : Producer) : List Record :=
  match producer.state with
  | .fetching f => f.subBatches p ++ routed F i p (producer.source.handed cfg.maxValueBytes)
  | .sending f _ => f.subBatches p ++ routed F i p (producer.source.handed cfg.maxValueBytes)
  | .ended _ => []

/-- What is known of a producer of a source: its counters count what it has gone through,
its sub-batches are records of the source, and the sub-batches that were sent are empty. -/
structure Producer.Ok (source : Source) (producer : Producer) : Prop where
  progress : ∃ before, source.handed cfg.maxValueBytes
      = before ++ producer.source.handed cfg.maxValueBytes
    ∧ source.pairs = before ++ producer.source.pairs
    ∧ ∀ f, producer.fanout = some f → f.dataBytes = valueBytes before
  genuine : ∀ f, producer.fanout = some f → ∀ p, ∀ r ∈ f.subBatches p,
    r ∈ routed F i p (source.handed cfg.maxValueBytes)
  fetching : ∀ f, producer.state = .fetching f → ∀ p < F.n, f.subBatches p = []
  sending : ∀ f idx, producer.state = .sending f idx → ∀ p < idx, f.subBatches p = []
  exhausted : ∀ f, producer.state = .ended (.ok f) → producer.source = []

variable {F cfg i}

/-- Going through a batch distributes its pairs over the sub-batches. -/
theorem Fanout.walk_eq_ok {batch : List Pair} {f f' : Fanout} (h : f.walk F cfg i batch = .ok f') :
  (¬ ∃ kv ∈ batch, cfg.maxValueBytes < kv.2.length)
    ∧ (∀ p, f'.subBatches p = f.subBatches p ++ routed F i p batch)
    ∧ f'.dataBytes = f.dataBytes + valueBytes batch
  := by
  induction batch generalizing f with
  | nil =>
    obtain rfl := Except.ok.inj h
    simp [routed, pairsOf, valueBytes]
  | cons kv batch ih =>
    rw [Fanout.walk] at h
    split at h
    · simp at h
    · next hsmall =>
      obtain ⟨hall, hsub, hbytes⟩ := ih h
      refine ⟨?_, ?_, ?_⟩
      · rintro ⟨kv', hkv', hlt⟩
        rcases List.mem_cons.mp hkv' with rfl | hkv'
        · apply hsmall hlt
        · apply hall ⟨kv', hkv', hlt⟩
      · intro p
        have hcons : routed F i p (kv :: batch) = routed F i p [kv] ++ routed F i p batch :=
          routed_append F i p [kv] batch
        rw [hsub, hcons, ← List.append_assoc]
        congr 1
        simp only [Fanout.push]
        by_cases hp : p = F.layout.partitionOf (fingerprint F.hash kv.1)
        · subst hp
          rw [Function.update_self]
          simp [routed, pairsOf]
        · rw [Function.update_of_ne hp]
          simp [routed, pairsOf, Ne.symm hp]
      · rw [hbytes]
        simp only [Fanout.push, valueBytes, List.map_cons, List.sum_cons]
        omega

/-- A batch is refused only for a value that is too long. -/
theorem Fanout.walk_eq_error {batch : List Pair} {f : Fanout} {e : Error}
    (h : f.walk F cfg i batch = .error e) :
  ∃ kv ∈ batch, cfg.maxValueBytes < kv.2.length
  := by
  induction batch generalizing f with
  | nil => simp [Fanout.walk] at h
  | cons kv batch ih =>
    rw [Fanout.walk] at h
    split at h
    · next hlt => exact ⟨kv, List.mem_cons_self, hlt⟩
    · obtain ⟨kv', hkv', hlt⟩ := ih h
      exact ⟨kv', List.mem_cons_of_mem _ hkv', hlt⟩

/-- A producer starts with nothing routed. -/
theorem Producer.ok_start (F : FormatBuilder σ τ App) (cfg : Config) (i : Nat) (source : Source) :
  Producer.Ok F cfg i source ⟨source, .fetching .new⟩
  := by
  refine ⟨⟨[], rfl, rfl, ?_⟩, ?_, ?_, ?_, ?_⟩
  · rintro _ ⟨⟩
    rfl
  · rintro _ ⟨⟩ p r hr
    simp [Fanout.new] at hr
  · rintro _ ⟨⟩ p _
    rfl
  · rintro _ _ ⟨⟩
  · rintro _ ⟨⟩

/-- A step of a producer keeps what is known of it. -/
theorem Producer.Ok.step {hungUp room : Nat → Prop} {source : Source} {producer producer' : Producer}
    {batch : Option (Nat × PartitionBatch)} (h : Producer.Ok F cfg i source producer)
    (hstep : Producer.Step F cfg i hungUp room producer batch producer') :
  Producer.Ok F cfg i source producer'
  := by
  obtain ⟨⟨before, hhanded, hpairs, hbytes⟩, hgenuine, hfetch, hsend, -⟩ := h
  cases hstep with
  | exhausted =>
    refine ⟨⟨before, hhanded, hpairs, hbytes⟩, hgenuine, ?_, ?_, ?_⟩
    · rintro _ ⟨⟩
    · rintro _ _ ⟨⟩
    · rintro _ ⟨⟩
      rfl
  | sourceFails =>
    refine ⟨⟨before, hhanded, hpairs, ?_⟩, ?_, ?_, ?_, ?_⟩
    · rintro _ ⟨⟩
    · rintro _ ⟨⟩
    · rintro _ ⟨⟩
    · rintro _ _ ⟨⟩
    · rintro _ ⟨⟩
  | oversized _ =>
    refine ⟨⟨before, hhanded, hpairs, ?_⟩, ?_, ?_, ?_, ?_⟩
    · rintro _ ⟨⟩
    · rintro _ ⟨⟩
    · rintro _ ⟨⟩
    · rintro _ _ ⟨⟩
    · rintro _ ⟨⟩
  | @walked f f' batch rest hwalk =>
    obtain ⟨hsmall, hsub, hadd⟩ := Fanout.walk_eq_ok hwalk
    have hbefore : source.handed cfg.maxValueBytes
        = (before ++ batch) ++ Source.handed cfg.maxValueBytes rest := by
      rw [hhanded, Source.handed, if_neg hsmall, List.append_assoc]
    refine ⟨⟨before ++ batch, hbefore, ?_, ?_⟩, ?_, ?_, ?_, ?_⟩
    · rw [hpairs, Source.pairs, List.append_assoc]
    · rintro _ ⟨⟩
      rw [hadd, hbytes f rfl]
      simp only [valueBytes, List.map_append, List.sum_append]
    · rintro _ ⟨⟩ p r hr
      rw [hsub] at hr
      rcases List.mem_append.mp hr with hr | hr
      · apply hgenuine f rfl p r hr
      · rw [hbefore, routed_append, routed_append]
        exact List.mem_append_left _ (List.mem_append_right _ hr)
    · rintro _ ⟨⟩
    · rintro _ _ ⟨⟩ p hp
      omega
    · rintro _ ⟨⟩
  | @skip rest f idx hidx hempty =>
    refine ⟨⟨before, hhanded, hpairs, hbytes⟩, hgenuine, ?_, ?_, ?_⟩
    · rintro _ ⟨⟩
    · rintro _ _ ⟨⟩ p hp
      by_cases hpidx : p = idx
      · rw [hpidx, hempty]
      · apply hsend f idx rfl p (by omega)
    · rintro _ ⟨⟩
  | @send rest f idx hidx _ _ _ =>
    refine ⟨⟨before, hhanded, hpairs, ?_⟩, ?_, ?_, ?_, ?_⟩
    · rintro _ ⟨⟩
      apply hbytes f rfl
    · rintro _ ⟨⟩ p r hr
      dsimp only at hr
      by_cases hpidx : p = idx
      · rw [hpidx, Function.update_self] at hr
        simp at hr
      · rw [Function.update_of_ne hpidx] at hr
        apply hgenuine f rfl p r hr
    · rintro _ ⟨⟩
    · rintro _ _ ⟨⟩ p hp
      dsimp only
      by_cases hpidx : p = idx
      · rw [hpidx, Function.update_self]
      · rw [Function.update_of_ne hpidx]
        apply hsend f idx rfl p (by omega)
    · rintro _ ⟨⟩
  | brokenPipe =>
    refine ⟨⟨before, hhanded, hpairs, ?_⟩, ?_, ?_, ?_, ?_⟩
    · rintro _ ⟨⟩
    · rintro _ ⟨⟩
    · rintro _ ⟨⟩
    · rintro _ _ ⟨⟩
    · rintro _ ⟨⟩
  | @batchSent rest f idx hidx =>
    refine ⟨⟨before, hhanded, hpairs, hbytes⟩, hgenuine, ?_, ?_, ?_⟩
    · rintro _ ⟨⟩ p hp
      apply hsend f idx rfl p (by omega)
    · rintro _ _ ⟨⟩
    · rintro _ ⟨⟩

/-- What a producer sends to partition `p`. -/
def sentTo (p : Nat) : Option (Nat × PartitionBatch) → List Record
  | none => []
  | some (q, batch) => if p = q then batch else []

/-- A step of a producer moves records to the channels, unless a writer has exited. -/
theorem Producer.Step.conserves {hungUp room : Nat → Prop} {source : Source}
    {producer producer' : Producer} {batch : Option (Nat × PartitionBatch)}
    (h : Producer.Ok F cfg i source producer)
    (hstep : Producer.Step F cfg i hungUp room producer batch producer') :
  (∃ p < F.n, hungUp p ∧ producer.unsent F cfg i p ≠ [])
    ∨ ∀ p < F.n, sentTo p batch ++ producer'.unsent F cfg i p = producer.unsent F cfg i p
  := by
  cases hstep with
  | exhausted =>
    right
    intro p hp
    have hempty := h.fetching _ rfl p hp
    simp [Producer.unsent, sentTo, hempty, Source.handed, routed, pairsOf]
  | sourceFails =>
    right
    intro p hp
    have hempty := h.fetching _ rfl p hp
    simp [Producer.unsent, sentTo, hempty, Source.handed, routed, pairsOf]
  | oversized hwalk =>
    right
    intro p hp
    have hempty := h.fetching _ rfl p hp
    have hover := Fanout.walk_eq_error hwalk
    simp only [Producer.unsent, sentTo, hempty, Source.handed, if_pos hover]
    rfl
  | walked hwalk =>
    right
    intro p hp
    obtain ⟨hsmall, hsub, -⟩ := Fanout.walk_eq_ok hwalk
    simp only [Producer.unsent, sentTo, hsub, Source.handed, if_neg hsmall, routed_append,
      List.append_assoc, List.nil_append]
  | skip =>
    right
    intro p _
    rfl
  | @send rest f idx hidx _ _ _ =>
    right
    intro p _
    simp only [Producer.unsent, sentTo]
    by_cases hp : p = idx
    · rw [if_pos hp, hp, Function.update_self, List.nil_append]
    · rw [if_neg hp, Function.update_of_ne hp, List.nil_append]
  | @brokenPipe rest f idx hidx hne hhung =>
    left
    refine ⟨idx, hidx, hhung, ?_⟩
    simp only [Producer.unsent]
    intro hnil
    apply hne (List.append_eq_nil_iff.mp hnil).1
  | batchSent =>
    right
    intro p _
    rfl

/-- What is sent are records of the source. -/
theorem Producer.Step.genuine {hungUp room : Nat → Prop} {source : Source}
    {producer producer' : Producer} {batch : Option (Nat × PartitionBatch)}
    (h : Producer.Ok F cfg i source producer)
    (hstep : Producer.Step F cfg i hungUp room producer batch producer') :
  ∀ p, ∀ r ∈ sentTo p batch, r ∈ routed F i p (source.handed cfg.maxValueBytes)
  := by
  intro p r hr
  cases hstep with
  | @send rest f idx =>
    simp only [sentTo] at hr
    split at hr
    · next hp =>
      subst hp
      apply h.genuine f rfl p r hr
    · simp at hr
  | _ => simp [sentTo] at hr

end

/-! ### What a writer appends -/

section

variable {σ τ App : Type} {F : FormatBuilder σ τ App}

/-- The records a writer has received and not appended. -/
def Writer.inHand (w : Writer τ App) : List Record :=
  match w.state with
  | .appending _ r rest => r :: rest
  | _ => []

/-- What a writer has appended and received, and what is in its channel. -/
def arrived (w : Writer τ App) (queue : List PartitionBatch) : List Record :=
  w.log ++ (w.inHand ++ queue.flatten)

/-- The counters of a writer count what it has appended, and it loses nothing unless it
fails to append. -/
structure Writer.Ok (w : Writer τ App) : Prop where
  nKeys : w.nKeys = w.log.length
  sumBytes : w.sumBytes = (w.log.map fun r => r.value.length).sum
  stats : ∀ st, w.state = .ended (.ok st) → st = ⟨w.nKeys, w.sumBytes⟩ ∧ w.lost = []
  lost : w.lost ≠ [] → ∃ e, w.state = .ended (.error e)

/-- The channel of a writer that finishes, or has ended without a loss, is closed and
empty. -/
def Writer.Settled (closed : Prop) (w : Writer τ App) (queue : List PartitionBatch) : Prop :=
  match w.state with
  | .receiving _ => True
  | .appending _ _ _ => True
  | .finishing _ => closed ∧ queue = []
  | .ended _ => w.lost ≠ [] ∨ closed ∧ queue = []

theorem arrived_beginBatch {a : App} {batch : PartitionBatch} {n b : Nat} {log lost : List Record}
    {queue : List PartitionBatch} :
  arrived (⟨beginBatch F a batch, n, b, log, lost⟩ : Writer τ App) queue = log ++ (batch ++ queue.flatten)
  := by
  cases batch <;> rfl

theorem beginBatch_ne_ended {a : App} {batch : PartitionBatch} {r : Except Error PartitionStats} :
  (beginBatch F a batch : WriterState τ App) ≠ .ended r
  := by
  cases batch <;> simp [beginBatch]

/-- A step of a writer counts the record that it appends, and loses records only when it ends
with an error. -/
theorem Writer.Ok.step {closed : Prop} {w w' : Writer τ App} {queue queue' : List PartitionBatch}
    {t t' : τ} (h : w.Ok) (hstep : Writer.Step F closed w queue t w' queue' t') :
  w'.Ok
  := by
  obtain ⟨hn, hb, hst, hlost⟩ := h
  cases hstep with
  | receive =>
    refine ⟨hn, hb, ?_, ?_⟩
    · intro st hst
      exact absurd hst beginBatch_ne_ended
    · intro hne
      obtain ⟨e, he⟩ := hlost hne
      simp at he
  | close _ =>
    refine ⟨hn, hb, ?_, ?_⟩
    · rintro _ ⟨⟩
    · intro hne
      obtain ⟨e, he⟩ := hlost hne
      simp at he
  | append _ =>
    refine ⟨hn, hb, ?_, ?_⟩
    · rintro _ ⟨⟩
    · intro hne
      obtain ⟨e, he⟩ := hlost hne
      simp at he
  | appended =>
    dsimp only at hn hb
    refine ⟨?_, ?_, ?_, ?_⟩
    · simp [hn]
    · simp [hb]
    · intro st hst
      exact absurd hst beginBatch_ne_ended
    · intro hne
      obtain ⟨e, he⟩ := hlost hne
      simp at he
  | appendFails =>
    refine ⟨hn, hb, ?_, ?_⟩
    · rintro _ ⟨⟩
    · intro _
      exact ⟨_, rfl⟩
  | finish _ =>
    refine ⟨hn, hb, ?_, ?_⟩
    · rintro _ ⟨⟩
    · intro hne
      obtain ⟨e, he⟩ := hlost hne
      simp at he
  | finished =>
    have hnil := hlost
    dsimp only at hnil
    refine ⟨hn, hb, ?_, ?_⟩
    · rintro _ ⟨⟩
      refine ⟨rfl, ?_⟩
      by_contra hne
      obtain ⟨e, he⟩ := hnil hne
      simp at he
    · intro hne
      obtain ⟨e, he⟩ := hnil hne
      simp at he
  | finishFails =>
    refine ⟨hn, hb, ?_, ?_⟩
    · rintro _ ⟨⟩
    · intro _
      exact ⟨_, rfl⟩

/-- A step of a writer appends what has arrived, in order, unless it loses a record. -/
theorem Writer.Step.conserves {closed : Prop} {w w' : Writer τ App}
    {queue queue' : List PartitionBatch} {t t' : τ}
    (hstep : Writer.Step F closed w queue t w' queue' t') :
  (w'.lost ≠ [] ∧ ∀ r ∈ w'.lost, r ∈ arrived w queue) ∧ w'.log = w.log ∧ arrived w' queue' = w.log
    ∨ w'.lost = w.lost ∧ arrived w' queue' = arrived w queue
  := by
  cases hstep with
  | receive =>
    right
    refine ⟨rfl, ?_⟩
    rw [arrived_beginBatch]
    simp [arrived, Writer.inHand]
  | close _ => exact .inr ⟨rfl, rfl⟩
  | append _ => exact .inr ⟨rfl, rfl⟩
  | appended =>
    right
    refine ⟨rfl, ?_⟩
    rw [arrived_beginBatch]
    simp [arrived, Writer.inHand]
  | @appendFails e r rest n b log lost queue t =>
    left
    refine ⟨⟨by simp, ?_⟩, rfl, ?_⟩
    · intro r' hr'
      simp only [arrived, Writer.inHand]
      exact List.mem_append_right _ (List.mem_append_left _ hr')
    · simp [arrived, Writer.inHand]
  | finish _ => exact .inr ⟨rfl, rfl⟩
  | finished => exact .inr ⟨rfl, rfl⟩
  | finishFails => exact .inr ⟨rfl, rfl⟩

/-- A writer finishes, or ends without a loss, only when its channel is closed and empty. -/
theorem Writer.Settled.step {closed : Prop} {w w' : Writer τ App} {queue queue' : List PartitionBatch}
    {t t' : τ} (h : w.Settled closed queue) (hstep : Writer.Step F closed w queue t w' queue' t') :
  w'.Settled closed queue'
  := by
  cases hstep with
  | @receive _ _ _ _ _ batch =>
    cases batch <;> trivial
  | close hclosed => exact ⟨hclosed, rfl⟩
  | append _ => trivial
  | @appended _ _ rest =>
    cases rest <;> trivial
  | appendFails =>
    left
    simp
  | finish _ => apply h
  | finished =>
    right
    apply h
  | finishFails =>
    right
    apply h

/-- A writer stays settled when its channel is closed. -/
theorem Writer.Settled.mono {closed closed' : Prop} {w : Writer τ App} {queue : List PartitionBatch}
    (h : w.Settled closed queue) (hclosed : closed → closed') :
  w.Settled closed' queue
  := by
  rw [Writer.Settled] at h ⊢
  split
  · trivial
  · trivial
  · next hstate =>
    rw [hstate] at h
    exact ⟨hclosed h.1, h.2⟩
  · next hstate =>
    rw [hstate] at h
    exact h.imp_right fun h => ⟨hclosed h.1, h.2⟩

/-- A writer of a channel that is open has ended only with a loss, and does not finish. -/
theorem Writer.Settled.of_not_closed {closed closed' : Prop} {w : Writer τ App}
    {queue queue' : List PartitionBatch} (h : w.Settled closed queue) (hopen : ¬ closed) :
  w.Settled closed' queue'
  := by
  rw [Writer.Settled] at h ⊢
  split
  · trivial
  · trivial
  · next hstate =>
    rw [hstate] at h
    exact absurd h.1 hopen
  · next hstate =>
    rw [hstate] at h
    left
    apply h.resolve_right fun h => hopen h.1

theorem Writer.Step.not_ended {closed : Prop} {w w' : Writer τ App} {queue queue' : List PartitionBatch}
    {t t' : τ} (hstep : Writer.Step F closed w queue t w' queue' t') (r : Except Error PartitionStats) :
  w.state ≠ .ended r
  := by
  cases hstep <;> simp

theorem Producer.Step.not_ended {cfg : Config} {i : Nat} {hungUp room : Nat → Prop}
    {producer producer' : Producer} {batch : Option (Nat × PartitionBatch)}
    (hstep : Producer.Step F cfg i hungUp room producer batch producer') (r : Except Error Fanout) :
  producer.state ≠ .ended r
  := by
  cases hstep <;> simp

/-- A batch that is sent arrives behind those before it. -/
theorem arrived_sent {w : Writer τ App} {channels : Nat → List PartitionBatch} {p : Nat}
    {batch : Option (Nat × PartitionBatch)} :
  arrived w (Scatter.sent channels batch p) = arrived w (channels p) ++ sentTo p batch
  := by
  cases batch with
  | none => simp [Scatter.sent, sentTo]
  | some b =>
    obtain ⟨q, b⟩ := b
    simp only [Scatter.sent, sentTo]
    by_cases h : p = q
    · subst h
      simp [arrived]
    · simp [h]

end


end Loader
