import Mcfreeze.Loader.Scatter
import Mcfreeze.Lib.Exec

/-!
# A scheduler

One order of the steps of the scatter phase that can be computed: producers first, then
writers, then the main task, and no operation fails.  It is one of the orders that the
phase allows, so what it computes is reachable.
-/

open Format Crash

namespace Loader

variable {σ τ App : Type}

/-- The next step of a producer, if it can move. -/
def Producer.next (F : FormatBuilder σ τ App) (cfg : Config) (i : Nat) (hungUp room : Nat → Bool) :
    Producer → Option (Option (Nat × PartitionBatch) × Producer)
  | ⟨[], .fetching f⟩ => some (none, ⟨[], .ended (.ok f)⟩)
  | ⟨.error e :: rest, .fetching _⟩ => some (none, ⟨.error e :: rest, .ended (.error (.source e))⟩)
  | ⟨.ok batch :: rest, .fetching f⟩ =>
    match f.walk F cfg i batch with
    | .error e => some (none, ⟨.ok batch :: rest, .ended (.error e)⟩)
    | .ok f' => some (none, ⟨rest, .sending f' 0⟩)
  | ⟨source, .sending f idx⟩ =>
    if F.n ≤ idx then some (none, ⟨source, .fetching f⟩)
    else if (f.subBatches idx).isEmpty then some (none, ⟨source, .sending f (idx + 1)⟩)
    else if hungUp idx then
      some (none, ⟨source, .ended (.error (.io "partition writer task exited unexpectedly"))⟩)
    else if room idx then
      some (some (idx, f.subBatches idx),
        ⟨source, .sending { f with subBatches := Function.update f.subBatches idx [] } (idx + 1)⟩)
    else none
  | ⟨_, .ended _⟩ => none

/-- What a producer does next is a step of it. -/
theorem Producer.next_sound {F : FormatBuilder σ τ App} {cfg : Config} {i : Nat}
    {hungUp room : Nat → Bool} {producer producer' : Producer}
    {batch : Option (Nat × PartitionBatch)}
    (h : producer.next F cfg i hungUp room = some (batch, producer')) :
  Producer.Step F cfg i (fun p => hungUp p) (fun p => room p) producer batch producer'
  := by
  obtain ⟨source, state⟩ := producer
  cases state with
  | ended r => simp [Producer.next] at h
  | fetching f =>
    cases source with
    | nil =>
      obtain ⟨rfl, rfl⟩ := Prod.mk.inj (Option.some.inj h)
      apply Step.exhausted
    | cons x rest =>
      cases x with
      | error e =>
        obtain ⟨rfl, rfl⟩ := Prod.mk.inj (Option.some.inj h)
        apply Step.sourceFails
      | ok b =>
        rw [Producer.next] at h
        split at h
        · next hwalk =>
          obtain ⟨rfl, rfl⟩ := Prod.mk.inj (Option.some.inj h)
          apply Step.oversized hwalk
        · next hwalk =>
          obtain ⟨rfl, rfl⟩ := Prod.mk.inj (Option.some.inj h)
          apply Step.walked hwalk
  | sending f idx =>
    rw [Producer.next] at h
    split at h
    · next hidx =>
      obtain ⟨rfl, rfl⟩ := Prod.mk.inj (Option.some.inj h)
      apply Step.batchSent hidx
    next hidx =>
    have hlt : idx < F.n := Nat.lt_of_not_le hidx
    split at h
    · next hempty =>
      obtain ⟨rfl, rfl⟩ := Prod.mk.inj (Option.some.inj h)
      apply Step.skip hlt (List.isEmpty_iff.mp hempty)
    next hempty =>
    have hne : f.subBatches idx ≠ [] := fun heq => hempty (List.isEmpty_iff.mpr heq)
    split at h
    · next hhung =>
      obtain ⟨rfl, rfl⟩ := Prod.mk.inj (Option.some.inj h)
      apply Step.brokenPipe hlt hne hhung
    next hhung =>
    split at h
    · next hroom =>
      obtain ⟨rfl, rfl⟩ := Prod.mk.inj (Option.some.inj h)
      apply Step.send hlt hne hhung hroom
    · simp at h

/-- The next step of a task, where `k` is the number that is picked. -/
def nextOp {α : Type} (k : Nat) (t : τ) : Prog τ Error Empty α → Option (Prog τ Error Empty α × τ)
  | .op update next => some (next t, update t)
  | .choose next => some (next k, t)
  | _ => none

/-- The next operation of a task is a step of it. -/
theorem nextOp_sound {α : Type} {k : Nat} {t t' : τ} {task task' : Prog τ Error Empty α}
    (h : nextOp k t task = some (task', t')) :
  Prog.Step (.none τ) task t task' t'
  := by
  cases task with
  | done r => simp [nextOp] at h
  | phase c => exact c.elim
  | op update next =>
    obtain ⟨rfl, rfl⟩ := Prod.mk.inj (Option.some.inj h)
    apply Prog.Step.op
  | choose next =>
    obtain ⟨rfl, rfl⟩ := Prod.mk.inj (Option.some.inj h)
    apply Prog.Step.choose

/-- The next step of a writer, if it can move. -/
def Writer.next (F : FormatBuilder σ τ App) (closed : Bool) (k : Nat) (w : Writer τ App)
    (queue : List PartitionBatch) (t : τ) : Option (Writer τ App × List PartitionBatch × τ) :=
  match w.state, queue with
  | .receiving a, batch :: queue => some ({ w with state := beginBatch F a batch }, queue, t)
  | .receiving a, [] => if closed then some ({ w with state := .finishing (F.finish a) }, [], t) else none
  | .appending (.done (.ok a)) r rest, queue =>
    some (⟨beginBatch F a rest, w.nKeys + 1, w.sumBytes + r.value.length, w.log ++ [r], w.lost⟩, queue, t)
  | .appending (.done (.error e)) r rest, _ =>
    some (⟨.ended (.error e), w.nKeys, w.sumBytes, w.log, r :: rest⟩, [], t)
  | .appending task r rest, queue =>
    (nextOp k t task).map fun x => ({ w with state := .appending x.1 r rest }, queue, x.2)
  | .finishing (.done (.ok _)), queue =>
    some ({ w with state := .ended (.ok ⟨w.nKeys, w.sumBytes⟩) }, queue, t)
  | .finishing (.done (.error e)), queue => some ({ w with state := .ended (.error e) }, queue, t)
  | .finishing task, queue =>
    (nextOp k t task).map fun x => ({ w with state := .finishing x.1 }, queue, x.2)
  | .ended _, _ => none

/-- What a writer does next is a step of it. -/
theorem Writer.next_sound {F : FormatBuilder σ τ App} {closed : Bool} {k : Nat} {w w' : Writer τ App}
    {queue queue' : List PartitionBatch} {t t' : τ}
    (h : w.next F closed k queue t = some (w', queue', t')) :
  Writer.Step F closed w queue t w' queue' t'
  := by
  obtain ⟨state, n, b, log, lost⟩ := w
  cases state with
  | receiving a =>
    cases queue with
    | cons batch queue =>
      obtain ⟨rfl, rfl, rfl⟩ := by simpa [Writer.next] using h
      apply Step.receive
    | nil =>
      cases closed with
      | false => simp [Writer.next] at h
      | true =>
        obtain ⟨rfl, rfl, rfl⟩ := by simpa [Writer.next] using h
        apply Step.close rfl
  | appending task r rest =>
    cases task with
    | done result =>
      cases result with
      | ok a =>
        obtain ⟨rfl, rfl, rfl⟩ := by simpa [Writer.next] using h
        apply Step.appended
      | error e =>
        obtain ⟨rfl, rfl, rfl⟩ := by simpa [Writer.next] using h
        apply Step.appendFails
    | phase c => exact c.elim
    | _ =>
      obtain ⟨rfl, rfl, rfl⟩ := by simpa [Writer.next, nextOp] using h
      apply Step.append
      apply nextOp_sound (k := k)
      rfl
  | finishing task =>
    cases task with
    | done result =>
      cases result with
      | ok _ =>
        obtain ⟨rfl, rfl, rfl⟩ := by simpa [Writer.next] using h
        apply Step.finished
      | error e =>
        obtain ⟨rfl, rfl, rfl⟩ := by simpa [Writer.next] using h
        apply Step.finishFails
    | phase c => exact c.elim
    | _ =>
      obtain ⟨rfl, rfl, rfl⟩ := by simpa [Writer.next, nextOp] using h
      apply Step.finish
      apply nextOp_sound (k := k)
      rfl
  | ended r => simp [Writer.next] at h

namespace Scatter

/-! ### The phase -/

def producerEnded (c : Scatter σ τ App) (i : Nat) : Bool :=
  match (c.producers i).state with
  | .ended _ => true
  | _ => false

def hungUp (c : Scatter σ τ App) (p : Nat) : Bool :=
  match (c.writers p).state with
  | .ended _ => true
  | _ => false

def isClosed (c : Scatter σ τ App) : Bool :=
  match c.main with
  | .collecting _ => false
  | _ => (List.range c.nSources).all c.producerEnded

theorem producerEnded_iff {c : Scatter σ τ App} {i : Nat} :
  c.producerEnded i = true ↔ ∃ r, (c.producers i).state = .ended r
  := by
  rw [producerEnded]
  split
  · next r hr => simp [hr]
  · next hne => simpa using hne

theorem hungUp_iff {c : Scatter σ τ App} {p : Nat} :
  c.hungUp p = true ↔ c.HungUp p
  := by
  rw [hungUp, HungUp]
  split
  · next r hr => simp [hr]
  · next hne => simpa using hne

theorem isClosed_iff {c : Scatter σ τ App} :
  c.isClosed = true ↔ c.Closed
  := by
  rw [isClosed, Closed]
  split
  · next fanouts hm => simp [hm]
  · next hne => simpa [producerEnded_iff] using fun _ => hne

/-- The next step of the main task, if it can move. -/
def nextMain (c : Scatter σ τ App) (s : σ) : Option (Main × σ) :=
  match c.main with
  | .collecting fanouts =>
    if fanouts.length < c.nSources then
      match (c.producers fanouts.length).state with
      | .ended (.ok f) => some (.collecting (fanouts ++ [f]), s)
      | .ended (.error e) => some (.ended (.error e), s)
      | _ => none
    else if fanouts.length = c.nSources then
      some (.joining (fanouts.map (·.dataBytes)).sum [], s)
    else none
  | .joining dataBytes stats =>
    if stats.length < c.builder.n then
      match (c.writers stats.length).state with
      | .ended (.ok st) => some (.joining dataBytes (stats ++ [st]), s)
      | .ended (.error e) => some (.ended (.error e), s)
      | _ => none
    else if stats.length = c.builder.n then
      let done := scatterDoneOf c.builder dataBytes stats
      some (.ended (.ok ⟨done.nKeys, dataBytes⟩), c.builder.root.setScatterDone done s)
    else none
  | .ended _ => none

/-- What the main thread does next is a step of it. -/
theorem nextMain_sound {c : Scatter σ τ App} {s s' : σ} {main : Main} (h : c.nextMain s = some (main, s')) :
  MainStep c c.main s main s'
  := by
  rw [nextMain] at h
  split at h
  · next fanouts hm =>
    rw [hm]
    split at h
    · next hlt =>
      split at h
      · next f hf =>
        obtain ⟨rfl, rfl⟩ := Prod.mk.inj (Option.some.inj h)
        apply MainStep.collect hlt hf
      · next e he =>
        obtain ⟨rfl, rfl⟩ := Prod.mk.inj (Option.some.inj h)
        apply MainStep.collectFails hlt he
      · simp at h
    · split at h
      · next hlen =>
        obtain ⟨rfl, rfl⟩ := Prod.mk.inj (Option.some.inj h)
        apply MainStep.dropSenders hlen
      · simp at h
  · next dataBytes stats hm =>
    rw [hm]
    split at h
    · next hlt =>
      split at h
      · next st hst =>
        obtain ⟨rfl, rfl⟩ := Prod.mk.inj (Option.some.inj h)
        apply MainStep.join hlt hst
      · next e he =>
        obtain ⟨rfl, rfl⟩ := Prod.mk.inj (Option.some.inj h)
        apply MainStep.joinFails hlt he
      · simp at h
    · split at h
      · next hlen =>
        obtain ⟨rfl, rfl⟩ := Prod.mk.inj (Option.some.inj h)
        apply MainStep.publish hlen
      · simp at h
  · simp at h

/-- The next step of producer `i`. -/
def nextProduce (c : Scatter σ τ App) (s : σ) (i : Nat) : Option (Scatter σ τ App × σ) :=
  ((c.producers i).next c.builder c.config i c.hungUp
    fun p => (c.channels p).length < max c.config.channelCapacity 1).map fun x =>
      ({ c with
        producers := Function.update c.producers i x.2
        channels := sent c.channels x.1 }, s)

/-- The next step of writer `p`. -/
def nextWrite (k : Nat) (c : Scatter σ τ App) (s : σ) (p : Nat) : Option (Scatter σ τ App × σ) :=
  ((c.writers p).next c.builder c.isClosed k (c.channels p) (c.builder.part p s)).map fun x =>
    ({ c with
      writers := Function.update c.writers p x.1
      channels := Function.update c.channels p x.2.1 },
      c.builder.root.parts.put (c.builder.dirOf p) x.2.2 s)

/-- The next step of the phase: of the first producer that can move, or the first writer,
or the main task. -/
def next (k : Nat) (c : Scatter σ τ App) (s : σ) : Option (Scatter σ τ App × σ) :=
  match (List.range c.nSources).findSome? (c.nextProduce s) with
  | some x => some x
  | none =>
    match (List.range c.builder.n).findSome? (c.nextWrite k s) with
    | some x => some x
    | none => (c.nextMain s).map fun x => ({ c with main := x.1 }, x.2)

theorem nextProduce_sound {c c' : Scatter σ τ App} {s s' : σ} {i : Nat} (hi : i < c.nSources)
    (h : c.nextProduce s i = some (c', s')) :
  Step c s c' s'
  := by
  obtain ⟨⟨batch, producer⟩, hnext, heq⟩ := Option.map_eq_some_iff.mp h
  obtain ⟨rfl, rfl⟩ := Prod.mk.inj heq
  have hstep := Producer.next_sound hnext
  simp only [hungUp_iff, decide_eq_true_eq] at hstep
  exact Step.produce hi hstep

theorem nextWrite_sound {k : Nat} {c c' : Scatter σ τ App} {s s' : σ} {p : Nat} (hp : p < c.builder.n)
    (h : c.nextWrite k s p = some (c', s')) :
  Step c s c' s'
  := by
  obtain ⟨⟨writer, queue, t⟩, hnext, heq⟩ := Option.map_eq_some_iff.mp h
  obtain ⟨rfl, rfl⟩ := Prod.mk.inj heq
  have hstep := Writer.next_sound hnext
  simp only [isClosed_iff] at hstep
  exact Step.write hp hstep

/-- What the schedule does next is a step of the scatter. -/
theorem next_sound {k : Nat} {c c' : Scatter σ τ App} {s s' : σ} (h : c.next k s = some (c', s')) :
  Step c s c' s'
  := by
  rw [next] at h
  split at h
  · next x hx =>
    obtain ⟨i, hi, hnext⟩ := List.exists_of_findSome?_eq_some hx
    rw [h] at hnext
    apply nextProduce_sound (List.mem_range.mp hi) hnext
  · split at h
    · next x hx =>
      obtain ⟨p, hp, hnext⟩ := List.exists_of_findSome?_eq_some hx
      rw [h] at hnext
      apply nextWrite_sound (List.mem_range.mp hp) hnext
    · obtain ⟨⟨main, s''⟩, hnext, heq⟩ := Option.map_eq_some_iff.mp h
      obtain ⟨rfl, rfl⟩ := Prod.mk.inj heq
      apply Step.await (nextMain_sound hnext)

/-- All tasks have ended. -/
def isFinal (c : Scatter σ τ App) : Bool :=
  (match c.main with
    | .ended _ => true
    | _ => false)
    && (List.range c.nSources).all c.producerEnded && (List.range c.builder.n).all c.hungUp

/-- The test for a final state is right. -/
theorem final_of_isFinal {c : Scatter σ τ App} (h : c.isFinal = true) :
  c.Final
  := by
  rw [isFinal, Bool.and_eq_true, Bool.and_eq_true, List.all_eq_true, List.all_eq_true] at h
  obtain ⟨⟨hmain, hproducers⟩, hwriters⟩ := h
  refine ⟨?_, ?_, ?_⟩
  · split at hmain
    · next r hr => exact ⟨r, hr⟩
    · simp at hmain
  · intro i hi
    apply producerEnded_iff.mp (hproducers i (List.mem_range.mpr hi))
  · intro p hp
    apply hungUp_iff.mp (hwriters p (List.mem_range.mpr hp))

/-- Run the phase to its end, in at most `fuel` steps. -/
def run (k : Nat) : Nat → Scatter σ τ App → σ → Option (Scatter σ τ App × σ)
  | 0, _, _ => none
  | fuel + 1, c, s =>
    if c.isFinal then some (c, s)
    else
      match c.next k s with
      | none => none
      | some (c', s') => run k fuel c' s'

/-- The scheduler takes the phase to its end. -/
theorem run_schedules (k fuel : Nat) :
  (phases σ τ App).Schedules (run k fuel)
  := by
  induction fuel with
  | zero =>
    intro c s c' s' h
    simp [run] at h
  | succ fuel ih =>
    intro c s c' s' h
    rw [run] at h
    split at h
    · next hfinal =>
      obtain ⟨rfl, rfl⟩ := Prod.mk.inj (Option.some.inj h)
      exact ⟨.refl, final_of_isFinal hfinal⟩
    · split at h
      · simp at h
      · next c₁ s₁ hnext =>
        obtain ⟨hsteps, hfinal⟩ := ih _ _ _ _ h
        exact ⟨.head (next_sound hnext) hsteps, hfinal⟩

end Scatter

end Loader
