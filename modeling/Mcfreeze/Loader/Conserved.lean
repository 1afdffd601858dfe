import Mcfreeze.Loader.Schedule
import Mcfreeze.V4.Builder

/-!
# Conservation of records

Whatever the order of the steps is, what the sources hand over and what the partitions
append stay in balance: every record has been appended, is in a channel or in the hands of
a writer, or is still to be sent, unless a writer has failed.  When the scatter phase
returns a result, everything has been appended.
-/

open Format Crash

namespace Loader

/-! ### The phase as a whole -/

namespace Scatter

section

variable {σ τ App : Type} {sources : Nat → Source} {c c' : Scatter σ τ App} {s s' : σ}

/-- A writer has failed with records in hand. -/
def Broken (c : Scatter σ τ App) : Prop :=
  ∃ p < c.builder.n, (c.writers p).lost ≠ []

/-- The records of source `i` that are handed over for partition `p`. -/
abbrev due (sources : Nat → Source) (c : Scatter σ τ App) (i p : Nat) : List Record :=
  routed c.builder i p ((sources i).handed c.config.maxValueBytes)

/-- Every record that is handed over has arrived at its partition, in order, or is still
to be sent. -/
def Conserved (sources : Nat → Source) (c : Scatter σ τ App) : Prop :=
  ∀ p < c.builder.n, ∀ i < c.nSources,
    (arrived (c.writers p) (c.channels p)).filter (fun r => r.origin = i)
      ++ (c.producers i).unsent c.builder c.config i p = due sources c i p

/-- The main task has collected the fan-outs. -/
def Collected (c : Scatter σ τ App) (fanouts : List Fanout) : Prop :=
  ∀ j f, fanouts[j]? = some f → (c.producers j).state = .ended (.ok f)

/-- The main task has joined the writers. -/
def Joined (c : Scatter σ τ App) (stats : List PartitionStats) : Prop :=
  ∀ j st, stats[j]? = some st → (c.writers j).state = .ended (.ok st)

/-- All producers have ended well; `dataBytes` is what they have counted. -/
def AllCollected (c : Scatter σ τ App) (dataBytes : Nat) : Prop :=
  ∃ fanouts : List Fanout, fanouts.length = c.nSources ∧ c.Collected fanouts
    ∧ dataBytes = (fanouts.map (·.dataBytes)).sum

/-- What the main task knows. -/
def MainOk (c : Scatter σ τ App) (s : σ) : Prop :=
  match c.main with
  | .collecting fanouts => fanouts.length ≤ c.nSources ∧ c.Collected fanouts
  | .joining dataBytes stats =>
    c.AllCollected dataBytes ∧ stats.length ≤ c.builder.n ∧ c.Joined stats
  | .ended (.ok st) => ∃ dataBytes stats, c.AllCollected dataBytes ∧ stats.length = c.builder.n
      ∧ c.Joined stats ∧ st = ⟨(scatterDoneOf c.builder dataBytes stats).nKeys, dataBytes⟩
      ∧ c.builder.root.scatterDone s = some (scatterDoneOf c.builder dataBytes stats)
  | .ended (.error _) => True

/-- The invariant of the phase. -/
structure Inv (sources : Nat → Source) (c : Scatter σ τ App) (s : σ) : Prop where
  producers : ∀ i < c.nSources, (c.producers i).Ok c.builder c.config i (sources i)
  writers : ∀ p < c.builder.n, (c.writers p).Ok
  settled : ∀ p < c.builder.n, (c.writers p).Settled c.Closed (c.channels p)
  genuine : ∀ p < c.builder.n, ∀ r ∈ arrived (c.writers p) (c.channels p) ++ (c.writers p).lost,
    ∃ i < c.nSources, r ∈ due sources c i p
  conserved : c.Broken ∨ Conserved sources c
  main : c.MainOk s

/-- The records that a producer has routed are all its own. -/
theorem filter_origin {F : FormatBuilder σ τ App} {i j p : Nat} {kvs : List Pair} {rs : List Record}
    (h : ∀ r ∈ rs, r ∈ routed F i p kvs) :
  rs.filter (fun r => r.origin = j) = if j = i then rs else []
  := by
  split
  · next hj =>
    rw [List.filter_eq_self]
    intro r hr
    simpa [hj] using (mem_routed (h r hr)).1
  · next hj =>
    rw [List.filter_eq_nil_iff]
    intro r hr
    have horigin := (mem_routed (h r hr)).1
    simpa [horigin] using Ne.symm hj

/-- What the main task knows stays true while it does nothing: producers and writers that
have ended stay ended, and they do not write the sentinel. -/
theorem MainOk.mono (h : c.MainOk s) (hbuilder : c'.builder = c.builder)
    (hnSources : c'.nSources = c.nSources) (hmain : c'.main = c.main)
    (hcollected : ∀ fanouts, c.Collected fanouts → c'.Collected fanouts)
    (hjoined : ∀ stats, c.Joined stats → c'.Joined stats)
    (hdone : c.builder.root.scatterDone s' = c.builder.root.scatterDone s) :
  c'.MainOk s'
  := by
  have hall : ∀ dataBytes, c.AllCollected dataBytes → c'.AllCollected dataBytes := by
    rintro dataBytes ⟨fanouts, hlength, hf, hsum⟩
    rw [← hnSources] at hlength
    exact ⟨fanouts, hlength, hcollected fanouts hf, hsum⟩
  rw [MainOk] at h ⊢
  rw [hmain, hbuilder, hnSources]
  split
  · next hm =>
    rw [hm] at h
    exact ⟨h.1, hcollected _ h.2⟩
  · next hm =>
    rw [hm] at h
    exact ⟨hall _ h.1, h.2.1, hjoined _ h.2.2⟩
  · next hm =>
    rw [hm] at h
    obtain ⟨dataBytes, stats, hdata, hlength, hst, heq, hsome⟩ := h
    rw [← hdone] at hsome
    exact ⟨dataBytes, stats, hall _ hdata, hlength, hjoined _ hst, heq, hsome⟩
  · trivial

/-- The step of a producer. -/
theorem Inv.produce (h : Inv sources c s) {i : Nat} (hi : i < c.nSources) {producer : Producer}
    {batch : Option (Nat × PartitionBatch)}
    (hstep : Producer.Step c.builder c.config i c.HungUp c.Room (c.producers i) batch producer) :
  Inv sources { c with
    producers := Function.update c.producers i producer
    channels := sent c.channels batch } s
  := by
  have hok := h.producers i hi
  have hopen : ¬ c.Closed := by
    rintro ⟨-, hended⟩
    obtain ⟨r, hr⟩ := hended i hi
    exact hstep.not_ended r hr
  refine ⟨?_, h.writers, ?_, ?_, ?_, ?_⟩
  · intro j hj
    dsimp only
    by_cases hji : j = i
    · subst hji
      rw [Function.update_self]
      apply hok.step hstep
    · rw [Function.update_of_ne hji]
      apply h.producers j hj
  · intro p hp
    apply (h.settled p hp).of_not_closed hopen
  · intro p hp r hr
    dsimp only at hr
    rw [arrived_sent, List.append_assoc, List.mem_append, List.mem_append] at hr
    rcases hr with hr | hr | hr
    · apply h.genuine p hp r (List.mem_append_left _ hr)
    · exact ⟨i, hi, hstep.genuine hok p r hr⟩
    · apply h.genuine p hp r (List.mem_append_right _ hr)
  · rcases h.conserved with hbroken | hcons
    · left
      apply hbroken
    rcases hstep.conserves hok with ⟨q, hq, ⟨r, hr⟩, -⟩ | hmoved
    · left
      have hsettled := h.settled q hq
      rw [Writer.Settled, hr] at hsettled
      exact ⟨q, hq, hsettled.resolve_right fun h => hopen h.1⟩
    · right
      intro p hp j hj
      dsimp only
      rw [arrived_sent, List.filter_append, filter_origin (hstep.genuine hok p)]
      by_cases hji : j = i
      · subst hji
        rw [if_pos rfl, Function.update_self, List.append_assoc, hmoved p hp]
        apply hcons p hp j hj
      · rw [if_neg hji, Function.update_of_ne hji, List.append_nil]
        apply hcons p hp j hj
  · refine MainOk.mono h.main rfl rfl rfl ?_ (fun _ hst => hst) rfl
    intro fanouts hf j f hj
    have hstate := hf j f hj
    dsimp only
    by_cases hji : j = i
    · subst hji
      exact absurd hstate (hstep.not_ended _)
    · rw [Function.update_of_ne hji]
      apply hstate

/-- The step of a writer. -/
theorem Inv.write (h : Inv sources c s) {p : Nat} (hp : p < c.builder.n) {writer : Writer τ App}
    {queue : List PartitionBatch} {t : τ}
    (hstep : Writer.Step c.builder c.Closed (c.writers p) (c.channels p) (c.builder.part p s)
      writer queue t) :
  Inv sources { c with
    writers := Function.update c.writers p writer
    channels := Function.update c.channels p queue }
    (c.builder.root.parts.put (c.builder.dirOf p) t s)
  := by
  have hlost : (c.writers p).lost = [] := by
    by_contra hne
    obtain ⟨e, he⟩ := (h.writers p hp).lost hne
    exact hstep.not_ended _ he
  refine ⟨h.producers, ?_, ?_, ?_, ?_, ?_⟩
  · intro q hq
    dsimp only
    by_cases hqp : q = p
    · subst hqp
      rw [Function.update_self]
      apply (h.writers q hq).step hstep
    · rw [Function.update_of_ne hqp]
      apply h.writers q hq
  · intro q hq
    dsimp only
    by_cases hqp : q = p
    · subst hqp
      rw [Function.update_self, Function.update_self]
      apply (h.settled q hq).step hstep
    · rw [Function.update_of_ne hqp, Function.update_of_ne hqp]
      apply h.settled q hq
  · intro q hq r hr
    dsimp only at hr
    by_cases hqp : q = p
    · subst hqp
      rw [Function.update_self, Function.update_self] at hr
      apply h.genuine q hq
      rcases hstep.conserves with ⟨⟨-, hmem⟩, hlog, harr⟩ | ⟨hsame, harr⟩
      · rw [harr] at hr
        rcases List.mem_append.mp hr with hr | hr
        · exact List.mem_append_left _ (List.mem_append_left _ hr)
        · exact List.mem_append_left _ (hmem r hr)
      · rwa [harr, hsame] at hr
    · rw [Function.update_of_ne hqp, Function.update_of_ne hqp] at hr
      apply h.genuine q hq r hr
  · rcases h.conserved with ⟨q, hq, hne⟩ | hcons
    · left
      refine ⟨q, hq, ?_⟩
      have hqp : q ≠ p := by
        intro heq
        rw [heq] at hne
        exact hne hlost
      dsimp only
      rw [Function.update_of_ne hqp]
      apply hne
    rcases hstep.conserves with ⟨⟨hne, -⟩, -⟩ | ⟨-, harr⟩
    · left
      refine ⟨p, hp, ?_⟩
      dsimp only
      rw [Function.update_self]
      apply hne
    · right
      intro q hq i hi
      dsimp only
      by_cases hqp : q = p
      · subst hqp
        rw [Function.update_self, Function.update_self, harr]
        apply hcons q hq i hi
      · rw [Function.update_of_ne hqp, Function.update_of_ne hqp]
        apply hcons q hq i hi
  · refine MainOk.mono h.main rfl rfl rfl (fun _ hf => hf) ?_ (c.builder.root.scatterDone_put _ _ _)
    intro stats hst j st hj
    have hstate := hst j st hj
    dsimp only
    by_cases hjp : j = p
    · subst hjp
      exact absurd hstate (hstep.not_ended _)
    · rw [Function.update_of_ne hjp]
      apply hstate

theorem Closed.await (h : c.Closed) {main : Main} (hstep : MainStep c c.main s main s') :
  Closed { c with main := main }
  := by
  refine ⟨?_, h.2⟩
  rintro fanouts rfl
  generalize hm : c.main = m at hstep
  cases hstep with
  | collect => exact h.1 _ hm

/-- An element of a list with one more is an old one or the new one. -/
theorem getElem?_concat {α : Type} {l : List α} {a b : α} {j : Nat} (h : (l ++ [a])[j]? = some b) :
  l[j]? = some b ∨ j = l.length ∧ a = b
  := by
  rcases Nat.lt_trichotomy j l.length with hj | hj | hj
  · rw [List.getElem?_append_left hj] at h
    left
    apply h
  · right
    subst hj
    rw [List.getElem?_concat_length] at h
    exact ⟨rfl, Option.some.inj h⟩
  · rw [List.getElem?_eq_none (by rw [List.length_append, List.length_singleton]; omega)] at h
    simp at h

/-- The step of the main task. -/
theorem Inv.await (h : Inv sources c s) {main : Main} (hstep : MainStep c c.main s main s') :
  Inv sources { c with main := main } s'
  := by
  refine ⟨h.producers, h.writers, ?_, h.genuine, h.conserved, ?_⟩
  · intro p hp
    apply (h.settled p hp).mono fun hclosed => hclosed.await hstep
  · have hmain := h.main
    rw [MainOk] at hmain ⊢
    generalize hm : c.main = m at hstep hmain
    cases hstep with
    | @collect fanouts f s hlt hf =>
      refine ⟨by rw [List.length_append, List.length_singleton]; exact hlt, ?_⟩
      intro j g hj
      rcases getElem?_concat hj with hj | ⟨rfl, rfl⟩
      · apply hmain.2 j g hj
      · apply hf
    | collectFails => trivial
    | @dropSenders fanouts s hlen =>
      refine ⟨⟨fanouts, hlen, hmain.2, rfl⟩, Nat.zero_le _, ?_⟩
      intro j st hj
      simp at hj
    | @join dataBytes stats st s hlt hst =>
      refine ⟨hmain.1, by rw [List.length_append, List.length_singleton]; exact hlt, ?_⟩
      intro j st' hj
      rcases getElem?_concat hj with hj | ⟨rfl, rfl⟩
      · apply hmain.2.2 j st' hj
      · apply hst
    | joinFails => trivial
    | @publish dataBytes stats s hlen =>
      exact ⟨dataBytes, stats, hmain.1, hlen, hmain.2.2, rfl, c.builder.root.scatterDone_set _ _⟩
    | publishFails => trivial

/-- The invariant holds at the start. -/
theorem inv_start (F : FormatBuilder σ τ App) (cfg : Config) (sources : List Source)
    (appenders : Nat → App) (s : σ) :
  Inv (sourceOf sources) (start F cfg sources appenders) s
  := by
  refine ⟨?_, ?_, ?_, ?_, .inr ?_, ?_⟩
  · intro i _
    apply Producer.ok_start
  · intro p _
    refine ⟨rfl, rfl, ?_, ?_⟩
    · rintro _ ⟨⟩
    · intro hne
      exact absurd rfl hne
  · intro p _
    trivial
  · intro p _ r hr
    simp [start, arrived, Writer.inHand] at hr
  · intro p _ i _
    simp [start, arrived, Writer.inHand, Producer.unsent, Fanout.new, due]
  · refine ⟨Nat.zero_le _, ?_⟩
    intro j f hj
    simp at hj

/-- Every step keeps the invariant. -/
theorem Inv.step (h : Inv sources c s) (hstep : Step c s c' s') :
  Inv sources c' s'
  := by
  cases hstep with
  | produce hi hstep => apply h.produce hi hstep
  | write hp hstep => apply h.write hp hstep
  | await hstep => apply h.await hstep

theorem Inv.steps (h : Inv sources c s) (hsteps : (phases σ τ App).Steps c s c' s') :
  Inv sources c' s'
  := by
  induction hsteps with
  | refl => apply h
  | head hstep _ ih => apply ih (h.step hstep)

/-- The parameters of the phase do not change. -/
theorem Step.same (hstep : Step c s c' s') :
  c'.builder = c.builder ∧ c'.config = c.config ∧ c'.nSources = c.nSources
  := by
  cases hstep <;> exact ⟨rfl, rfl, rfl⟩

theorem steps_same (hsteps : (phases σ τ App).Steps c s c' s') :
  c'.builder = c.builder ∧ c'.config = c.config ∧ c'.nSources = c.nSources
  := by
  induction hsteps with
  | refl => exact ⟨rfl, rfl, rfl⟩
  | head hstep _ ih =>
    obtain ⟨hb, hc, hn⟩ := Step.same hstep
    obtain ⟨hb', hc', hn'⟩ := ih
    exact ⟨hb'.trans hb, hc'.trans hc, hn'.trans hn⟩

/-- When every writer has ended well, everything that was handed over has been appended. -/
theorem Inv.filter_log (h : Inv sources c s)
    (hended : ∀ p < c.builder.n, ∃ st, (c.writers p).state = .ended (.ok st)) :
  ∀ p < c.builder.n, ∀ i < c.nSources,
    (c.writers p).log.filter (fun r => r.origin = i) = due sources c i p
  := by
  have hlost : ∀ p < c.builder.n, (c.writers p).lost = [] := by
    intro p hp
    obtain ⟨st, hst⟩ := hended p hp
    apply ((h.writers p hp).stats st hst).2
  intro p hp i hi
  obtain ⟨st, hst⟩ := hended p hp
  have hsettled := h.settled p hp
  rw [Writer.Settled, hst] at hsettled
  obtain ⟨hclosed, hqueue⟩ := hsettled.resolve_left fun hne => hne (hlost p hp)
  obtain ⟨r, hr⟩ := hclosed.2 i hi
  have hcons := h.conserved.resolve_left (by
    rintro ⟨q, hq, hne⟩
    apply hne (hlost q hq)) p hp i hi
  rw [hqueue] at hcons
  simpa [arrived, Writer.inHand, hst, Producer.unsent, hr] using hcons

/-- A source whose producer has ended well has handed over all its pairs. -/
theorem Inv.handed_eq (h : Inv sources c s) {i : Nat} (hi : i < c.nSources) {f : Fanout}
    (hf : (c.producers i).state = .ended (.ok f)) :
  (sources i).handed c.config.maxValueBytes = (sources i).pairs
    ∧ f.dataBytes = valueBytes (sources i).pairs
  := by
  obtain ⟨before, hhanded, hpairs, hbytes⟩ := (h.producers i hi).progress
  rw [(h.producers i hi).exhausted f hf] at hhanded hpairs
  rw [Source.handed, List.append_nil] at hhanded
  rw [Source.pairs, List.append_nil] at hpairs
  refine ⟨hhanded.trans hpairs.symm, ?_⟩
  rw [hpairs]
  apply hbytes
  rw [Producer.fanout, hf]

end

section

variable {σ τ App : Type} (F : FormatBuilder σ τ App)

/-- The records of all sources. -/
def records (sources : List Source) : List Record :=
  (List.range sources.length).flatMap fun i => (sourceOf sources i).pairs.map (recordOf F i)

/-- The records that were appended, over all partitions. -/
def appended (c : Scatter σ τ App) : List Record :=
  (List.range c.builder.n).flatMap fun p => (c.writers p).log

variable {F}

/-- A partition whose log has the records of each source in order has a permutation of the
records that belong to it. -/
theorem log_perm {sources : List Source} {p : Nat} {log : List Record}
    (horigin : ∀ r ∈ log, r.origin < sources.length)
    (h : ∀ i < sources.length,
      log.filter (fun r => r.origin = i) = routed F i p (sourceOf sources i).pairs) :
  log.Perm ((records F sources).filter fun r => F.layout.partitionOf r.fp = p)
  := by
  have hsplit := List.flatMap_range_filter_perm Record.origin log sources.length
  have hself : (log.filter fun r => r.origin < sources.length) = log := by
    rw [List.filter_eq_self]
    intro r hr
    simpa using horigin r hr
  have hrecords : (List.range sources.length).flatMap (fun i => log.filter fun r => r.origin = i)
      = (records F sources).filter fun r => F.layout.partitionOf r.fp = p := by
    rw [records, List.filter_flatMap]
    apply List.flatMap_congr
    intro i hi
    rw [h i (List.mem_range.mp hi), routed, pairsOf, List.filter_map]
    rfl
  rw [hself, hrecords] at hsplit
  apply hsplit.symm

/-- The logs together are a permutation of the records of all sources. -/
theorem flatMap_perm_records {sources : List Source} {log : Nat → List Record}
    (h : ∀ p < F.n, (log p).Perm ((records F sources).filter fun r => F.layout.partitionOf r.fp = p)) :
  ((List.range F.n).flatMap log).Perm (records F sources)
  := by
  have hall : ((records F sources).filter fun r => F.layout.partitionOf r.fp < F.n) = records F sources := by
    rw [List.filter_eq_self]
    intro r _
    simpa using F.layout.partitionOf_lt r.fp
  have hsplit := List.flatMap_range_filter_perm (fun r : Record => F.layout.partitionOf r.fp)
    (records F sources) F.n
  rw [hall] at hsplit
  apply List.Perm.trans _ hsplit
  apply List.Perm.flatMap_left
  intro p hp
  apply h p (List.mem_range.mp hp)

theorem map_sourceOf (sources : List Source) :
  (List.range sources.length).map (sourceOf sources) = sources
  := by
  apply List.ext_getElem
  · simp
  · intro i _ hi
    simp [sourceOf, hi]

theorem flatMap_sourceOf {β : Type} (sources : List Source) (g : Source → List β) :
  (List.range sources.length).flatMap (fun i => g (sourceOf sources i)) = sources.flatMap g
  := by
  conv_rhs => rw [← map_sourceOf sources]
  rw [List.flatMap_map]

theorem valueBytes_flatMap {α : Type} (l : List α) (f : α → List Pair) :
  valueBytes (l.flatMap f) = (l.map fun a => valueBytes (f a)).sum
  := by
  induction l with
  | nil => rfl
  | cons a l ih =>
    rw [List.flatMap_cons, List.map_cons, List.sum_cons, ← ih]
    simp only [valueBytes, List.map_append, List.sum_append]

/-- The records of the sources are their pairs. -/
theorem map_records {β : Type} (g : Record → β) (g' : Pair → β) (sources : List Source)
    (hg : ∀ i kv, g (recordOf F i kv) = g' kv) :
  (records F sources).map g = (sources.flatMap Source.pairs).map g'
  := by
  rw [← flatMap_sourceOf, records, List.map_flatMap, List.map_flatMap]
  apply List.flatMap_congr
  intro i _
  rw [List.map_map]
  apply List.map_congr_left
  intro kv _
  apply hg

theorem fp_of_mem_records {sources : List Source} {r : Record} (h : r ∈ records F sources) :
  r.fp = fingerprint F.hash r.key
  := by
  obtain ⟨i, -, hr⟩ := List.mem_flatMap.mp h
  obtain ⟨kv, -, rfl⟩ := List.mem_map.mp hr
  rfl

/-- The records of a partition are its pairs. -/
theorem map_filter_records (F : FormatBuilder σ τ App) (sources : List Source) (p : Nat) :
  ((records F sources).filter fun r => F.layout.partitionOf r.fp = p).map (fun r => (r.key, r.value))
    = pairsOf F.hash F.layout (sources.flatMap Source.pairs) p
  := by
  have hpairs := map_records (F := F) (fun r => (r.key, r.value)) id sources fun _ _ => rfl
  rw [List.map_id] at hpairs
  rw [pairsOf, ← hpairs, List.filter_map]
  congr 1
  apply List.filter_congr
  intro r hr
  rw [fp_of_mem_records hr]
  rfl

/-- The main task that has ended well has joined every writer and collected every
fan-out. -/
theorem Inv.of_main_ok {sources : Nat → Source} {c : Scatter σ τ App} {s : σ} {st : ScatterStats}
    (h : Inv sources c s) (hok : c.main = .ended (.ok st)) :
  (∀ p < c.builder.n, ∃ st, (c.writers p).state = .ended (.ok st))
    ∧ (∀ i < c.nSources, (sources i).handed c.config.maxValueBytes = (sources i).pairs)
    ∧ st.dataBytes = ((List.range c.nSources).map fun i => valueBytes (sources i).pairs).sum
    ∧ c.builder.root.scatterDone s = some
      (scatterDoneOf c.builder st.dataBytes
        ((List.range c.builder.n).map fun p => ⟨(c.writers p).log.length, (c.writers p).sumBytes⟩))
    ∧ st.nKeys = ((List.range c.builder.n).map fun p => (c.writers p).log.length).sum
  := by
  have hmain := h.main
  rw [MainOk, hok] at hmain
  obtain ⟨dataBytes, stats, ⟨fanouts, hlen, hcollected, hsum⟩, hstats, hjoined, rfl, hdone⟩ := hmain
  have hfan : ∀ i < c.nSources, ∃ f, fanouts[i]? = some f ∧ (c.producers i).state = .ended (.ok f) := by
    intro i hi
    have hget := List.getElem?_eq_getElem (l := fanouts) (by rwa [hlen])
    exact ⟨_, hget, hcollected i _ hget⟩
  have hst : ∀ p < c.builder.n, stats[p]? = some ⟨(c.writers p).log.length, (c.writers p).sumBytes⟩
      ∧ ∃ st, (c.writers p).state = .ended (.ok st) := by
    intro p hp
    have hget := List.getElem?_eq_getElem (l := stats) (by rwa [hstats])
    have hstate := hjoined p _ hget
    have heq := ((h.writers p hp).stats _ hstate).1
    rw [(h.writers p hp).nKeys] at heq
    exact ⟨by rw [hget, heq], _, hstate⟩
  have hstatsEq : stats
      = (List.range c.builder.n).map fun p => ⟨(c.writers p).log.length, (c.writers p).sumBytes⟩ := by
    apply List.ext_getElem?
    intro p
    by_cases hp : p < c.builder.n
    · rw [(hst p hp).1]
      simp [hp]
    · rw [List.getElem?_eq_none (by omega), List.getElem?_eq_none (by simpa using hp)]
  have hbytes : fanouts.map (·.dataBytes)
      = (List.range c.nSources).map fun i => valueBytes (sources i).pairs := by
    apply List.ext_getElem?
    intro i
    by_cases hi : i < c.nSources
    · obtain ⟨f, hf, hstate⟩ := hfan i hi
      simp [hf, hi, (h.handed_eq hi hstate).2]
    · rw [List.getElem?_eq_none (by simp; omega), List.getElem?_eq_none (by simpa using hi)]
  refine ⟨fun p hp => (hst p hp).2, ?_, ?_, ?_, ?_⟩
  · intro i hi
    obtain ⟨f, -, hstate⟩ := hfan i hi
    apply (h.handed_eq hi hstate).1
  · rw [hsum, hbytes]
  · rw [hdone, hstatsEq]
  · rw [hstatsEq, scatterDoneOf]
    simp only [List.map_map]
    rfl

/-- Scatter conserves records.  When it returns a result, the partitions have appended
exactly the records of the sources, each to its partition and those of one source in the
order of the source, and the counts are right. -/
theorem conserves_records {cfg : Config} {sources : List Source} {appenders : Nat → App} {s₀ s : σ}
    {c : Scatter σ τ App} {st : ScatterStats}
    (hrun : (phases σ τ App).Steps (start F cfg sources appenders) s₀ c s)
    (hok : c.main = .ended (.ok st)) :
  ((appended c).map fun r => (r.key, r.fp, r.value)).Perm
      ((sources.flatMap Source.pairs).map fun kv => (kv.1, fingerprint F.hash kv.1, kv.2))
    ∧ (∀ p < F.n, ∀ r ∈ (c.writers p).log, F.layout.partitionOf (fingerprint F.hash r.key) = p)
    ∧ (∀ i < sources.length, ∀ p < F.n,
      (c.writers p).log.filter (fun r => r.origin = i) = routed F i p (sourceOf sources i).pairs)
    ∧ st = ⟨(sources.flatMap Source.pairs).length, valueBytes (sources.flatMap Source.pairs)⟩
    ∧ F.root.scatterDone s = some
      { format := F.format
        nKeys := st.nKeys
        nPartitions := F.n
        dataBytes := st.dataBytes
        partitions := (List.range F.n).map fun p =>
          (pairsOf F.hash F.layout (sources.flatMap Source.pairs) p).length }
  := by
  obtain ⟨hbuilder, hconfig, hnSources⟩ := steps_same hrun
  have hinv := (inv_start F cfg sources appenders s₀).steps hrun
  obtain ⟨builder, config, nSources, producers, channels, writers, main⟩ := c
  obtain rfl : builder = F := hbuilder
  obtain rfl : config = cfg := hconfig
  obtain rfl : nSources = sources.length := hnSources
  obtain ⟨hended, hhanded, hbytes, hdone, hkeys⟩ := hinv.of_main_ok hok
  have hfilter : ∀ p < builder.n, ∀ i < sources.length,
      (writers p).log.filter (fun r => r.origin = i) = routed builder i p (sourceOf sources i).pairs := by
    intro p hp i hi
    rw [← hhanded i hi]
    apply hinv.filter_log hended p hp i hi
  have hgenuine : ∀ p < builder.n, ∀ r ∈ (writers p).log,
      ∃ i < sources.length, r ∈ routed builder i p (sourceOf sources i).pairs := by
    intro p hp r hr
    obtain ⟨i, hi, hmem⟩ := hinv.genuine p hp r (List.mem_append_left _ (List.mem_append_left _ hr))
    rw [due, hhanded i hi] at hmem
    exact ⟨i, hi, hmem⟩
  have hperm : ∀ p < builder.n, (writers p).log.Perm
      ((records builder sources).filter fun r => builder.layout.partitionOf r.fp = p) := by
    intro p hp
    apply log_perm _ (hfilter p hp)
    intro r hr
    obtain ⟨i, hi, hmem⟩ := hgenuine p hp r hr
    rw [(mem_routed hmem).1]
    apply hi
  have hlen : ∀ p < builder.n, (writers p).log.length
      = (pairsOf builder.hash builder.layout (sources.flatMap Source.pairs) p).length := by
    intro p hp
    rw [(hperm p hp).length_eq, ← map_filter_records, List.length_map]
  have hall : ((List.range builder.n).flatMap fun p => (writers p).log).Perm (records builder sources) :=
    flatMap_perm_records hperm
  refine ⟨?_, ?_, fun i hi p hp => hfilter p hp i hi, ?_, ?_⟩
  · rw [← map_records (F := builder) (fun r => (r.key, r.fp, r.value)) _ sources fun _ _ => rfl]
    apply hall.map
  · intro p hp r hr
    obtain ⟨i, hi, hmem⟩ := hgenuine p hp r hr
    obtain ⟨-, hfp, hpart, -⟩ := mem_routed hmem
    rw [← hfp, hpart]
  · obtain ⟨nKeys, dataBytes⟩ := st
    have hcount : nKeys = (sources.flatMap Source.pairs).length := by
      have hmap := map_records (F := builder) (fun r => (r.key, r.value)) id sources fun _ _ => rfl
      rw [List.map_id] at hmap
      rw [← hmap, List.length_map, ← hall.length_eq, List.length_flatMap]
      apply hkeys
    have hsum : dataBytes = valueBytes (sources.flatMap Source.pairs) := by
      rw [← flatMap_sourceOf, valueBytes_flatMap]
      apply hbytes
    rw [hcount, hsum]
  · have hpartitions : (List.range builder.n).map (fun p => (writers p).log.length)
        = (List.range builder.n).map fun p =>
          (pairsOf builder.hash builder.layout (sources.flatMap Source.pairs) p).length := by
      apply List.map_congr_left
      intro p hp
      apply hlen p (List.mem_range.mp hp)
    rw [hdone, scatterDoneOf]
    simp only [List.map_map, Function.comp_def]
    rw [hkeys, hpartitions]

end

/-- A V4 builder for two partitions. -/
def twoBuilder : FormatBuilder V4.Dir V4.PartDir V4.PartitionWriter :=
  V4.V4Builder.formatBuilder V4.xxHash ⟨.two, defaultVerifySeed⟩

/-- Two sources with three keys. -/
def threeKeys : List Source :=
  [[.ok [([0x61], [1])], .ok [([0x62], [2])]], [.ok [([0x63], [3, 3])]]]

/-- The directory after the appenders of two partitions are created. -/
def twoCreated : V4.Dir :=
  (List.range 2).foldl (fun d p => V4.partDirs.put (partitionDir 2 p) { data := some [], spill := some [] } d)
    V4.Dir.empty

/-- The appenders that have written nothing. -/
def newAppender : V4.PartitionWriter := ⟨[], 0, V4.spillHeader 0, 0⟩

/-- A run of the phase. -/
def threeScattered : Option (Scatter V4.Dir V4.PartDir V4.PartitionWriter × V4.Dir) :=
  run 3 100 (start twoBuilder ⟨1, 8⟩ threeKeys fun _ => newAppender) twoCreated

/-- What the main task returned. -/
def stats (c : Scatter V4.Dir V4.PartDir V4.PartitionWriter) : Option ScatterStats :=
  match c.main with
  | .ended (.ok st) => some st
  | _ => none

theorem conserves_records_three :
  ∃ c d, threeScattered = some (c, d) ∧ stats c = some ⟨3, 4⟩
    ∧ ((appended c).map fun r => (r.key, r.fp, r.value)).Perm
      ((threeKeys.flatMap Source.pairs).map fun kv => (kv.1, fingerprint V4.xxHash kv.1, kv.2))
  := by
  have hok : (threeScattered.map fun x => stats x.1) = some (some ⟨3, 4⟩) := by decide +kernel
  obtain ⟨⟨c, d⟩, hrun, hstats⟩ := Option.map_eq_some_iff.mp hok
  have hmain : c.main = .ended (.ok ⟨3, 4⟩) := by
    simp only [stats] at hstats
    split at hstats
    · next st hst => rw [hst, Option.some.inj hstats]
    · simp at hstats
  refine ⟨c, d, hrun, hstats, ?_⟩
  exact (conserves_records (run_schedules 3 100 _ _ _ _ hrun).1 hmain).1

end Scatter

end Loader
