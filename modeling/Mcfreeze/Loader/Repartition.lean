import Mcfreeze.Loader.Killed
import Mcfreeze.Loader.Reload

/-!
# Loads with different partition counts

Loads of one set of records over one directory, each with a partition count of its own.
The directories of partitions of different counts can coincide, and no run compares its
count with what it finds: not with the count in `scatter.done`, and not with the files of
the partitions.  So a run with another count than the run before is right when it finds
nothing to take over.

A run with the count of the run before resumes it: in V5 always, in V4 unless it takes
spill files at their word that are not finished, or are gone.
-/

open Format Crash Files

namespace Loader

open V4 (V4Builder PartitionWriter)
open V5 (V5Builder V5Appender)

/-- A load of the records in `kvs`, with a partition count of its own. -/
structure LoadRun (kvs : List Pair) where
  layout : Layout
  count : layout.nPartitions < 2 ^ 32
  options : V5.V5Options
  args : LoadArgs
  records : (args.sources.flatMap Source.pairs).Perm kvs

/-- The sources of the run hand over all their records. -/
def LoadRun.Handed {kvs : List Pair} (run : LoadRun kvs) : Prop :=
  ∀ source ∈ run.args.sources, source.handed run.args.config.maxValueBytes = source.pairs

theorem LoadRun.pairsOf_perm {kvs : List Pair} {run : LoadRun kvs} (h : run.Handed) (H : Hash)
    (layout : Layout) (p : Nat) :
  (pairsOf H layout (handedPairs run.args.config run.args.sources) p).Perm (pairsOf H layout kvs p)
  := by
  rw [handedPairs_eq h]
  apply run.records.filter

/-! ### V4 -/

section

variable {H : Hash} {seed : UInt64} {kvs : List Pair} {layout : Layout} {d : V4.Dir}

/-- The builder of a run. -/
abbrev builderV4 (layout : Layout) (seed : UInt64) : V4Builder := ⟨layout, seed⟩

/-- The appenders are created, and some partitions may be finished. -/
structure UnderWay (H : Hash) (seed : UInt64) (kvs : List Pair) (layout : Layout) (d : V4.Dir) : Prop where
  present : ∀ p < layout.nPartitions, V4.Present (partOf (builderV4 layout seed) p d)
  whole : (∃ p < layout.nPartitions, pairsOf H layout kvs p ≠ []
      ∧ ∃ l, V4.Unfinished H seed l (partOf (builderV4 layout seed) p d))
    ∨ ∀ p < layout.nPartitions,
      (∃ l, (∀ kv ∈ l, kv ∈ pairsOf H layout kvs p)
        ∧ V4.Unfinished H seed l (partOf (builderV4 layout seed) p d))
      ∨ ∃ l : List Pair, l.Perm (pairsOf H layout kvs p)
        ∧ V4.Spilled H seed l (partOf (builderV4 layout seed) p d)

/-- There is no spill file, or one in which nothing is written. -/
def Unspilled (H : Hash) (seed : UInt64) (t : V4.PartDir) : Prop :=
  t.spill = none ∨ V4.Unfinished H seed [] t

/-- Scatter is not complete: nothing is spilled, or the scatter is under way. -/
structure PartialV4 (H : Hash) (seed : UInt64) (kvs : List Pair) (layout : Layout) (d : V4.Dir) : Prop where
  scatterDone : d.scatterDone = none
  indexDone : d.indexDone = none
  parts : (∀ p < layout.nPartitions, Unspilled H seed (partOf (builderV4 layout seed) p d))
    ∨ UnderWay H seed kvs layout d

/-- Scatter is complete for the records. -/
def CompleteV4 (H : Hash) (seed : UInt64) (kvs : List Pair) (layout : Layout) (d : V4.Dir) : Prop :=
  ∃ (pairs : Nat → List Pair) (before : Option (V4.Doc V4.Meta)),
    (∀ p < layout.nPartitions, (pairs p).Perm (pairsOf H layout kvs p))
      ∧ V4.Phase H ⟨layout, seed, pairs⟩ before d

/-- The state of a directory between runs with one partition count. -/
def StateV4 (H : Hash) (seed : UInt64) (kvs : List Pair) (layout : Layout) (d : V4.Dir) : Prop :=
  PartialV4 H seed kvs layout d ∨ CompleteV4 H seed kvs layout d

/-- The spill file of the partition has a header, which has a count if the partition has
records. -/
def Filled (H : Hash) (kvs : List Pair) (layout : Layout) (p : Nat) (d : V4.Dir) : Prop :=
  ∃ spill count, (d.part (partitionDir layout.nPartitions p)).spill = some spill
    ∧ V4.SpillReader.open spill = .ok count ∧ (pairsOf H layout kvs p ≠ [] → count ≠ 0)

/-- A V4 run can resume the run before it: the index is built, or the run does not take the
scatter for complete, or all spill files are filled in. -/
def ResumableV4 (H : Hash) (seed : UInt64) (kvs : List Pair) (layout : Layout) (d : V4.Dir) : Prop :=
  d.indexDone.isSome = true ∨ ¬ TakesOver ((builderV4 layout seed).formatBuilder H) d
    ∨ ∀ p < layout.nPartitions, Filled H kvs layout p d

/-- There is nothing that a V4 run could take over, now or after it is killed: no sentinel,
no spill file, and no index unless a data file is missing. -/
structure FreshV4 (layout : Layout) (d : V4.Dir) : Prop where
  scatterDone : d.scatterDone = none
  indexDone : d.indexDone = none
  spill : ∀ p < layout.nPartitions, (d.part (partitionDir layout.nPartitions p)).spill = none
  index : d.indexAll = none
    ∨ ∃ p < layout.nPartitions, (d.part (partitionDir layout.nPartitions p)).data = none

theorem completeV4_of_spilled (hindex : d.indexDone = none)
    (h : ∀ p < layout.nPartitions, ∃ l : List Pair, l.Perm (pairsOf H layout kvs p)
      ∧ V4.Spilled H seed l (partOf (builderV4 layout seed) p d)) :
  CompleteV4 H seed kvs layout d
  := by
  choose! pairs hperm hspilled using h
  exact ⟨pairs, d.metaJson, hperm, .scattered hspilled hindex rfl⟩

theorem startable_of_present (h : ∀ p < layout.nPartitions, V4.Present (partOf (builderV4 layout seed) p d)) :
  V4.Startable layout.nPartitions d
  := by
  right
  intro p hp
  apply (h p hp).2

theorem StateV4.fresh (h : FreshV4 layout d) :
  StateV4 H seed kvs layout d
  := by
  refine .inl ⟨h.scatterDone, h.indexDone, .inl ?_⟩
  intro p hp
  left
  apply h.spill p hp

/-- In a fresh directory a load can be resumed. -/
theorem FreshV4.resumable (h : FreshV4 layout d) :
  ResumableV4 H seed kvs layout d
  := by
  right
  left
  intro htakes
  rcases takesOver_iff.mp htakes with ⟨done, hdone, -⟩ | ⟨-, hprobed⟩
  · have hsome : d.scatterDone = some done := hdone
    rw [h.scatterDone] at hsome
    simp at hsome
  · have hprobe : ∀ p < layout.nPartitions, ∃ probe, V4.scatterProbe d.indexAll.isSome
        (d.part (partitionDir layout.nPartitions p)) = .ok (some probe) := hprobed
    rcases h.index with hindex | ⟨p, hp, hdata⟩
    · obtain ⟨probe, hsome⟩ := hprobe 0 layout.pos
      rw [V4.scatterProbe, h.spill 0 layout.pos, hindex] at hsome
      split at hsome
      · simp at hsome
      · simp at hsome
    · obtain ⟨probe, hsome⟩ := hprobe p hp
      rw [V4.scatterProbe, hdata] at hsome
      simp at hsome

theorem CompleteV4.setScatterDone (h : CompleteV4 H seed kvs layout d) (done : Option ScatterDone) :
  CompleteV4 H seed kvs layout { d with scatterDone := done }
  := by
  obtain ⟨pairs, before, hperm, hphase⟩ := h
  exact ⟨pairs, before, hperm, hphase.setScatterDone done⟩

theorem CompleteV4.allProbed (h : CompleteV4 H seed kvs layout d) :
  AllProbed ((builderV4 layout seed).formatBuilder H) d
  := by
  obtain ⟨pairs, before, -, hphase⟩ := h
  intro p hp
  apply hphase.probe hp

/-- A partition whose spill file is filled in has its pairs. -/
theorem spilled_of_filled {p : Nat} (hdata : (partOf (builderV4 layout seed) p d).data.isSome = true)
    (hfilled : Filled H kvs layout p d)
    (h : (∃ l, (∀ kv ∈ l, kv ∈ pairsOf H layout kvs p)
        ∧ V4.Unfinished H seed l (partOf (builderV4 layout seed) p d))
      ∨ ∃ l : List Pair, l.Perm (pairsOf H layout kvs p)
        ∧ V4.Spilled H seed l (partOf (builderV4 layout seed) p d)) :
  ∃ l : List Pair, l.Perm (pairsOf H layout kvs p)
    ∧ V4.Spilled H seed l (partOf (builderV4 layout seed) p d)
  := by
  rcases h with ⟨l, hl, htorn⟩ | hspilled
  · obtain ⟨spill, count, hspill, hopen, hne⟩ := hfilled
    have hw : V4.HeaderWritten (partOf (builderV4 layout seed) p d) :=
      ⟨hdata, spill, hspill, V4.length_of_open hopen⟩
    have hnil : pairsOf H layout kvs p = [] := by
      by_contra hsome
      exact htorn.not_counted hw ⟨spill, count, hspill, hopen, hne hsome⟩
    obtain rfl : l = [] := by
      apply List.eq_nil_iff_forall_not_mem.mpr
      intro kv hkv
      have hmem := hl kv hkv
      rw [hnil] at hmem
      simp at hmem
    refine ⟨[], ?_, htorn.spilled_nil hw⟩
    rw [hnil]
  · apply hspilled

theorem data_of_probe {indexed : Bool} {t : V4.PartDir} {probe : ScatterProbe}
    (h : V4.scatterProbe indexed t = .ok (some probe)) :
  t.data.isSome = true
  := by
  rw [V4.scatterProbe] at h
  split at h
  · simp at h
  · next hdata =>
    rw [hdata]
    rfl

/-- When a run that can resume takes over, scatter is complete. -/
theorem StateV4.takeover (h : StateV4 H seed kvs layout d) (hresume : ResumableV4 H seed kvs layout d)
    (htakes : TakesOver ((builderV4 layout seed).formatBuilder H) d) :
  CompleteV4 H seed kvs layout d ∧ V4.Startable layout.nPartitions d
  := by
  have hspills : (∀ p < layout.nPartitions, Filled H kvs layout p d) → V4.Startable layout.nPartitions d := by
    intro hfilled
    right
    intro p hp
    obtain ⟨spill, count, hspill, -⟩ := hfilled p hp
    rw [hspill]
    rfl
  rcases h with hundone | hcomplete
  · have hfilled : ∀ p < layout.nPartitions, Filled H kvs layout p d := by
      rcases hresume with hindex | hnot | hfilled
      · rw [hundone.indexDone] at hindex
        simp at hindex
      · exact absurd htakes hnot
      · apply hfilled
    have hprobed : AllProbed ((builderV4 layout seed).formatBuilder H) d := by
      rcases takesOver_iff.mp htakes with ⟨done, hdone, -⟩ | ⟨-, hprobed⟩
      · have hsome : d.scatterDone = some done := hdone
        rw [hundone.scatterDone] at hsome
        simp at hsome
      · apply hprobed
    refine ⟨?_, hspills hfilled⟩
    apply completeV4_of_spilled hundone.indexDone
    intro p hp
    obtain ⟨probe, hprobe⟩ := hprobed p hp
    apply spilled_of_filled (data_of_probe hprobe) (hfilled p hp)
    rcases hundone.parts with hblank | hunder
    · left
      refine ⟨[], by simp, (hblank p hp).resolve_left ?_⟩
      obtain ⟨spill, count, hspill, -⟩ := hfilled p hp
      intro hnone
      have hspill' : (partOf (builderV4 layout seed) p d).spill = some spill := hspill
      rw [hnone] at hspill'
      simp at hspill'
    · apply hunder.whole.resolve_left
      · rintro ⟨q, hq, hne, l, htorn⟩
        obtain ⟨spill, count, hspill, hopen, hcount⟩ := hfilled q hq
        apply htorn.not_counted ⟨(hunder.present q hq).1, spill, hspill, V4.length_of_open hopen⟩
        exact ⟨spill, count, hspill, hopen, hcount hne⟩
      · apply hp
  · refine ⟨hcomplete, ?_⟩
    rcases hresume with hindex | hnot | hfilled
    · left
      apply hindex
    · exact absurd htakes hnot
    · apply hspills hfilled

/-- Where the phase is, the state is one of those. -/
theorem Stored.stateV4 {run : LoadRun kvs} (hhanded : run.Handed)
    {c : Scatter V4.Dir V4.PartDir PartitionWriter}
    (h : Stored (V4.presentSpec H (builderV4 run.layout seed)) run.args.config run.args.sources c d)
    (hindex : d.indexDone = none) :
  StateV4 H seed kvs run.layout d
    ∧ ∀ st, c.main = .ended (.ok st) → CompleteV4 H seed kvs run.layout d
      ∧ V4.Startable run.layout.nPartitions d
  := by
  have hperm := run.pairsOf_perm hhanded H run.layout
  have hpresent : ∀ p < run.layout.nPartitions, V4.Present (partOf (builderV4 run.layout seed) p d) := by
    intro p hp
    rcases h.midway.parts p hp with ⟨l, -, -, hpresent⟩ | ⟨l, hclosed⟩
    · apply hpresent
    · apply V4.Spilled.present hclosed
  have hok : ∀ st, c.main = .ended (.ok st) → CompleteV4 H seed kvs run.layout d := by
    intro st hst
    apply completeV4_of_spilled hindex
    intro p hp
    obtain ⟨l, hl, hspilled⟩ := (h.of_main_ok hst).1 p hp
    exact ⟨l, hl.trans (hperm p), hspilled⟩
  constructor
  · by_cases hmain : ∃ st, c.main = .ended (.ok st)
    · obtain ⟨st, hst⟩ := hmain
      exact .inr (hok st hst)
    · refine .inl ⟨h.unmarked fun st hst => hmain ⟨st, hst⟩, hindex, .inr ⟨hpresent, ?_⟩⟩
      rcases h.midway.whole with ⟨q, hq, hne, l, -, htorn, -⟩ | hall
      · left
        refine ⟨q, hq, ?_, l, htorn⟩
        intro hnil
        have hempty := hperm q
        rw [hnil] at hempty
        apply hne (List.perm_nil.mp hempty)
      · right
        intro p hp
        rcases hall p hp with ⟨l, hl, htorn, -⟩ | ⟨l, hl, hspilled⟩
        · left
          refine ⟨l, ?_, htorn⟩
          intro kv hkv
          apply (hperm p).mem_iff.mp (hl kv hkv)
        · right
          exact ⟨l, hl.trans (hperm p), hspilled⟩
  · intro st hst
    exact ⟨hok st hst, startable_of_present hpresent⟩

/-- Scattering anew, over partitions in which nothing is spilled. -/
theorem wp_runScatterSources_v4 {run : LoadRun kvs} (hhanded : run.Handed) (hdone : d.scatterDone = none)
    (hindex : d.indexDone = none)
    (h : ∀ p < run.layout.nPartitions, Unspilled H seed (partOf (builderV4 run.layout seed) p d)) :
  wp (V4.phases (Scatter.phases _ _ _)) (StateV4 H seed kvs run.layout)
    (fun _ d' => CompleteV4 H seed kvs run.layout d' ∧ V4.Startable run.layout.nPartitions d')
    (runScatterSources ((builderV4 run.layout seed).formatBuilder H) run.args.config run.args.sources) d
  := by
  have hwp : wp (V4.phases (Scatter.phases _ _ _)) (StateV4 H seed kvs run.layout)
      (fun c d' => d'.indexDone = none
        ∧ Stored (V4.presentSpec H (builderV4 run.layout seed)) run.args.config run.args.sources c d'
        ∧ c.Final)
      (runTasks ((builderV4 run.layout seed).formatBuilder H) run.args.config run.args.sources) d := by
    apply wp_runTasks (F := (builderV4 run.layout seed).formatBuilder H)
      (G := fun d : V4.Dir => d.indexDone = none) (C := fun _ t => Unspilled H seed t)
    · intro _ _ _ hd
      apply hd
    · intro _ _ hd
      apply hd
    · intro d' hindex' hdone' hparts
      exact .inl ⟨hdone', hindex', .inl hparts⟩
    · intro c d' hindex' hstored
      apply (hstored.stateV4 hhanded hindex').1
    · intro p hp t ht
      apply V4.wp_newWriter ht
      · rcases ht with hnone | htorn
        · left
          apply hnone
        · refine .inr ⟨?_, htorn.spill⟩
          rintro _ ⟨⟩
          apply List.nil_prefix
      · intro t' ht'
        right
        apply ht'
    · apply hindex
    · apply hdone
    · apply h
  apply wp_bind
  apply wp_mono hwp
  rintro c d' hd' ⟨hindex', hstored, -⟩
  apply wp_ofExcept hd'
  intro st hst
  apply (hstored.stateV4 hhanded hindex').2 st (Scatter.main_of_result hst)

/-- Scattering, or taking over a scatter that is complete. -/
theorem wp_scatterParallel_v4 {run : LoadRun kvs} (hhanded : run.Handed)
    (h : StateV4 H seed kvs run.layout d) (hresume : ResumableV4 H seed kvs run.layout d) :
  wp (V4.phases (Scatter.phases _ _ _)) (StateV4 H seed kvs run.layout)
    (fun _ d' => CompleteV4 H seed kvs run.layout d' ∧ V4.Startable run.layout.nPartitions d')
    (scatterParallel ((builderV4 run.layout seed).formatBuilder H) run.args.config run.args.sources) d
  := by
  apply wp_bind
  apply wp_mono (wp_checkScatterDone (F := (builderV4 run.layout seed).formatBuilder H) h _)
  · rintro (_ | info) d' hd' hchecked
    · obtain ⟨hdone, ⟨p, hp, hnone⟩, rfl⟩ := hchecked
      have hprobe : V4.scatterProbe d'.indexAll.isSome (partOf (builderV4 run.layout seed) p d')
          = .ok none := hnone
      rcases h with hundone | hcomplete
      · rcases hundone.parts with hblank | hunder
        · apply wp_runScatterSources_v4 hhanded hdone hundone.indexDone hblank
        · obtain ⟨data, hdata⟩ := Option.isSome_iff_exists.mp (hunder.present p hp).1
          obtain ⟨spill, hspill⟩ := Option.isSome_iff_exists.mp (hunder.present p hp).2
          rw [V4.scatterProbe, hdata, hspill] at hprobe
          dsimp only at hprobe
          split at hprobe
          · simp at hprobe
          · simp at hprobe
      · obtain ⟨probe, hsome⟩ := hcomplete.allProbed p hp
        rw [hnone] at hsome
        simp at hsome
    · rcases hchecked with ⟨done, hdone, hformat, rfl⟩ | ⟨hdone, hprobed, probes, rfl⟩
      · exact ⟨hd', h.takeover hresume (takesOver_iff.mpr (.inl ⟨done, hdone, hformat⟩))⟩
      · obtain ⟨hcomplete, hstart⟩ := h.takeover hresume (takesOver_iff.mpr (.inr ⟨hdone, hprobed⟩))
        exact ⟨hd', hcomplete.setScatterDone _, hstart⟩
  · intro hdone hprobed probes
    obtain ⟨hcomplete, -⟩ := h.takeover hresume (takesOver_iff.mpr (.inr ⟨hdone, hprobed⟩))
    exact .inr (hcomplete.setScatterDone _)

/-- A whole V4 run. -/
theorem wp_loadV4 (hvalues : ∀ kv ∈ kvs, V4.Small kv.2) {run : LoadRun kvs} (hhanded : run.Handed)
    (h : StateV4 H seed kvs run.layout d) (hresume : ResumableV4 H seed kvs run.layout d) :
  wp (V4.phases (Scatter.phases _ _ _)) (StateV4 H seed kvs run.layout)
    (fun _ d' => ∃ pairs : Nat → List Pair,
      (∀ p < run.layout.nPartitions, (pairs p).Perm (pairsOf H run.layout kvs p))
        ∧ V4.Complete H run.layout seed pairs d')
    (loadV4 H run.layout.nPartitions seed run.args) d
  := by
  rw [loadV4, V4Builder.new, Layout.new_nPartitions]
  apply wp_bind
  apply wp_mono (wp_scatterParallel_v4 hhanded h hresume)
  rintro scattered d' - ⟨⟨pairs, before, hperm, hphase⟩, hstart⟩
  let L : V4.Load := ⟨run.layout, seed, pairs⟩
  have hL : L.Fits := by
    intro p hp kv hkv
    apply hvalues kv (mem_pairsOf.mp ((hperm p hp).mem_iff.mp hkv)).1
  have hfinalize : wp (V4.phases (Scatter.phases V4.Dir V4.PartDir PartitionWriter))
      (StateV4 H seed kvs run.layout) (fun _ d' => ∃ tables, V4.Finished H L tables d')
      (V4Builder.finalizeLoad (builderV4 run.layout seed)) d' :=
    wp_weaken (V4.wp_finalizeLoad hL rfl rfl hphase hstart)
      (fun _ hd => .inr ⟨pairs, before, hperm, hd⟩)
  apply wp_bind
  apply wp_mono hfinalize
  rintro nKeys d'' hd'' ⟨tables, hfinished⟩
  exact ⟨hd'', pairs, hperm, hfinished.built.complete run.count hfinished.metaJson⟩

end

/-! ### V5 -/

/-- A load of a V5 snapshot. -/
def loadV5 (E : V5.Env) (nPartitions : Nat) (seed : UInt64) (options : V5.V5Options) (args : LoadArgs) :
    V5.Root (Scatter V5.Dir V5.PartDir V5Appender) LoadStats :=
  match V5Builder.new nPartitions seed options with
  | .error e => .throw e
  | .ok b => do
    let scattered ← scatterParallel (b.formatBuilder E) args.config args.sources
    let done ← b.finalizeLoad E
    return ⟨done.nKeys, scattered.dataBytes⟩

section

variable {E : V5.Env} {seed : UInt64} {kvs : List Pair} {layout : Layout} {d : V5.Dir}

/-- The directory of partition `p` of the layout. -/
abbrev dirV5 (layout : Layout) (p : Nat) (d : V5.Dir) : V5.PartDir :=
  d.part (partitionDir layout.nPartitions p)

/-- Nothing is planned or built for the partitions, and no sentinel is there. -/
structure UnmarkedV5 (layout : Layout) (d : V5.Dir) : Prop where
  scatterDone : d.scatterDone = none
  plan : d.plan = none
  indexDone : d.indexDone = none
  notBuilt : ∀ p < layout.nPartitions, (dirV5 layout p d).buildDone = none

/-- Scatter is not complete, or only lacks its sentinel. -/
structure PartialV5 (E : V5.Env) (seed : UInt64) (kvs : List Pair) (layout : Layout) (d : V5.Dir) : Prop where
  unmarked : UnmarkedV5 layout d
  parts : (∃ p < layout.nPartitions, (dirV5 layout p d).arrivalStats = none)
    ∨ ∀ p < layout.nPartitions, ∃ l : List Pair, l.Perm (pairsOf E.hash layout kvs p)
      ∧ V5.Logged (l.map (V5.frameOf E.hash seed)) (dirV5 layout p d)

/-- Scatter is complete for the records. -/
def CompleteV5 (E : V5.Env) (seed : UInt64) (kvs : List Pair) (layout : Layout) (d : V5.Dir) : Prop :=
  ∃ L : V5.Load, L.layout = layout ∧ L.seed = seed ∧ L.Fits
    ∧ (∀ p < layout.nPartitions, (L.frames p).Perm (V5.framesOf E.hash layout seed kvs p))
    ∧ V5.Phase E L d

/-- The state of a directory between runs with one partition count. -/
def StateV5 (E : V5.Env) (seed : UInt64) (kvs : List Pair) (layout : Layout) (d : V5.Dir) : Prop :=
  PartialV5 E seed kvs layout d ∨ CompleteV5 E seed kvs layout d

/-- There is nothing that a V5 run could take over. -/
def FreshV5 (layout : Layout) (d : V5.Dir) : Prop :=
  UnmarkedV5 layout d ∧ ∃ p < layout.nPartitions, (dirV5 layout p d).arrivalStats = none

theorem StateV5.fresh (h : FreshV5 layout d) :
  StateV5 E seed kvs layout d
  :=
  .inl ⟨h.1, .inl h.2⟩

theorem completeV5_of_logged {b : V5Builder} (hplan : d.plan = none) (hindex : d.indexDone = none)
    (h : ∀ p < b.layout.nPartitions, ∃ l : List Pair, l.Perm (pairsOf E.hash b.layout kvs p)
      ∧ V5.Logged (l.map (V5.frameOf E.hash b.verifySeed)) (dirV5 b.layout p d)) :
  CompleteV5 E b.verifySeed kvs b.layout d
  := by
  choose! pairs hperm hlogged using h
  obtain ⟨hscattered, hfits⟩ := V5.scattered_of_logged hplan hindex hlogged
  refine ⟨_, rfl, rfl, hfits, ?_, .scattered hscattered⟩
  intro p hp
  apply (hperm p hp).map

theorem CompleteV5.setScatterDone (h : CompleteV5 E seed kvs layout d) (done : Option ScatterDone) :
  CompleteV5 E seed kvs layout { d with scatterDone := done }
  := by
  obtain ⟨L, hlayout, hseed, hfits, hframes, hphase⟩ := h
  exact ⟨L, hlayout, hseed, hfits, hframes, hphase.setScatterDone done⟩

/-- A complete snapshot is probed as scattered. -/
theorem CompleteV5.allProbed {b : V5Builder} (h : CompleteV5 E seed kvs b.layout d) :
  AllProbed (b.formatBuilder E) d
  := by
  obtain ⟨L, hlayout, -, -, -, hphase⟩ := h
  intro p hp
  have hp' : p < L.layout.nPartitions := by
    rw [hlayout]
    apply hp
  obtain ⟨probe, hprobe⟩ := hphase.probe hp'
  refine ⟨probe, ?_⟩
  rw [V5.Load.dir, hlayout] at hprobe
  show Except.ok (V5.scatterProbe (d.part (b.dirOf p))) = .ok (some probe)
  rw [V5Builder.dirOf, hprobe]

/-- When a run takes over, scatter is complete. -/
theorem StateV5.takeover {b : V5Builder} (h : StateV5 E b.verifySeed kvs b.layout d)
    (htakes : TakesOver (b.formatBuilder E) d) :
  CompleteV5 E b.verifySeed kvs b.layout d
  := by
  rcases h with hundone | hcomplete
  · apply completeV5_of_logged hundone.unmarked.plan hundone.unmarked.indexDone
    apply hundone.parts.resolve_left
    rintro ⟨p, hp, hnone⟩
    rcases takesOver_iff.mp htakes with ⟨done, hdone, -⟩ | ⟨-, hprobed⟩
    · have hsome : d.scatterDone = some done := hdone
      rw [hundone.unmarked.scatterDone] at hsome
      simp at hsome
    · obtain ⟨probe, hprobe⟩ := hprobed p hp
      have hprobe' : V5.scatterProbe (dirV5 b.layout p d) = some probe := Except.ok.inj hprobe
      rw [V5.scatterProbe, hnone, hundone.unmarked.notBuilt p hp] at hprobe'
      simp at hprobe'
  · apply hcomplete

/-- Where the phase is, the state is one of those. -/
theorem Stored.stateV5 {b : V5Builder} {run : LoadRun kvs} (hhanded : run.Handed)
    {c : Scatter V5.Dir V5.PartDir V5Appender}
    (h : Stored (V5.appenderSpec E b) run.args.config run.args.sources c d) (hplan : d.plan = none)
    (hindex : d.indexDone = none) :
  StateV5 E b.verifySeed kvs b.layout d
    ∧ ∀ st, c.main = .ended (.ok st) → CompleteV5 E b.verifySeed kvs b.layout d
  := by
  have hperm := run.pairsOf_perm hhanded E.hash b.layout
  have hok : ∀ st, c.main = .ended (.ok st) → CompleteV5 E b.verifySeed kvs b.layout d := by
    intro st hst
    apply completeV5_of_logged hplan hindex
    intro p hp
    obtain ⟨l, hl, hlogged⟩ := (h.of_main_ok hst).1 p hp
    exact ⟨l, hl.trans (hperm p), hlogged⟩
  refine ⟨?_, hok⟩
  by_cases hmain : ∃ st, c.main = .ended (.ok st)
  · obtain ⟨st, hst⟩ := hmain
    exact .inr (hok st hst)
  · have hnotBuilt : ∀ p < b.layout.nPartitions, (dirV5 b.layout p d).buildDone = none := by
      intro p hp
      rcases h.midway.parts p hp with ⟨l, -, htorn⟩ | ⟨l, -, hist, hlog⟩
      · apply htorn.1
      · apply hlog.notBuilt
    refine .inl ⟨⟨h.unmarked fun st hst => hmain ⟨st, hst⟩, hplan, hindex, hnotBuilt⟩, ?_⟩
    by_cases htorn : ∃ p < b.layout.nPartitions, (dirV5 b.layout p d).arrivalStats = none
    · left
      apply htorn
    · right
      rcases h.midway.whole with ⟨q, hq, -, l, -, hq'⟩ | hall
      · exact absurd ⟨q, hq, hq'.2⟩ htorn
      · intro p hp
        rcases hall p hp with ⟨l, -, hp'⟩ | ⟨l, hl, hlogged⟩
        · exact absurd ⟨p, hp, hp'.2⟩ htorn
        · exact ⟨l, hl.trans (hperm p), hlogged⟩

/-- Scattering anew; partition `q` is not scattered. -/
theorem wp_runScatterSources_v5 {b : V5Builder} {run : LoadRun kvs} (hhanded : run.Handed)
    (h : UnmarkedV5 b.layout d) {q : Nat} (hq : q < b.layout.nPartitions)
    (hnone : (dirV5 b.layout q d).arrivalStats = none) :
  wp (V5.phases (Scatter.phases _ _ _)) (StateV5 E b.verifySeed kvs b.layout)
    (fun _ d' => CompleteV5 E b.verifySeed kvs b.layout d')
    (runScatterSources (b.formatBuilder E) run.args.config run.args.sources) d
  := by
  have hwp : wp (V5.phases (Scatter.phases _ _ _)) (StateV5 E b.verifySeed kvs b.layout)
      (fun c d' => (d'.plan = none ∧ d'.indexDone = none)
        ∧ Stored (V5.appenderSpec E b) run.args.config run.args.sources c d' ∧ c.Final)
      (runTasks (b.formatBuilder E) run.args.config run.args.sources) d := by
    apply wp_runTasks (F := b.formatBuilder E)
      (G := fun d : V5.Dir => d.plan = none ∧ d.indexDone = none)
      (C := fun p t => t.buildDone = none ∧ (p = q → t.arrivalStats = none))
    · intro _ _ _ hd
      apply hd
    · intro _ _ hd
      apply hd
    · rintro d' ⟨hplan, hindex⟩ hdone hparts
      exact .inl ⟨⟨hdone, hplan, hindex, fun p hp => (hparts p hp).1⟩, .inl ⟨q, hq, (hparts q hq).2 rfl⟩⟩
    · rintro c d' ⟨hplan, hindex⟩ hstored
      apply (hstored.stateV5 hhanded hplan hindex).1
    · rintro p hp t ⟨hbuilt, hstats⟩
      apply V5.wp_createAppender ⟨hbuilt, hstats⟩
      · rintro t' ⟨hbuilt', hstats'⟩
        exact ⟨hbuilt', fun _ => hstats'⟩
      · apply hbuilt
    · exact ⟨h.plan, h.indexDone⟩
    · apply h.scatterDone
    · intro p hp
      refine ⟨h.notBuilt p hp, ?_⟩
      rintro rfl
      apply hnone
  apply wp_bind
  apply wp_mono hwp
  rintro c d' hd' ⟨⟨hplan, hindex⟩, hstored, -⟩
  apply wp_ofExcept hd'
  intro st hst
  apply (hstored.stateV5 hhanded hplan hindex).2 st (Scatter.main_of_result hst)

/-- Scattering, or taking over a scatter that is complete. -/
theorem wp_scatterParallel_v5 {b : V5Builder} {run : LoadRun kvs} (hhanded : run.Handed)
    (h : StateV5 E b.verifySeed kvs b.layout d) :
  wp (V5.phases (Scatter.phases _ _ _)) (StateV5 E b.verifySeed kvs b.layout)
    (fun _ d' => CompleteV5 E b.verifySeed kvs b.layout d')
    (scatterParallel (b.formatBuilder E) run.args.config run.args.sources) d
  := by
  apply wp_bind
  apply wp_mono (wp_checkScatterDone (F := b.formatBuilder E) h _)
  · rintro (_ | info) d' hd' hchecked
    · obtain ⟨hdone, ⟨p, hp, hnone⟩, rfl⟩ := hchecked
      rcases h with hundone | hcomplete
      · have hprobe : V5.scatterProbe (dirV5 b.layout p d') = none := Except.ok.inj hnone
        have hstats : (dirV5 b.layout p d').arrivalStats = none := by
          rw [V5.scatterProbe] at hprobe
          split at hprobe
          · simp at hprobe
          · next hstats => apply hstats
        apply wp_runScatterSources_v5 hhanded hundone.unmarked hp hstats
      · obtain ⟨probe, hsome⟩ := hcomplete.allProbed p hp
        rw [hnone] at hsome
        simp at hsome
    · rcases hchecked with ⟨done, hdone, hformat, rfl⟩ | ⟨hdone, hprobed, probes, rfl⟩
      · exact ⟨hd', h.takeover (takesOver_iff.mpr (.inl ⟨done, hdone, hformat⟩))⟩
      · exact ⟨hd', (h.takeover (takesOver_iff.mpr (.inr ⟨hdone, hprobed⟩))).setScatterDone _⟩
  · intro hdone hprobed probes
    exact .inr ((h.takeover (takesOver_iff.mpr (.inr ⟨hdone, hprobed⟩))).setScatterDone _)

/-- A whole V5 run. -/
theorem wp_loadV5 (hE : E.Lawful) {run : LoadRun kvs} (hhanded : run.Handed)
    (h : StateV5 E seed kvs run.layout d) :
  wp (V5.phases (Scatter.phases _ _ _)) (StateV5 E seed kvs run.layout)
    (fun _ d' => ∃ frames : Nat → List V5.Frame,
      (∀ p < run.layout.nPartitions, (frames p).Perm (V5.framesOf E.hash run.layout seed kvs p))
        ∧ V5.Complete E run.layout seed frames d')
    (loadV5 E run.layout.nPartitions seed run.options run.args) d
  := by
  rw [loadV5]
  split
  · apply wp_throw h
  · next b hb =>
    obtain ⟨hlayout, rfl, hblock⟩ := V5Builder.new_eq_ok hb
    rw [Layout.new_nPartitions] at hlayout
    have hlayout' := Except.ok.inj hlayout
    have hcount := run.count
    rw [hlayout'] at h hcount ⊢
    apply wp_bind
    apply wp_mono (wp_scatterParallel_v5 hhanded h)
    rintro scattered d' - ⟨L, hL, hseed, hfits, hframes, hphase⟩
    have hfinalize : wp (V5.phases (Scatter.phases V5.Dir V5.PartDir V5Appender))
        (StateV5 E b.verifySeed kvs b.layout)
        (fun _ d' => ∃ plan dones, V5.Finished E L plan dones d') (b.finalizeLoad E) d' :=
      wp_weaken (V5.wp_finalizeLoad hE hfits ⟨hL.symm, hseed.symm, hblock⟩ hphase)
        (fun _ hd => .inr ⟨L, hL, hseed, hfits, hframes, hd⟩)
    apply wp_bind
    apply wp_mono hfinalize
    rintro done d'' hd'' ⟨plan, dones, hfinished⟩
    have hdescribes := hfinished.built.describes hE (by rwa [hL])
    rw [hL, hseed] at hdescribes
    have hmeta := hfinished.metaJson
    rw [hseed] at hmeta
    exact ⟨hd'', L.frames, hframes, _, _, hmeta, hdescribes⟩

end

/-! ### Sequences of loads -/

/-- A V4 run is started with nothing to take over, or to resume a run with its count. -/
def StartsV4 (H : Hash) (seed : UInt64) {kvs : List Pair} (last : Option (LoadRun kvs))
    (run : LoadRun kvs) (d : V4.Dir) : Prop :=
  run.Handed ∧ (FreshV4 run.layout d
    ∨ (∃ before, last = some before ∧ before.layout = run.layout) ∧ ResumableV4 H seed kvs run.layout d)

/-- A V5 run is started with nothing to take over, or to resume a run with its count. -/
def StartsV5 {kvs : List Pair} (last : Option (LoadRun kvs)) (run : LoadRun kvs) (d : V5.Dir) : Prop :=
  run.Handed ∧ (FreshV5 run.layout d ∨ ∃ before, last = some before ∧ before.layout = run.layout)

/-- The V4 run. -/
def LoadRun.loadV4 {kvs : List Pair} (H : Hash) (seed : UInt64) (run : LoadRun kvs) :
    V4.Root (Scatter V4.Dir V4.PartDir PartitionWriter) LoadStats :=
  Loader.loadV4 H run.layout.nPartitions seed run.args

/-- The V5 run. -/
def LoadRun.loadV5 {kvs : List Pair} (E : V5.Env) (seed : UInt64) (run : LoadRun kvs) :
    V5.Root (Scatter V5.Dir V5.PartDir V5Appender) LoadStats :=
  Loader.loadV5 E run.layout.nPartitions seed run.options run.args

section

variable {kvs : List Pair}

/-- The sessions of V4 runs over the directory `d₀`. -/
abbrev SessionsV4 (H : Hash) (seed : UInt64) (d₀ : V4.Dir)
    (starts : Option (LoadRun kvs) → LoadRun kvs → V4.Dir → Prop) :=
  Reachable (V4.phases (Scatter.phases V4.Dir V4.PartDir PartitionWriter)) (LoadRun.loadV4 H seed)
    (· = d₀) starts

/-- The sessions of V5 runs over the directory `d₀`. -/
abbrev SessionsV5 (E : V5.Env) (seed : UInt64) (d₀ : V5.Dir)
    (starts : Option (LoadRun kvs) → LoadRun kvs → V5.Dir → Prop) :=
  Reachable (V5.phases (Scatter.phases V5.Dir V5.PartDir V5Appender)) (LoadRun.loadV5 E seed)
    (· = d₀) starts

/-- A load that returned well has the pairs of every partition, in some order. -/
theorem SessionsV4.complete {H : Hash} {seed : UInt64} (hvalues : ∀ kv ∈ kvs, V4.Small kv.2)
    {run : LoadRun kvs} {st : LoadStats} {d₀ d : V4.Dir}
    (h : SessionsV4 H seed d₀ (StartsV4 H seed) (.returned run (.ok st)) d) :
  ∃ pairs : Nat → List Pair,
    (∀ p < run.layout.nPartitions, (pairs p).Perm (pairsOf H run.layout kvs p))
      ∧ V4.Complete H run.layout seed pairs d
  := by
  have hsafe := h.safe (J := fun last d => ∀ run, last = some run → StateV4 H seed kvs run.layout d)
    (Q := fun run _ d => ∃ pairs : Nat → List Pair,
      (∀ p < run.layout.nPartitions, (pairs p).Perm (pairsOf H run.layout kvs p))
        ∧ V4.Complete H run.layout seed pairs d)
    (by
      rintro _ - _ ⟨⟩)
    (by
      rintro last run d hlast ⟨hhanded, hstart⟩
      have hstate : StateV4 H seed kvs run.layout d ∧ ResumableV4 H seed kvs run.layout d := by
        rcases hstart with hfresh | ⟨⟨before, hbefore, hlayout⟩, hresume⟩
        · exact ⟨.fresh hfresh, hfresh.resumable⟩
        · rw [← hlayout] at hresume ⊢
          exact ⟨hlast before hbefore, hresume⟩
      apply wp_weaken (wp_loadV4 hvalues hhanded hstate.1 hstate.2)
      rintro d' hd' _ ⟨⟩
      apply hd')
  apply hsafe.2

/-- A load that returned well has the frames of every partition, in some order. -/
theorem SessionsV5.complete {E : V5.Env} (hE : E.Lawful) {seed : UInt64} {run : LoadRun kvs}
    {st : LoadStats} {d₀ d : V5.Dir} (h : SessionsV5 E seed d₀ StartsV5 (.returned run (.ok st)) d) :
  ∃ frames : Nat → List V5.Frame,
    (∀ p < run.layout.nPartitions, (frames p).Perm (V5.framesOf E.hash run.layout seed kvs p))
      ∧ V5.Complete E run.layout seed frames d
  := by
  have hsafe := h.safe (J := fun last d => ∀ run, last = some run → StateV5 E seed kvs run.layout d)
    (Q := fun run _ d => ∃ frames : Nat → List V5.Frame,
      (∀ p < run.layout.nPartitions, (frames p).Perm (V5.framesOf E.hash run.layout seed kvs p))
        ∧ V5.Complete E run.layout seed frames d)
    (by
      rintro _ - _ ⟨⟩)
    (by
      rintro last run d hlast ⟨hhanded, hstart⟩
      have hstate : StateV5 E seed kvs run.layout d := by
        rcases hstart with hfresh | ⟨before, hbefore, hlayout⟩
        · exact .fresh hfresh
        · rw [← hlayout]
          apply hlast before hbefore
      apply wp_weaken (wp_loadV5 hE hhanded hstate)
      rintro d' hd' _ ⟨⟩
      apply hd')
  apply hsafe.2

end

/-- Whatever loads of one set of records are made over a directory, each with a partition
count of its own, and wherever they are killed, as long as each of them hands over all
records and is started with nothing to take over or to resume a run with its count: when a
load returns well, the snapshot serves the records. -/
theorem repartitioned_load_serves {kvs : List Pair} (hkeys : (kvs.map Prod.fst).Nodup) (seed : UInt64)
    (run : LoadRun kvs) (st : LoadStats) :
  (∀ (H : Hash) (d₀ d : V4.Dir), (∀ kv ∈ kvs, V4.Small kv.2) → V4.NoCollisions H run.layout seed kvs →
      SessionsV4 H seed d₀ (StartsV4 H seed) (.returned run (.ok st)) d →
      V4.Serves H run.layout seed kvs d)
    ∧ ∀ (E : V5.Env) (d₀ d : V5.Dir), E.Lawful → V5.NoCollisions E.hash run.layout seed kvs →
      SessionsV5 E seed d₀ StartsV5 (.returned run (.ok st)) d →
      V5.Serves E run.layout seed kvs d
  := by
  constructor
  · intro H d₀ d hvalues hcoll hreach
    obtain ⟨pairs, hpairs, hcomplete⟩ := hreach.complete hvalues
    apply hcomplete.serves hpairs hkeys hcoll
  · intro E d₀ d hE hcoll hreach
    obtain ⟨frames, hframes, hcomplete⟩ := hreach.complete hE
    apply hcomplete.serves hframes hkeys hcoll

/-! ### Another count -/

/-- The records of two sources. -/
def threePairs : List Pair :=
  Scatter.threeKeys.flatMap Source.pairs

/-- A load of them. -/
def threeRun (layout : Layout) (hcount : layout.nPartitions < 2 ^ 32) : LoadRun threePairs :=
  ⟨layout, hcount, V5.plainOptions, ⟨⟨1, 8⟩, Scatter.threeKeys⟩, .refl _⟩

abbrev oneRun : LoadRun threePairs := threeRun .one (by decide)

abbrev twoRun : LoadRun threePairs := threeRun .two (by decide)

/-- A V4 load that runs to its end. -/
def loadedV4 (run : LoadRun threePairs) (d : V4.Dir) : Option (Except Error LoadStats × V4.Dir) :=
  (run.loadV4 V4.xxHash defaultVerifySeed).exec V4.partDirs (Scatter.run 16 100) 16 d

/-- A V5 load that runs to its end. -/
def loadedV5 (run : LoadRun threePairs) (d : V5.Dir) : Option (Except Error LoadStats × V5.Dir) :=
  (run.loadV5 V5.plainEnv defaultVerifySeed).exec V5.partDirs (Scatter.run 16 100) 16 d

/-- The scatter of a V5 load to two partitions. -/
def scatteredTwo : Option (Except Error ScatterStats × V5.Dir) :=
  let scatter : V5.Root (Scatter V5.Dir V5.PartDir V5Appender) ScatterStats :=
    scatterParallel (V5.twoBuilder.formatBuilder V5.plainEnv) ⟨1, 8⟩ Scatter.threeKeys
  scatter.exec V5.partDirs (Scatter.run 16 100) 16 V5.Dir.empty

/-- The value of a key in a V4 snapshot. -/
def lookupV4 (key : Bytes) (d : V4.Dir) : Except Error (Except Error GetOutcome) :=
  (V4.Snapshot.openPath d).map fun r => r.get V4.xxHash key

/-- The value of a key in a V5 snapshot. -/
def lookupV5 (key : Bytes) (d : V5.Dir) : Except Error (Except Error GetOutcome) :=
  (V5.Snapshot.openPath V5.plainEnv d).map fun r => r.get V5.plainEnv key

/-- A V5 load starts with the steps of its scatter. -/
theorem steps_scatterV5 {E : V5.Env} {n : Nat} {seed : UInt64} {options : V5.V5Options} (args : LoadArgs)
    {b : V5Builder} (hnew : V5Builder.new n seed options = .ok b) {d d' : V5.Dir}
    {r : Except Error ScatterStats}
    (h : Prog.Steps (V5.phases (Scatter.phases _ _ _))
      (scatterParallel (b.formatBuilder E) args.config args.sources) d (.done r) d') :
  ∃ p, Prog.Steps (V5.phases (Scatter.phases _ _ _)) (loadV5 E n seed options args) d p d'
  := by
  rw [loadV5, hnew]
  exact ⟨_, h.bind⟩

/-- A load to two partitions, then one to a single partition, which returns well and finds
none of the keys.  In V4 both run to their ends; in V5 the first is killed when it has
scattered. -/
theorem repartitioned_load_loses :
  (∃ d, SessionsV4 V4.xxHash defaultVerifySeed V4.Dir.empty (fun _ _ _ => True)
        (.returned oneRun (.ok ⟨0, 0⟩)) d
      ∧ ∀ kv ∈ threePairs, lookupV4 kv.1 d = .ok (.ok (.miss false)))
    ∧ ∃ d, SessionsV5 V5.plainEnv defaultVerifySeed V5.Dir.empty (fun _ _ _ => True)
        (.returned oneRun (.ok ⟨0, 0⟩)) d
      ∧ ∀ kv ∈ threePairs, lookupV5 kv.1 d = .ok (.ok (.miss false))
  := by
  constructor
  · have hruns : ((loadedV4 twoRun .empty).bind fun x => (loadedV4 oneRun x.2).map fun y =>
        (y.1, decide (∀ kv ∈ threePairs, lookupV4 kv.1 y.2 = .ok (.ok (.miss false)))))
          = some (.ok ⟨0, 0⟩, true) := by
      decide +kernel
    obtain ⟨⟨r₁, d₁⟩, hfirst, hrest⟩ := Option.bind_eq_some_iff.mp hruns
    obtain ⟨⟨r₂, d₂⟩, hsecond, hresults⟩ := Option.map_eq_some_iff.mp hrest
    obtain ⟨rfl, hmiss⟩ := Prod.mk.inj hresults
    have hreach : SessionsV4 V4.xxHash defaultVerifySeed V4.Dir.empty (fun _ _ _ => True)
        (.returned twoRun r₁) d₁ :=
      Reachable.exec (Scatter.run_schedules 16 100) (.init rfl) trivial trivial hfirst
    refine ⟨d₂, ?_, of_decide_eq_true hmiss⟩
    apply Reachable.exec (Scatter.run_schedules 16 100) hreach trivial trivial hsecond
  · have hruns : (scatteredTwo.bind fun x => (loadedV5 oneRun x.2).map fun y =>
        (y.1, decide (∀ kv ∈ threePairs, lookupV5 kv.1 y.2 = .ok (.ok (.miss false)))))
          = some (.ok ⟨0, 0⟩, true) := by
      decide +kernel
    obtain ⟨⟨r₁, d₁⟩, hfirst, hrest⟩ := Option.bind_eq_some_iff.mp hruns
    obtain ⟨⟨r₂, d₂⟩, hsecond, hresults⟩ := Option.map_eq_some_iff.mp hrest
    obtain ⟨rfl, hmiss⟩ := Prod.mk.inj hresults
    have hkilled : SessionsV5 V5.plainEnv defaultVerifySeed V5.Dir.empty (fun _ _ _ => True)
        (.idle (some twoRun)) d₁ := by
      have hstart : SessionsV5 V5.plainEnv defaultVerifySeed V5.Dir.empty (fun _ _ _ => True)
          (.running twoRun (twoRun.loadV5 V5.plainEnv defaultVerifySeed)) V5.Dir.empty :=
        .start twoRun (.init rfl) trivial trivial
      have hnew : V5Builder.new 2 defaultVerifySeed V5.plainOptions = .ok V5.twoBuilder := rfl
      obtain ⟨p, hsteps⟩ := steps_scatterV5 twoRun.args hnew
        (Prog.steps_of_exec (Scatter.run_schedules 16 100) hfirst)
      apply (hstart.steps hsteps).kill
    refine ⟨d₂, ?_, of_decide_eq_true hmiss⟩
    apply Reachable.exec (Scatter.run_schedules 16 100) hkilled trivial trivial hsecond

theorem handed_threeRun (layout : Layout) (hcount : layout.nPartitions < 2 ^ 32) :
  (threeRun layout hcount).Handed
  := by
  have hhanded : ∀ source ∈ Scatter.threeKeys, source.handed 8 = source.pairs := by decide +kernel
  apply hhanded

theorem freshV4_empty (layout : Layout) :
  FreshV4 layout V4.Dir.empty
  :=
  ⟨rfl, rfl, fun _ _ => rfl, .inl rfl⟩

theorem freshV5_empty (layout : Layout) :
  FreshV5 layout V5.Dir.empty
  :=
  ⟨⟨rfl, rfl, rfl, fun _ _ => rfl⟩, 0, layout.pos, rfl⟩

/-- A V5 load of the records to two partitions, from an empty directory. -/
theorem session_twoRun :
  ∃ d, loadedV5 twoRun .empty = some (.ok ⟨3, 4⟩, d)
    ∧ SessionsV5 V5.plainEnv defaultVerifySeed V5.Dir.empty StartsV5 (.returned twoRun (.ok ⟨3, 4⟩)) d
  := by
  have hrun : (loadedV5 twoRun .empty).map Prod.fst = some (.ok ⟨3, 4⟩) := by
    decide +kernel
  obtain ⟨⟨r, d⟩, hload, rfl⟩ := Option.map_eq_some_iff.mp hrun
  refine ⟨d, hload, ?_⟩
  exact Reachable.exec (Scatter.run_schedules 16 100) (.init rfl) trivial
    ⟨handed_threeRun _ _, .inl (freshV5_empty _)⟩ hload

theorem repartitioned_load_serves_three :
  (∃ r d₁ d₂, loadedV4 oneRun .empty = some (r, d₁) ∧ loadedV4 twoRun d₁ = some (.ok ⟨3, 4⟩, d₂)
      ∧ V4.Serves V4.xxHash .two defaultVerifySeed threePairs d₂)
    ∧ ∃ d, loadedV5 twoRun .empty = some (.ok ⟨3, 4⟩, d)
      ∧ V5.Serves V5.plainEnv .two defaultVerifySeed threePairs d
  := by
  have hserves := @repartitioned_load_serves threePairs (by decide +kernel) defaultVerifySeed twoRun ⟨3, 4⟩
  constructor
  · have hruns : ((loadedV4 oneRun .empty).bind fun x => (loadedV4 twoRun x.2).map fun y =>
        ((x.2.scatterDone.isNone, x.2.indexDone.isNone,
          (List.range 2).all fun p => (x.2.part (partitionDir 2 p)).spill.isNone,
          (x.2.part (partitionDir 2 1)).data.isNone), y.1))
          = some ((true, true, true, true), .ok ⟨3, 4⟩) := by
      decide +kernel
    obtain ⟨⟨r₁, d₁⟩, hfirst, hrest⟩ := Option.bind_eq_some_iff.mp hruns
    obtain ⟨⟨r₂, d₂⟩, hsecond, hresults⟩ := Option.map_eq_some_iff.mp hrest
    obtain ⟨hleft, rfl⟩ := Prod.mk.inj hresults
    obtain ⟨hdone, hleft⟩ := Prod.mk.inj hleft
    obtain ⟨hindex, hleft⟩ := Prod.mk.inj hleft
    obtain ⟨hspill, hdata⟩ := Prod.mk.inj hleft
    have hfresh : FreshV4 .two d₁ := by
      refine ⟨Option.isNone_iff_eq_none.mp hdone, Option.isNone_iff_eq_none.mp hindex,
        ?_, .inr ⟨1, by decide, Option.isNone_iff_eq_none.mp hdata⟩⟩
      intro p hp
      exact Option.isNone_iff_eq_none.mp (List.all_eq_true.mp hspill p (List.mem_range.mpr hp))
    have hreach : SessionsV4 V4.xxHash defaultVerifySeed V4.Dir.empty (StartsV4 V4.xxHash defaultVerifySeed)
        (.returned oneRun r₁) d₁ :=
      Reachable.exec (Scatter.run_schedules 16 100) (.init rfl) trivial
        ⟨handed_threeRun _ _, .inl (freshV4_empty _)⟩ hfirst
    refine ⟨r₁, d₁, d₂, hfirst, hsecond, ?_⟩
    apply hserves.1 V4.xxHash V4.Dir.empty d₂ _ _ (Reachable.exec (Scatter.run_schedules 16 100) hreach
      trivial ⟨handed_threeRun _ _, .inl hfresh⟩ hsecond)
    · intro kv hkv
      apply V4.small_of_le
      revert kv
      decide +kernel
    · unfold V4.NoCollisions NoCollisions Distinguished
      decide +kernel
  · obtain ⟨d, hload, hsession⟩ := session_twoRun
    refine ⟨d, hload, ?_⟩
    apply hserves.2 V5.plainEnv V5.Dir.empty d V5.plainEnv_lawful _ hsession
    unfold V5.NoCollisions NoCollisions Distinguished
    decide +kernel

end Loader
