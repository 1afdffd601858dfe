import Mcfreeze.Loader.Markers
import Mcfreeze.V4.Resume

/-!
# V4 loads over one directory

A load of a V4 snapshot scatters the sources unless that was done, builds the index unless
that was done, and writes the metadata.  Loads over a directory whose scatter is complete
can be killed anywhere and resumed, until one of them has completed.  The load after that
finds neither `index.done` nor spill files, takes the partitions for empty, and overwrites
the index.
-/

open Format Crash

namespace Loader

open V4 (V4Builder PartitionWriter)

/-! ### Loads -/

structure LoadStats where
  nKeys : Nat
  dataBytes : Nat
  deriving DecidableEq, Repr

/-- What a load is given. -/
structure LoadArgs where
  config : Config
  sources : List Source

/-- A load of a V4 snapshot. -/
def loadV4 (H : Hash) (nPartitions : Nat) (seed : UInt64) (args : LoadArgs) :
    V4.Root (Scatter V4.Dir V4.PartDir PartitionWriter) LoadStats :=
  match V4Builder.new nPartitions seed with
  | .error e => .throw e
  | .ok b => do
    let scattered ← scatterParallel (b.formatBuilder H) args.config args.sources
    let nKeys ← b.finalizeLoad
    return ⟨nKeys, scattered.dataBytes⟩

section

variable {H : Hash} {L : V4.Load} {before : Option (V4.Doc V4.Meta)} {d : V4.Dir}

theorem new_eq (L : V4.Load) :
  V4Builder.new L.layout.nPartitions L.seed = .ok ⟨L.layout, L.seed⟩
  := by
  rw [V4Builder.new, Layout.new_nPartitions]

/-- A directory whose scatter is complete is taken over. -/
theorem wp_scatterParallel_of_phase (h : V4.Phase H L before d) (args : LoadArgs) :
  wp (V4.phases (Scatter.phases _ _ _)) (V4.Phase H L before)
    (fun _ d' => ∃ done, d' = { d with scatterDone := done })
    (scatterParallel ((⟨L.layout, L.seed⟩ : V4Builder).formatBuilder H) args.config args.sources) d
  := by
  apply wp_bind
  apply wp_mono (wp_checkScatterDone h fun _ _ probes => h.setScatterDone _)
  rintro (_ | info) d' hd' hchecked
  · obtain ⟨-, ⟨p, hp, hnone⟩, -⟩ := hchecked
    obtain ⟨probe, hprobe⟩ := h.probe hp
    have hnone' : V4.scatterProbe d.indexAll.isSome (L.dir p d) = .ok none := hnone
    rw [hprobe] at hnone'
    simp at hnone'
  · rcases hchecked with ⟨done, -, -, rfl⟩ | ⟨-, -, probes, rfl⟩
    · exact ⟨hd', _, rfl⟩
    · exact ⟨hd', _, rfl⟩

/-- A load over a directory whose scatter is complete and that no load has completed. -/
theorem wp_loadV4_of_phase (hL : L.Fits) (h : V4.Phase H L before d)
    (hstart : V4.Startable L.layout.nPartitions d) (args : LoadArgs) :
  wp (V4.phases (Scatter.phases _ _ _)) (V4.Phase H L before)
    (fun _ d' => ∃ tables, V4.Finished H L tables d')
    (loadV4 H L.layout.nPartitions L.seed args) d
  := by
  rw [loadV4, new_eq]
  apply wp_bind
  apply wp_mono (wp_scatterParallel_of_phase h args)
  rintro scattered _ hd ⟨done, rfl⟩
  apply wp_bind
  apply wp_mono (V4.wp_finalizeLoad hL rfl rfl hd hstart)
  rintro nKeys d' hd' hfinished
  exact ⟨hd', hfinished⟩

end

/-- Over a directory for which a V4 scatter has completed, whatever loads are made and
wherever they are killed, as long as each of them starts with `index.done` or all spill
files there: when there is metadata that parses, the snapshot serves the scattered
pairs. -/
theorem resumed_load_serves {H : Hash} {layout : Layout} (hcount : layout.nPartitions < 2 ^ 32)
    {seed : UInt64} {kvs : List Pair} (hkeys : (kvs.map Prod.fst).Nodup)
    (hvalues : ∀ kv ∈ kvs, V4.Small kv.2) (hcoll : V4.NoCollisions H layout seed kvs) {d₀ : V4.Dir}
    (hscatter : V4.ScatterCompleted H layout seed kvs d₀)
    {x : Session V4.Dir Error (V4.BuildTasks ⊕ Scatter V4.Dir V4.PartDir PartitionWriter) LoadStats
      LoadArgs}
    {d : V4.Dir}
    (hreach : Reachable (V4.phases (Scatter.phases _ _ _)) (loadV4 H layout.nPartitions seed) (· = d₀)
      (fun _ _ d => V4.Startable layout.nPartitions d) x d) :
  ∀ m, d.metaJson = some (.whole m) → V4.Serves H layout seed kvs d
  := by
  obtain ⟨hindex, hmeta, -, pairs, hpairs, hscattered⟩ := hscatter
  let L : V4.Load := ⟨layout, seed, pairs⟩
  have hL : L.Fits := by
    intro p hp kv hkv
    apply hvalues kv (mem_pairsOf.mp ((hpairs p hp).mem_iff.mp hkv)).1
  have hphase : V4.Phase H L none d := by
    have hsafe := hreach.safe (J := fun _ => V4.Phase H L none)
      (Q := fun _ _ d' => ∃ tables, V4.Finished H L tables d')
      (by
        rintro d rfl
        exact .scattered hscattered hindex hmeta)
      (by
        intro _ args d hd hstart
        apply wp_loadV4_of_phase hL hd hstart args)
    apply hsafe.inv
  intro m hm
  apply (hphase.complete hcount hm).serves hpairs hkeys hcoll

/-! ### A load after the last one -/

/-- The arguments of the loads. -/
def onePairArgs : LoadArgs := ⟨⟨1, 8⟩, [[.ok V4.onePair]]⟩

/-- A load of one pair to one partition. -/
def loadOne (d : V4.Dir) : Option (Except Error LoadStats × V4.Dir) :=
  (loadV4 V4.xxHash 1 defaultVerifySeed onePairArgs).exec V4.partDirs (Scatter.run 16 100) 16 d

/-- The value of the pair's key in a snapshot. -/
def lookupOne (d : V4.Dir) : Except Error (Except Error GetOutcome) :=
  (V4.Snapshot.openPath d).map fun r => r.get V4.xxHash [0x6b, 0x65, 0x79]

/-- There is metadata that parses. -/
def parsed (d : V4.Dir) : Bool :=
  match d.metaJson with
  | some (.whole _) => true
  | _ => false

theorem scatterCompleted_one :
  ∃ c d₀, scatteredV4 [.ok V4.onePair] = some (.ok c, d₀)
    ∧ V4.ScatterCompleted V4.xxHash .one defaultVerifySeed V4.onePair d₀
  := by
  have hrun : (scatteredV4 [.ok V4.onePair]).map (fun x => (outcome x, x.2.indexDone.isNone,
      x.2.metaJson.isNone, x.2.scatterDone.map (·.nPartitions)))
        = some (.ok (.ok ⟨1, 5⟩, true), true, true, some 1) := by
    decide +kernel
  obtain ⟨⟨r, d⟩, hx, hout⟩ := Option.map_eq_some_iff.mp hrun
  obtain ⟨hout, hrest⟩ := Prod.mk.inj hout
  obtain ⟨hindex, hrest⟩ := Prod.mk.inj hrest
  obtain ⟨hmeta, hn⟩ := Prod.mk.inj hrest
  obtain ⟨c, d', hx', hresult, -⟩ := of_outcome (x := some (r, d)) (congrArg some hout)
  obtain ⟨rfl, rfl⟩ := Prod.mk.inj (Option.some.inj hx')
  have hstored := stored_of_v4 (b := V4.oneBuilder) rfl
    (Prog.steps_of_exec (Scatter.run_schedules 16 100) hx)
  obtain ⟨hclosed, hhanded, done, hdone, hformat⟩ :=
    hstored.of_main_ok (Scatter.main_of_result hresult)
  have hpairs : handedPairs ⟨1, 8⟩ [[.ok V4.onePair]] = V4.onePair := by decide +kernel
  rw [hpairs] at hclosed
  choose! pairs hperm hspilled using hclosed
  refine ⟨c, d, hx, Option.isNone_iff_eq_none.mp hindex, Option.isNone_iff_eq_none.mp hmeta,
    ⟨done, hdone, hformat, ?_⟩, pairs, hperm, hspilled⟩
  have hdone' : d.scatterDone = some done := hdone
  dsimp only at hn
  rw [hdone'] at hn
  exact Option.some.inj hn

/-- Two loads run to their ends over a directory whose scatter is complete.  The key is found
after the first, and no longer after the second. -/
theorem second_load_loses :
  ∃ d₀ d₁ d₂, V4.ScatterCompleted V4.xxHash .one defaultVerifySeed V4.onePair d₀
    ∧ loadOne d₀ = some (.ok ⟨1, 0⟩, d₁) ∧ lookupOne d₁ = .ok (.ok (.hit [0x76, 0x61, 0x6c, 0x75, 0x65]))
    ∧ loadOne d₁ = some (.ok ⟨0, 0⟩, d₂) ∧ lookupOne d₂ = .ok (.ok (.miss false))
    ∧ Reachable (V4.phases (Scatter.phases _ _ _)) (loadV4 V4.xxHash 1 defaultVerifySeed) (· = d₀)
      (fun _ _ _ => True) (.returned onePairArgs (.ok ⟨0, 0⟩)) d₂
  := by
  obtain ⟨c, d₀, hscattered, hcompleted⟩ := scatterCompleted_one
  have hruns : ((scatteredV4 [.ok V4.onePair]).bind fun x => (loadOne x.2).bind fun y =>
      (loadOne y.2).map fun z => ((y.1, lookupOne y.2), (z.1, lookupOne z.2)))
        = some ((.ok ⟨1, 0⟩, .ok (.ok (.hit [0x76, 0x61, 0x6c, 0x75, 0x65]))),
          (.ok ⟨0, 0⟩, .ok (.ok (.miss false)))) := by
    decide +kernel
  rw [hscattered, Option.bind_some] at hruns
  obtain ⟨⟨r₁, d₁⟩, hfirst, hrest⟩ := Option.bind_eq_some_iff.mp hruns
  obtain ⟨⟨r₂, d₂⟩, hsecond, hresults⟩ := Option.map_eq_some_iff.mp hrest
  obtain ⟨hone, htwo⟩ := Prod.mk.inj hresults
  obtain ⟨rfl, hhit⟩ := Prod.mk.inj hone
  obtain ⟨rfl, hmiss⟩ := Prod.mk.inj htwo
  refine ⟨d₀, d₁, d₂, hcompleted, hfirst, hhit, hsecond, hmiss, ?_⟩
  have hreach : Reachable (V4.phases (Scatter.phases _ _ _)) (loadV4 V4.xxHash 1 defaultVerifySeed)
      (· = d₀) (fun _ _ _ => True) (.returned onePairArgs (.ok ⟨1, 0⟩)) d₁ :=
    Reachable.exec (Scatter.run_schedules 16 100) (.init rfl) trivial trivial hfirst
  apply Reachable.exec (Scatter.run_schedules 16 100) hreach trivial trivial hsecond

/-- A load is killed when it has deleted the spill file and is about to write the metadata. -/
def killedOne (d : V4.Dir) : V4.Dir :=
  ((loadV4 V4.xxHash 1 defaultVerifySeed onePairArgs).cut V4.partDirs (Scatter.run 16 100) 16 11 d).2

/-- The first load is killed, and the second takes its index over. -/
theorem resumed_load_serves_killed :
  ∃ d₀ d₁, V4.ScatterCompleted V4.xxHash .one defaultVerifySeed V4.onePair d₀
    ∧ (killedOne d₀).metaJson = some .torn ∧ loadOne (killedOne d₀) = some (.ok ⟨1, 0⟩, d₁)
    ∧ V4.Serves V4.xxHash .one defaultVerifySeed V4.onePair d₁
  := by
  obtain ⟨c, d₀, hscattered, hcompleted⟩ := scatterCompleted_one
  have hruns : ((scatteredV4 [.ok V4.onePair]).bind fun x => (loadOne (killedOne x.2)).map fun y =>
      (((x.2.part (partitionDir 1 0)).spill.isSome, (killedOne x.2).indexDone.isSome),
        (killedOne x.2).metaJson, y.1, parsed y.2))
          = some ((true, true), some .torn, .ok ⟨1, 0⟩, true) := by
    decide +kernel
  rw [hscattered, Option.bind_some] at hruns
  obtain ⟨⟨r, d₁⟩, hload, hresults⟩ := Option.map_eq_some_iff.mp hruns
  obtain ⟨hleft, hrest⟩ := Prod.mk.inj hresults
  obtain ⟨hspill, hindex⟩ := Prod.mk.inj hleft
  obtain ⟨htorn, hrest⟩ := Prod.mk.inj hrest
  obtain ⟨rfl, hmeta⟩ := Prod.mk.inj hrest
  have hstart : V4.Startable Layout.one.nPartitions d₀ := by
    right
    intro p hp
    obtain rfl : p = 0 := Nat.lt_one_iff.mp hp
    apply hspill
  have hkilled : Reachable (V4.phases (Scatter.phases _ _ _)) (loadV4 V4.xxHash 1 defaultVerifySeed)
      (· = d₀) (fun _ _ d => V4.Startable Layout.one.nPartitions d) (.idle (some onePairArgs))
      (killedOne d₀) :=
    Reachable.cut (Scatter.run_schedules 16 100) (.init rfl) trivial hstart
  have hreach : Reachable (V4.phases (Scatter.phases _ _ _)) (loadV4 V4.xxHash 1 defaultVerifySeed)
      (· = d₀) (fun _ _ d => V4.Startable Layout.one.nPartitions d)
      (.returned onePairArgs (.ok ⟨1, 0⟩)) d₁ :=
    Reachable.exec (Scatter.run_schedules 16 100) hkilled trivial (.inl hindex) hload
  obtain ⟨m, hm⟩ : ∃ m, d₁.metaJson = some (.whole m) := by
    dsimp only [parsed] at hmeta
    split at hmeta
    · next m hm => exact ⟨m, hm⟩
    · simp at hmeta
  refine ⟨d₀, d₁, hcompleted, htorn, hload, ?_⟩
  apply resumed_load_serves (by decide) (by decide +kernel) _ _ hcompleted hreach m hm
  · intro kv hkv
    apply V4.small_of_le
    rw [List.mem_singleton.mp hkv]
    decide
  · intro kv hkv kv' hkv' _ _
    rw [List.mem_singleton.mp hkv, List.mem_singleton.mp hkv']

end Loader
