import Mcfreeze.Loader.Markers

/-!
# A V4 scatter that is killed

V4 has no marker for a finished partition: the next run infers it from the files, and
takes the count in the header of a spill file at its word, which is `0` until the
partition is finished.  Whether a killed scatter is taken for a finished one so depends on
what the buffers had handed to the files.
-/

open Format Crash

namespace V4

/-! ### Headers -/

/-- The data file is there, and the spill file has its header. -/
def HeaderWritten (t : PartDir) : Prop :=
  t.data.isSome = true ∧ ∃ spill, t.spill = some spill ∧ spillHeaderSize ≤ spill.length

/-- The header of the spill file has a count that is not `0`. -/
def Counted (t : PartDir) : Prop :=
  ∃ spill count, t.spill = some spill ∧ SpillReader.open spill = .ok count ∧ count ≠ 0

section

variable {H : Hash} {seed : UInt64} {l : List Pair} {t : PartDir} {spill : Bytes}

theorem eq_append_of_prefix {c pre post : Bytes} (h : c <+: pre ++ post) (hlen : pre.length ≤ c.length) :
  ∃ rest, rest <+: post ∧ c = pre ++ rest
  := by
  obtain ⟨rest, rfl⟩ : pre <+: c := by
    apply List.prefix_of_prefix_length_le (List.prefix_append pre post) h hlen
  exact ⟨rest, (List.prefix_append_right_inj pre).mp h, rfl⟩

/-- The header of an unfinished partition says that there are no entries. -/
theorem Unfinished.open_eq (h : Unfinished H seed l t) (hspill : t.spill = some spill)
    (hlen : spillHeaderSize ≤ spill.length) :
  SpillReader.open spill = .ok 0
  := by
  obtain ⟨l', entries, -, -, hpre⟩ := h.spill spill hspill
  obtain ⟨rest, -, rfl⟩ := eq_append_of_prefix hpre (by rwa [length_spillHeader])
  apply open_spillHeader (by decide)

theorem Unfinished.not_counted (h : Unfinished H seed l t) (hw : HeaderWritten t) :
  ¬ Counted t
  := by
  obtain ⟨-, spill, hspill, hlen⟩ := hw
  rintro ⟨spill', count, hspill', hopen, hne⟩
  obtain rfl : spill = spill' := Option.some.inj (hspill.symm.trans hspill')
  rw [h.open_eq hspill hlen] at hopen
  apply hne (Except.ok.inj hopen).symm

/-- An unfinished partition without pairs is as good as finished. -/
theorem Unfinished.spilled_nil (h : Unfinished H seed [] t) (hw : HeaderWritten t) :
  Spilled H seed [] t
  := by
  obtain ⟨hdata, spill, hspill, hlen⟩ := hw
  obtain ⟨data, hdata⟩ := Option.isSome_iff_exists.mp hdata
  constructor
  · rw [hdata, List.prefix_nil.mp (h.data data hdata)]
    rfl
  · obtain ⟨l', entries, hl', hentered, hpre⟩ := h.spill spill hspill
    obtain rfl := List.prefix_nil.mp hl'
    obtain rfl : entries = [] := List.length_eq_zero_iff.mp hentered.length
    obtain ⟨rest, hrest, rfl⟩ := eq_append_of_prefix hpre (by rwa [length_spillHeader])
    refine ⟨[], entered_nil, by decide, ?_⟩
    rw [hspill, List.prefix_nil.mp hrest]
    rfl

theorem Spilled.open_eq (h : Spilled H seed l t) :
  ∃ spill, t.spill = some spill ∧ SpillReader.open spill = .ok l.length
  := by
  obtain ⟨-, entries, hentered, hbound, hspill⟩ := h
  refine ⟨_, hspill, ?_⟩
  rw [open_spillHeader hbound, hentered.length]

theorem length_of_open {count : Nat} (h : SpillReader.open spill = .ok count) :
  spillHeaderSize ≤ spill.length
  := by
  rw [SpillReader.open] at h
  split at h
  · simp at h
  · next hlen => apply Nat.not_lt.mp hlen

theorem Spilled.headerWritten (h : Spilled H seed l t) :
  HeaderWritten t
  := by
  obtain ⟨spill, hspill, hopen⟩ := h.open_eq
  refine ⟨?_, spill, hspill, length_of_open hopen⟩
  rw [h.data]
  rfl

/-- A finished spill file counts its entries, unless it has none. -/
theorem Spilled.counted_iff (h : Spilled H seed l t) :
  Counted t ↔ l ≠ []
  := by
  obtain ⟨spill, hspill, hopen⟩ := h.open_eq
  constructor
  · rintro ⟨spill', count, hspill', hopen', hne⟩ rfl
    obtain rfl : spill = spill' := Option.some.inj (hspill.symm.trans hspill')
    rw [hopen] at hopen'
    apply hne (Except.ok.inj hopen').symm
  · intro hne
    refine ⟨spill, l.length, hspill, hopen, ?_⟩
    intro hzero
    apply hne (List.length_eq_zero_iff.mp hzero)

/-- Without an index, only a partition with a header is probed as scattered. -/
theorem headerWritten_of_probe {probe : ScatterProbe} (h : scatterProbe false t = .ok (some probe)) :
  HeaderWritten t
  := by
  rw [scatterProbe] at h
  split at h
  · simp at h
  · next data hdata =>
    split at h
    · next spill hspill =>
      split at h
      · simp at h
      · next count hopen =>
        refine ⟨?_, spill, hspill, length_of_open hopen⟩
        rw [hdata]
        rfl
    · simp at h

theorem probe_of_open {indexed : Bool} {count : Nat} (hw : HeaderWritten t) (hspill : t.spill = some spill)
    (hopen : SpillReader.open spill = .ok count) :
  ∃ probe, scatterProbe indexed t = .ok (some probe)
  := by
  obtain ⟨data, hdata⟩ := Option.isSome_iff_exists.mp hw.1
  refine ⟨⟨count, data.length⟩, ?_⟩
  rw [scatterProbe, hdata, hspill]
  dsimp only
  rw [hopen]

end

end V4

namespace Loader

open V4 (V4Builder PartitionWriter HeaderWritten Counted)

theorem handedPairs_sublist (cfg : Config) (sources : List Source) :
  (handedPairs cfg sources).Sublist (sources.flatMap Source.pairs)
  := by
  induction sources with
  | nil => apply List.Sublist.refl
  | cons source sources ih =>
    rw [handedPairs] at ih ⊢
    rw [List.flatMap_cons, List.flatMap_cons]
    apply List.Sublist.append _ ih
    apply (Source.handed_isPrefix cfg.maxValueBytes source).sublist

/-! ### The directory of a scatter -/

section

variable {H : Hash} {b : V4Builder} {cfg : Config} {sources : List Source} {d : V4.Dir}
  {kvs : List Pair} {p : Nat}

/-- The directory of partition `p`. -/
abbrev partOf (b : V4Builder) (p : Nat) (d : V4.Dir) : V4.PartDir :=
  d.part (b.dirOf p)

/-- Nothing was written for the load yet. -/
structure Blank (b : V4Builder) (d : V4.Dir) : Prop where
  scatterDone : d.scatterDone = none
  indexAll : d.indexAll = none
  parts : ∀ p < b.layout.nPartitions, partOf b p d = .empty

/-- What a directory holds at any point of a scatter. -/
structure Scattering (H : Hash) (b : V4Builder) (cfg : Config) (sources : List Source) (d : V4.Dir) :
    Prop where
  indexAll : d.indexAll = none
  midway : Midway (V4.appenderSpec H b) (handedPairs cfg sources) d
  scatterDone : d.scatterDone = none ∨ (∃ done, d.scatterDone = some done ∧ done.format = .v4)
    ∧ AllClosed (V4.appenderSpec H b) (sources.flatMap Source.pairs) d

/-- A partition with no values and no more than a header is unfinished. -/
theorem unfinished_nil {t : V4.PartDir} (hdata : ∀ c, t.data = some c → c = [])
    (hspill : ∀ c, t.spill = some c → c <+: V4.spillHeader 0) {seed : UInt64} :
  V4.Unfinished H seed [] t
  := by
  constructor
  · intro c hc
    rw [hdata c hc]
    apply List.nil_prefix
  · intro c hc
    refine ⟨[], [], List.prefix_rfl, V4.entered_nil, ?_⟩
    rw [V4.encodeBuckets, List.map_nil, List.flatten_nil, List.append_nil]
    apply hspill c hc

/-- Every point of a scatter is one of the points that a kill can leave. -/
theorem Stored.scattering {c : Scatter V4.Dir V4.PartDir PartitionWriter}
    (h : Stored (V4.appenderSpec H b) cfg sources c d) (hindex : d.indexAll = none) :
  Scattering H b cfg sources d
  := by
  refine ⟨hindex, h.midway, ?_⟩
  by_cases hmain : ∃ st, c.main = .ended (.ok st)
  · obtain ⟨st, hst⟩ := hmain
    obtain ⟨hclosed, hhanded, hdone⟩ := h.of_main_ok hst
    rw [hhanded] at hclosed
    exact .inr ⟨hdone, hclosed⟩
  · left
    apply h.unmarked
    intro st hst
    apply hmain ⟨st, hst⟩

/-- Wherever a scatter is killed, the directory is as it should be. -/
theorem wp_runScatterSources (h : Blank b d) :
  wp (V4.phases (Scatter.phases _ _ _)) (Scattering H b cfg sources) (fun _ _ => True)
    (runScatterSources (b.formatBuilder H) cfg sources) d
  := by
  have hwp : wp (V4.phases (Scatter.phases _ _ _)) (Scattering H b cfg sources)
      (fun c d' => d'.indexAll = none ∧ Stored (V4.appenderSpec H b) cfg sources c d' ∧ c.Final)
      (runTasks (b.formatBuilder H) cfg sources) d := by
    apply wp_runTasks (F := b.formatBuilder H) (G := fun d : V4.Dir => d.indexAll = none)
      (C := fun _ t => V4.Unfinished H b.verifySeed [] t)
    · intro _ _ _ hd
      apply hd
    · intro _ _ hd
      apply hd
    · intro d hindex hnone hparts
      have htorn : ∀ p < b.layout.nPartitions,
          TornFor (V4.appenderSpec H b) (handedPairs cfg sources) p d := by
        intro p hp
        exact ⟨[], by simp, hparts p hp⟩
      refine ⟨hindex, ⟨?_, .inr ?_⟩, .inl hnone⟩
      · intro p hp
        exact .inl (htorn p hp)
      · intro p hp
        exact .inl (htorn p hp)
    · intro c d hindex hstored
      apply hstored.scattering hindex
    · intro p hp t ht
      apply V4.wp_newWriter ht
      · refine ⟨?_, ht.spill⟩
        rintro _ ⟨⟩
        apply List.nil_prefix
      · intro t' ht'
        apply ht'
    · apply h.indexAll
    · apply h.scatterDone
    · intro p hp
      show V4.Unfinished H b.verifySeed [] (partOf b p d)
      rw [h.parts p hp]
      apply unfinished_nil
      · rintro _ ⟨⟩
      · rintro _ ⟨⟩
  apply wp_bind
  apply wp_mono hwp
  rintro c d' hd' -
  apply wp_ofExcept hd'
  intro _ _
  trivial

/-! ### When the next run is right -/

/-- A scatter that is taken over has written the headers of all partitions. -/
theorem Scattering.headerWritten (h : Scattering H b cfg sources d)
    (htakes : TakesOver (b.formatBuilder H) d) :
  ∀ p < b.layout.nPartitions, HeaderWritten (partOf b p d)
  := by
  intro p hp
  rcases h.scatterDone with hnone | ⟨-, hclosed⟩
  · rcases takesOver_iff.mp htakes with ⟨done, hdone, -⟩ | ⟨-, hprobed⟩
    · have hsome : d.scatterDone = some done := hdone
      rw [hnone] at hsome
      simp at hsome
    · obtain ⟨probe, hprobe⟩ := hprobed p hp
      have hprobe' : V4.scatterProbe d.indexAll.isSome (partOf b p d) = .ok (some probe) := hprobe
      rw [h.indexAll] at hprobe'
      apply V4.headerWritten_of_probe hprobe'
  · obtain ⟨l, -, hl⟩ := hclosed p hp
    apply V4.Spilled.headerWritten hl

/-- A scatter that has written the headers of all partitions is taken over. -/
theorem Scattering.takesOver (h : Scattering H b cfg sources d)
    (hw : ∀ p < b.layout.nPartitions, HeaderWritten (partOf b p d)) :
  TakesOver (b.formatBuilder H) d
  := by
  rw [takesOver_iff]
  rcases h.scatterDone with hnone | ⟨hdone, -⟩
  · right
    refine ⟨hnone, ?_⟩
    intro p hp
    obtain ⟨-, spill, hspill, hlen⟩ := hw p hp
    rcases h.midway.parts p hp with ⟨l, -, htorn⟩ | ⟨l, hclosed⟩
    · apply V4.probe_of_open (hw p hp) hspill (V4.Unfinished.open_eq htorn hspill hlen)
    · obtain ⟨spill', hspill', hopen⟩ := V4.Spilled.open_eq hclosed
      apply V4.probe_of_open (hw p hp) hspill' hopen
  · left
    apply hdone

/-- The partition was given all its records, and its spill file says so. -/
def Accounted (H : Hash) (b : V4Builder) (cfg : Config) (sources : List Source) (p : Nat) (d : V4.Dir) :
    Prop :=
  pairsOf H b.layout (handedPairs cfg sources) p = pairsOf H b.layout (sources.flatMap Source.pairs) p
    ∧ (pairsOf H b.layout (sources.flatMap Source.pairs) p ≠ [] → Counted (partOf b p d))

/-- When all partitions are accounted for, scatter is complete. -/
theorem Scattering.allClosed (h : Scattering H b cfg sources d)
    (hw : ∀ p < b.layout.nPartitions, HeaderWritten (partOf b p d))
    (hacc : ∀ p < b.layout.nPartitions, Accounted H b cfg sources p d) :
  AllClosed (V4.appenderSpec H b) (sources.flatMap Source.pairs) d
  := by
  intro p hp
  obtain ⟨hsame, hcounted⟩ := hacc p hp
  rcases h.midway.whole with ⟨q, hq, hne, l, -, htorn⟩ | hall
  · obtain ⟨hsame', hcounted'⟩ := hacc q hq
    have hne' : pairsOf H b.layout (sources.flatMap Source.pairs) q ≠ [] := by
      rw [← hsame']
      apply hne
    exact absurd (hcounted' hne') (V4.Unfinished.not_counted htorn (hw q hq))
  · rcases hall p hp with ⟨l, hl, htorn⟩ | ⟨l, hperm, hclosed⟩
    · have hnil : pairsOf H b.layout (sources.flatMap Source.pairs) p = [] := by
        by_contra hne
        exact V4.Unfinished.not_counted htorn (hw p hp) (hcounted hne)
      obtain rfl : l = [] := by
        apply List.eq_nil_iff_forall_not_mem.mpr
        intro kv hkv
        have hmem : kv ∈ pairsOf H b.layout (handedPairs cfg sources) p := hl kv hkv
        rw [hsame, hnil] at hmem
        simp at hmem
      refine ⟨[], ?_, V4.Unfinished.spilled_nil htorn (hw p hp)⟩
      show List.Perm [] (pairsOf H b.layout (sources.flatMap Source.pairs) p)
      rw [hnil]
    · refine ⟨l, ?_, hclosed⟩
      have hperm' : l.Perm (pairsOf H b.layout (handedPairs cfg sources) p) := hperm
      rwa [hsame] at hperm'

/-- When scatter is complete, all partitions are accounted for. -/
theorem Scattering.accounted (h : Scattering H b cfg sources d)
    (hw : ∀ p < b.layout.nPartitions, HeaderWritten (partOf b p d))
    (hclosed : AllClosed (V4.appenderSpec H b) (sources.flatMap Source.pairs) d) :
  ∀ p < b.layout.nPartitions, Accounted H b cfg sources p d
  := by
  have hspilled : ∀ p < b.layout.nPartitions, ∃ l : List Pair,
      l.Perm (pairsOf H b.layout (sources.flatMap Source.pairs) p)
        ∧ V4.Spilled H b.verifySeed l (partOf b p d) := hclosed
  have hsub : ∀ p, (pairsOf H b.layout (handedPairs cfg sources) p).Sublist
      (pairsOf H b.layout (sources.flatMap Source.pairs) p) := by
    intro p
    apply (handedPairs_sublist cfg sources).filter
  have hnil : ∀ p < b.layout.nPartitions, ∀ l, V4.Unfinished H b.verifySeed l (partOf b p d) →
      pairsOf H b.layout (sources.flatMap Source.pairs) p = [] := by
    intro p hp l htorn
    obtain ⟨l', hperm, hl'⟩ := hspilled p hp
    have hempty : l' = [] := by
      by_contra hne
      exact htorn.not_counted (hw p hp) (hl'.counted_iff.mpr hne)
    rw [hempty] at hperm
    apply List.nil_perm.mp hperm
  intro p hp
  obtain ⟨l, hperm, hl⟩ := hspilled p hp
  constructor
  · rcases h.midway.whole with ⟨q, hq, hne, l', -, htorn⟩ | hall
    · have hzero := hsub q
      rw [hnil q hq l' htorn] at hzero
      exact absurd (List.sublist_nil.mp hzero) hne
    · rcases hall p hp with ⟨l', -, htorn⟩ | ⟨l', hperm', hclosed'⟩
      · have hzero := hsub p
        rw [hnil p hp l' htorn] at hzero ⊢
        apply List.sublist_nil.mp hzero
      · apply (hsub p).eq_of_length
        obtain ⟨spill, hspill, hopen⟩ := hl.open_eq
        obtain ⟨spill', hspill', hopen'⟩ := V4.Spilled.open_eq hclosed'
        obtain rfl : spill = spill' := Option.some.inj (hspill.symm.trans hspill')
        rw [hopen] at hopen'
        have hlength : l'.length = (pairsOf H b.layout (handedPairs cfg sources) p).length :=
          hperm'.length_eq
        rw [← hlength, ← hperm.length_eq]
        apply (Except.ok.inj hopen').symm
  · intro hne
    apply hl.counted_iff.mpr
    intro heq
    rw [heq] at hperm
    apply hne (List.nil_perm.mp hperm)

end

/-- A V4 scatter over an empty directory that is killed at some point, whatever had reached
the files: the next run takes it for a finished one only if it is, exactly if the spill
file of some partition does not have its header yet, or every partition was given all its
records and the spill file of every one that has records has its count. -/
theorem killed_not_taken_over_iff {H : Hash} {b : V4Builder} {cfg : Config} {sources : List Source}
    {d₀ d : V4.Dir} (hblank : Blank b d₀)
    {p : V4.Root (Scatter V4.Dir V4.PartDir PartitionWriter) ScatterStats}
    (hrun : Prog.Steps (V4.phases (Scatter.phases _ _ _))
      (runScatterSources (b.formatBuilder H) cfg sources) d₀ p d) :
  (TakesOver (b.formatBuilder H) d → AllClosed (V4.appenderSpec H b) (sources.flatMap Source.pairs) d)
    ↔ (∃ p < b.layout.nPartitions, ¬ HeaderWritten (partOf b p d))
      ∨ ∀ p < b.layout.nPartitions, Accounted H b cfg sources p d
  := by
  have hd : Scattering H b cfg sources d := wp_inv (wp_steps (wp_runScatterSources hblank) hrun)
  constructor
  · intro hright
    by_cases hw : ∀ p < b.layout.nPartitions, HeaderWritten (partOf b p d)
    · right
      apply hd.accounted hw (hright (hd.takesOver hw))
    · left
      push Not at hw
      apply hw
  · rintro (⟨p, hp, hnot⟩ | hacc) htakes
    · exact absurd (hd.headerWritten htakes p hp) hnot
    · apply hd.allClosed (hd.headerWritten htakes) hacc

/-- A load of two records is killed when its appender is created, and `k` bytes of the
header have reached the spill file. -/
def createdV4 (k : Nat) : Option (Except Error (List PartitionWriter) × V4.Dir) :=
  let create : V4.Root (Scatter V4.Dir V4.PartDir PartitionWriter) _ :=
    (V4.oneBuilder.formatBuilder V4.xxHash).createAppenders (List.range 1)
  create.exec V4.partDirs (Scatter.run 0 0) k V4.Dir.empty

/-- The two records, to be scattered to one partition. -/
def twoRecords : V4.Root (Scatter V4.Dir V4.PartDir PartitionWriter) ScatterStats :=
  runScatterSources (V4.oneBuilder.formatBuilder V4.xxHash) ⟨1, 8⟩ [wholeSource]

theorem steps_of_createdV4 {k : Nat} {r : Except Error (List PartitionWriter)} {d : V4.Dir}
    (h : createdV4 k = some (r, d)) :
  ∃ p, Prog.Steps (V4.phases (Scatter.phases _ _ _)) twoRecords V4.Dir.empty p d
  :=
  ⟨_, (Prog.steps_of_exec (Scatter.run_schedules 0 0) h).bind.bind⟩

/-- The header has reached the spill file, and the next run takes it at its word. -/
theorem created_taken_over :
  ∃ p d, Prog.Steps (V4.phases (Scatter.phases _ _ _)) twoRecords V4.Dir.empty p d
    ∧ TakesOver (V4.oneBuilder.formatBuilder V4.xxHash) d
    ∧ ¬ AllClosed (V4.appenderSpec V4.xxHash V4.oneBuilder) wholeSource.pairs d
  := by
  have hcreated : (createdV4 16).map (fun x => (x.2.scatterDone,
      (V4.oneBuilder.formatBuilder V4.xxHash).scatterProbe 0 x.2)) = some (none, .ok (some ⟨0, 0⟩)) := by
    decide +kernel
  obtain ⟨⟨r, d⟩, hrun, hd⟩ := Option.map_eq_some_iff.mp hcreated
  obtain ⟨hdone, hprobe⟩ := Prod.mk.inj hd
  obtain ⟨p, hsteps⟩ := steps_of_createdV4 hrun
  refine ⟨p, d, hsteps, ?_, ?_⟩
  · rw [takesOver_iff]
    right
    refine ⟨hdone, ?_⟩
    intro q hq
    obtain rfl : q = 0 := Nat.lt_one_iff.mp hq
    exact ⟨_, hprobe⟩
  · intro hclosed
    obtain ⟨l, hperm, hl⟩ := hclosed 0 (by decide)
    obtain ⟨bytes, hprobe'⟩ := V4.probes_appenderSpec hl
    rw [hprobe] at hprobe'
    have hcount : 0 = l.length := congrArg ScatterProbe.nKeys (Option.some.inj (Except.ok.inj hprobe'))
    rw [hperm.length_eq] at hcount
    revert hcount
    decide +kernel

theorem blank_empty (b : V4Builder) :
  Blank b V4.Dir.empty
  :=
  ⟨rfl, rfl, fun _ _ => rfl⟩

theorem killed_not_taken_over_iff_half :
  ∃ p d, Prog.Steps (V4.phases (Scatter.phases _ _ _)) twoRecords V4.Dir.empty p d
    ∧ (TakesOver (V4.oneBuilder.formatBuilder V4.xxHash) d →
      AllClosed (V4.appenderSpec V4.xxHash V4.oneBuilder) wholeSource.pairs d)
  := by
  have hcreated : (createdV4 8).map (fun x => (partOf V4.oneBuilder 0 x.2).spill)
      = some (some V4.spillMagic) := by decide +kernel
  obtain ⟨⟨r, d⟩, hrun, hd⟩ := Option.map_eq_some_iff.mp hcreated
  have hspill : (partOf V4.oneBuilder 0 d).spill = some V4.spillMagic := hd
  obtain ⟨p, hsteps⟩ := steps_of_createdV4 hrun
  refine ⟨p, d, hsteps, ?_⟩
  apply (killed_not_taken_over_iff (blank_empty V4.oneBuilder) hsteps).mpr
  left
  refine ⟨0, by decide, ?_⟩
  rintro ⟨-, spill, hsome, hlen⟩
  rw [hspill] at hsome
  rw [← Option.some.inj hsome] at hlen
  revert hlen
  decide

end Loader
