import Mcfreeze.Loader.Stored
import Mcfreeze.V5.Appender

/-!
# Completion markers

A writer learns that the load has ended by its channel closing, which looks the same
whether the producers have sent everything or one of them has failed.  So the writers
finish their partitions after a failure as well, and the next run takes the scatter for
complete: rightly so exactly if the sources had handed over all their records.
-/

open Format Crash

namespace Loader

/-! ### What the sources hand over -/

/-- A source hands over its first pairs. -/
theorem Source.handed_isPrefix (cap : Nat) (source : Source) :
  source.handed cap <+: source.pairs
  := by
  induction source with
  | nil => apply List.prefix_rfl
  | cons x rest ih =>
    cases x with
    | error e => apply List.nil_prefix
    | ok batch =>
      rw [Source.handed, Source.pairs]
      split
      · apply List.nil_prefix
      · rwa [List.prefix_append_right_inj]

theorem length_handedPairs_le (cfg : Config) (sources : List Source) :
  (handedPairs cfg sources).length ≤ (sources.flatMap Source.pairs).length
  := by
  induction sources with
  | nil => apply Nat.le_refl
  | cons source sources ih =>
    rw [handedPairs] at ih ⊢
    rw [List.flatMap_cons, List.flatMap_cons, List.length_append, List.length_append]
    apply Nat.add_le_add _ ih
    apply (Source.handed_isPrefix cfg.maxValueBytes source).length_le

/-- Sources that hand over as many pairs as they have hand over all of them. -/
theorem handed_eq_pairs {cfg : Config} {sources : List Source}
    (h : (handedPairs cfg sources).length = (sources.flatMap Source.pairs).length) :
  ∀ source ∈ sources, source.handed cfg.maxValueBytes = source.pairs
  := by
  induction sources with
  | nil =>
    intro source hsource
    simp at hsource
  | cons source sources ih =>
    have hfirst := (Source.handed_isPrefix cfg.maxValueBytes source).length_le
    have hrest := length_handedPairs_le cfg sources
    rw [handedPairs] at h hrest
    rw [List.flatMap_cons, List.flatMap_cons, List.length_append, List.length_append] at h
    intro source' hsource'
    rcases List.mem_cons.mp hsource' with rfl | hsource'
    · apply (Source.handed_isPrefix cfg.maxValueBytes source').eq_of_length
      omega
    · apply ih _ source' hsource'
      rw [handedPairs]
      omega

theorem handedPairs_eq {cfg : Config} {sources : List Source}
    (h : ∀ source ∈ sources, source.handed cfg.maxValueBytes = source.pairs) :
  handedPairs cfg sources = sources.flatMap Source.pairs
  := by
  apply List.flatMap_congr h

/-- The partitions divide the pairs. -/
theorem length_eq_of_pairsOf (H : Hash) (layout : Layout) {kvs kvs' : List Pair}
    (h : ∀ p < layout.nPartitions, (pairsOf H layout kvs p).length = (pairsOf H layout kvs' p).length) :
  kvs.length = kvs'.length
  := by
  have hsum : ∀ l : List Pair,
      l.length = ((List.range layout.nPartitions).map fun p => (pairsOf H layout l p).length).sum := by
    intro l
    have hperm := List.flatMap_range_filter_perm
      (fun kv : Pair => layout.partitionOf (fingerprint H kv.1)) l layout.nPartitions
    rw [List.filter_eq_self.mpr (by
      intro kv _
      simpa using layout.partitionOf_lt (fingerprint H kv.1))] at hperm
    rw [← hperm.length_eq, List.length_flatMap]
    rfl
  rw [hsum kvs, hsum kvs']
  congr 1
  apply List.map_congr_left
  intro p hp
  apply h p (List.mem_range.mp hp)

/-! ### Closed partitions are probed as scattered -/

section

variable {σ τ App : Type} {F : FormatBuilder σ τ App} {spec : AppenderSpec F} {cfg : Config}
  {sources : List Source} {c : Scatter σ τ App} {s : σ} {kvs kvs' : List Pair}

/-- The probe counts the pairs of a closed partition. -/
def Probes (spec : AppenderSpec F) : Prop :=
  ∀ {l : List Pair} {p : Nat} {s : σ}, spec.closed l (F.part p s) →
    ∃ bytes, F.scatterProbe p s = .ok (some ⟨l.length, bytes⟩)

theorem AllClosed.allProbed (h : AllClosed spec kvs s) (hprobes : Probes spec) :
  AllProbed F s
  := by
  intro p hp
  obtain ⟨l, -, hclosed⟩ := h p hp
  obtain ⟨bytes, hprobe⟩ := hprobes hclosed
  exact ⟨_, hprobe⟩

/-- Partitions are closed with as many pairs as they have. -/
theorem AllClosed.length_eq (h : AllClosed spec kvs s) (h' : AllClosed spec kvs' s)
    (hprobes : Probes spec) :
  kvs.length = kvs'.length
  := by
  apply length_eq_of_pairsOf F.hash F.layout
  intro p hp
  obtain ⟨l, hperm, hclosed⟩ := h p hp
  obtain ⟨l', hperm', hclosed'⟩ := h' p hp
  obtain ⟨bytes, hprobe⟩ := hprobes hclosed
  obtain ⟨bytes', hprobe'⟩ := hprobes hclosed'
  rw [← hperm.length_eq, ← hperm'.length_eq]
  rw [hprobe] at hprobe'
  have heq := Option.some.inj (Except.ok.inj hprobe')
  apply congrArg ScatterProbe.nKeys heq

/-- The next run takes over what the writers have finished. -/
theorem Stored.takesOver (h : Stored spec cfg sources c s)
    (hclosed : AllClosed spec kvs s) (hprobes : Probes spec) :
  TakesOver F s
  := by
  rw [takesOver_iff]
  by_cases hmain : ∃ st, c.main = .ended (.ok st)
  · obtain ⟨st, hst⟩ := hmain
    left
    apply (h.of_main_ok hst).2.2
  · right
    refine ⟨h.unmarked ?_, hclosed.allProbed hprobes⟩
    intro st hst
    apply hmain ⟨st, hst⟩

/-- When the writers have run to completion, the next run rightly takes the scatter for
complete exactly if the sources have handed over all their records. -/
theorem Stored.honest_iff (h : Stored spec cfg sources c s) (hprobes : Probes spec)
    (hended : ∀ p < F.n, ∃ st, (c.writers p).state = .ended (.ok st)) :
  (TakesOver F s → AllClosed spec (sources.flatMap Source.pairs) s)
    ↔ ∀ source ∈ sources, source.handed cfg.maxValueBytes = source.pairs
  := by
  have hclosed := h.allClosed hended
  constructor
  · intro hhonest
    have hall := hhonest (h.takesOver hclosed hprobes)
    apply handed_eq_pairs (hclosed.length_eq hall hprobes)
  · intro hhanded _
    rw [← handedPairs_eq hhanded]
    apply hclosed

end

end Loader

/-! ### The two formats -/

namespace V4

instance : Inhabited PartitionWriter := ⟨⟨[], 0, [], 0⟩⟩

variable {H : Hash} {b : V4Builder}

theorem probes_appenderSpec :
  Loader.Probes (appenderSpec H b)
  := by
  intro l p d hclosed
  obtain ⟨hdata, entries, hentered, hbound, hspill⟩ : Spilled H b.verifySeed l (d.part (b.dirOf p)) :=
    hclosed
  refine ⟨(encodeValues H b.verifySeed l).length, ?_⟩
  show scatterProbe d.indexAll.isSome (d.part (b.dirOf p)) = _
  rw [scatterProbe, hdata, hspill]
  dsimp only
  rw [open_spillHeader hbound, hentered.length]

end V4

namespace V5

instance : Inhabited V5Appender := ⟨⟨[], 0, 0, []⟩⟩

variable {E : Env} {b : V5Builder}

theorem probes_appenderSpec :
  Loader.Probes (appenderSpec E b)
  := by
  intro l p d hclosed
  obtain ⟨-, hist, hlog⟩ : Logged (framesFor E b l) (d.part (b.dirOf p)) := hclosed
  refine ⟨(encodeFrames (framesFor E b l)).length, ?_⟩
  show Except.ok (scatterProbe (d.part (b.dirOf p))) = _
  rw [scatterProbe, hlog.stats]
  dsimp only
  rw [List.length_map]

end V5

namespace Loader

open V4 (V4Builder PartitionWriter)
open V5 (V5Builder V5Appender)

/-- What a run of the tasks of a V4 load leaves behind. -/
theorem stored_of_v4 {H : Hash} {b : V4Builder} {cfg : Config} {sources : List Source} {d₀ d : V4.Dir}
    {c : Scatter V4.Dir V4.PartDir PartitionWriter} (hnone : d₀.scatterDone = none)
    (hrun : Prog.Steps (V4.phases (Scatter.phases _ _ _)) (runTasks (b.formatBuilder H) cfg sources) d₀
      (.done (.ok c)) d) :
  Stored (V4.appenderSpec H b) cfg sources c d
  := by
  have hwp : wp (V4.phases (Scatter.phases _ _ _)) (fun _ => True)
      (fun c d' => True ∧ Stored (V4.appenderSpec H b) cfg sources c d' ∧ c.Final)
      (runTasks (b.formatBuilder H) cfg sources) d₀ :=
    wp_runTasks (G := fun _ => True) (C := fun _ _ => True) (fun _ _ _ _ => trivial)
      (fun _ _ _ => trivial) (fun _ _ _ _ => trivial) (fun _ _ _ _ => trivial)
      (fun _ _ _ _ => V4.wp_newWriter (H := H) trivial trivial (fun _ _ => trivial)) trivial hnone
      (fun _ _ => trivial)
  apply (wp_steps hwp hrun).2.2.1

/-- What a run of the tasks of a V5 load leaves behind. -/
theorem stored_of_v5 {E : V5.Env} {b : V5Builder} {cfg : Config} {sources : List Source} {d₀ d : V5.Dir}
    {c : Scatter V5.Dir V5.PartDir V5Appender} (hnone : d₀.scatterDone = none)
    (hbuilt : ∀ p < b.layout.nPartitions, (d₀.part (b.dirOf p)).buildDone = none)
    (hrun : Prog.Steps (V5.phases (Scatter.phases _ _ _)) (runTasks (b.formatBuilder E) cfg sources) d₀
      (.done (.ok c)) d) :
  Stored (V5.appenderSpec E b) cfg sources c d
  := by
  have hwp : wp (V5.phases (Scatter.phases _ _ _)) (fun _ => True)
      (fun c d' => True ∧ Stored (V5.appenderSpec E b) cfg sources c d' ∧ c.Final)
      (runTasks (b.formatBuilder E) cfg sources) d₀ :=
    wp_runTasks (G := fun _ => True) (C := fun _ t => t.buildDone = none) (fun _ _ _ _ => trivial)
      (fun _ _ _ => trivial) (fun _ _ _ _ => trivial) (fun _ _ _ _ => trivial)
      (fun _ _ _ ht => V5.wp_createAppender ht (fun _ h => h.1) ht) trivial hnone hbuilt
  apply (wp_steps hwp hrun).2.2.1

/-- A later run over a directory does not take a partial scatter for complete: for both
formats, in the state after all tasks of a scatter have ended and the writers have run to
completion, this holds exactly if every source has handed over all its records. -/
theorem partial_not_taken_over_iff (cfg : Config) (sources : List Source) :
  (∀ (H : Hash) (b : V4Builder) (d₀ d : V4.Dir)
      (c : Scatter V4.Dir V4.PartDir PartitionWriter), d₀.scatterDone = none →
    Prog.Steps (V4.phases (Scatter.phases _ _ _)) (runTasks (b.formatBuilder H) cfg sources) d₀
      (.done (.ok c)) d →
    (∀ p < b.layout.nPartitions, ∃ st, (c.writers p).state = .ended (.ok st)) →
    ((TakesOver (b.formatBuilder H) d → AllClosed (V4.appenderSpec H b) (sources.flatMap Source.pairs) d)
      ↔ ∀ source ∈ sources, source.handed cfg.maxValueBytes = source.pairs))
  ∧ ∀ (E : V5.Env) (b : V5Builder) (d₀ d : V5.Dir)
      (c : Scatter V5.Dir V5.PartDir V5Appender), d₀.scatterDone = none →
    (∀ p < b.layout.nPartitions, (d₀.part (b.dirOf p)).buildDone = none) →
    Prog.Steps (V5.phases (Scatter.phases _ _ _)) (runTasks (b.formatBuilder E) cfg sources) d₀
      (.done (.ok c)) d →
    (∀ p < b.layout.nPartitions, ∃ st, (c.writers p).state = .ended (.ok st)) →
    ((TakesOver (b.formatBuilder E) d → AllClosed (V5.appenderSpec E b) (sources.flatMap Source.pairs) d)
      ↔ ∀ source ∈ sources, source.handed cfg.maxValueBytes = source.pairs)
  := by
  constructor
  · intro H b d₀ d c hnone hrun hended
    apply (stored_of_v4 hnone hrun).honest_iff V4.probes_appenderSpec hended
  · intro E b d₀ d c hnone hbuilt hrun hended
    apply (stored_of_v5 hnone hbuilt hrun).honest_iff V5.probes_appenderSpec hended

/-! ### A source that fails -/

/-- All writers have ended well. -/
def writersEnded {σ τ App : Type} (c : Scatter σ τ App) : Bool :=
  (List.range c.builder.n).all fun p =>
    match (c.writers p).state with
    | .ended (.ok _) => true
    | _ => false

section

variable {σ τ App : Type} {F : FormatBuilder σ τ App} {spec : AppenderSpec F} {cfg : Config}
  {sources : List Source} {c : Scatter σ τ App} {s : σ}

theorem Stored.ended (h : Stored spec cfg sources c s) (hended : writersEnded c = true) :
  ∀ p < F.n, ∃ st, (c.writers p).state = .ended (.ok st)
  := by
  intro p hp
  rw [← h.builder] at hp
  have hstate := List.all_eq_true.mp hended p (List.mem_range.mpr hp)
  split at hstate
  · next st hst => exact ⟨st, hst⟩
  · simp at hstate

/-- When the writers have ended without some of the records, the next run takes over a
partial scatter. -/
theorem Stored.partial_taken_over (h : Stored spec cfg sources c s) (hended : writersEnded c = true)
    (hprobes : Probes spec)
    (hlength : (handedPairs cfg sources).length ≠ (sources.flatMap Source.pairs).length) :
  TakesOver F s ∧ ¬ AllClosed spec (sources.flatMap Source.pairs) s
  := by
  have hclosed := h.allClosed (h.ended hended)
  refine ⟨h.takesOver hclosed hprobes, ?_⟩
  intro hall
  apply hlength (hclosed.length_eq hall hprobes)

end

/-- A source that fails between its two records. -/
def failingSource : Source :=
  [.ok [([0x61], [1])], .error "connection reset", .ok [([0x62], [2])]]

/-- Scatter to one V4 partition. -/
def scatteredV4 (source : Source) :
    Option (Except Error (Scatter V4.Dir V4.PartDir PartitionWriter) × V4.Dir) :=
  let tasks : V4.Root (Scatter V4.Dir V4.PartDir PartitionWriter) _ :=
    runTasks (V4.oneBuilder.formatBuilder V4.xxHash) ⟨1, 8⟩ [source]
  tasks.exec V4.partDirs (Scatter.run 16 100) 16 V4.Dir.empty

/-- Scatter to one V5 partition. -/
def scatteredV5 (source : Source) :
    Option (Except Error (Scatter V5.Dir V5.PartDir V5Appender) × V5.Dir) :=
  let tasks : V5.Root (Scatter V5.Dir V5.PartDir V5Appender) _ :=
    runTasks (V5.plainBuilder.formatBuilder V5.plainEnv) ⟨1, 8⟩ [source]
  tasks.exec V5.partDirs (Scatter.run 16 100) 16 V5.Dir.empty

/-- What the main task returned, and whether all writers have ended well. -/
def outcome {σ τ App : Type} (x : Except Error (Scatter σ τ App) × σ) :
    Except Error (Except Error ScatterStats × Bool) :=
  x.1.map fun c => (c.result, writersEnded c)

theorem of_outcome {σ τ App : Type} {x : Option (Except Error (Scatter σ τ App) × σ)}
    {r : Except Error ScatterStats} (h : x.map outcome = some (.ok (r, true))) :
  ∃ c s, x = some (.ok c, s) ∧ c.result = r ∧ writersEnded c = true
  := by
  obtain ⟨⟨r', s⟩, hx, hr⟩ := Option.map_eq_some_iff.mp h
  cases r' with
  | error e => simp [outcome, Except.map] at hr
  | ok c =>
    obtain ⟨hresult, hended⟩ := Prod.mk.inj (Except.ok.inj hr)
    exact ⟨c, s, hx, hresult, hended⟩

/-- The source fails, the load returns its error, and the next run takes the scatter for
complete, which it is not. -/
theorem failingSource_taken_over :
  (∃ c d, scatteredV4 failingSource = some (.ok c, d)
      ∧ c.result = .error (.source "connection reset")
      ∧ TakesOver (V4.oneBuilder.formatBuilder V4.xxHash) d
      ∧ ¬ AllClosed (V4.appenderSpec V4.xxHash V4.oneBuilder) failingSource.pairs d)
    ∧ ∃ c d, scatteredV5 failingSource = some (.ok c, d)
      ∧ c.result = .error (.source "connection reset")
      ∧ TakesOver (V5.plainBuilder.formatBuilder V5.plainEnv) d
      ∧ ¬ AllClosed (V5.appenderSpec V5.plainEnv V5.plainBuilder) failingSource.pairs d
  := by
  have hpairs : [failingSource].flatMap Source.pairs = failingSource.pairs :=
    List.flatMap_singleton _ _
  have hlength : (handedPairs ⟨1, 8⟩ [failingSource]).length
      ≠ ([failingSource].flatMap Source.pairs).length := by
    decide +kernel
  rw [← hpairs]
  constructor
  · have hrun : (scatteredV4 failingSource).map outcome
        = some (.ok (.error (.source "connection reset"), true)) := by decide +kernel
    obtain ⟨c, d, hx, hresult, hended⟩ := of_outcome hrun
    have hstored := stored_of_v4 (b := V4.oneBuilder) rfl
      (Prog.steps_of_exec (Scatter.run_schedules 16 100) hx)
    exact ⟨c, d, hx, hresult, hstored.partial_taken_over hended V4.probes_appenderSpec hlength⟩
  · have hrun : (scatteredV5 failingSource).map outcome
        = some (.ok (.error (.source "connection reset"), true)) := by decide +kernel
    obtain ⟨c, d, hx, hresult, hended⟩ := of_outcome hrun
    have hstored := stored_of_v5 (b := V5.plainBuilder) rfl (fun _ _ => rfl)
      (Prog.steps_of_exec (Scatter.run_schedules 16 100) hx)
    exact ⟨c, d, hx, hresult, hstored.partial_taken_over hended V5.probes_appenderSpec hlength⟩

/-- A source that does not fail. -/
def wholeSource : Source :=
  [.ok [([0x61], [1])], .ok [([0x62], [2])]]

theorem partial_not_taken_over_iff_whole :
  (∃ c d, scatteredV4 wholeSource = some (.ok c, d)
      ∧ (TakesOver (V4.oneBuilder.formatBuilder V4.xxHash) d →
        AllClosed (V4.appenderSpec V4.xxHash V4.oneBuilder) wholeSource.pairs d))
    ∧ ∃ c d, scatteredV5 wholeSource = some (.ok c, d)
      ∧ (TakesOver (V5.plainBuilder.formatBuilder V5.plainEnv) d →
        AllClosed (V5.appenderSpec V5.plainEnv V5.plainBuilder) wholeSource.pairs d)
  := by
  have hhanded : ∀ source ∈ [wholeSource], source.handed 8 = source.pairs := by decide +kernel
  constructor
  · have hrun : (scatteredV4 wholeSource).map outcome = some (.ok (.ok ⟨2, 2⟩, true)) := by
      decide +kernel
    obtain ⟨c, d, hx, -, hended⟩ := of_outcome hrun
    have hsteps := Prog.steps_of_exec (Scatter.run_schedules 16 100) hx
    have hstored := stored_of_v4 (b := V4.oneBuilder) rfl hsteps
    refine ⟨c, d, hx, ?_⟩
    apply ((partial_not_taken_over_iff _ _).1 V4.xxHash V4.oneBuilder _ d c rfl hsteps _).mpr hhanded
    apply hstored.ended hended
  · have hrun : (scatteredV5 wholeSource).map outcome = some (.ok (.ok ⟨2, 2⟩, true)) := by
      decide +kernel
    obtain ⟨c, d, hx, -, hended⟩ := of_outcome hrun
    have hsteps := Prog.steps_of_exec (Scatter.run_schedules 16 100) hx
    have hstored := stored_of_v5 (b := V5.plainBuilder) rfl (fun _ _ => rfl) hsteps
    refine ⟨c, d, hx, ?_⟩
    apply ((partial_not_taken_over_iff _ _).2 V5.plainEnv V5.plainBuilder _ d c rfl (fun _ _ => rfl) hsteps
      _).mpr hhanded
    apply hstored.ended hended

end Loader
