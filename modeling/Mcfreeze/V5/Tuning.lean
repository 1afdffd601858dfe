import Mcfreeze.V5.Appender
import Mcfreeze.Lib.Histogram
import Mathlib.Data.Nat.Size
import Mathlib.Tactic.IntervalCases

/-!
# Tuning the block size

The appenders count the records of their partitions by the number of bits of the record
size, the builder adds the counts up, and takes twice the size of the median record, to the
next power of two, as the block size (`auto_tune_block_size` in `v5/builder.rs`).

A size that is itself a power of two is counted in the class of the sizes above it, so a
median of such a size is doubled once too often.
-/

open Format Crash Files Histogram

namespace V5

open V5Builder

/-! ### Powers of two -/

/-- The width of a number is its size in binary. -/
theorem bitWidth_eq_size (n : Nat) :
  bitWidth n = n.size
  := by
  rw [bitWidth]
  split
  · next h => rw [h, Nat.size_zero]
  · next h =>
    have hlt : n < 2 ^ (n.log2 + 1) := Nat.lt_log2_self
    have hle : 2 ^ n.log2 ≤ n := Nat.log2_self_le h
    apply Nat.le_antisymm
    · apply Nat.lt_size.mpr hle
    · apply Nat.size_le.mpr hlt

theorem bitWidth_monotone :
  Monotone bitWidth
  := by
  intro m n h
  rw [bitWidth_eq_size, bitWidth_eq_size]
  apply Nat.size_le_size h

/-- The powers of two that are at least `n` are those that are at least its next power of
two. -/
theorem nextPowerOfTwo_le_iff {n k : Nat} :
  nextPowerOfTwo n ≤ 2 ^ k ↔ n ≤ 2 ^ k
  := by
  have hpos : 1 ≤ 2 ^ k := Nat.one_le_two_pow
  rw [nextPowerOfTwo]
  split
  · omega
  · next h =>
    have hlog : (n - 1).log2 < k ↔ n - 1 < 2 ^ k := Nat.log2_lt (by omega)
    rw [Nat.pow_le_pow_iff_right (by omega), Nat.succ_le_iff, hlog]
    omega

/-- The next power of two is the least power of two that is at least the number. -/
theorem isLeast_nextPowerOfTwo (n : Nat) :
  IsLeast {p | p.isPowerOfTwo ∧ n ≤ p} (nextPowerOfTwo n)
  := by
  constructor
  · obtain ⟨k, hk⟩ := nextPowerOfTwo_isPowerOfTwo n
    refine ⟨⟨k, hk⟩, ?_⟩
    rw [hk]
    apply nextPowerOfTwo_le_iff.mp
    rw [hk]
  · rintro p ⟨⟨k, rfl⟩, hle⟩
    apply nextPowerOfTwo_le_iff.mpr hle

theorem nextPowerOfTwo_eq {n k : Nat} (hlt : 2 ^ k < n) (hle : n ≤ 2 ^ (k + 1)) :
  nextPowerOfTwo n = 2 ^ (k + 1)
  := by
  obtain ⟨⟨⟨j, hj⟩, hge⟩, hleast⟩ := isLeast_nextPowerOfTwo n
  apply Nat.le_antisymm
  · apply hleast ⟨⟨k + 1, rfl⟩, hle⟩
  · rw [hj] at hge ⊢
    apply Nat.pow_le_pow_right (by omega)
    apply (Nat.pow_lt_pow_iff_right (by omega)).mp (Nat.lt_of_lt_of_le hlt hge)

/-! ### The rule -/

/-- The block size for a median record of this size. -/
def documentedBlockSize (median : Nat) : Nat :=
  max minBlockSize (min (nextPowerOfTwo (2 * median)) maxAutoBlockSize)

/-- The medians that the size classes round up twice. -/
def twiceRounded : List Nat :=
  [2048, 4096, 8192, 16384]

/-- The block size for a median record in this class. -/
def classBlockSize (median : Nat) : Nat :=
  max minBlockSize (min (2 ^ min (median + 1) 31) maxAutoBlockSize)

section

variable {m k : Nat}

theorem classBlockSize_eq_of_between (h₁ : 2 ^ k < m) (h₂ : m < 2 ^ (k + 1)) (hk : k < 15) :
  classBlockSize (k + 1) = documentedBlockSize m ∧ m ∉ twiceRounded
  := by
  have hnext : nextPowerOfTwo (2 * m) = 2 ^ (k + 2) := by
    apply nextPowerOfTwo_eq <;> omega
  have hexp : min (k + 1 + 1) 31 = k + 2 := by omega
  refine ⟨?_, ?_⟩
  · rw [classBlockSize, documentedBlockSize, hnext, hexp]
  · simp only [twiceRounded, List.mem_cons, List.not_mem_nil, or_false]
    interval_cases k <;> omega

/-- For a large median the class gives the documented block size. -/
theorem classBlockSize_eq_of_large (h : 2 ^ k ≤ m) (hk : 15 ≤ k) :
  classBlockSize (k + 1) = documentedBlockSize m ∧ m ∉ twiceRounded
  := by
  have hcap : maxAutoBlockSize = 2 ^ 16 := rfl
  have h15 : 2 ^ 15 ≤ 2 ^ k := Nat.pow_le_pow_right (by omega) hk
  have hexp : 2 ^ 16 ≤ 2 ^ min (k + 1 + 1) 31 := Nat.pow_le_pow_right (by omega) (by omega)
  have hnext : 2 * m ≤ nextPowerOfTwo (2 * m) := (isLeast_nextPowerOfTwo (2 * m)).1.2
  refine ⟨?_, ?_⟩
  · rw [classBlockSize, documentedBlockSize, hcap, Nat.min_eq_right hexp, Nat.min_eq_right (by omega)]
  · simp only [twiceRounded, List.mem_cons, List.not_mem_nil, or_false]
    omega

/-- From the class of the median the block size comes out by the rule, unless the median is
one of four powers of two. -/
theorem classBlockSize_eq_iff (hpos : 0 < m) :
  classBlockSize (bitWidth m) = documentedBlockSize m ↔ m ∉ twiceRounded
  := by
  obtain ⟨k, hk⟩ : ∃ k, m.size = k + 1 := ⟨m.size - 1, (Nat.sub_add_cancel (Nat.size_pos.mpr hpos)).symm⟩
  have hge : 2 ^ k ≤ m := Nat.lt_size.mp (by omega)
  have hlt : m < 2 ^ (k + 1) := Nat.size_le.mp (by omega)
  rw [bitWidth_eq_size, hk]
  rcases Nat.lt_or_ge k 15 with hk15 | hk15
  · rcases Nat.lt_or_eq_of_le hge with hgt | rfl
    · obtain ⟨heq, hnot⟩ := classBlockSize_eq_of_between hgt hlt hk15
      exact iff_of_true heq hnot
    · interval_cases k <;> decide
  · obtain ⟨heq, hnot⟩ := classBlockSize_eq_of_large hge hk15
    exact iff_of_true heq hnot

end

/-! ### The median class -/

/-- The median is in the first bucket with which half of the values are counted. -/
theorem medianBucket_eq_some {half cumulative b k : Nat} {hist : List Nat} (hk : k < hist.length)
    (hlt : cumulative + (hist.take k).sum < half) (hle : half ≤ cumulative + (hist.take (k + 1)).sum) :
  medianBucket half cumulative b hist = some (b + k)
  := by
  induction hist generalizing cumulative b k with
  | nil => simp at hk
  | cons c hist ih =>
    rw [medianBucket]
    cases k with
    | zero =>
      rw [if_pos (by simpa using hle), Nat.add_zero]
    | succ k =>
      rw [List.take_succ_cons, List.sum_cons] at hlt hle
      rw [if_neg (by omega), ih (by simpa using hk) (by omega) (by omega)]
      congr 1
      omega

/-- The block size comes from the class of the median. -/
theorem autoTuneBlockSize_tally {sizes : List Nat} {m : Nat} (hm : lowerMedian sizes = some m)
    (h : ∀ s ∈ sizes, bitWidth s < histBuckets) :
  autoTuneBlockSize (tally histBuckets bitWidth sizes) = .ok (classBlockSize (bitWidth m))
  := by
  have hmem := mem_of_lowerMedian hm
  obtain ⟨hlt, hle⟩ := tally_median bitWidth_monotone hm (h m hmem)
  have hpos := List.length_pos_of_mem hmem
  have hmedian : medianBucket ((sizes.length + 1) / 2) 0 0 (tally histBuckets bitWidth sizes)
      = some (0 + bitWidth m) := by
    apply medianBucket_eq_some
    · rw [length_tally]
      apply h m hmem
    · rwa [Nat.zero_add]
    · rwa [Nat.zero_add]
  rw [autoTuneBlockSize]
  simp only [sum_tally h, hmedian]
  rw [if_neg (by omega), Nat.zero_add, classBlockSize]

/-! ### Counting while appending -/

/-- The arguments of a call of `append`. -/
structure AppendCall where
  key : Bytes
  fp : UInt64
  value : Bytes
  deriving DecidableEq, Repr

/-- The frame that a call appends. -/
def AppendCall.frame (E : Env) (seed : UInt64) (c : AppendCall) : Frame :=
  ⟨c.fp, verifyFingerprint E.hash c.key seed, c.value⟩

/-- Scatter a partition: open its appender, append the records, and complete the log. -/
def appendAll (E : Env) (seed : UInt64) (calls : List AppendCall) : Task Unit := do
  let a ← V5Appender.create
  let a ← calls.foldlM (fun a c => a.append E seed c.key c.fp c.value) a
  a.finish

/-- The size of the record of a frame, if the value is stored inline and as it is. -/
def Frame.recordLen (f : Frame) : Nat :=
  encodedLen f.value.length

/-- The counts of the records of frames. -/
def histOf (frames : List Frame) : List Nat :=
  tally histBuckets bitWidth (frames.map Frame.recordLen)

/-- While frames are appended: the log holds them, and they are counted. -/
structure Counting (frames : List Frame) (a : V5Appender) (d : PartDir) : Prop where
  log : ∃ c, file d .arrival = some c ∧ c ++ a.pending = encodeFrames frames
  fits : ∀ f ∈ frames, f.Fits
  hist : a.hist = histOf frames

/-- The log of the frames is complete, and its statistics count them. -/
structure Counted (frames : List Frame) (d : PartDir) : Prop where
  log : file d .arrival = some (encodeFrames frames)
  fits : ∀ f ∈ frames, f.Fits
  hist : ∃ stats, d.arrivalStats = some stats ∧ stats.hist = histOf frames

theorem countSize_histOf (frames : List Frame) (f : Frame) :
  countSize (histOf frames) f.value.length = histOf (frames ++ [f])
  := by
  rw [histOf, histOf, List.map_append, List.map_singleton, ← modify_tally]
  rfl

section

variable {E : Env} {seed : UInt64} {d : PartDir} {frames : List Frame} {a : V5Appender}

/-- An append counts its frame. -/
theorem wp_append_counting (c : AppendCall) (h : Counting frames a d) :
  wp (.none _) (fun _ => True) (fun a' d' => Counting (frames ++ [c.frame E seed]) a' d')
    (a.append E seed c.key c.fp c.value) d
  := by
  apply wp_appenderAppend trivial
  intro b flushed rest hfits hb hflush
  obtain ⟨b', hb', hlog⟩ := h.log
  obtain rfl : b' = b := Option.some.inj (hb'.symm.trans hb)
  refine ⟨trivial, ⟨b' ++ flushed, rfl, ?_⟩, ?_, ?_⟩
  · rw [List.append_assoc, hflush, ← List.append_assoc, hlog, encodeFrames_append]
    simp [encodeFrames, AppendCall.frame]
  · intro f hf
    rcases List.mem_append.mp hf with hf | hf
    · apply h.fits f hf
    · rw [List.mem_singleton.mp hf]
      apply hfits
  · dsimp only
    rw [h.hist, ← countSize_histOf]
    rfl

/-- An appended log holds the frames of the records, and its statistics count them. -/
theorem wp_appendAll (calls : List AppendCall) :
  wp (.none _) (fun _ => True) (fun _ d' => Counted (calls.map (·.frame E seed)) d')
    (appendAll E seed calls) d
  := by
  apply wp_bind
  apply wp_bind
  apply wp_modify trivial trivial
  apply wp_bind
  apply wp_create trivial trivial
  apply wp_pure trivial
  apply wp_bind
  have hstart : Counting [] ⟨[], 0, 0, emptyHist⟩
      (setFile { d with arrivalStats := none } .arrival (some [])) :=
    ⟨⟨[], rfl, rfl⟩, fun f hf => absurd hf List.not_mem_nil, tally_nil.symm⟩
  apply wp_mono (wp_foldlM (R := fun rest a d' => ∃ before, before ++ rest = calls
    ∧ Counting (before.map (·.frame E seed)) a d') (fun _ _ _ _ => trivial) _ _ _ _ ⟨[], rfl, hstart⟩)
  · rintro a d - ⟨before, hbefore, h⟩
    obtain rfl : before = calls := by simpa using hbefore
    apply wp_bind
    apply wp_append trivial
    intro b hb _
    obtain ⟨b', hb', hlog⟩ := h.log
    obtain rfl : b' = b := Option.some.inj (hb'.symm.trans hb)
    rw [hlog]
    refine ⟨trivial, ?_⟩
    apply wp_modify trivial trivial
    exact ⟨rfl, h.fits, _, rfl, h.hist⟩
  · rintro c rest a d ⟨before, rfl, h⟩
    apply wp_mono (wp_append_counting c h)
    intro a' d' _ h'
    refine ⟨before ++ [c], List.append_cons .. |>.symm, ?_⟩
    rw [List.map_append]
    apply h'

end

/-! ### Adding the counts up -/

/-- Histograms are added bucket by bucket. -/
theorem addHist_eq_zipWith {hist stats : List Nat} (h : hist.length = stats.length) :
  addHist hist stats = List.zipWith (· + ·) hist stats
  := by
  fun_induction addHist hist stats with
  | case1 c hist s stats ih =>
    rw [List.zipWith_cons_cons, ih (Nat.succ.inj h)]
  | case2 hist stats hnot =>
    cases hist with
    | nil => rfl
    | cons c hist =>
      cases stats with
      | nil => simp at h
      | cons s stats => exact (hnot c hist s stats rfl rfl).elim

theorem addHist_histOf (frames frames' : List Frame) :
  addHist (histOf frames) (histOf frames') = histOf (frames ++ frames')
  := by
  rw [addHist_eq_zipWith (by rw [histOf, histOf, length_tally, length_tally]), histOf, histOf, histOf,
    List.map_append, zipWith_tally]

section

variable {S : Type} {E : Env} {b : V5Builder} {d : Dir} {frames : Nat → List Frame}

/-- The counts of the partitions are the counts of all their records. -/
theorem yields_addHist (ps : List Nat) (h : ∀ p ∈ ps, Counted (frames p) (d.part (b.dirOf p)))
    (before : List Frame) :
  Prog.Yields (histOf (before ++ ps.flatMap frames)) d
    (ps.foldlM (fun hist p => do
      let stats ← b.readStats (S := S) p
      return addHist hist stats.hist) (histOf before)) d
  := by
  induction ps generalizing before with
  | nil =>
    rw [List.flatMap_nil, List.append_nil]
    apply Prog.Yields.pure
  | cons p ps ih =>
    obtain ⟨stats, hstats, hhist⟩ := (h p List.mem_cons_self).hist
    have hread : Prog.Yields stats d (b.readStats (S := S) p) d := by
      apply Prog.Yields.atomic
      rw [hstats]
    have hrest := ih (fun q hq => h q (List.mem_cons_of_mem _ hq)) (before ++ frames p)
    rw [List.foldlM_cons, List.flatMap_cons, ← List.append_assoc]
    rw [← addHist_histOf before, ← hhist] at hrest
    apply Prog.Yields.bind (a := addHist (histOf before) stats.hist) _ hrest
    apply Prog.Yields.bind hread
    apply Prog.Yields.pure

/-- The plan without compression. -/
def plainPlan (E : Env) (b : V5Builder) (blockSize : Nat) : Plan :=
  { b.initialPlan E with blockSize := blockSize, inlineThreshold := blockSize / 2 }

/-- Without compression and override, the block size of the plan is tuned to the records of
all partitions. -/
theorem yields_ensurePlan (h : ∀ p < b.layout.nPartitions, Counted (frames p) (d.part (b.dirOf p)))
    (hplan : d.plan = none) (hmode : b.compression = .none) (hoverride : b.blockSizeOverride = none)
    {blockSize : Nat} (hblock : autoTuneBlockSize (histOf
      ((List.range b.layout.nPartitions).flatMap frames)) = .ok blockSize) :
  Prog.Yields (plainPlan E b blockSize)
    { d with dict := none, plan := some (plainPlan E b blockSize) } (b.ensurePlan (S := S) E none) d
  := by
  have hempty : emptyHist = histOf [] := tally_nil.symm
  apply Prog.Yields.bind Prog.Yields.read
  rw [hplan]
  apply Prog.Yields.bind
  · rw [hempty]
    apply yields_addHist
    intro p hp
    apply h p (List.mem_range.mp hp)
  apply Prog.Yields.bind Prog.Yields.modify
  apply Prog.Yields.bind (a := (b.initialPlan E, histOf ((List.range b.layout.nPartitions).flatMap frames)))
  · rw [compressionPlan, if_pos hmode]
    apply Prog.Yields.pure
  apply Prog.Yields.bind
  · apply Prog.Yields.ofExcept
    rw [chooseBlockSize, hoverride]
    apply hblock
  apply Prog.Yields.bind Prog.Yields.modify
  apply Prog.Yields.pure

end

/-! ### The documented rule -/

/-- The sizes of the records of all partitions. -/
def recordSizes (nPartitions : Nat) (calls : Nat → List AppendCall) : List Nat :=
  (List.range nPartitions).flatMap fun p => (calls p).map fun c => encodedLen c.value.length

theorem mem_recordSizes {nPartitions s : Nat} {calls : Nat → List AppendCall} :
  s ∈ recordSizes nPartitions calls
    ↔ ∃ p < nPartitions, ∃ c ∈ calls p, encodedLen c.value.length = s
  := by
  simp [recordSizes]

/-- The partitions of the directory hold what their appenders left when all calls returned. -/
def ScatteredBy (E : Env) (b : V5Builder) (calls : Nat → List AppendCall) (d : Dir) : Prop :=
  ∀ p < b.layout.nPartitions, ∃ t₀, Prog.Steps (.none PartDir) (appendAll E b.verifySeed (calls p)) t₀
    (.done (.ok ())) (d.part (b.dirOf p))

theorem ScatteredBy.counted {E : Env} {b : V5Builder} {calls : Nat → List AppendCall} {d : Dir}
    (h : ScatteredBy E b calls d) {p : Nat} (hp : p < b.layout.nPartitions) :
  Counted ((calls p).map (·.frame E b.verifySeed)) (d.part (b.dirOf p))
  := by
  obtain ⟨t₀, hsteps⟩ := h p hp
  apply (wp_steps (wp_appendAll (calls p)) hsteps).2

theorem encodedLen_lt {n : Nat} (h : n ≤ maxValueLen) :
  encodedLen n < 2 ^ 31
  := by
  simp only [encodedLen, align8, headerLen, recordAlign, maxValueLen] at h ⊢
  omega

/-- The sizes of all values that can be appended have a class. -/
theorem bitWidth_encodedLen_lt {n : Nat} (h : n ≤ maxValueLen) :
  bitWidth (encodedLen n) < histBuckets
  := by
  have hsize : (encodedLen n).size ≤ 31 := Nat.size_le.mpr (encodedLen_lt h)
  rw [bitWidth_eq_size, histBuckets]
  omega

section

variable {S : Type} {R : Phases S Dir} {E : Env} {b : V5Builder} {d : Dir}
  {calls : Nat → List AppendCall} {m : Nat}

/-- The plan, in every run, gets the block size of the class of the median. -/
theorem ScatteredBy.ensurePlan_eq (hscatter : ScatteredBy E b calls d) (hplan : d.plan = none)
    (hmode : b.compression = .none) (hoverride : b.blockSizeOverride = none)
    (hm : lowerMedian (recordSizes b.layout.nPartitions calls) = some m) :
  (∃ d', Prog.Steps (phases R) (b.ensurePlan E none) d
      (.done (.ok (plainPlan E b (classBlockSize (bitWidth m))))) d')
    ∧ ∀ plan' d'', Prog.Steps (phases R) (b.ensurePlan E none) d (.done (.ok plan')) d'' →
      plan' = plainPlan E b (classBlockSize (bitWidth m))
  := by
  have hsizes : recordSizes b.layout.nPartitions calls
      = ((List.range b.layout.nPartitions).flatMap fun p =>
        (calls p).map (·.frame E b.verifySeed)).map Frame.recordLen := by
    rw [recordSizes, List.map_flatMap]
    simp only [List.map_map]
    rfl
  have hclass : ∀ s ∈ recordSizes b.layout.nPartitions calls, bitWidth s < histBuckets := by
    intro s hs
    obtain ⟨p, hp, c, hc, rfl⟩ := mem_recordSizes.mp hs
    apply bitWidth_encodedLen_lt ((hscatter.counted hp).fits _ (List.mem_map_of_mem hc))
  have htuned := autoTuneBlockSize_tally hm hclass
  rw [hsizes] at htuned
  have hyields := yields_ensurePlan (S := S) (E := E) (fun _ => hscatter.counted) hplan hmode hoverride
    htuned
  refine ⟨⟨_, hyields.steps⟩, ?_⟩
  intro plan' d'' hsteps
  apply (hyields.unique hsteps).1

/-- The block size that a plan gets without compression and override is the documented one,
unless the lower median of the record sizes is one of four powers of two. -/
theorem tuned_blockSize_documented_iff (hscatter : ScatteredBy E b calls d) (hplan : d.plan = none)
    (hmode : b.compression = .none) (hoverride : b.blockSizeOverride = none)
    (hne : recordSizes b.layout.nPartitions calls ≠ []) :
  ∃ m plan d', lowerMedian (recordSizes b.layout.nPartitions calls) = some m
    ∧ Prog.Steps (phases R) (b.ensurePlan E none) d (.done (.ok plan)) d'
    ∧ (∀ plan' d'', Prog.Steps (phases R) (b.ensurePlan E none) d (.done (.ok plan')) d'' → plan' = plan)
    ∧ (plan.blockSize = documentedBlockSize m ↔ m ∉ twiceRounded)
  := by
  obtain ⟨m, hm⟩ := exists_lowerMedian hne
  have hpos : 0 < m := by
    obtain ⟨-, -, c, -, rfl⟩ := mem_recordSizes.mp (mem_of_lowerMedian hm)
    apply Nat.lt_of_lt_of_le _ (headerLen_lt_encodedLen c.value.length)
    rw [headerLen]
    omega
  obtain ⟨⟨d', hsteps⟩, hunique⟩ := hscatter.ensurePlan_eq (R := R) hplan hmode hoverride hm
  exact ⟨m, _, d', hm, hsteps, hunique, classBlockSize_eq_iff hpos⟩

end

/-! #### Two directories with one partition -/

def tuningBuilder : V5Builder :=
  ⟨Layout.one, defaultVerifySeed, none, defaultBucketBytes, false, .none, defaultMinCompressLen⟩

/-- A value of `n` bytes is appended. -/
def callOf (n : Nat) : AppendCall :=
  ⟨[107], 1, List.replicate n 0⟩

def scatteredDir (calls : List AppendCall) : Dir :=
  { Dir.empty with
    part := fun _ => ((appendAll plainEnv defaultVerifySeed calls).run 0 PartDir.empty).2 }

theorem scatteredBy_scatteredDir (calls : List AppendCall)
    (h : ((appendAll plainEnv defaultVerifySeed calls).run 0 PartDir.empty).1 = .ok ()) :
  ScatteredBy plainEnv tuningBuilder (fun _ => calls) (scatteredDir calls)
  := by
  intro p _
  use PartDir.empty
  have hrun := Prog.steps_run (.none PartDir) 0 (appendAll plainEnv defaultVerifySeed calls) PartDir.empty
  rw [h] at hrun
  exact hrun

theorem tuned_blockSize_of_two :
  ∃ plan d', Prog.Steps (phases (.none Dir)) (tuningBuilder.ensurePlan plainEnv none)
      (scatteredDir [callOf 100, callOf 300]) (.done (.ok plan)) d'
    ∧ plan.blockSize = documentedBlockSize 112
  := by
  have hscatter := scatteredBy_scatteredDir [callOf 100, callOf 300] (by decide +kernel)
  obtain ⟨m, plan, d', hm, hsteps, -, hiff⟩ := tuned_blockSize_documented_iff (R := .none Dir) hscatter
    rfl rfl rfl (by decide)
  have h112 : lowerMedian (recordSizes 1 fun _ => [callOf 100, callOf 300]) = some 112 := by
    decide +kernel
  obtain rfl : m = 112 := Option.some.inj (hm.symm.trans h112)
  exact ⟨plan, d', hsteps, hiff.mpr (by decide)⟩

/-- A single record of 2048 bytes gives blocks of 8 KiB, where the rule gives 4 KiB. -/
theorem median_2048_rounded_twice :
  ScatteredBy plainEnv tuningBuilder (fun _ => [callOf 2036]) (scatteredDir [callOf 2036])
    ∧ lowerMedian (recordSizes 1 fun _ => [callOf 2036]) = some 2048
    ∧ documentedBlockSize 2048 = 4096
    ∧ ∃ plan d', Prog.Steps (phases (.none Dir)) (tuningBuilder.ensurePlan plainEnv none)
        (scatteredDir [callOf 2036]) (.done (.ok plan)) d' ∧ plan.blockSize = 8192
  := by
  have hscatter := scatteredBy_scatteredDir [callOf 2036] (by decide +kernel)
  have hm : lowerMedian (recordSizes 1 fun _ => [callOf 2036]) = some 2048 := by decide +kernel
  obtain ⟨⟨d', hsteps⟩, -⟩ := hscatter.ensurePlan_eq (R := .none Dir) rfl rfl rfl hm
  refine ⟨hscatter, hm, ?_, _, d', hsteps, ?_⟩
  · decide
  · decide

end V5
