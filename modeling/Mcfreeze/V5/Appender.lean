import Mcfreeze.V5.Resume
import Mcfreeze.Format.Builder

/-!
# Writing a V5 snapshot

The scatter sink of a partition (`V5Appender` in `v5/builder.rs`), and the whole life of a
snapshot: the pairs are appended to the logs of their partitions, the logs are finished,
and the snapshot is planned, built and finalized.
-/

open Format Crash Files

namespace V5

open V5Builder

/-! ### The appender -/

structure V5Appender where
  pending : Bytes
  nKeys : Nat
  dataBytes : Nat
  hist : List Nat
  deriving DecidableEq, Repr

/-- Start the log of a partition; a marker left by an earlier run is removed first. -/
def V5Appender.create : Task V5Appender := do
  .modify fun d => { d with arrivalStats := none }
  Files.create .arrival
  return ⟨[], 0, 0, emptyHist⟩

/-- Append a record to the log. -/
def V5Appender.append (E : Env) (verifySeed : UInt64) (a : V5Appender) (key : Bytes) (fp : UInt64)
    (value : Bytes) : Task V5Appender :=
  if maxValueLen < value.length then .throw (.valueTooLarge value.length maxValueLen)
  else do
    let frame : Frame := ⟨fp, verifyFingerprint E.hash key verifySeed, value⟩
    let pending ← bufWrite .arrival a.pending frame.encode
    return ⟨pending, a.nKeys + 1, a.dataBytes + (frameHeader + value.length),
      countSize a.hist value.length⟩

/-- Complete the log, and publish `arrival.stats`. -/
def V5Appender.finish (a : V5Appender) : Task Unit := do
  Files.append .arrival a.pending
  .modify fun d => { d with arrivalStats := some ⟨a.nKeys, a.dataBytes, a.hist⟩ }

/-- What the appender keeps track of: the log holds the frames so far, and the counters
count them. -/
structure Appending (frames : List Frame) (a : V5Appender) (d : PartDir) : Prop where
  notBuilt : d.buildDone = none
  notFinished : d.arrivalStats = none
  log : ∃ c, file d .arrival = some c ∧ c ++ a.pending = encodeFrames frames
  nKeys : a.nKeys = frames.length
  dataBytes : a.dataBytes = (encodeFrames frames).length
  fits : ∀ f ∈ frames, f.Fits

section

variable {E : Env} {I : PartDir → Prop} {d : PartDir} {frames : List Frame} {a : V5Appender}

/-- The partition is neither scattered nor built. -/
def Unscattered (d : PartDir) : Prop :=
  d.buildDone = none ∧ d.arrivalStats = none

theorem Appending.unscattered (h : Appending frames a d) :
  Unscattered d
  :=
  ⟨h.notBuilt, h.notFinished⟩

/-- A new appender has an empty log. -/
theorem wp_createAppender (hI : I d) (hI' : ∀ d', Unscattered d' → I d') (hd : d.buildDone = none) :
  wp (.none _) I (fun a d' => Appending [] a d') V5Appender.create d
  := by
  have h₁ : Unscattered { d with arrivalStats := none } := ⟨hd, rfl⟩
  have h₂ : Appending [] ⟨[], 0, 0, emptyHist⟩
      (setFile { d with arrivalStats := none } .arrival (some [])) :=
    ⟨hd, rfl, ⟨[], rfl, rfl⟩, rfl, rfl, fun f hf => absurd hf List.not_mem_nil⟩
  apply wp_bind
  apply wp_modify hI (hI' _ h₁)
  apply wp_bind
  apply wp_create (hI' _ h₁) (hI' _ h₂.unscattered)
  exact ⟨hI' _ h₂.unscattered, h₂⟩

/-- A record that fits is handed to the writer of the log, and counted. -/
theorem wp_appenderAppend {Q : V5Appender → PartDir → Prop} {seed fp : UInt64} {key value : Bytes} (hI : I d)
    (hQ : ∀ c flushed rest, value.length ≤ maxValueLen → file d .arrival = some c →
      flushed ++ rest = a.pending ++ Frame.encode ⟨fp, verifyFingerprint E.hash key seed, value⟩ →
      I (setFile d .arrival (some (c ++ flushed)))
        ∧ Q ⟨rest, a.nKeys + 1, a.dataBytes + (frameHeader + value.length), countSize a.hist value.length⟩
          (setFile d .arrival (some (c ++ flushed)))) :
  wp (.none _) I Q (a.append E seed key fp value) d
  := by
  rw [V5Appender.append]
  split
  · apply wp_throw hI
  · next hfits =>
    apply wp_bind
    apply wp_bufWrite hI
    intro c flushed rest hc hflush
    obtain ⟨hI', hQ'⟩ := hQ c flushed rest (Nat.not_lt.mp hfits) hc hflush
    exact ⟨hI', hI', hQ'⟩

/-- An append adds the frame of the pair, and leaves the partition unscattered. -/
theorem wp_appendFrame (hI : ∀ d', Unscattered d' → I d') (seed : UInt64) (key : Bytes) (fp : UInt64)
    (value : Bytes) (h : Appending frames a d) :
  wp (.none _) I
    (fun a' d' => Appending (frames ++ [⟨fp, verifyFingerprint E.hash key seed, value⟩]) a' d')
    (a.append E seed key fp value) d
  := by
  apply wp_appenderAppend (hI d h.unscattered)
  intro c flushed rest hfits hc hflush
  obtain ⟨c', hc', hlog⟩ := h.log
  obtain rfl : c' = c := by simpa [hc'] using hc
  have happ : Appending (frames ++ [⟨fp, verifyFingerprint E.hash key seed, value⟩])
      ⟨rest, a.nKeys + 1, a.dataBytes + (frameHeader + value.length), countSize a.hist value.length⟩
      (setFile d .arrival (some (c' ++ flushed))) := by
    refine ⟨h.notBuilt, h.notFinished, ⟨c' ++ flushed, rfl, ?_⟩, ?_, ?_, ?_⟩
    · rw [List.append_assoc, hflush, ← List.append_assoc, hlog, encodeFrames_append]
      simp [encodeFrames]
    · rw [List.length_append, h.nKeys, List.length_singleton]
    · rw [encodeFrames_append, List.length_append, h.dataBytes]
      simp [encodeFrames, length_frame_encode]
    · intro f hf
      rcases List.mem_append.mp hf with hf | hf
      · apply h.fits f hf
      · rw [List.mem_singleton.mp hf]
        apply hfits
  exact ⟨hI _ happ.unscattered, happ⟩

/-- The log of the partition is complete. -/
def Logged (frames : List Frame) (d : PartDir) : Prop :=
  (∀ f ∈ frames, f.Fits)
    ∧ ∃ hist, HasLog frames ⟨frames.length, (encodeFrames frames).length, hist⟩ d

/-- When the appender is finished, the log is complete. -/
theorem wp_finishAppender (hI : ∀ d', Unscattered d' → I d') (hI' : ∀ d', Logged frames d' → I d')
    (h : Appending frames a d) :
  wp (.none _) I (fun _ d' => Logged frames d') a.finish d
  := by
  apply wp_bind
  apply wp_append (hI d h.unscattered)
  intro c hc _
  obtain ⟨c', hc', hlog⟩ := h.log
  obtain rfl : c' = c := by simpa [hc'] using hc
  rw [hlog]
  have h₁ : Unscattered (setFile d .arrival (some (encodeFrames frames))) :=
    ⟨h.notBuilt, h.notFinished⟩
  have h₂ : Logged frames
      { setFile d .arrival (some (encodeFrames frames)) with
        arrivalStats := some ⟨a.nKeys, a.dataBytes, a.hist⟩ } := by
    refine ⟨h.fits, a.hist, rfl, ?_, h.notBuilt⟩
    simp only [h.nKeys, h.dataBytes]
  refine ⟨hI _ h₁, ?_⟩
  apply wp_modify (hI _ h₁) (hI' _ h₂) h₂

end

/-! ### The builder as the loader sees it -/

/-- Whether scatter completed for a partition. -/
def scatterProbe (d : PartDir) : Option ScatterProbe :=
  match d.arrivalStats with
  | some stats => some ⟨stats.nKeys, stats.dataBytes⟩
  | none =>
    match d.buildDone with
    | some done => some ⟨done.nKeys, done.dataBytes⟩
    | none => none

/-- In each phase all partitions are scattered. -/
theorem Phase.probe {E : Env} {L : Load} {d : Dir} (h : Phase E L d) {p : Nat}
    (hp : p < L.layout.nPartitions) :
  ∃ probe, scatterProbe (L.dir p d) = some probe
  := by
  rw [scatterProbe]
  cases hstats : (L.dir p d).arrivalStats with
  | some stats => exact ⟨_, rfl⟩
  | none =>
    rcases h.hasLog_or_built hp with hlog | hbuilt
    · rw [hlog.stats] at hstats
      simp at hstats
    · obtain ⟨done, hdone⟩ := Option.isSome_iff_exists.mp hbuilt
      rw [hdone]
      exact ⟨_, rfl⟩

def rootDir : RootDir Dir PartDir where
  parts := partDirs
  scatterDone := Dir.scatterDone
  setScatterDone done d := { d with scatterDone := some done }
  scatterDone_set _ _ := rfl
  scatterDone_put _ _ _ := rfl
  get_set _ _ _ := rfl

/-- `V5Builder` behind the seam. -/
def V5Builder.formatBuilder (E : Env) (b : V5Builder) : FormatBuilder Dir PartDir V5Appender where
  format := .v5
  layout := b.layout
  hash := E.hash
  root := rootDir
  appender := V5Appender.create
  append a key fp value := a.append E b.verifySeed key fp value
  finish := V5Appender.finish
  scatterProbe p d := .ok (scatterProbe (d.part (b.dirOf p)))

/-- The frames of pairs. -/
abbrev framesFor (E : Env) (b : V5Builder) (kvs : List Pair) : List Frame :=
  kvs.map (frameOf E.hash b.verifySeed)

/-- A log grows by one frame for each record, and is complete when its appender has
finished. -/
def appenderSpec (E : Env) (b : V5Builder) : AppenderSpec (b.formatBuilder E) where
  opened kvs a d := Appending (framesFor E b kvs) a d
  torn _ d := Unscattered d
  closed kvs d := Logged (framesFor E b kvs) d
  torn_of_opened h := h.unscattered
  append {kvs a d} kv h := by
    rw [framesFor, List.map_append]
    apply wp_appendFrame (fun _ h => h) b.verifySeed kv.1 (fingerprint E.hash kv.1) kv.2 h
  finish h := wp_finishAppender (fun _ => Or.inl) (fun _ => Or.inr) h

/-- The load that is scattered to a directory. -/
def loadOf (E : Env) (b : V5Builder) (pairs : Nat → List Pair) (d : Dir) : Load where
  layout := b.layout
  seed := b.verifySeed
  frames p := framesFor E b (pairs p)
  stats p := (d.part (b.dirOf p)).arrivalStats.getD ⟨0, 0, []⟩
  before := d.metaJson

section

variable {E : Env} {b : V5Builder} {d : Dir} {kvs : List Pair} {pairs : Nat → List Pair}

/-- When all logs are complete, scatter is. -/
theorem scattered_of_logged (hplan : d.plan = none) (hindex : d.indexDone = none)
    (h : ∀ p < b.layout.nPartitions, Logged (framesFor E b (pairs p)) (d.part (b.dirOf p))) :
  Scattered (loadOf E b pairs d) d ∧ (loadOf E b pairs d).Fits
  := by
  refine ⟨⟨hplan, hindex, rfl, ?_⟩, fun p hp => (h p hp).1⟩
  intro p hp
  obtain ⟨-, hist, hlog⟩ := h p hp
  have hstats : (loadOf E b pairs d).stats p
      = ⟨(framesFor E b (pairs p)).length, (encodeFrames (framesFor E b (pairs p))).length, hist⟩ := by
    rw [loadOf]
    dsimp only
    rw [hlog.stats, Option.getD_some]
  rw [hstats]
  apply hlog

/-! ### A whole snapshot -/

/-- Write a snapshot of the pairs. -/
def writeSnapshot (E : Env) (b : V5Builder) (kvs : List Pair) : Root Empty Unit := do
  (b.formatBuilder E).writePairs kvs
  let cached ← b.plan E
  let done ← b.build E cached
  b.finalize done

/-- Nothing is planned or built in the directory. -/
structure Clean (n : Nat) (d : Dir) : Prop where
  unplanned : d.plan = none
  indexDone : d.indexDone = none
  notBuilt : ∀ p < n, (d.part (partitionDir n p)).buildDone = none

/-- Writing a snapshot to the end leaves it complete. -/
theorem wp_writeSnapshot (hE : E.Lawful) (hcount : b.layout.nPartitions < 2 ^ 32)
    (hblock : ∀ bs, b.blockSizeOverride = some bs → validateBlockSize bs = .ok ())
    (h : Clean b.layout.nPartitions d) :
  wp (phases (.none Dir)) (fun _ => True)
    (fun _ d' => Complete E b.layout b.verifySeed
      (framesOf E.hash b.layout b.verifySeed kvs) d')
    (writeSnapshot E b kvs) d
  := by
  have hwrite : wp (phases (.none Dir)) (fun _ => True) _
      ((b.formatBuilder E).writePairs kvs) d :=
    wp_writePairs (G := fun d : Dir => d.plan = none ∧ d.indexDone = none)
      (C := fun (_ : Nat) (t : PartDir) => t.buildDone = none) (appenderSpec E b) kvs
      (fun _ _ _ h => h) (fun _ _ _ ht => wp_createAppender ht (fun _ h => h.1) ht)
      ⟨h.unplanned, h.indexDone⟩ h.notBuilt
  apply wp_bind
  apply wp_mono hwrite
  rintro _ d - ⟨⟨hplan, hindex⟩, hlogs⟩
  obtain ⟨hs, hL⟩ : Scattered (loadOf E b (pairsOf E.hash b.layout kvs) d) d
      ∧ (loadOf E b (pairsOf E.hash b.layout kvs) d).Fits := scattered_of_logged hplan hindex hlogs
  have hb : Accepted (loadOf E b (pairsOf E.hash b.layout kvs) d) b := ⟨rfl, rfl, hblock⟩
  apply wp_bind
  apply wp_mono (wp_weaken (wp_plan hb (.scattered hs)) (fun _ _ => trivial))
  intro cached d₁ _ hrem
  apply wp_bind
  apply wp_mono (wp_weaken (wp_build hE hL hb hrem) (fun _ _ => trivial))
  rintro _ d₂ - ⟨plan, dones, rfl, hi, -⟩
  have hbuilt : AllBuilt E (loadOf E b (pairsOf E.hash b.layout kvs) d) plan dones
      { d₂ with metaJson := some (metaOf b.verifySeed (indexDoneOf plan dones)) } :=
    ⟨hi.built.ok, hi.built.length, hi.built.parts⟩
  apply wp_modify trivial trivial
  exact ⟨_, _, rfl, hbuilt.describes hE hcount⟩

end

/-- Write a snapshot of the pairs and read it back: if every operation returns, the
snapshot opens, finds the value of every pair, and misses every other key. -/
theorem serves_of_writeSnapshot {E : Env} (hE : E.Lawful) {nPartitions : Nat}
    (hcount : nPartitions < 2 ^ 32) {seed : UInt64} {v5 : V5Options} {b : V5Builder}
    (hnew : V5Builder.new nPartitions seed v5 = .ok b) {kvs : List Pair}
    (hkeys : (kvs.map Prod.fst).Nodup) (hcoll : NoCollisions E.hash b.layout seed kvs) {d₀ d : Dir}
    (hclean : Clean nPartitions d₀)
    (hrun : Prog.Steps (phases (.none Dir)) (writeSnapshot E b kvs) d₀ (.done (.ok ())) d) :
  Serves E b.layout seed kvs d
  := by
  obtain ⟨hlayout, rfl, hblock⟩ := V5Builder.new_eq_ok hnew
  obtain rfl := Layout.new_eq_ok hlayout
  have hcomplete := wp_steps (wp_writeSnapshot hE hcount hblock hclean) hrun
  apply hcomplete.2.serves (fun p _ => List.Perm.refl _) hkeys hcoll

/-- A builder for one partition. -/
def plainBuilder : V5Builder :=
  ⟨.one, defaultVerifySeed, some 4096, defaultBucketBytes, false, .none, defaultMinCompressLen⟩

/-- A builder for two partitions. -/
def twoBuilder : V5Builder :=
  { plainBuilder with layout := .two }

/-- The directory after a snapshot of four pairs, two for each partition, is written. -/
def fourWritten : Option (Except Error Unit × Dir) :=
  (writeSnapshot plainEnv twoBuilder fourPairs).exec partDirs Prog.noPhases 0 Dir.empty

theorem serves_of_writeSnapshot_two :
  (∀ p < 2, (pairsOf plainEnv.hash .two fourPairs p).length = 2)
    ∧ ∃ d, fourWritten = some (.ok (), d) ∧ Serves plainEnv .two defaultVerifySeed fourPairs d
  := by
  refine ⟨by decide +kernel, ?_⟩
  have hok : (fourWritten.map Prod.fst) = some (.ok ()) := by decide +kernel
  obtain ⟨⟨r, d⟩, hrun, rfl⟩ := Option.map_eq_some_iff.mp hok
  have hnew : V5Builder.new 2 defaultVerifySeed plainOptions = .ok twoBuilder := rfl
  have hclean : Clean 2 Dir.empty := ⟨rfl, rfl, fun _ _ => rfl⟩
  have hcoll : NoCollisions plainEnv.hash .two defaultVerifySeed fourPairs := by
    unfold NoCollisions Format.NoCollisions Format.Distinguished
    decide +kernel
  refine ⟨d, hrun, ?_⟩
  exact serves_of_writeSnapshot plainEnv_lawful (by decide) hnew (by decide +kernel) hcoll hclean
    (Prog.steps_of_exec (Prog.noPhases_schedules _) hrun)

end V5
