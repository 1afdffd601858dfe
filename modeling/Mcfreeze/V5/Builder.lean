import Mcfreeze.V5.Build
import Mcfreeze.V5.Snapshot

/-!
# The V5 builder

`V5Builder` (`v5/builder.rs`): the plan of a snapshot is derived once and published, all
partitions are built under it at the same time, and `meta.json` is written from
`index.done`.  The loader removes the sentinels when the metadata is written.

Each run has options of its own.  `Phase` says which states the directory goes through;
every run keeps it in one of them, wherever the run is killed.
-/

open Format Crash

namespace V5

/-! ### The builder -/

/-- `V5Options`; markers are published atomically in both marker modes. -/
structure V5Options where
  blockSize : Option Nat
  bucketBytes : Option Nat
  sketch : Bool
  compression : Mode
  minCompressLen : Nat
  deriving DecidableEq, Repr

structure V5Builder where
  layout : Layout
  verifySeed : UInt64
  blockSizeOverride : Option Nat
  bucketBytes : Nat
  sketch : Bool
  compression : Mode
  minCompressLen : Nat

def V5Builder.new (nPartitions : Nat) (verifySeed : UInt64) (v5 : V5Options) :
    Except Error V5Builder :=
  let checked : Except Error Unit :=
    match v5.blockSize with
    | some bs => validateBlockSize bs
    | none => .ok ()
  match checked with
  | .error e => .error e
  | .ok () =>
    match Layout.new nPartitions with
    | .error e => .error e
    | .ok layout => .ok
      { layout := layout, verifySeed := verifySeed, blockSizeOverride := v5.blockSize
        bucketBytes := v5.bucketBytes.getD defaultBucketBytes, sketch := v5.sketch
        compression := v5.compression, minCompressLen := v5.minCompressLen }

/-- The partition directories of a root directory. -/
def partDirs : Parts DirName Dir PartDir where
  get name d := d.part name
  put name t d := { d with part := fun name' => if name' = name then t else d.part name' }
  get_put _ _ _ := if_pos rfl
  put_get name d := by
    have hpart : (fun name' => if name' = name then d.part name else d.part name') = d.part := by
      funext name'
      split
      · next h => rw [h]
      · rfl
    rw [hpart]
  get_put_ne _ _ _ _ h := if_neg h

/-- The builds of the partitions, which run at the same time. -/
abbrev BuildTasks := Tasks DirName PartDir Error PartitionBuildDone

/-- A program over the root directory, which may contain further phases in `S`. -/
abbrev Root (S : Type) := Prog Dir Error (BuildTasks ⊕ S)

namespace V5Builder

section

variable {S : Type} (E : Env) (b : V5Builder)

/-- The directory of a partition. -/
def dirOf (p : Nat) : DirName :=
  partitionDir b.layout.nPartitions p

/-- Add one histogram to another, bucket by bucket. -/
def addHist : List Nat → List Nat → List Nat
  | h :: hist, s :: stats => (h + s) :: addHist hist stats
  | hist, _ => hist

/-- Read `arrival.stats` of a partition. -/
def readStats (p : Nat) : Root S ArrivalStats :=
  .atomic fun d =>
    match (d.part (b.dirOf p)).arrivalStats with
    | none => .error (.io "arrival.stats")
    | some stats => .ok (stats, d)

/-- Read the sample pool of a partition. -/
def readSamples (p : Nat) : Root S (List Bytes) :=
  .atomic fun d =>
    match (d.part (b.dirOf p)).arrival with
    | none => .error (.io "arrival.bin")
    | some arrival => .ok (sampleArrivalPrefix arrival samplePrefixBytes, d)

/-- The samples of the first partition that has any. -/
def firstSamples : List Nat → Root S (List Bytes)
  | [] => return []
  | p :: ps => do
    let samples ← b.readSamples p
    if samples = [] then firstSamples ps else return samples

/-- Write `dict.bin`. -/
def writeDict (bytes : Bytes) : Root S Unit := do
  .modify fun d => { d with dict := some [] }
  let k ← Prog.pick
  .modify fun d => { d with dict := some (bytes.take k) }
  .modify fun d => { d with dict := some bytes }

/-- Train the dictionary, or fall back to plain compression. -/
def trainPlan (plan : Plan) (samples : List Bytes) : Root S (Plan × Option Bytes) := do
  if b.compression = .zstdDict then
    let seed ← Prog.pick
    let trained : Except Error Bytes :=
      if samples = [] then .error (.dictTrain "no samples")
      else trainDict E.zstd seed samples defaultDictLen
    match trained with
    | .ok bytes =>
      writeDict bytes
      return ({ plan with
        dictChecksum := some (checksum32 E.hash bytes), dictLen := bytes.length }, some bytes)
    | .error _ => return ({ plan with compression := .zstd, dictFallback := true }, none)
  else return (plan, none)

/-- Measure the samples under the codec of the plan. -/
def measureSamples (compressor : Compressor) :
    List Bytes → Plan × List Nat → Except Error (Plan × List Nat)
  | [], acc => .ok acc
  | v :: samples, (plan, hist) =>
    match compressor.compress E.zstd v with
    | .error e => .error e
    | .ok frame =>
      let stored := (frame.getD v).length
      measureSamples compressor samples
        ({ plan with
          sampleBytesRaw := plan.sampleBytesRaw + v.length
          sampleBytesStored := plan.sampleBytesStored + stored }, countSize hist stored)

def planCompression (plan : Plan) : Root S (Plan × List Nat) := do
  let samples ← b.firstSamples (List.range b.layout.nPartitions)
  let (plan, dict) ← b.trainPlan E { plan with nSamples := samples.length } samples
  let compressor ← Prog.ofExcept (Compressor.new E.zstd dict plan.minCompressLen)
  Prog.ofExcept (measureSamples E compressor samples (plan, emptyHist))

/-- The plan before anything is sampled. -/
def initialPlan : Plan :=
  { blockSize := 0, inlineThreshold := 0, sketch := b.sketch, compression := b.compression
    minCompressLen := b.minCompressLen, dictChecksum := none, nSamples := 0, dictLen := 0
    dictFallback := false, sampleBytesRaw := 0, sampleBytesStored := 0
    zstdVersion := if b.compression = .none then none else some E.zstd.version }

/-- The block size of a plan. -/
def chooseBlockSize (hist : List Nat) : Except Error Nat :=
  match b.blockSizeOverride with
  | some bs => .ok bs
  | none => autoTuneBlockSize hist

/-- Sample the values, if they are compressed. -/
def compressionPlan (hist : List Nat) : Root S (Plan × List Nat) := do
  if b.compression = .none then return (b.initialPlan E, hist)
  else
    let (plan, storedHist) ← b.planCompression E (b.initialPlan E)
    return (plan, if 0 < plan.nSamples then storedHist else hist)

/-- Derive the plan and publish it. -/
def derivePlan : Root S Plan := do
  let hist ← (List.range b.layout.nPartitions).foldlM
    (fun hist p => do
      let stats ← b.readStats p
      return addHist hist stats.hist) emptyHist
  .modify fun d => { d with dict := none }
  let (plan, hist) ← b.compressionPlan E hist
  let blockSize ← Prog.ofExcept (b.chooseBlockSize hist)
  let plan := { plan with blockSize := blockSize, inlineThreshold := blockSize / 2 }
  .modify fun d => { d with plan := some plan }
  return plan

/-- Read the dictionary that a plan names, and compare it with the checksum. -/
def loadDict (plan : Plan) : Root S (Option Bytes) :=
  .atomic fun d =>
    match plan.dictChecksum with
    | none => .ok (none, d)
    | some expected =>
      match d.dict with
      | none => .error (.dictMissing expected)
      | some bytes =>
        match verifyDict E.hash bytes expected with
        | .error e => .error e
        | .ok () => .ok (some bytes, d)

/-- Load the plan, or derive it; `cached` is the plan this process already has. -/
def ensurePlan (cached : Option Plan) : Root S Plan := do
  match cached with
  | some plan => return plan
  | none =>
    let d ← Prog.read
    match d.plan with
    | some plan =>
      let _ ← loadDict E plan
      return plan
    | none => b.derivePlan E

/-- The barrier between scatter and build; the result is what the process remembers. -/
def plan : Root S (Option Plan) := do
  let d ← Prog.read
  match d.indexDone with
  | some _ => return none
  | none =>
    let plan ← b.ensurePlan E none
    return some plan

/-- Delete the transient files that survived a crash. -/
def sweepTransients : Root S Unit := do
  .modify fun d => { d with plan := none }
  (partitionDirs b.layout.nPartitions).forM fun name =>
    sweepPartitionTransients.lift partDirs name

/-- The contents of `index.done`. -/
def indexDoneOf (plan : Plan) (partitions : List PartitionBuildDone) : IndexDone :=
  let total (field : PartitionBuildDone → Nat) := (partitions.map field).sum
  { nKeys := total (·.nKeys), nBlocks := total (·.nBlocks), nStubs := total (·.nStubs)
    blockSize := plan.blockSize, inlineThreshold := plan.inlineThreshold
    blocksBytes := total (·.blocksBytes), heapBytes := total (·.heapBytes)
    fencesBytes := total (·.nBlocks * 4), sketch := plan.sketch
    sketchBytes := total (·.sketchBytes), compression := plan.compression
    minCompressLen := plan.minCompressLen, dictChecksum := plan.dictChecksum
    nSamples := plan.nSamples, dictLen := plan.dictLen, dictFallback := plan.dictFallback
    sampleBytesRaw := plan.sampleBytesRaw, sampleBytesStored := plan.sampleBytesStored
    valueBytesRaw := total (·.valueBytesRaw), valueBytesStored := total (·.valueBytesStored)
    nCompressed := total (·.nCompressed), nRaw := total (·.nRaw)
    zstdVersion := plan.zstdVersion, partitions := partitions }

/-- Build all partitions at the same time. -/
def buildAll (plan : Plan) (dict : Option Bytes) : Root S (List PartitionBuildDone) := do
  let ended ← Prog.await (.inl ((partitionDirs b.layout.nPartitions).map fun name =>
    (name, buildPartition E plan dict b.bucketBytes)))
  match ended with
  | .inl tasks => Prog.ofExcept tasks.results
  | .inr _ => Prog.throw (.panic "not a build")

/-- Build the snapshot's partitions, or take over the ones that are built. -/
def build (cached : Option Plan) : Root S IndexDone := do
  let d ← Prog.read
  match d.indexDone with
  | some done =>
    b.sweepTransients
    return done
  | none =>
    let plan ← b.ensurePlan E cached
    let dict ← loadDict E plan
    let partitions ← b.buildAll E plan dict
    let done := indexDoneOf plan partitions
    .modify fun d => { d with indexDone := some done }
    .modify fun d => { d with plan := none }
    return done

/-- The contents of `meta.json`. -/
def metaOf (verifySeed : UInt64) (done : IndexDone) : Meta :=
  { formatVersion := V5.formatVersion, hashAlgorithm := Format.hashAlgorithm
    verifySeed := verifySeed, blockSize := done.blockSize
    inlineThreshold := done.inlineThreshold
    sketch := if done.sketch then some sketchKind else none
    compression :=
      match done.compression with
      | .none => none
      | _ => some
        { codec := codecZstd, dict := done.dictChecksum.isSome, dictChecksum := done.dictChecksum
          minCompressLen := done.minCompressLen, zstdVersion := done.zstdVersion }
    partitions := done.partitions.map fun p => ⟨p.nBlocks, p.sketchChecksum⟩ }

/-- Publish `meta.json`. -/
def finalize (done : IndexDone) : Root S Unit :=
  .modify fun d => { d with metaJson := some (metaOf b.verifySeed done) }

/-- What a load does after scatter: plan, build, write the metadata, and remove the
sentinels (`SnapshotLoader::finalize`). -/
def finalizeLoad : Root S IndexDone := do
  let cached ← b.plan E
  let done ← b.build E cached
  b.finalize done
  .modify fun d => { d with scatterDone := none }
  .modify fun d => { d with indexDone := none }
  return done

end

end V5Builder

end V5
