import Mcfreeze.V5.Codec

/-!
# Files of a V5 snapshot

The directory of a V5 snapshot while it is built and once it is complete: the marker files
and their contents (`v5/builder.rs`), `meta.json` and its validation (`v5/meta.rs`), and
the data files of each partition.  Markers are published atomically, so a marker is absent
or whole.
-/

open Format

namespace V5

/-- A record of a partition: the two fingerprints of its key, and its value. -/
structure Frame where
  fp : UInt64
  vfp : UInt64
  value : Bytes
  deriving DecidableEq, Repr

/-! ### Markers -/

/-- `arrival.stats`: scatter has completed for the partition. -/
structure ArrivalStats where
  nKeys : Nat
  dataBytes : Nat
  hist : List Nat
  deriving DecidableEq, Repr

/-- `v5.plan`: what is fixed for the snapshot before the first partition is built. -/
structure Plan where
  blockSize : Nat
  inlineThreshold : Nat
  sketch : Bool
  compression : Mode
  minCompressLen : Nat
  dictChecksum : Option UInt32
  nSamples : Nat
  dictLen : Nat
  dictFallback : Bool
  sampleBytesRaw : Nat
  sampleBytesStored : Nat
  zstdVersion : Option String
  deriving DecidableEq, Repr

/-- `build.done`: the partition is built. -/
structure PartitionBuildDone where
  nKeys : Nat
  dataBytes : Nat
  nBlocks : Nat
  nStubs : Nat
  blocksBytes : Nat
  heapBytes : Nat
  sketchBytes : Nat
  sketchChecksum : Option UInt32
  valueBytesRaw : Nat
  valueBytesStored : Nat
  nCompressed : Nat
  nRaw : Nat
  deriving DecidableEq, Repr

/-- `index.done`: all partitions are built. -/
structure IndexDone where
  nKeys : Nat
  nBlocks : Nat
  nStubs : Nat
  blockSize : Nat
  inlineThreshold : Nat
  blocksBytes : Nat
  heapBytes : Nat
  fencesBytes : Nat
  sketch : Bool
  sketchBytes : Nat
  compression : Mode
  minCompressLen : Nat
  dictChecksum : Option UInt32
  nSamples : Nat
  dictLen : Nat
  dictFallback : Bool
  sampleBytesRaw : Nat
  sampleBytesStored : Nat
  valueBytesRaw : Nat
  valueBytesStored : Nat
  nCompressed : Nat
  nRaw : Nat
  zstdVersion : Option String
  partitions : List PartitionBuildDone
  deriving DecidableEq, Repr

/-! ### The metadata -/

def formatVersion : Nat := 5
def minBlockSize : Nat := 4096
def maxAutoBlockSize : Nat := 64 * 1024
def codecZstd : String := "zstd"

structure CompressionMeta where
  codec : String
  dict : Bool
  dictChecksum : Option UInt32
  minCompressLen : Nat
  zstdVersion : Option String
  deriving DecidableEq, Repr

structure PartitionMeta where
  nBlocks : Nat
  sketchChecksum : Option UInt32
  deriving DecidableEq, Repr

/-- The fields of `meta.json` that a reader uses. -/
structure Meta where
  formatVersion : Nat
  hashAlgorithm : String
  verifySeed : UInt64
  blockSize : Nat
  inlineThreshold : Nat
  sketch : Option String
  compression : Option CompressionMeta
  partitions : List PartitionMeta
  deriving DecidableEq, Repr

def validateBlockSize (blockSize : Nat) : Except Error Unit :=
  if ¬ blockSize.isPowerOfTwo ∨ blockSize < minBlockSize then .error (.invalidBlockSize blockSize)
  else .ok ()

/-- A checksum is recorded exactly for the partitions that have a sketch. -/
def checkSketch (sketch : Option String) (pm : PartitionMeta) : Except Error Unit :=
  let sketchWritten := sketch.isSome && decide (0 < pm.nBlocks)
  match sketchWritten, pm.sketchChecksum.isSome with
  | true, false => .error (.invalidSketchMeta
      "non-empty partition with the filter enabled requires sketch_checksum")
  | false, true => .error (.invalidSketchMeta "sketch_checksum present without a written sketch")
  | _, _ => .ok ()

def checkBlockCount (blockSize : Nat) (pm : PartitionMeta) : Except Error Unit :=
  if 2 ^ 64 ≤ pm.nBlocks * blockSize then .error (.invalidBlockCount pm.nBlocks) else .ok ()

def checkCompression : Option CompressionMeta → Except Error Unit
  | none => .ok ()
  | some c =>
    if c.codec ≠ codecZstd then .error (.unsupportedCodec c.codec)
    else if c.dict ∧ c.dictChecksum = none then
      .error (.invalidCompressionMeta "dict: true requires dict_checksum")
    else if ¬ c.dict ∧ c.dictChecksum ≠ none then
      .error (.invalidCompressionMeta "dict_checksum requires dict: true")
    else .ok ()

/-- Validate the metadata and derive the layout. -/
def Meta.layout (m : Meta) : Except Error Layout :=
  if m.hashAlgorithm ≠ Format.hashAlgorithm then
    .error (.unsupportedHashAlgorithm m.hashAlgorithm)
  else
    match validateBlockSize m.blockSize with
    | .error e => .error e
    | .ok () =>
      match m.sketch.filter (· ≠ sketchKind) with
      | some kind => .error (.unsupportedSketchKind kind)
      | none =>
        match checkAll (checkSketch m.sketch) m.partitions with
        | .error e => .error e
        | .ok () =>
          match checkCompression m.compression with
          | .error e => .error e
          | .ok () =>
            match checkAll (checkBlockCount m.blockSize) m.partitions with
            | .error e => .error e
            | .ok () => Layout.new (m.partitions.length % 2 ^ 32)

/-! ### Directories -/

/-- The directory of a partition. -/
structure PartDir where
  arrival : Option Bytes
  arrivalStats : Option ArrivalStats
  buckets : Nat → Option Bytes
  buildDone : Option PartitionBuildDone
  blocks : Option Bytes
  heap : Option Bytes
  fences : Option Bytes
  sketch : Option Bytes

/-- A partition directory without files. -/
def PartDir.empty : PartDir :=
  ⟨none, none, fun _ => none, none, none, none, none, none⟩

/-- The root directory of a snapshot. -/
structure Dir where
  scatterDone : Option ScatterDone
  plan : Option Plan
  dict : Option Bytes
  indexDone : Option IndexDone
  metaJson : Option Meta
  part : DirName → PartDir

def Dir.empty : Dir :=
  ⟨none, none, none, none, none, fun _ => .empty⟩

end V5
