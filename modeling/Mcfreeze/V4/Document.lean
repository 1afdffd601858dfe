import Mcfreeze.V4.Resume
import Mcfreeze.Lib.Json

/-!
# The document of a V4 snapshot

`meta.json` as it is put together in three places: the builder records the statistics of the
index in `index.done` (`v4/builder.rs`), the loader embeds them in the statistics of the
snapshot (`SnapshotLoader::finalize`), and the command line adds the protobuf descriptor
(`patch_meta_descriptor`).  A document is its JSON value, since printing and parsing are
taken to be inverse.
-/

open Format Crash

namespace V4

/-! ### The document -/

/-- The measured numbers of an index build, as the bits of doubles. -/
structure Measured where
  fillRateMin : UInt64
  fillRateMax : UInt64
  fillRateMean : UInt64
  wallSecs : Option UInt64
  partitionsPerSec : Option UInt64
  fillRates : List UInt64

/-- A measured number that may be missing. -/
def optionalDouble (x : Option UInt64) : Json :=
  x.elim .null .double

def PartitionIndexDone.toJson (fillRate : UInt64) (p : PartitionIndexDone) : Json :=
  .obj
    [("n_keys", .num p.nKeys), ("n_buckets", .num p.nBuckets), ("fill_rate", .double fillRate),
      ("retries", .num p.retries)]

/-- The contents of `index.done`. -/
def IndexDone.toJson (m : Measured) (done : IndexDone) : Json :=
  .obj
    [("n_keys", .num done.nKeys),
      ("n_buckets", .num done.nBuckets),
      ("fill_rate_min", .double m.fillRateMin),
      ("fill_rate_max", .double m.fillRateMax),
      ("fill_rate_mean", .double m.fillRateMean),
      ("n_overflow_partitions", .num done.nOverflowPartitions),
      ("total_retries", .num done.totalRetries),
      ("index_bytes", .num done.indexBytes),
      ("wall_secs", optionalDouble m.wallSecs),
      ("partitions_per_sec", optionalDouble m.partitionsPerSec),
      ("partitions", .arr (List.zipWith PartitionIndexDone.toJson m.fillRates done.partitions)),
      ("index_offsets", .arr (done.indexOffsets.map fun n => .num n)),
      ("index_n_buckets", .arr (done.indexNBuckets.map fun n => .num n))]

/-- The statistics in `meta.json`. -/
structure Stats where
  nKeys : Nat
  createdAt : String
  scatter : Option Json
  index : Option Json

/-- A member that is left out when there is no value. -/
def optionalMember (name : String) (v : Option Json) : List (String × Json) :=
  v.toList.map fun v => (name, v)

def Stats.toJson (s : Stats) : Json :=
  .obj
    ([("n_keys", .num s.nKeys), ("created_at", .str s.createdAt)]
      ++ optionalMember "scatter" s.scatter ++ optionalMember "index" s.index)

def PartitionMeta.toJson (p : PartitionMeta) : Json :=
  .obj [("index_offset", .num p.indexOffset), ("index_n_buckets", .num p.indexNBuckets)]

/-- The contents of `meta.json`. -/
def Meta.toJson (m : Meta) (stats : Option Stats) (encoding : Option Json) : Json :=
  .obj
    ([("format_version", .num m.formatVersion),
      ("hash_algorithm", .str m.hashAlgorithm),
      ("verify_seed", .num m.verifySeed.toNat),
      ("partitions", .arr (m.partitions.map PartitionMeta.toJson))]
      ++ optionalMember "stats" (stats.map Stats.toJson) ++ optionalMember "encoding" encoding)

/-- What goes from `index.done` into the statistics: everything but the control data. -/
def indexValue (m : Measured) (doc : Option (Doc IndexDone)) : Option Json :=
  match doc with
  | some (.whole done) => some (((done.toJson m).remove "index_offsets").remove "index_n_buckets")
  | _ => none

/-- What `finalize` of the loader writes to `meta.json` after a build that gave `info` and
`nKeys`, from the sentinels that are there; `scatter` is the value of `scatter.done`, if it
parses. -/
def V4Builder.finalizeDocument (b : V4Builder) (m : Measured) (createdAt : String)
    (scatter : Option Json) (info : UnifiedIndexInfo) (nKeys : Nat) (d : Dir) : Json :=
  (metaOf b.verifySeed info).toJson
    (some ⟨nKeys, createdAt, scatter, indexValue m d.indexDone⟩) none

/-- `patch_meta_descriptor`: put the descriptor and the message name into the document;
`standardEncode` is the base64 engine. -/
def patchMetaDescriptor (standardEncode : Bytes → String) (descriptorBytes : Bytes)
    (messageFqn : String) (doc : Json) : Option Json :=
  doc.set? "encoding" (.obj [("protobuf", .obj
    [("descriptor", .str (standardEncode descriptorBytes)), ("message_name", .str messageFqn)])])

/-! ### What a build records -/

section

variable {S : Type} {P : Phases (BuildTasks ⊕ S) Dir} {b : V4Builder} {d : Dir} {done : IndexDone}

/-- Deleting the spill files leaves `index.done`. -/
theorem wp_removeSpills_indexDone (h : d.indexDone = some (.whole done)) :
  wp P (fun _ => True) (fun _ d' => d'.indexDone = some (.whole done)) b.removeSpills d
  := by
  apply wp_forM (f := fun name => removeSpill.lift partDirs name)
    (R := fun (_ : List DirName) (d : Dir) => d.indexDone = some (.whole done))
    (fun _ _ _ => trivial) _ _ _ h
  intro name rest d hd
  apply wp_lift (J := fun _ => True) (R := fun _ _ => True)
    (G := fun d => d.indexDone = some (.whole done))
  · intro _ _ _
    trivial
  · intro t d hd _ _
    apply hd
  · intro _ d hd _ _
    apply hd
  · apply hd
  · apply wp_trivial

/-- From whatever directory a build starts, when it returns, `index.done` is there, and its
control data is what the build returned. -/
theorem wp_build_indexDone :
  wp P (fun _ => True)
    (fun r d' => ∃ done, d'.indexDone = some (.whole done)
      ∧ r.1 = ⟨done.indexOffsets, done.indexNBuckets⟩)
    b.build d
  := by
  apply wp_bind
  apply wp_read trivial
  cases hdone : d.indexDone with
  | some doc =>
    cases doc with
    | torn => apply wp_throw trivial
    | whole done =>
      apply wp_bind
      apply wp_mono (wp_removeSpills_indexDone hdone)
      intro _ d' _ hd'
      exact ⟨trivial, done, hd', rfl⟩
  | none =>
    apply wp_bind
    apply wp_mono wp_trivial
    intro results d₁ _ _
    apply wp_bind
    apply wp_mono wp_trivial
    intro info d₂ _ _
    apply wp_bind
    apply wp_read trivial
    apply wp_bind
    apply wp_bind
    apply wp_modify trivial trivial
    apply wp_modify trivial trivial
    apply wp_bind
    apply wp_mono (wp_removeSpills_indexDone rfl)
    intro _ d' _ hd'
    exact ⟨trivial, _, hd', rfl⟩

/-- A build that returned left its `index.done`. -/
theorem indexDone_of_build {info : UnifiedIndexInfo} {nKeys : Nat} {d' : Dir}
    (h : Prog.Steps P (b.build : Root S _) d (.done (.ok (info, nKeys))) d') :
  ∃ done, d'.indexDone = some (.whole done) ∧ info = ⟨done.indexOffsets, done.indexNBuckets⟩
  := by
  have hwp := wp_steps wp_build_indexDone h
  apply hwp.2

end

end V4
