import Mcfreeze.Lib.Files
import Mathlib.Data.List.Nodup

/-!
# Snapshots, fingerprints and partitions

What the two snapshot formats share (`meta.rs`, `error.rs`, `snapshot.rs`): the errors,
the outcome of a lookup, the fingerprints of a key, and the layout that sends a
fingerprint to a partition and a partition to its directory.

The hash function is a parameter of the model.
-/

namespace Format

/-- The hash function `xxhash64`, of a byte string and a seed. -/
structure Hash where
  xxh64 : Bytes → UInt64 → UInt64

/-- The errors of the format and loader crates; `io` stands for any failure of the file
system, and `panic` for a failed assertion. -/
inductive Error where
  | invalidPartitionCount (n : Nat)
  | offsetOverflow (offset : Nat)
  | pslOverflow (psl nKeys nBuckets : Nat)
  | duplicateFingerprints (maxCount maxTolerated : Nat)
  | recordTooLarge (encoded capacity : Nat)
  | valueTooLarge (len max : Nat)
  | invalidBlockSize (blockSize : Nat)
  | invalidBlockCount (nBlocks : Nat)
  | valueChecksumMismatch
  | compressedValueWithoutCodec
  | corruptFrame (message : String)
  | frameContentTooLarge (got max : Nat)
  | decompress (message : String)
  | dictChecksumMismatch (got expected : UInt32)
  | dictTrain (message : String)
  | dictMissing (expected : UInt32)
  | zstd (message : String)
  | unsupportedCodec (codec : String)
  | invalidCompressionMeta (message : String)
  | dictUnreadable
  | sketchBuild (message : String)
  | corruptSketch (message : String)
  | sketchChecksumMismatch (got expected : UInt32)
  | unsupportedSketchKind (kind : String)
  | invalidSketchMeta (message : String)
  | snapshotFileSize (partition : Nat) (file : String) (got expected : Nat)
  | snapshotFileRead (partition : Nat) (file : String)
  | blockChecksumMismatch
  | corruptBlock (message : String)
  | assemblerPoisoned
  | unsupportedHashAlgorithm (name : String)
  | unsupportedFormatVersion (version : Nat)
  | finalizeBeforeBuild
  | formatMismatch
  | source (message : String)
  | sourceValueTooLarge (key : Bytes) (len max : Nat)
  | io (message : String)
  | json (message : String)
  | panic (message : String)
  deriving DecidableEq, Repr

instance : IoError Error := ⟨.io⟩

/-- The two snapshot formats. -/
inductive FormatId where
  | v4
  | v5
  deriving DecidableEq, Repr

/-- The result of a lookup that did not fail; a miss says whether it read a data file. -/
inductive GetOutcome where
  | hit (value : Bytes)
  | miss (io : Bool)
  deriving DecidableEq, Repr

/-- The name of the hash function in `meta.json`. -/
def hashAlgorithm : String := "xxhash64"

/-- The fingerprint of a key: its hash with seed `0`, where `0` is replaced by `1`. -/
def fingerprint (H : Hash) (key : Bytes) : UInt64 :=
  if H.xxh64 key 0 = 0 then 1 else H.xxh64 key 0

/-- `DEFAULT_VERIFY_SEED`. -/
def defaultVerifySeed : UInt64 := 0x517cc1b727220a95

/-- A stored key with its value. -/
abbrev Pair := Bytes × Bytes

/-- Read `size` bytes of a file at an offset (`data.rs`); a short file is an error. -/
def pread (file : Bytes) (offset size : Nat) : Except Error Bytes :=
  if file.length < offset + size then .error (.io "failed to fill whole buffer")
  else .ok (Bytes.slice file offset (offset + size))

/-! ### Partitions -/

/-- A partition count, which is a power of two. -/
structure Layout where
  nPartitions : Nat
  isPowerOfTwo : nPartitions.isPowerOfTwo

def Layout.new (n : Nat) : Except Error Layout :=
  if h : n.isPowerOfTwo then .ok ⟨n, h⟩ else .error (.invalidPartitionCount n)

namespace Layout

/-- The partition of a fingerprint: its low bits. -/
def partitionOf (l : Layout) (fp : UInt64) : Nat :=
  fp.toNat &&& (l.nPartitions - 1)

theorem pos (l : Layout) :
  0 < l.nPartitions
  :=
  Nat.pos_of_isPowerOfTwo l.isPowerOfTwo

theorem partitionOf_eq_mod (l : Layout) (fp : UInt64) :
  l.partitionOf fp = fp.toNat % l.nPartitions
  := by
  obtain ⟨k, hk⟩ := l.isPowerOfTwo
  rw [partitionOf, hk, Nat.and_two_pow_sub_one_eq_mod]

theorem partitionOf_lt (l : Layout) (fp : UInt64) :
  l.partitionOf fp < l.nPartitions
  := by
  rw [partitionOf_eq_mod]
  apply Nat.mod_lt _ l.pos

theorem new_eq_ok {n : Nat} {l : Layout} (h : Layout.new n = .ok l) :
  l.nPartitions = n
  := by
  rw [Layout.new] at h
  split at h
  · obtain rfl := Except.ok.inj h
    rfl
  · simp at h

theorem new_nPartitions (l : Layout) :
  Layout.new l.nPartitions = .ok l
  := by
  rw [Layout.new, dif_pos l.isPowerOfTwo]

/-- A single partition. -/
def one : Layout := ⟨1, 0, rfl⟩

/-- Two partitions. -/
def two : Layout := ⟨2, 1, rfl⟩

end Layout

/-- No stored key of the key's partition, other than the key itself, has its verify
fingerprint. -/
def Distinguished (H : Hash) (l : Layout) (vfp : Bytes → UInt64) (kvs : List Pair) (key : Bytes) :
    Prop :=
  ∀ kv ∈ kvs, l.partitionOf (fingerprint H kv.1) = l.partitionOf (fingerprint H key) →
    vfp kv.1 = vfp key → kv.1 = key

/-- The verify fingerprints of the stored keys of a partition do not collide. -/
def NoCollisions (H : Hash) (l : Layout) (vfp : Bytes → UInt64) (kvs : List Pair) : Prop :=
  ∀ kv ∈ kvs, Distinguished H l vfp kvs kv.1

/-- The pairs of partition `p`, in order. -/
def pairsOf (H : Hash) (l : Layout) (kvs : List Pair) (p : Nat) : List Pair :=
  kvs.filter fun kv => l.partitionOf (fingerprint H kv.1) = p

theorem mem_pairsOf {H : Hash} {l : Layout} {kvs : List Pair} {p : Nat} {kv : Pair} :
  kv ∈ pairsOf H l kvs p ↔ kv ∈ kvs ∧ l.partitionOf (fingerprint H kv.1) = p
  := by
  simp only [pairsOf, List.mem_filter, decide_eq_true_eq]

theorem pairsOf_append (H : Hash) (l : Layout) (kvs : List Pair) (kv : Pair) (p : Nat) :
  pairsOf H l (kvs ++ [kv]) p
    = pairsOf H l kvs p ++ if l.partitionOf (fingerprint H kv.1) = p then [kv] else []
  := by
  rw [pairsOf, List.filter_append, ← pairsOf]
  by_cases h : l.partitionOf (fingerprint H kv.1) = p
  · simp [h]
  · simp [h]

/-- Four keys: of two partitions, either has two. -/
def fourPairs : List Pair :=
  [([0x61], [1]), ([0x64], [2]), ([0x63], []), ([0x65], [4, 4, 4])]

/-- The name of a partition's directory. -/
abbrev DirName := List Char

/-- The directory of partition `i` of `n`: the number, padded with zeros to the width of
`n - 1`. -/
def partitionDir (n i : Nat) : DirName :=
  let width := (Nat.toDigits 10 (n - 1)).length
  let digits := Nat.toDigits 10 i
  "part-".toList ++ (List.replicate (width - digits.length) '0' ++ digits)

/-- The number a padded directory name denotes. -/
theorem ofDigitChars_partitionDir (k i : Nat) :
  Nat.ofDigitChars 10 (List.replicate k '0' ++ Nat.toDigits 10 i) 0 = i
  := by
  rw [Nat.ofDigitChars_append, Nat.ofDigitChars_replicate_zero, Nat.mul_zero]
  apply Nat.ofDigitChars_ten_toDigits

/-- Under one partition count, different partitions have different directories. -/
theorem partitionDir_injective {n i j : Nat} (h : partitionDir n i = partitionDir n j) :
  i = j
  := by
  have htail := List.append_cancel_left h
  rw [← ofDigitChars_partitionDir ((Nat.toDigits 10 (n - 1)).length
    - (Nat.toDigits 10 i).length) i, htail, ofDigitChars_partitionDir]

/-- The directories of all partitions, in order. -/
def partitionDirs (n : Nat) : List DirName :=
  (List.range n).map (partitionDir n)

theorem nodup_partitionDirs (n : Nat) :
  (partitionDirs n).Nodup
  := by
  apply List.Nodup.map _ List.nodup_range
  intro i j h
  apply partitionDir_injective h

theorem exists_of_mem_partitionDirs {n : Nat} {name : DirName} (h : name ∈ partitionDirs n) :
  ∃ p < n, name = partitionDir n p
  := by
  obtain ⟨p, hp, rfl⟩ := List.mem_map.mp h
  exact ⟨p, List.mem_range.mp hp, rfl⟩

/-- Replacing the directory of one partition leaves the others as they are. -/
theorem get_put_partitionDir {σ τ : Type} (L : Crash.Parts DirName σ τ) (n p q : Nat) (t : τ) (s : σ) :
  L.get (partitionDir n q) (L.put (partitionDir n p) t s)
    = if q = p then t else L.get (partitionDir n q) s
  := by
  by_cases h : q = p
  · rw [if_pos h, h]
    apply L.get_put
  · rw [if_neg h]
    apply L.get_put_ne
    intro heq
    apply h (partitionDir_injective heq)

/-! ### Sentinels of the loader -/

/-- The contents of `scatter.done`; `partitions` are the key counts of the partitions. -/
structure ScatterDone where
  format : FormatId
  nKeys : Nat
  nPartitions : Nat
  dataBytes : Nat
  partitions : List Nat
  deriving DecidableEq, Repr

/-- Run a check on every element; the first failure is reported. -/
def checkAll {α : Type} (check : α → Except Error Unit) : List α → Except Error Unit
  | [] => .ok ()
  | a :: as =>
    match check a with
    | .error e => .error e
    | .ok () => checkAll check as

/-- All elements pass when each of them does. -/
theorem checkAll_eq_ok {α : Type} {check : α → Except Error Unit} {l : List α}
    (h : ∀ a ∈ l, check a = .ok ()) :
  checkAll check l = .ok ()
  := by
  induction l with
  | nil => rfl
  | cons a as ih =>
    rw [checkAll, h a List.mem_cons_self]
    apply ih
    intro b hb
    apply h b (List.mem_cons_of_mem _ hb)

end Format
