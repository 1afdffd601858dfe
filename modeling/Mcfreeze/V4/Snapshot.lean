import Mcfreeze.V4.Reader

/-!
# Complete V4 snapshots

A V4 snapshot is *complete* for the pairs of its partitions when `meta.json` gives the
places of tables in `index.all` that hold the entries of the pairs.  A complete snapshot
opens, answers a lookup of every stored key with its value and of every other key with a
miss, and a miss reads a data file exactly if a stored key of the partition shares the
compact fingerprint of the key.
-/

open Format

namespace V4

open Bytes

/-! ### The unified index -/

section

/-- The bytes of a table are cast to the table. -/
theorem castBuckets_encodeBuckets (t : List Bucket) :
  castBuckets (encodeBuckets t) t.length = t
  := by
  apply List.ext_getElem?
  intro i
  rw [castBuckets, List.getElem?_map]
  by_cases hi : i < t.length
  · rw [List.getElem?_range hi, Option.map_some, List.getElem?_eq_getElem hi]
    have hslice : slice (encodeBuckets t) (i * 8) (i * 8 + 8) = t[i].encode := by
      apply slice_flatten_of_length
      · intro b hb
        obtain ⟨c, -, rfl⟩ := List.mem_map.mp hb
        apply length_encode
      · rw [List.getElem?_map, List.getElem?_eq_getElem hi, Option.map_some]
    have hdecode := decodeBucket_encode t[i] []
    rw [List.append_nil] at hdecode
    rw [hslice, hdecode]
  · have hle : t.length ≤ i := Nat.not_lt.mp hi
    rw [List.getElem?_eq_none (by simpa using hle), List.getElem?_eq_none hle, Option.map_none]

theorem padIndex_append (file : Bytes) (last : Bool) :
  ∃ pad, padIndex file last = file ++ pad
  := by
  rw [padIndex]
  split
  · exact ⟨_, rfl⟩
  · exact ⟨[], (List.append_nil _).symm⟩

theorem length_le_padIndex (file : Bytes) (last : Bool) :
  file.length ≤ (padIndex file last).length
  := by
  obtain ⟨pad, hpad⟩ := padIndex_append file last
  rw [hpad, List.length_append]
  omega

/-- A file is padded by less than the alignment. -/
theorem length_padIndex_lt (file : Bytes) (last : Bool) :
  (padIndex file last).length < file.length + indexAlignment
  := by
  rw [padIndex]
  split
  · rw [List.length_append, List.length_replicate]
    simp only [alignIndex, indexAlignment]
    omega
  · simp only [indexAlignment]
    omega

/-- Between two tables the file is padded to the alignment. -/
theorem padIndex_aligned (file : Bytes) :
  (padIndex file false).length % indexAlignment = 0
  := by
  rw [padIndex]
  split
  · rw [List.length_append, List.length_replicate]
    simp only [alignIndex, indexAlignment]
    omega
  · next h =>
    simpa using h

/-- Appending tables only adds to the file. -/
theorem appendTables_append (tables : List (List Bucket)) (file : Bytes) :
  ∃ rest, (appendTables tables file).1 = file ++ rest
  := by
  induction tables generalizing file with
  | nil => exact ⟨[], (List.append_nil _).symm⟩
  | cons t tables ih =>
    obtain ⟨pad, hpad⟩ := padIndex_append (file ++ encodeBuckets t) tables.isEmpty
    obtain ⟨rest, hrest⟩ := ih (padIndex (file ++ encodeBuckets t) tables.isEmpty)
    refine ⟨encodeBuckets t ++ (pad ++ rest), ?_⟩
    rw [appendTables, hrest, hpad]
    simp only [List.append_assoc]

/-- A table is found again at its offset. -/
theorem appendTables_table {tables : List (List Bucket)} {file : Bytes} {i offset n : Nat}
    (hoffset : (appendTables tables file).2.1[i]? = some offset)
    (hn : (appendTables tables file).2.2[i]? = some n) :
  ∃ t, tables[i]? = some t ∧ offset + n * 8 ≤ (appendTables tables file).1.length
    ∧ castBuckets (slice (appendTables tables file).1 offset (offset + n * 8)) n = t
  := by
  induction tables generalizing file i with
  | nil => simp [appendTables] at hoffset
  | cons t tables ih =>
    rw [appendTables] at hoffset hn ⊢
    cases i with
    | succ i =>
      rw [List.getElem?_cons_succ] at hoffset hn ⊢
      apply ih hoffset hn
    | zero =>
      obtain rfl : file.length = offset := by simpa using hoffset
      obtain rfl : t.length = n := by simpa using hn
      obtain ⟨pad, hpad⟩ := padIndex_append (file ++ encodeBuckets t) tables.isEmpty
      obtain ⟨rest, hrest⟩ := appendTables_append tables
        (padIndex (file ++ encodeBuckets t) tables.isEmpty)
      have hfile : (appendTables tables (padIndex (file ++ encodeBuckets t) tables.isEmpty)).1
          = file ++ (encodeBuckets t ++ (pad ++ rest)) := by
        rw [hrest, hpad]
        simp only [List.append_assoc]
      refine ⟨t, rfl, ?_, ?_⟩
      · rw [hfile]
        simp only [List.length_append, length_encodeBuckets]
        omega
      · rw [hfile, slice_mid _ _ _ rfl (by rw [length_encodeBuckets]), castBuckets_encodeBuckets]

/-- A table starts at a multiple of the alignment. -/
theorem appendTables_aligned {tables : List (List Bucket)} {file : Bytes} {i offset : Nat}
    (hfile : file.length % indexAlignment = 0)
    (hoffset : (appendTables tables file).2.1[i]? = some offset) :
  offset % indexAlignment = 0
  := by
  induction tables generalizing file i with
  | nil => simp [appendTables] at hoffset
  | cons t tables ih =>
    rw [appendTables] at hoffset
    cases i with
    | zero =>
      obtain rfl : file.length = offset := by simpa using hoffset
      apply hfile
    | succ i =>
      rw [List.getElem?_cons_succ] at hoffset
      cases tables with
      | nil => simp [appendTables] at hoffset
      | cons t' tables => apply ih (padIndex_aligned _) hoffset

theorem length_appendTables (tables : List (List Bucket)) (file : Bytes) :
  (appendTables tables file).2.1.length = tables.length
    ∧ (appendTables tables file).2.2.length = tables.length
  := by
  induction tables generalizing file with
  | nil => exact ⟨rfl, rfl⟩
  | cons t tables ih =>
    obtain ⟨h₁, h₂⟩ := ih (padIndex (file ++ encodeBuckets t) tables.isEmpty)
    simp only [appendTables, List.length_cons, h₁, h₂, and_self]

/-- The size of the index file, up to the padding. -/
theorem length_appendTables_le (tables : List (List Bucket)) (file : Bytes) :
  (appendTables tables file).1.length
    ≤ file.length + (tables.map fun t => t.length * 8 + indexAlignment).sum
  := by
  induction tables generalizing file with
  | nil => exact Nat.le_add_right _ _
  | cons t tables ih =>
    have hrest := ih (padIndex (file ++ encodeBuckets t) tables.isEmpty)
    have hpad := length_padIndex_lt (file ++ encodeBuckets t) tables.isEmpty
    rw [List.length_append, length_encodeBuckets] at hpad
    rw [appendTables, List.map_cons, List.sum_cons]
    dsimp only
    omega

end

/-! ### Complete snapshots -/

/-- The table in `index.all` that the metadata gives for a partition holds the entries of
the pairs. -/
def Indexed (H : Hash) (seed : UInt64) (kvs : List Pair) (index data : Bytes) (pm : PartitionMeta) :
    Prop :=
  pm.indexOffset + pm.indexNBuckets * 8 ≤ index.length ∧ pm.indexOffset % bucketAlign = 0
    ∧ BuiltTable H seed kvs data (castBuckets
      (slice index pm.indexOffset (pm.indexOffset + pm.indexNBuckets * 8)) pm.indexNBuckets)

/-- The metadata describes tables for the given pairs. -/
structure Describes (H : Hash) (layout : Layout) (seed : UInt64) (pairs : Nat → List Pair) (d : Dir)
    (m : Meta) (index : Bytes) : Prop where
  formatVersion : m.formatVersion = V4.formatVersion
  hashAlgorithm : m.hashAlgorithm = Format.hashAlgorithm
  verifySeed : m.verifySeed = seed
  length : m.partitions.length = layout.nPartitions
  count : layout.nPartitions < 2 ^ 32
  indexAll : d.indexAll = some index
  indexLen : index.length ≤ Files.maxFileLen
  partitions : ∀ (i : Nat) (pm : PartitionMeta), m.partitions[i]? = some pm →
    ∃ data, (d.part (partitionDir layout.nPartitions i)).data = some data
      ∧ Indexed H seed (pairs i) index data pm

/-- The directory holds a complete snapshot of the given pairs. -/
def Complete (H : Hash) (layout : Layout) (seed : UInt64) (pairs : Nat → List Pair) (d : Dir) :
    Prop :=
  ∃ m index, d.metaJson = some (.whole m) ∧ Describes H layout seed pairs d m index

/-- No other stored key of the key's partition has its verify fingerprint. -/
abbrev Distinguished (H : Hash) (layout : Layout) (seed : UInt64) (kvs : List Pair) (key : Bytes) :
    Prop :=
  Format.Distinguished H layout (verifyFingerprint H · seed) kvs key

/-- The verify fingerprints of the stored keys of a partition do not collide. -/
abbrev NoCollisions (H : Hash) (layout : Layout) (seed : UInt64) (kvs : List Pair) : Prop :=
  Format.NoCollisions H layout (verifyFingerprint H · seed) kvs

/-- A stored key of the key's partition has its compact fingerprint. -/
def SharesFingerprint (H : Hash) (layout : Layout) (kvs : List Pair) (key : Bytes) : Prop :=
  ∃ kv ∈ kvs, layout.partitionOf (fingerprint H kv.1) = layout.partitionOf (fingerprint H key)
    ∧ compactFingerprint (fingerprint H kv.1) = compactFingerprint (fingerprint H key)

/-- The snapshot opens; it finds the value of every stored key, and it misses every other
key whose verify fingerprint does not collide, without reading a data file exactly if no
stored key of the partition shares the compact fingerprint. -/
def Serves (H : Hash) (layout : Layout) (seed : UInt64) (kvs : List Pair) (d : Dir) : Prop :=
  ∃ r, Snapshot.openPath d = .ok r
    ∧ (∀ kv ∈ kvs, r.get H kv.1 = .ok (.hit kv.2))
    ∧ ∀ key, key ∉ kvs.map Prod.fst → Distinguished H layout seed kvs key →
      ∃ io, r.get H key = .ok (.miss io) ∧ (io = false ↔ ¬ SharesFingerprint H layout kvs key)

section

variable {H : Hash} {layout : Layout} {seed : UInt64} {pairs : Nat → List Pair} {d : Dir}
  {m : Meta} {index : Bytes}

theorem Describes.layout_eq (h : Describes H layout seed pairs d m index) :
  m.layout = .ok layout
  := by
  rw [Meta.layout, if_neg (by simp [h.hashAlgorithm]), h.length, Nat.mod_eq_of_lt h.count,
    Layout.new_nPartitions]

/-- Every data file of a complete snapshot opens. -/
theorem Describes.openDataFiles (h : Describes H layout seed pairs d m index) :
  ∃ files ranges, openDataFiles layout.nPartitions d 0 m.partitions = .ok (files, ranges)
    ∧ ∀ i, i < layout.nPartitions →
      ∃ data pm, files[i]? = some data ∧ ranges[i]? = some (pm.indexOffset, pm.indexNBuckets)
        ∧ Indexed H seed (pairs i) index data pm
  := by
  have hgen : ∀ (pms : List PartitionMeta) (k : Nat),
      (∀ j pm, pms[j]? = some pm → m.partitions[k + j]? = some pm) →
      ∃ files ranges, V4.openDataFiles layout.nPartitions d k pms = .ok (files, ranges)
        ∧ ∀ j, j < pms.length →
          ∃ data pm, files[j]? = some data ∧ ranges[j]? = some (pm.indexOffset, pm.indexNBuckets)
            ∧ Indexed H seed (pairs (k + j)) index data pm := by
    intro pms
    induction pms with
    | nil =>
      intro k _
      refine ⟨[], [], rfl, ?_⟩
      intro j hj
      simp at hj
    | cons pm pms ih =>
      intro k hk
      obtain ⟨data, hdata, hindexed⟩ := h.partitions k pm (hk 0 pm rfl)
      obtain ⟨files, ranges, hrest, hall⟩ := ih (k + 1) (by
        intro j pm' hj
        rw [Nat.add_right_comm]
        apply hk (j + 1) pm'
        simpa using hj)
      refine ⟨data :: files, (pm.indexOffset, pm.indexNBuckets) :: ranges, ?_, ?_⟩
      · simp only [V4.openDataFiles, hdata, hrest]
      · intro j hj
        cases j with
        | zero => exact ⟨data, pm, rfl, rfl, hindexed⟩
        | succ j =>
          obtain ⟨data', pm', hdata', hpm', hindexed'⟩ := hall j (by simpa using hj)
          refine ⟨data', pm', by simpa using hdata', by simpa using hpm', ?_⟩
          rwa [Nat.add_right_comm] at hindexed'
  obtain ⟨files, ranges, hopen, hall⟩ := hgen m.partitions 0 (by
    intro j pm hj
    rwa [Nat.zero_add])
  refine ⟨files, ranges, hopen, ?_⟩
  intro i hi
  obtain ⟨data, pm, hdata, hpm, hindexed⟩ := hall i (by rwa [h.length])
  rw [Nat.zero_add] at hindexed
  exact ⟨data, pm, hdata, hpm, hindexed⟩

/-- A range that fits the mapping and is aligned is what a partition gets. -/
theorem SnapshotReader.partition_eq {r : SnapshotReader} {idx offset n : Nat} {data : Bytes}
    (hlen : r.indexMmap.length ≤ Files.maxFileLen) (hrange : r.ranges[idx]? = some (offset, n))
    (hdata : r.dataFiles[idx]? = some data) (hle : offset + n * 8 ≤ r.indexMmap.length)
    (halign : offset % bucketAlign = 0) :
  r.partition idx = .ok (castBuckets (slice r.indexMmap offset (offset + n * 8)) n, data)
  := by
  simp only [Files.maxFileLen] at hlen
  have hstop : (offset + n * 8 % 2 ^ 64) % 2 ^ 64 = offset + n * 8 := by omega
  have hcount : (offset + n * 8 - offset) / 8 = n := by omega
  simp only [SnapshotReader.partition, hrange, hdata]
  rw [hstop, hcount, if_neg (by omega), if_neg (by omega), if_neg (by simpa using halign)]

/-- A complete snapshot of the pairs of each partition, in whatever order, serves the
pairs. -/
theorem Complete.serves {kvs : List Pair} (h : Complete H layout seed pairs d)
    (hpairs : ∀ p < layout.nPartitions, (pairs p).Perm (pairsOf H layout kvs p))
    (hkeys : (kvs.map Prod.fst).Nodup) (hcoll : NoCollisions H layout seed kvs) :
  Serves H layout seed kvs d
  := by
  have hmem : ∀ key kv, kv ∈ pairs (layout.partitionOf (fingerprint H key)) ↔ kv ∈ kvs
      ∧ layout.partitionOf (fingerprint H kv.1) = layout.partitionOf (fingerprint H key) := by
    intro key kv
    rw [(hpairs _ (layout.partitionOf_lt _)).mem_iff, mem_pairsOf]
  obtain ⟨m, index, hmeta, hd⟩ := h
  obtain ⟨files, ranges, hopen, hall⟩ := hd.openDataFiles
  refine ⟨⟨layout, m.verifySeed, index, files, ranges⟩, ?_, ?_, ?_⟩
  · simp only [Snapshot.openPath, hmeta, hd.formatVersion, hd.layout_eq, SnapshotReader.open,
      hd.indexAll, hopen, if_neg (Nat.not_lt.mpr hd.indexLen)]
    simp
  · intro kv hkv
    obtain ⟨data, pm, hdata, hpm, hle, halign, hbuilt⟩ :=
      hall _ (layout.partitionOf_lt (fingerprint H kv.1))
    simp only [SnapshotReader.get]
    rw [SnapshotReader.partition_eq hd.indexLen hpm hdata hle halign]
    dsimp only
    rw [hd.verifySeed]
    apply hbuilt.get_hit ((hmem kv.1 kv).mpr ⟨hkv, rfl⟩)
    intro kv' hkv' hvfp
    obtain ⟨hkv', hp⟩ := (hmem kv.1 kv').mp hkv'
    have hkey : kv'.1 = kv.1 := hcoll kv hkv kv' hkv' hp hvfp
    rw [List.inj_on_of_nodup_map hkeys hkv' hkv hkey]
  · intro key hkey hdist
    obtain ⟨data, pm, hdata, hpm, hle, halign, hbuilt⟩ :=
      hall _ (layout.partitionOf_lt (fingerprint H key))
    simp only [SnapshotReader.get]
    rw [SnapshotReader.partition_eq hd.indexLen hpm hdata hle halign]
    dsimp only
    rw [hd.verifySeed]
    have hvfp : ∀ kv ∈ pairs (layout.partitionOf (fingerprint H key)),
        verifyFingerprint H kv.1 seed ≠ verifyFingerprint H key seed := by
      intro kv hkv hvfp
      obtain ⟨hkv, hp⟩ := (hmem key kv).mp hkv
      apply hkey
      rw [← hdist kv hkv hp hvfp]
      apply List.mem_map_of_mem hkv
    obtain ⟨io, hget, hio⟩ := hbuilt.get_miss hvfp
    refine ⟨io, hget, hio.trans ?_⟩
    constructor
    · rintro hnone ⟨kv, hkv, hp, hcfp⟩
      apply hnone kv ((hmem key kv).mpr ⟨hkv, hp⟩) hcfp
    · intro hnone kv hkv hcfp
      obtain ⟨hkv, hp⟩ := (hmem key kv).mp hkv
      apply hnone ⟨kv, hkv, hp, hcfp⟩

end

end V4
