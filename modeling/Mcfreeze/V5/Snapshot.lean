import Mcfreeze.V5.Reader

/-!
# Complete snapshots

A snapshot directory is *complete* for the frames of its partitions when `meta.json`
describes partitions that were built from them, all with the block size, sketch and codec
that it names.  A complete snapshot opens, and answers a lookup of every stored key with
the key's value and of every other key with a miss.
-/

open Format

namespace V5

/-- The frame of a key and its value. -/
def frameOf (H : Hash) (seed : UInt64) (kv : Pair) : Frame :=
  ⟨fingerprint H kv.1, verifyFingerprint H kv.1 seed, kv.2⟩

/-- The frames of partition `p`, in the order of the pairs. -/
def framesOf (H : Hash) (layout : Layout) (seed : UInt64) (kvs : List Pair) (p : Nat) :
    List Frame :=
  (pairsOf H layout kvs p).map (frameOf H seed)

/-- The metadata describes partitions built from the given frames. -/
structure Describes (E : Env) (layout : Layout) (seed : UInt64) (frames : Nat → List Frame)
    (d : Dir) (m : Meta) (codec : Option Decompressor) : Prop where
  formatVersion : m.formatVersion = V5.formatVersion
  hashAlgorithm : m.hashAlgorithm = Format.hashAlgorithm
  verifySeed : m.verifySeed = seed
  blockSize : validateBlockSize m.blockSize = .ok ()
  sketch : ∀ kind, m.sketch = some kind → kind = sketchKind
  compression : checkCompression m.compression = .ok ()
  opens : openCodec E d.dict m.compression = .ok codec
  length : m.partitions.length = layout.nPartitions
  count : layout.nPartitions < 2 ^ 32
  partitions : ∀ (i : Nat) (pm : PartitionMeta), m.partitions[i]? = some pm →
    BuiltPartition E m.blockSize m.sketch.isSome codec (frames i)
      (d.part (partitionDir layout.nPartitions i)) pm.nBlocks pm.sketchChecksum

/-- The directory holds a complete snapshot of the given frames. -/
def Complete (E : Env) (layout : Layout) (seed : UInt64) (frames : Nat → List Frame) (d : Dir) :
    Prop :=
  ∃ m codec, d.metaJson = some m ∧ Describes E layout seed frames d m codec

section

variable {E : Env} {layout : Layout} {seed : UInt64} {frames : Nat → List Frame} {d : Dir}
  {m : Meta} {codec : Option Decompressor}

/-- A partition has a block exactly if it has a frame, and a sketch checksum exactly if it
has a block and sketches are built. -/
theorem BuiltPartition.checkSketch {sketch : Option String} {blockSize : Nat}
    {frames : List Frame} {dir : PartDir} {pm : PartitionMeta}
    (h : BuiltPartition E blockSize sketch.isSome codec frames dir pm.nBlocks pm.sketchChecksum) :
  checkSketch sketch pm = .ok ()
  := by
  have hpos := h.nBlocks_pos_iff
  obtain ⟨-, -, -, -, -, -, -, -, -, -, -, -, -, -, hsk⟩ := h
  rw [SketchBuilt] at hsk
  rw [V5.checkSketch]
  split at hsk
  · next hwritten =>
    obtain ⟨bytes, -, hsum, -⟩ := hsk
    simp [hsum, hwritten.1, hpos.mpr hwritten.2]
  · next hnot =>
    rw [hsk]
    by_cases hs : sketch.isSome = true
    · have hzero : ¬ 0 < pm.nBlocks := fun hlt => hnot ⟨hs, hpos.mp hlt⟩
      simp [hzero]
    · simp [hs]

/-- The metadata of a complete snapshot is valid. -/
theorem Describes.layout_eq (h : Describes E layout seed frames d m codec) :
  m.layout = .ok layout
  := by
  have hsketch : m.sketch.filter (· ≠ sketchKind) = none := by
    cases hk : m.sketch with
    | none => rfl
    | some kind => simp [h.sketch kind hk]
  have hsketches : checkAll (checkSketch m.sketch) m.partitions = .ok () := by
    apply checkAll_eq_ok
    intro pm hpm
    obtain ⟨i, hi, rfl⟩ := List.mem_iff_getElem.mp hpm
    apply (h.partitions i _ (List.getElem?_eq_getElem hi)).checkSketch
  have hcounts : checkAll (checkBlockCount m.blockSize) m.partitions = .ok () := by
    apply checkAll_eq_ok
    intro pm hpm
    obtain ⟨i, hi, rfl⟩ := List.mem_iff_getElem.mp hpm
    have hbound := (h.partitions i _ (List.getElem?_eq_getElem hi)).bound
    rw [checkBlockCount, if_neg (by omega)]
  rw [Meta.layout, if_neg (by simp [h.hashAlgorithm]), h.blockSize]
  simp only [hsketch, hsketches, h.compression, hcounts, h.length]
  rw [Nat.mod_eq_of_lt h.count, Layout.new_nPartitions]

/-- Every partition of a complete snapshot opens and answers for its frames. -/
theorem Describes.openPartitions (h : Describes E layout seed frames d m codec) :
  ∃ parts, openPartitions E m layout.nPartitions d 0 m.partitions = .ok parts
    ∧ ∀ i, i < layout.nPartitions →
      ∃ part, parts[i]? = some part ∧ Answers E m.blockSize codec part (frames i)
  := by
  have hgen : ∀ (pms : List PartitionMeta) (k : Nat),
      (∀ j pm, pms[j]? = some pm → m.partitions[k + j]? = some pm) →
      ∃ parts, V5.openPartitions E m layout.nPartitions d k pms = .ok parts
        ∧ ∀ j, j < pms.length →
          ∃ part, parts[j]? = some part ∧ Answers E m.blockSize codec part (frames (k + j)) := by
    intro pms
    induction pms with
    | nil =>
      intro k _
      refine ⟨[], rfl, ?_⟩
      intro j hj
      simp at hj
    | cons pm pms ih =>
      intro k hk
      obtain ⟨part, hopen, hanswers⟩ := (h.partitions k pm (hk 0 pm rfl)).opens rfl k
      obtain ⟨parts, hrest, hall⟩ := ih (k + 1) (by
        intro j pm' hj
        rw [Nat.add_right_comm]
        apply hk (j + 1) pm'
        simpa using hj)
      refine ⟨part :: parts, ?_, ?_⟩
      · simp only [V5.openPartitions, hopen, hrest]
      · intro j hj
        cases j with
        | zero => exact ⟨part, rfl, hanswers⟩
        | succ j =>
          obtain ⟨part', hget, hans⟩ := hall j (by simpa using hj)
          refine ⟨part', by simpa using hget, ?_⟩
          rwa [Nat.add_right_comm] at hans
  obtain ⟨parts, hopen, hall⟩ := hgen m.partitions 0 (by
    intro j pm hj
    rwa [Nat.zero_add])
  refine ⟨parts, hopen, ?_⟩
  intro i hi
  obtain ⟨part, hget, hans⟩ := hall i (by rwa [h.length])
  rw [Nat.zero_add] at hans
  exact ⟨part, hget, hans⟩

end

/-- No other stored key of the key's partition has its verify fingerprint. -/
abbrev Distinguished (H : Hash) (layout : Layout) (seed : UInt64) (kvs : List Pair) (key : Bytes) :
    Prop :=
  Format.Distinguished H layout (verifyFingerprint H · seed) kvs key

/-- The verify fingerprints of the stored keys of a partition do not collide. -/
abbrev NoCollisions (H : Hash) (layout : Layout) (seed : UInt64) (kvs : List Pair) : Prop :=
  Format.NoCollisions H layout (verifyFingerprint H · seed) kvs

/-- The snapshot opens; it finds the value of every stored key, and it misses every other
key whose verify fingerprint does not collide. -/
def Serves (E : Env) (layout : Layout) (seed : UInt64) (kvs : List Pair) (d : Dir) : Prop :=
  ∃ r, Snapshot.openPath E d = .ok r
    ∧ (∀ kv ∈ kvs, r.get E kv.1 = .ok (.hit kv.2))
    ∧ ∀ key, key ∉ kvs.map Prod.fst → Distinguished E.hash layout seed kvs key →
      ∃ io, r.get E key = .ok (.miss io)

theorem mem_framesOf {H : Hash} {layout : Layout} {seed : UInt64} {kvs : List Pair} {p : Nat}
    {f : Frame} :
  f ∈ framesOf H layout seed kvs p
    ↔ ∃ kv ∈ kvs, layout.partitionOf (fingerprint H kv.1) = p ∧ frameOf H seed kv = f
  := by
  simp only [framesOf, List.mem_map, mem_pairsOf, and_assoc]

/-- A complete snapshot of the frames of some pairs, in whatever order, serves the pairs. -/
theorem Complete.serves {E : Env} {layout : Layout} {seed : UInt64} {kvs : List Pair}
    {frames : Nat → List Frame} {d : Dir} (h : Complete E layout seed frames d)
    (hframes : ∀ p < layout.nPartitions, (frames p).Perm (framesOf E.hash layout seed kvs p))
    (hkeys : (kvs.map Prod.fst).Nodup) (hcoll : NoCollisions E.hash layout seed kvs) :
  Serves E layout seed kvs d
  := by
  have hmem : ∀ key f, f ∈ frames (layout.partitionOf (fingerprint E.hash key)) ↔
      f ∈ framesOf E.hash layout seed kvs (layout.partitionOf (fingerprint E.hash key)) :=
    fun key f => (hframes _ (layout.partitionOf_lt _)).mem_iff
  obtain ⟨m, codec, hmeta, hd⟩ := h
  obtain ⟨parts, hopen, hall⟩ := hd.openPartitions
  refine ⟨⟨parts, layout, m.verifySeed, m.blockSize, codec⟩, ?_, ?_, ?_⟩
  · simp only [Snapshot.openPath, hmeta, hd.formatVersion, hd.layout_eq, SnapshotReader.open,
      hd.opens, hopen]
    simp
  · intro kv hkv
    obtain ⟨part, hpart, hans⟩ := hall _ (layout.partitionOf_lt (fingerprint E.hash kv.1))
    simp only [SnapshotReader.get, hpart, hd.verifySeed]
    apply hans.hit (frameOf E.hash seed kv)
    · rw [hmem]
      apply mem_framesOf.mpr
      exact ⟨kv, hkv, rfl, rfl⟩
    · intro g hg hvfp
      rw [hmem] at hg
      obtain ⟨kv', hkv', hp, rfl⟩ := mem_framesOf.mp hg
      have hkey : kv'.1 = kv.1 := hcoll kv hkv kv' hkv' hp hvfp
      rw [List.inj_on_of_nodup_map hkeys hkv' hkv hkey]
  · intro key hkey hdist
    obtain ⟨part, hpart, hans⟩ := hall _ (layout.partitionOf_lt (fingerprint E.hash key))
    simp only [SnapshotReader.get, hpart, hd.verifySeed]
    apply hans.miss
    intro f hf hvfp
    rw [hmem] at hf
    obtain ⟨kv, hkv, hp, rfl⟩ := mem_framesOf.mp hf
    apply hkey
    rw [← hdist kv hkv hp hvfp]
    apply List.mem_map_of_mem hkv

end V5
