import Mcfreeze.V5.Meta
import Mcfreeze.V5.Packing
import Mcfreeze.Lib.Fences
import Mcfreeze.Lib.Lists

/-!
# Reading a V5 snapshot

Opening a snapshot directory and looking up a key (`v5/reader.rs`, `v5/fence.rs`).

`BuiltPartition` says what the files of a partition must be for its frames to be found: the
frames, sorted by fingerprint, are packed into the blocks, every record resolves to the
value of its frame, and the sketch contains every fingerprint.  Then a lookup finds the
value of a stored frame, and misses a verify fingerprint that no frame has.
-/

open Format

namespace V5

open Bytes

/-- The code outside the crate: hashing, compression, the filter, and the unstable sort by
fingerprint. -/
structure Env where
  hash : Hash
  zstd : Zstd
  xorf : Xorf
  sortUnstable : List Frame → List Frame

/-- What the code relies on. -/
structure Env.Lawful (E : Env) : Prop where
  zstd : E.zstd.Lawful
  xorf : E.xorf.Lawful
  sort_perm : ∀ frames, (E.sortUnstable frames).Perm frames
  sort_sorted : ∀ frames,
    (E.sortUnstable frames).Pairwise fun f g => f.fp.toNat ≤ g.fp.toNat

/-- The verify fingerprint of a key: its hash with the snapshot's seed, where `0` is
replaced by `1`. -/
def verifyFingerprint (H : Hash) (key : Bytes) (seed : UInt64) : UInt64 :=
  if H.xxh64 key seed = 0 then 1 else H.xxh64 key seed

/-! ### Opening -/

/-- The fences in `n * 4` bytes. -/
def castFences (b : Bytes) (n : Nat) : List UInt32 :=
  (List.range n).map fun i => UInt32.ofNat (leNat (slice b (i * 4) (i * 4 + 4)))

def FenceArray.load (file : Option Bytes) (expectedBlocks partition : Nat) :
    Except Error (List UInt32) :=
  match file with
  | none => .error (.io "fences.bin")
  | some b =>
    if b.length ≠ expectedBlocks * 4 then
      .error (.snapshotFileSize partition "fences.bin" b.length (expectedBlocks * 4))
    else .ok (castFences b expectedBlocks)

structure Partition where
  fences : List UInt32
  blocks : Bytes
  heap : Bytes
  sketch : Option Sketch
  deriving DecidableEq, Repr

structure SnapshotReader where
  partitions : List Partition
  layout : Layout
  verifySeed : UInt64
  blockSize : Nat
  codec : Option Decompressor

def openCodec (E : Env) (dict : Option Bytes) :
    Option CompressionMeta → Except Error (Option Decompressor)
  | none => .ok none
  | some c =>
    if c.dict then
      match c.dictChecksum with
      | none => .error (.invalidCompressionMeta "dict: true requires dict_checksum")
      | some expected =>
        match dict with
        | none => .error .dictUnreadable
        | some bytes =>
          match verifyDict E.hash bytes expected with
          | .error e => .error e
          | .ok () => (Decompressor.new E.zstd (some bytes)).map some
    else (Decompressor.new E.zstd none).map some

/-- Load the sketch of a non-empty partition, if there are sketches. -/
def openSketch (E : Env) (sketch : Option String) (pm : PartitionMeta) (i : Nat)
    (file : Option Bytes) : Except Error (Option Sketch) :=
  if sketch.isSome ∧ 0 < pm.nBlocks then
    match file with
    | none => .error (.snapshotFileRead i "sketch.bin")
    | some bytes =>
      match pm.sketchChecksum with
      | none => .error (.invalidSketchMeta "sketch present without sketch_checksum")
      | some checksum =>
        match verifySketch E.hash bytes checksum with
        | .error e => .error e
        | .ok () => (Sketch.parse bytes).map some
  else .ok none

def openPartition (E : Env) (m : Meta) (pm : PartitionMeta) (i : Nat) (dir : PartDir) :
    Except Error Partition :=
  match FenceArray.load dir.fences pm.nBlocks i with
  | .error e => .error e
  | .ok fences =>
    match dir.blocks with
    | none => .error (.io "blocks.bin")
    | some blocks =>
      if blocks.length ≠ pm.nBlocks * m.blockSize then
        .error (.snapshotFileSize i "blocks.bin" blocks.length (pm.nBlocks * m.blockSize))
      else
        match openSketch E m.sketch pm i dir.sketch with
        | .error e => .error e
        | .ok sketch =>
          match dir.heap with
          | none => .error (.io "heap.bin")
          | some heap => .ok ⟨fences, blocks, heap, sketch⟩

/-- Open the partitions from number `i` on. -/
def openPartitions (E : Env) (m : Meta) (n : Nat) (d : Dir) :
    Nat → List PartitionMeta → Except Error (List Partition)
  | _, [] => .ok []
  | i, pm :: pms =>
    match openPartition E m pm i (d.part (partitionDir n i)) with
    | .error e => .error e
    | .ok p =>
      match openPartitions E m n d (i + 1) pms with
      | .error e => .error e
      | .ok ps => .ok (p :: ps)

/-- Open a snapshot from its metadata. -/
def SnapshotReader.open (E : Env) (d : Dir) (m : Meta) : Except Error SnapshotReader :=
  match m.layout with
  | .error e => .error e
  | .ok layout =>
    match openCodec E d.dict m.compression with
    | .error e => .error e
    | .ok codec =>
      match openPartitions E m layout.nPartitions d 0 m.partitions with
      | .error e => .error e
      | .ok partitions => .ok ⟨partitions, layout, m.verifySeed, m.blockSize, codec⟩

/-- Open a snapshot directory: `meta.json` is parsed and validated first. -/
def Snapshot.openPath (E : Env) (d : Dir) : Except Error SnapshotReader :=
  match d.metaJson with
  | none => .error (.io "meta.json")
  | some m =>
    if m.formatVersion ≠ formatVersion then .error (.unsupportedFormatVersion m.formatVersion)
    else
      match m.layout with
      | .error e => .error e
      | .ok _ => SnapshotReader.open E d m

/-! ### Lookup -/

/-- The blocks that can hold a record with fence `h`, in probe order. -/
def candidateBlocks (fences : List UInt32) (h : UInt32) : List Nat :=
  Fences.candidates (fences.map UInt32.toNat) h.toNat

/-- The value of a record. -/
def resolve (E : Env) (codec : Option Decompressor) (heap : Bytes) : Record → Except Error Bytes
  | .inline _ value compressed => decode E.zstd value compressed codec
  | .stub _ st compressed =>
    match pread heap st.heapOffset st.storedLen with
    | .error e => .error e
    | .ok value =>
      if checksum32 E.hash value ≠ st.valueChecksum then .error .valueChecksumMismatch
      else decode E.zstd value compressed codec

/-- Probe the candidate blocks one after the other. -/
def probe (E : Env) (blockSize : Nat) (codec : Option Decompressor) (part : Partition)
    (vfp : UInt64) : Bool → List Nat → Except Error GetOutcome
  | io, [] => .ok (.miss io)
  | _, b :: bs =>
    match pread part.blocks (b * blockSize) blockSize with
    | .error e => .error e
    | .ok buf =>
      match find E.hash buf vfp with
      | .error e => .error e
      | .ok (some record) =>
        match resolve E codec part.heap record with
        | .error e => .error e
        | .ok value => .ok (.hit value)
      | .ok none => probe E blockSize codec part vfp true bs

/-- A lookup in one partition. -/
def getIn (E : Env) (blockSize : Nat) (codec : Option Decompressor) (part : Partition)
    (fp vfp : UInt64) : Except Error GetOutcome :=
  let rejected := part.sketch.any fun sketch => !sketch.contains E.xorf fp
  if rejected then .ok (.miss false)
  else probe E blockSize codec part vfp false (candidateBlocks part.fences (fenceOf fp))

def SnapshotReader.get (E : Env) (r : SnapshotReader) (key : Bytes) : Except Error GetOutcome :=
  let fp := fingerprint E.hash key
  let vfp := verifyFingerprint E.hash key r.verifySeed
  match r.partitions[r.layout.partitionOf fp]? with
  | none => .error (.panic "index out of bounds")
  | some part => getIn E r.blockSize r.codec part fp vfp

/-! ### Built partitions -/

/-- The bytes of `fences.bin`. -/
def encodeFences (fences : List UInt32) : Bytes :=
  (fences.map fun f => leBytes 4 f.toNat).flatten

/-- The sketch of a partition with the given frames: there is one exactly if sketches are
built and the partition is not empty, and then it contains every fingerprint. -/
def SketchBuilt (E : Env) (sketch : Bool) (frames : List Frame) (file : Option Bytes)
    (checksum : Option UInt32) : Prop :=
  if sketch = true ∧ frames ≠ [] then
    ∃ bytes, file = some bytes ∧ checksum = some (checksum32 E.hash bytes)
      ∧ Sketch.parse bytes = .ok ⟨bytes⟩ ∧ ∀ f ∈ frames, E.xorf.contains bytes f.fp = true
  else checksum = none

/-- An entry of a block stands for a frame. -/
def StandsFor (E : Env) (codec : Option Decompressor) (heap : Bytes) (f : Frame) (e : Entry) :
    Prop :=
  e.1 = f.fp ∧ e.2.vfp = f.vfp ∧ resolve E codec heap e.2 = .ok f.value

/-- The files of a partition hold the given frames. -/
def BuiltPartition (E : Env) (blockSize : Nat) (sketch : Bool) (codec : Option Decompressor)
    (frames : List Frame) (dir : PartDir) (nBlocks : Nat) (sketchChecksum : Option UInt32) :
    Prop :=
  ∃ (sorted : List Frame) (entries : List Entry) (blocks : List Bytes) (fences : List UInt32)
    (heap : Bytes),
    sorted.Perm frames ∧ sorted.Pairwise (fun f g => f.fp.toNat ≤ g.fp.toNat)
    ∧ List.Forall₂ (StandsFor E codec heap) sorted entries
    ∧ Blocks E.hash blockSize entries blocks fences
    ∧ dir.blocks = some blocks.flatten ∧ dir.heap = some heap
    ∧ dir.fences = some (encodeFences fences)
    ∧ nBlocks = fences.length ∧ nBlocks * blockSize < 2 ^ 64
    ∧ SketchBuilt E sketch frames dir.sketch sketchChecksum

/-- The bytes of fences are cast to the fences. -/
theorem castFences_encodeFences (fences : List UInt32) :
  castFences (encodeFences fences) fences.length = fences
  := by
  apply List.ext_getElem?
  intro i
  have hlen : ∀ b ∈ fences.map fun f => leBytes 4 f.toNat, b.length = 4 := by
    intro b hb
    obtain ⟨f, -, rfl⟩ := List.mem_map.mp hb
    apply length_leBytes
  rw [castFences, List.getElem?_map]
  by_cases hi : i < fences.length
  · obtain ⟨f, hf⟩ : ∃ f, fences[i]? = some f := ⟨_, List.getElem?_eq_getElem hi⟩
    have hslice := slice_flatten_of_length (i := i) (b := leBytes 4 f.toNat) hlen (by simp [hf])
    rw [List.getElem?_range hi, Option.map_some, encodeFences, hslice,
      leNat_leBytes_of_lt f.toNat_lt, UInt32.ofNat_toNat, hf]
  · have hge : fences.length ≤ i := Nat.not_lt.mp hi
    rw [List.getElem?_eq_none (by simpa using hge), List.getElem?_eq_none hge, Option.map_none]

theorem length_encodeFences (fences : List UInt32) :
  (encodeFences fences).length = fences.length * 4
  := by
  rw [encodeFences, length_flatten_of_length, List.length_map]
  intro b hb
  obtain ⟨f, -, rfl⟩ := List.mem_map.mp hb
  apply length_leBytes

theorem toNat_fenceOf (fp : UInt64) :
  (fenceOf fp).toNat = fp.toNat / 2 ^ 32
  := by
  have hlt := fp.toNat_lt
  rw [fenceOf, UInt64.toNat_toUInt32, UInt64.toNat_shiftRight, Nat.shiftRight_eq_div_pow]
  simp only [UInt64.reduceToNat, Nat.reduceMod]
  apply Nat.mod_eq_of_lt
  omega

section

variable {E : Env} {blockSize : Nat} {codec : Option Decompressor} {part : Partition}
  {parts : List (List Entry)} {vfp : UInt64}

/-- The partition's blocks hold the entries of `parts`, block by block. -/
structure Holds (E : Env) (blockSize : Nat) (part : Partition) (parts : List (List Entry)) :
    Prop where
  fits : ∀ p ∈ parts, FitsBlock blockSize (p.map Prod.snd)
  blocks : part.blocks
    = (parts.map fun p => sealedBlock E.hash blockSize (p.map Prod.snd)).flatten

/-- A read of a block gives the records that were sealed in it. -/
theorem Holds.pread_block (h : Holds E blockSize part parts) {b : Nat} {p : List Entry}
    (hp : parts[b]? = some p) :
  pread part.blocks (b * blockSize) blockSize
    = .ok (sealedBlock E.hash blockSize (p.map Prod.snd))
  := by
  have hlen : ∀ c ∈ parts.map fun p => sealedBlock E.hash blockSize (p.map Prod.snd),
      c.length = blockSize := by
    intro c hc
    obtain ⟨p, hp, rfl⟩ := List.mem_map.mp hc
    apply (h.fits p hp).length_sealedBlock
  have hb : b < parts.length := (List.getElem?_eq_some_iff.mp hp).1
  have hle : b * blockSize + blockSize ≤ parts.length * blockSize := by
    rw [← Nat.succ_mul]
    apply Nat.mul_le_mul_right _ hb
  have hslice := slice_flatten_of_length (i := b)
    (b := sealedBlock E.hash blockSize (p.map Prod.snd)) hlen (by simp [hp])
  rw [pread, h.blocks, if_neg, hslice]
  rw [length_flatten_of_length hlen, List.length_map]
  omega

/-- If no entry has the verify fingerprint, probing misses. -/
theorem Holds.probe_miss (h : Holds E blockSize part parts)
    (hno : ∀ p ∈ parts, ∀ e ∈ p, e.2.vfp ≠ vfp) (bs : List Nat)
    (hbs : ∀ b ∈ bs, b < parts.length) (io : Bool) :
  ∃ io', probe E blockSize codec part vfp io bs = .ok (.miss io')
  := by
  induction bs generalizing io with
  | nil => exact ⟨io, rfl⟩
  | cons b bs ih =>
    obtain ⟨p, hp⟩ : ∃ p, parts[b]? = some p :=
      ⟨_, List.getElem?_eq_getElem (hbs b List.mem_cons_self)⟩
    have hmem := List.mem_of_getElem? hp
    have hnone : (p.map Prod.snd).find? (fun r => r.vfp = vfp) = none := by
      rw [List.find?_eq_none]
      intro r hr
      obtain ⟨e, he, rfl⟩ := List.mem_map.mp hr
      simpa using hno p hmem e he
    simp only [probe, h.pread_block hp, (h.fits p hmem).find_sealedBlock, hnone]
    apply ih
    intro c hc
    apply hbs c (List.mem_cons_of_mem _ hc)

/-- If every entry with the verify fingerprint resolves to `value`, and one of them is in
a block to be probed, probing finds `value`. -/
theorem Holds.probe_hit (h : Holds E blockSize part parts) {value : Bytes}
    (hvalue : ∀ p ∈ parts, ∀ e ∈ p, e.2.vfp = vfp → resolve E codec part.heap e.2 = .ok value)
    (bs : List Nat) (hbs : ∀ b ∈ bs, b < parts.length)
    (hex : ∃ b ∈ bs, ∃ p, parts[b]? = some p ∧ ∃ e ∈ p, e.2.vfp = vfp) (io : Bool) :
  probe E blockSize codec part vfp io bs = .ok (.hit value)
  := by
  induction bs generalizing io with
  | nil =>
    obtain ⟨b, hb, -⟩ := hex
    simp at hb
  | cons b bs ih =>
    obtain ⟨p, hp⟩ : ∃ p, parts[b]? = some p :=
      ⟨_, List.getElem?_eq_getElem (hbs b List.mem_cons_self)⟩
    have hmem := List.mem_of_getElem? hp
    simp only [probe, h.pread_block hp, (h.fits p hmem).find_sealedBlock]
    cases hfind : (p.map Prod.snd).find? (fun r => r.vfp = vfp) with
    | some r =>
      have hr : r.vfp = vfp := by simpa using List.find?_some hfind
      obtain ⟨e, he, rfl⟩ := List.mem_map.mp (List.mem_of_find?_eq_some hfind)
      simp only [hvalue p hmem e he hr]
    | none =>
      simp only
      apply ih
      · intro c hc
        apply hbs c (List.mem_cons_of_mem _ hc)
      · obtain ⟨c, hc, q, hq, e, he, hev⟩ := hex
        rcases List.mem_cons.mp hc with rfl | hc
        · exfalso
          obtain rfl : p = q := by simpa [hp] using hq
          rw [List.find?_eq_none] at hfind
          have hnot := hfind e.2 (List.mem_map_of_mem he)
          simp [hev] at hnot
        · exact ⟨c, hc, q, hq, e, he, hev⟩

end

/-- What lookups in a partition with the given frames answer. -/
structure Answers (E : Env) (blockSize : Nat) (codec : Option Decompressor) (part : Partition)
    (frames : List Frame) : Prop where
  hit : ∀ f ∈ frames, (∀ g ∈ frames, g.vfp = f.vfp → g.value = f.value) →
    getIn E blockSize codec part f.fp f.vfp = .ok (.hit f.value)
  miss : ∀ fp vfp, (∀ f ∈ frames, f.vfp ≠ vfp) →
    ∃ io, getIn E blockSize codec part fp vfp = .ok (.miss io)

theorem FencesOf.of_headFence {parts : List (List Entry)} (h : ∀ p ∈ parts, p ≠ []) :
  Fences.FencesOf (fun e : Entry => (fenceOf e.1).toNat) parts
    ((parts.map headFence).map UInt32.toNat)
  := by
  rw [Fences.FencesOf, List.map_map, List.map_map]
  apply List.map_congr_left
  intro p hp
  cases p with
  | nil => exact absurd rfl (h [] hp)
  | cons e p => rfl

/-- A stored frame lies in a candidate block of its fingerprint. -/
theorem exists_candidate {parts : List (List Entry)} (hne : ∀ p ∈ parts, p ≠ [])
    (hsorted : parts.flatten.Pairwise fun e e' => e.1.toNat ≤ e'.1.toNat) {e : Entry}
    (he : e ∈ parts.flatten) :
  ∃ b ∈ candidateBlocks (parts.map headFence) (fenceOf e.1), ∃ p, parts[b]? = some p ∧ e ∈ p
  := by
  obtain ⟨p, hp, hep⟩ := List.mem_flatten.mp he
  obtain ⟨b, hb, rfl⟩ := List.mem_iff_getElem.mp hp
  refine ⟨b, ?_, parts[b], List.getElem?_eq_getElem hb, hep⟩
  apply Fences.mem_candidates _ (FencesOf.of_headFence hne) (List.getElem?_eq_getElem hb) hep
  apply hsorted.imp
  intro e e' hle
  rw [toNat_fenceOf, toNat_fenceOf]
  apply Nat.div_le_div_right hle

theorem candidateBlocks_lt {fences : List UInt32} {h : UInt32} {b : Nat}
    (hb : b ∈ candidateBlocks fences h) :
  b < fences.length
  := by
  have hlt := Fences.candidates_lt hb
  rwa [List.length_map] at hlt

/-! ### Fence search -/

theorem fenceOf_le_of_le {fp fp' : UInt64} (h : fp ≤ fp') :
  (fenceOf fp).toNat ≤ (fenceOf fp').toNat
  := by
  rw [toNat_fenceOf, toNat_fenceOf]
  apply Nat.div_le_div_right (UInt64.le_iff_toNat_le.mp h)

section

variable {fps : List UInt64} {blocks : List (List UInt64)} {fences : List UInt32}

/-- The fences of a cut, compared as numbers. -/
theorem FencesOf.toNat (h : Fences.FencesOf fenceOf blocks fences) :
  Fences.FencesOf (fun fp => (fenceOf fp).toNat) blocks (fences.map UInt32.toNat)
  := by
  have hmap := congrArg (List.map (Option.map UInt32.toNat)) h
  rw [List.map_map, List.map_map] at hmap
  rw [Fences.FencesOf, List.map_map]
  refine Eq.trans ?_ hmap
  apply List.map_congr_left
  intro b _
  simp [Option.map_map, Function.comp_def]

/-- A non-decreasing sequence of fingerprints is cut into consecutive blocks, none of them
empty, and each block gets the fence of its first fingerprint.  The block of every
fingerprint is then a candidate for its fence.  For any `h` the candidates are distinct
blocks, they contain every block with a fingerprint of fence `h`, the blocks whose fence
is `h` come first and the block before them last, and there are none only if there are no
blocks or `h` is below the first fence. -/
theorem candidateBlocks_complete (hsorted : fps.Pairwise (· ≤ ·)) (hcut : blocks.flatten = fps)
    (hfences : Fences.FencesOf fenceOf blocks fences) :
  (∀ fp ∈ fps, ∃ i b, blocks[i]? = some b ∧ fp ∈ b ∧ i ∈ candidateBlocks fences (fenceOf fp))
    ∧ ∀ h,
      (candidateBlocks fences h).Nodup
        ∧ (∀ i ∈ candidateBlocks fences h, i < blocks.length)
        ∧ (∀ i b fp, blocks[i]? = some b → fp ∈ b → fenceOf fp = h →
          i ∈ candidateBlocks fences h)
        ∧ (∃ equal back, candidateBlocks fences h = equal ++ back
          ∧ Fences.ProbeOrder fences h equal back)
        ∧ (candidateBlocks fences h = [] ↔
          blocks = [] ∨ ∃ f, fences[0]? = some f ∧ h < f)
  := by
  subst hcut
  have hsorted' : blocks.flatten.Pairwise fun fp fp' => (fenceOf fp).toNat ≤ (fenceOf fp').toNat :=
    hsorted.imp fenceOf_le_of_le
  have hfences' := FencesOf.toNat hfences
  have hmono := hfences'.pairwise hsorted'
  have hmem : ∀ i b fp, blocks[i]? = some b → fp ∈ b → i ∈ candidateBlocks fences (fenceOf fp) := by
    intro i b fp hb hfp
    apply Fences.mem_candidates hsorted' hfences' hb hfp
  constructor
  · intro fp hfp
    obtain ⟨b, hb, hfpb⟩ := List.mem_flatten.mp hfp
    obtain ⟨i, hi⟩ := List.mem_iff_getElem?.mp hb
    exact ⟨i, b, hi, hfpb, hmem i b fp hi hfpb⟩
  · intro h
    refine ⟨Fences.candidates_nodup, ?_, ?_, ?_, ?_⟩
    · intro i hi
      rw [← hfences.length_eq]
      apply candidateBlocks_lt hi
    · rintro i b fp hb hfp rfl
      apply hmem i b fp hb hfp
    · obtain ⟨equal, back, heq, ho⟩ := Fences.candidates_probeOrder (h := h.toNat) hmono
      refine ⟨equal, back, heq, ho.of_map ?_ ?_ ?_⟩
      · intro f g
        apply UInt32.toNat.inj
      · intro f g
        apply UInt32.lt_iff_toNat_lt.symm
      · intro f g
        apply UInt32.le_iff_toNat_le.symm
    · rw [candidateBlocks, Fences.candidates_eq_nil_iff hmono, List.map_eq_nil_iff,
        ← List.length_eq_zero_iff, hfences.length_eq, List.length_eq_zero_iff, List.getElem?_map]
      simp only [Option.map_eq_some_iff, exists_exists_and_eq_and, UInt32.lt_iff_toNat_lt]

/-- A run of the fence `1` that starts in the middle of a block and goes on over the next
two. -/
theorem candidateBlocks_straddle :
  candidateBlocks [0, 1, 1] 1 = [1, 2, 0] ∧ 0 ∈ candidateBlocks [0, 1, 1] (fenceOf 0x100000005)
  := by
  constructor
  · rfl
  · have hfences : Fences.FencesOf fenceOf
        [[7, 0x100000005], [0x100000006], [0x100000006, 0x200000000]] [0, 1, 1] := rfl
    have h := candidateBlocks_complete (by decide) rfl hfences
    apply (h.2 1).2.2.1 0 _ 0x100000005 rfl (by decide) (by decide)

end

/-! ### Opened partitions -/

/-- A sketch that was built opens, and rejects no fingerprint it was built from. -/
theorem SketchBuilt.opens {E : Env} {sketch : Bool} {frames : List Frame} {file : Option Bytes}
    {checksum : Option UInt32} (h : SketchBuilt E sketch frames file checksum)
    {kind : Option String} (hkind : kind.isSome = sketch) {nBlocks : Nat}
    (hblocks : 0 < nBlocks ↔ frames ≠ []) (i : Nat) :
  ∃ sk, openSketch E kind ⟨nBlocks, checksum⟩ i file = .ok sk
    ∧ ∀ f ∈ frames, sk.any (fun s => !s.contains E.xorf f.fp) = false
  := by
  rw [SketchBuilt] at h
  subst hkind
  simp only [openSketch, hblocks]
  split at h
  · next hwritten =>
    obtain ⟨bytes, rfl, rfl, hparse, hcontains⟩ := h
    use some ⟨bytes⟩
    constructor
    · rw [if_pos hwritten]
      simp [verifySketch, hparse, Except.map]
    · intro f hf
      simp [Sketch.contains, hcontains f hf]
  · next hnot =>
    use none
    rw [if_neg hnot]
    simp

/-- Blocks that hold entries which stand for the frames, behind a sketch that rejects none
of them, answer lookups. -/
theorem Holds.answers {E : Env} {blockSize : Nat} {codec : Option Decompressor}
    {part : Partition} {parts : List (List Entry)} {frames sorted : List Frame}
    (h : Holds E blockSize part parts) (hne : ∀ p ∈ parts, p ≠ [])
    (hfences : part.fences = parts.map headFence) (hperm : sorted.Perm frames)
    (hsorted : sorted.Pairwise fun f g => f.fp.toNat ≤ g.fp.toNat)
    (hstands : List.Forall₂ (StandsFor E codec part.heap) sorted parts.flatten)
    (hsketch : ∀ f ∈ frames, part.sketch.any (fun s => !s.contains E.xorf f.fp) = false) :
  Answers E blockSize codec part frames
  := by
  have hentry : ∀ e ∈ parts.flatten, ∃ f ∈ frames, StandsFor E codec part.heap f e := by
    intro e he
    obtain ⟨f, hf, hfe⟩ := hstands.exists_left he
    exact ⟨f, hperm.mem_iff.mp hf, hfe⟩
  have hrange : ∀ fp b, b ∈ candidateBlocks part.fences (fenceOf fp) → b < parts.length := by
    intro fp b hb
    have hlt := candidateBlocks_lt hb
    rwa [hfences, List.length_map] at hlt
  have hpairs : parts.flatten.Pairwise fun e e' => e.1.toNat ≤ e'.1.toNat := by
    have hmap : sorted.map (fun f => f.fp.toNat) = parts.flatten.map (fun e => e.1.toNat) := by
      apply hstands.map_eq
      intro f e hfe
      rw [hfe.1]
    have hpair : (sorted.map fun f => f.fp.toNat).Pairwise (· ≤ ·) :=
      List.pairwise_map.mpr hsorted
    rw [hmap] at hpair
    apply List.pairwise_map.mp hpair
  constructor
  · intro f hf hvalue
    obtain ⟨e, he, hfe⟩ := hstands.exists_right (hperm.mem_iff.mpr hf)
    rw [getIn, hsketch f hf, if_neg (by simp)]
    apply h.probe_hit
    · intro p hp e' he' hvfp
      obtain ⟨g, hg, hge⟩ := hentry e' (List.mem_flatten.mpr ⟨p, hp, he'⟩)
      rw [hge.2.2, hvalue g hg (hge.2.1.symm.trans hvfp)]
    · apply hrange
    · obtain ⟨b, hb, p, hp, hep⟩ := exists_candidate hne hpairs he
      rw [hfe.1, ← hfences] at hb
      exact ⟨b, hb, p, hp, e, hep, hfe.2.1⟩
  · intro fp vfp hno
    rw [getIn]
    split
    · exact ⟨false, rfl⟩
    · apply h.probe_miss
      · intro p hp e he heq
        obtain ⟨f, hf, hfe⟩ := hentry e (List.mem_flatten.mpr ⟨p, hp, he⟩)
        apply hno f hf
        rw [← hfe.2.1, heq]
      · apply hrange

/-- A built partition has a block exactly if it has a frame. -/
theorem BuiltPartition.nBlocks_pos_iff {E : Env} {blockSize : Nat} {sketch : Bool}
    {codec : Option Decompressor} {frames : List Frame} {dir : PartDir} {nBlocks : Nat}
    {sketchChecksum : Option UInt32}
    (h : BuiltPartition E blockSize sketch codec frames dir nBlocks sketchChecksum) :
  0 < nBlocks ↔ frames ≠ []
  := by
  obtain ⟨sorted, entries, blocks, fences, heap, hperm, -, hstands,
    ⟨parts, rfl, hne, -, -, hfences⟩, -, -, -, rfl, -, -⟩ := h
  have hlen := hstands.length_eq
  rw [hfences, List.length_map, ← List.length_pos_iff, ← hperm.length_eq, hlen,
    List.length_pos_iff, List.length_pos_iff, ne_eq, ne_eq, List.flatten_eq_nil_iff, not_iff_not]
  constructor
  · rintro rfl p hp
    simp at hp
  · intro hall
    cases parts with
    | nil => rfl
    | cons p parts =>
      exfalso
      apply hne p List.mem_cons_self
      apply hall p List.mem_cons_self

theorem BuiltPartition.bound {E : Env} {blockSize : Nat} {sketch : Bool}
    {codec : Option Decompressor} {frames : List Frame} {dir : PartDir} {nBlocks : Nat}
    {sketchChecksum : Option UInt32}
    (h : BuiltPartition E blockSize sketch codec frames dir nBlocks sketchChecksum) :
  nBlocks * blockSize < 2 ^ 64
  := by
  obtain ⟨-, -, -, -, -, -, -, -, -, -, -, -, -, hbound, -⟩ := h
  apply hbound

/-- A built partition opens, and its lookups find its frames. -/
theorem BuiltPartition.opens {E : Env} {m : Meta} {sketch : Bool} {codec : Option Decompressor}
    {frames : List Frame} {dir : PartDir} {nBlocks : Nat} {sketchChecksum : Option UInt32}
    (h : BuiltPartition E m.blockSize sketch codec frames dir nBlocks sketchChecksum)
    (hsketch : m.sketch.isSome = sketch) (i : Nat) :
  ∃ part, openPartition E m ⟨nBlocks, sketchChecksum⟩ i dir = .ok part
    ∧ Answers E m.blockSize codec part frames
  := by
  have hnonempty := h.nBlocks_pos_iff
  obtain ⟨sorted, entries, blocks, fences, heap, hperm, hsorted, hstands,
    ⟨parts, rfl, hne, hfits, hblocks, hfences⟩, hdb, hdh, hdf, rfl, hbound, hsk⟩ := h
  have hlenparts : fences.length = parts.length := by simp [hfences]
  have hlenblocks : blocks.flatten.length = fences.length * m.blockSize := by
    rw [length_flatten_of_length (k := m.blockSize), hblocks, List.length_map, hlenparts]
    intro b hb
    rw [hblocks] at hb
    obtain ⟨p, hp, rfl⟩ := List.mem_map.mp hb
    apply (hfits p hp).length_sealedBlock
  obtain ⟨sk, hopen, hcontains⟩ := hsk.opens hsketch hnonempty i
  refine ⟨⟨fences, blocks.flatten, heap, sk⟩, ?_, ?_⟩
  · simp only [openPartition, FenceArray.load, hdf, length_encodeFences, hdb, hdh, hlenblocks,
      hopen, castFences_encodeFences]
    simp
  · have hholds : Holds E m.blockSize ⟨fences, blocks.flatten, heap, sk⟩ parts := by
      constructor
      · apply hfits
      · rw [hblocks]
    apply hholds.answers hne hfences hperm hsorted hstands hcontains

end V5
