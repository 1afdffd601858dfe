import Mcfreeze.V5.Task

/-!
# Building a partition

`build_partition` (`v5/builder.rs`): the arrival log is split into radix buckets, each
bucket is sorted, and its frames are packed into blocks, with large values in the heap
file.  The marker `build.done` is published when the data files are complete, and the log
is deleted after that.

Whatever point a build is killed at, the directory still holds the log, or it holds the
built partition.
-/

open Format Crash Files

namespace V5

/-! ### The program -/

/-- What a build keeps in memory between frames: the assembler, the bytes its two writers
hold back, and the counters of `build.done`. -/
structure BuildState where
  asm : BlockAssembler
  blocksPending : Bytes
  heapPending : Bytes
  nKeys : Nat
  nStubs : Nat
  heapOffset : Nat
  valueBytesRaw : Nat
  valueBytesStored : Nat
  nCompressed : Nat
  nRaw : Nat
  sketchFps : List UInt64

/-- Distribute the frames of a stream over the bucket files, at most `fuel` of them. -/
def scatterFrames (nBuckets : Nat) :
    Nat → Bytes → (Nat → Bytes) → Task (Nat → Bytes)
  | 0, _, pending => return pending
  | fuel + 1, input, pending => do
    match ← Prog.ofExcept (readFrame input) with
    | none => return pending
    | some (frame, rest) =>
      let b := bucketOf nBuckets (headerFp frame)
      let held ← bufWrite (.bucket b) (pending b) frame
      scatterFrames nBuckets fuel rest fun b' => if b' = b then held else pending b'

/-- Split the arrival log into bucket files. -/
def scatterToBuckets (nBuckets : Nat) : Task (List PartFile) := do
  (List.range nBuckets).forM fun b => create (.bucket b)
  let input ← readFile .arrival
  let pending ← scatterFrames nBuckets (input.length + 1) input fun _ => []
  (List.range nBuckets).forM fun b => append (.bucket b) (pending b)
  return (List.range nBuckets).map .bucket

/-- Hand a sealed block, if there is one, to the writer of `blocks.bin`. -/
def sink (pending : Bytes) : Option Bytes → Task Bytes
  | none => return pending
  | some block => bufWrite .blocks pending block

/-- Emit one frame. -/
def emitFrame (E : Env) (plan : Plan) (compressor : Option Compressor) (st : BuildState)
    (f : Frame) : Task BuildState := do
  let (stored, compressed) ← Prog.ofExcept (storedForm E.zstd compressor f.value)
  let st := { st with
    sketchFps := if plan.sketch then st.sketchFps ++ [f.fp] else st.sketchFps
    valueBytesRaw := st.valueBytesRaw + f.value.length
    valueBytesStored := st.valueBytesStored + stored.length
    nCompressed := if compressed then st.nCompressed + 1 else st.nCompressed
    nRaw := if compressed then st.nRaw else st.nRaw + 1 }
  if stored.length % 2 ^ 32 ≤ plan.inlineThreshold then
    let (sealed, asm) ← Prog.ofExcept (st.asm.pushInline E.hash f.fp f.vfp stored compressed)
    let blocksPending ← sink st.blocksPending sealed
    return { st with asm := asm, blocksPending := blocksPending, nKeys := st.nKeys + 1 }
  else
    let heapPending ← bufWrite .heap st.heapPending stored
    let stub : Stub :=
      ⟨st.heapOffset, stored.length % 2 ^ 32, checksum32 E.hash stored⟩
    let (sealed, asm) ← Prog.ofExcept (st.asm.pushStub E.hash f.fp f.vfp stub compressed)
    let blocksPending ← sink st.blocksPending sealed
    return { st with
      asm := asm, blocksPending := blocksPending, heapPending := heapPending
      heapOffset := st.heapOffset + stored.length, nStubs := st.nStubs + 1
      nKeys := st.nKeys + 1 }

/-- Sort the frames of a bucket and emit them. -/
def emitBucket (E : Env) (plan : Plan) (compressor : Option Compressor) (st : BuildState)
    (bucket : PartFile) : Task BuildState := do
  let buf ← readFile bucket
  let frames ← Prog.ofExcept (parseFrames buf)
  let st ← (E.sortUnstable frames).foldlM (emitFrame E plan compressor) st
  if bucket ≠ .arrival then remove bucket
  return st

/-- Drop repetitions of adjacent elements. -/
def dedup : List UInt64 → List UInt64
  | [] => []
  | [a] => [a]
  | a :: b :: l => if a = b then dedup (b :: l) else a :: dedup (b :: l)

/-- Build and write the sketch of a non-empty partition. -/
def writeSketch (E : Env) (plan : Plan) (fps : List UInt64) : Task (Nat × Option UInt32) := do
  if plan.sketch ∧ fps ≠ [] then
    let bytes ← Prog.ofExcept (Sketch.build E.xorf (dedup fps))
    writeDataFile .sketch bytes
    return (bytes.length, some (checksum32 E.hash bytes))
  else return (0, none)

/-- The files to emit from: the log itself when there is one bucket. -/
def openBuckets (nBuckets : Nat) : Task (List PartFile) :=
  if nBuckets = 1 then return [.arrival] else scatterToBuckets nBuckets

/-- The compressor of a plan. -/
def openCompressor (E : Env) (plan : Plan) (dict : Option Bytes) :
    Except Error (Option Compressor) :=
  match plan.compression with
  | .none => .ok none
  | .zstd => (Compressor.new E.zstd dict plan.minCompressLen).map some
  | .zstdDict => (Compressor.new E.zstd dict plan.minCompressLen).map some

/-- Seal the last block, complete the data files, and publish `build.done`. -/
def completeBuild (E : Env) (plan : Plan) (dataBytes : Nat) (st : BuildState) :
    Task PartitionBuildDone := do
  let (sealed, fences) := st.asm.finish E.hash
  let blocksPending ← sink st.blocksPending sealed
  append .blocks blocksPending
  append .heap st.heapPending
  writeDataFile .fences (encodeFences fences)
  let (sketchBytes, sketchChecksum) ← writeSketch E plan st.sketchFps
  let done : PartitionBuildDone :=
    { nKeys := st.nKeys, dataBytes := dataBytes, nBlocks := fences.length
      nStubs := st.nStubs, blocksBytes := fences.length * plan.blockSize
      heapBytes := st.heapOffset, sketchBytes := sketchBytes, sketchChecksum := sketchChecksum
      valueBytesRaw := st.valueBytesRaw, valueBytesStored := st.valueBytesStored
      nCompressed := st.nCompressed, nRaw := st.nRaw }
  .modify fun d => { d with buildDone := some done }
  sweepPartitionTransients
  return done

/-- Build a partition from its arrival log. -/
def buildFromLog (E : Env) (plan : Plan) (dict : Option Bytes) (bucketBytes : Nat) :
    Task PartitionBuildDone := do
  remove .blocks
  remove .heap
  remove .fences
  remove .sketch
  removeBucketFiles
  let arrival ← readFile .arrival
  let buckets ← openBuckets (bucketCount arrival.length bucketBytes)
  create .blocks
  create .heap
  let compressor ← Prog.ofExcept (openCompressor E plan dict)
  let asm ← Prog.ofExcept (BlockAssembler.new plan.blockSize)
  let st ← buckets.foldlM (emitBucket E plan compressor)
    ⟨asm, [], [], 0, 0, 0, 0, 0, 0, 0, []⟩
  completeBuild E plan arrival.length st

/-- Build a partition, or finish the cleanup of one that is built. -/
def buildPartition (E : Env) (plan : Plan) (dict : Option Bytes) (bucketBytes : Nat) :
    Task PartitionBuildDone := do
  let d ← Prog.read
  match d.buildDone with
  | some done =>
    sweepPartitionTransients
    return done
  | none => buildFromLog E plan dict bucketBytes


/-! ### The log stays -/

/-- The partition is scattered and not built: the log is whole. -/
structure HasLog (frames : List Frame) (stats : ArrivalStats) (d : PartDir) : Prop where
  arrival : file d .arrival = some (encodeFrames frames)
  stats : d.arrivalStats = some stats
  notBuilt : d.buildDone = none

section

variable {E : Env} {plan : Plan} {frames : List Frame} {stats : ArrivalStats} {d : PartDir}
  {I : PartDir → Prop}

theorem HasLog.setFile (h : HasLog frames stats d) {f : PartFile} (hf : f ≠ .arrival)
    (contents : Option Bytes) :
  HasLog frames stats (setFile d f contents)
  := by
  constructor
  · rw [file_setFile_ne _ (Ne.symm hf), h.arrival]
  · rw [arrivalStats_setFile, h.stats]
  · rw [buildDone_setFile, h.notBuilt]

theorem HasLog.of_buckets (h : HasLog frames stats d) {d' : PartDir}
    (hd' : d' = { d with buckets := d'.buckets }) :
  HasLog frames stats d'
  := by
  rw [hd']
  exact ⟨h.arrival, h.stats, h.notBuilt⟩

/-! ### The buckets -/

/-- The bucket files and what their writers hold back are the logs of the frames
distributed so far. -/
def Distributed (nBuckets : Nat) (pre : List Frame) (pending : Nat → Bytes) (d : PartDir) : Prop :=
  ∀ b < nBuckets, ∃ c, file d (.bucket b) = some c
    ∧ c ++ pending b = encodeFrames (bucketFrames nBuckets pre b)

theorem encodeFrames_append (l₁ l₂ : List Frame) :
  encodeFrames (l₁ ++ l₂) = encodeFrames l₁ ++ encodeFrames l₂
  := by
  simp [encodeFrames]

theorem bucketFrames_append_singleton (nBuckets : Nat) (pre : List Frame) (f : Frame) (b : Nat) :
  encodeFrames (bucketFrames nBuckets (pre ++ [f]) b)
    = encodeFrames (bucketFrames nBuckets pre b)
      ++ if bucketOf nBuckets f.fp = b then f.encode else []
  := by
  rw [bucketFrames, List.filter_append, encodeFrames_append]
  congr 1
  by_cases h : bucketOf nBuckets f.fp = b
  · simp [h, encodeFrames]
  · simp [h, encodeFrames]

/-- Handing one more frame to the writer of its bucket. -/
theorem Distributed.write {nBuckets : Nat} {pre : List Frame} {pending : Nat → Bytes} {f : Frame}
    {b : Nat} {c flushed rest : Bytes} (h : Distributed nBuckets pre pending d)
    (hb : bucketOf nBuckets f.fp = b) (hc : file d (.bucket b) = some c)
    (hflush : flushed ++ rest = pending b ++ f.encode) :
  Distributed nBuckets (pre ++ [f]) (fun b' => if b' = b then rest else pending b')
    (setFile d (.bucket b) (some (c ++ flushed)))
  := by
  intro b' hb'
  obtain ⟨c', hc', hlog⟩ := h b' hb'
  rw [bucketFrames_append_singleton]
  by_cases heq : b' = b
  · subst heq
    obtain rfl : c = c' := by simpa [hc] using hc'
    refine ⟨c ++ flushed, by simp, ?_⟩
    dsimp only
    rw [if_pos rfl, if_pos hb, List.append_assoc, hflush, ← List.append_assoc, hlog]
  · refine ⟨c', ?_, ?_⟩
    · rw [file_setFile_ne _ (by simpa using heq), hc']
    · dsimp only
      rw [if_neg heq, if_neg (by rw [hb]; exact Ne.symm heq), List.append_nil, hlog]

theorem Distributed.congr {nBuckets : Nat} {pending pending' : Nat → Bytes}
    (h : Distributed nBuckets frames pending d) (heq : ∀ b < nBuckets, pending' b = pending b) :
  Distributed nBuckets frames pending' d
  := by
  intro b hb
  obtain ⟨c, hc, hlog⟩ := h b hb
  exact ⟨c, hc, by rw [heq b hb, hlog]⟩

/-- When the writers hold nothing back, the bucket files are the logs. -/
theorem Distributed.files {nBuckets : Nat} {pending : Nat → Bytes}
    (h : Distributed nBuckets frames pending d) (hnil : ∀ b < nBuckets, pending b = []) :
  ∀ b < nBuckets, file d (.bucket b) = some (encodeFrames (bucketFrames nBuckets frames b))
  := by
  intro b hb
  obtain ⟨c, hc, hlog⟩ := h b hb
  rw [hnil b hb, List.append_nil] at hlog
  rw [hc, hlog]

/-- Flushing the writer of one more bucket. -/
theorem Distributed.flush {nBuckets : Nat} {pending : Nat → Bytes} {b : Nat} {rest : List Nat}
    {c : Bytes} (h : Distributed nBuckets frames (fun b' => if b' ∈ b :: rest then pending b' else []) d)
    (hb : b ∉ rest) (hc : file d (.bucket b) = some c) :
  Distributed nBuckets frames (fun b' => if b' ∈ rest then pending b' else [])
    (setFile d (.bucket b) (some (c ++ pending b)))
  := by
  intro b' hb'
  obtain ⟨c', hc', heq⟩ := h b' hb'
  dsimp only at heq ⊢
  by_cases hbb : b' = b
  · subst hbb
    obtain rfl : c = c' := by simpa [hc] using hc'
    refine ⟨c ++ pending b', by simp, ?_⟩
    rw [if_pos List.mem_cons_self] at heq
    rw [if_neg hb, List.append_nil, heq]
  · refine ⟨c', ?_, ?_⟩
    · rw [file_setFile_ne _ (by simpa using hbb), hc']
    · rw [← heq]
      simp [hbb]

/-- Frames are distributed over the buckets, behind those that are there. -/
theorem wp_scatterFrames (hI : ∀ d, HasLog frames stats d → I d) (nBuckets : Nat)
    (rest : List Frame) (hfits : ∀ f ∈ rest, f.Fits) :
  ∀ (fuel : Nat) (pre : List Frame) (pending : Nat → Bytes) (d : PartDir), rest.length < fuel →
    HasLog frames stats d → Distributed nBuckets pre pending d →
    wp (.none _) I
      (fun pending' d' => HasLog frames stats d' ∧ Distributed nBuckets (pre ++ rest) pending' d')
      (scatterFrames nBuckets fuel (encodeFrames rest) pending) d
  := by
  induction rest with
  | nil =>
    intro fuel pre pending d hfuel hlog hdist
    obtain ⟨fuel, rfl⟩ : ∃ n, fuel = n + 1 := ⟨fuel - 1, by omega⟩
    apply wp_bind
    apply wp_ofExcept (hI d hlog)
    intro r hr
    obtain rfl : none = r := Except.ok.inj hr
    apply wp_pure (hI d hlog)
    rw [List.append_nil]
    exact ⟨hlog, hdist⟩
  | cons f rest ih =>
    intro fuel pre pending d hfuel hlog hdist
    obtain ⟨fuel, rfl⟩ : ∃ n, fuel = n + 1 := ⟨fuel - 1, by omega⟩
    have hread : readFrame (encodeFrames (f :: rest)) = .ok (some (f.encode, encodeFrames rest)) :=
      readFrame_encode (hfits f List.mem_cons_self)
    generalize encodeFrames (f :: rest) = input at hread ⊢
    apply wp_bind
    apply wp_ofExcept (hI d hlog)
    intro r hr
    rw [hread] at hr
    obtain rfl := Except.ok.inj hr
    have hfp : headerFp f.encode = f.fp := by
      have h := headerFp_encode f []
      rwa [List.append_nil] at h
    dsimp only
    rw [hfp]
    apply wp_bind
    apply wp_bufWrite (hI d hlog)
    intro c flushed held hc hflush
    have hlog' := hlog.setFile (f := .bucket (bucketOf nBuckets f.fp)) (by simp) (some (c ++ flushed))
    refine ⟨hI _ hlog', ?_⟩
    have hnext := ih (fun g hg => hfits g (List.mem_cons_of_mem _ hg)) fuel (pre ++ [f]) _ _
      (by rw [List.length_cons] at hfuel; omega) hlog' (hdist.write rfl hc hflush)
    rw [List.append_assoc, List.singleton_append] at hnext
    apply hnext

/-- Creating the bucket files. -/
theorem wp_createBuckets (hI : ∀ d, HasLog frames stats d → I d) (nBuckets : Nat)
    (hlog : HasLog frames stats d) :
  wp (.none _) I
    (fun _ d' => HasLog frames stats d' ∧ ∀ b < nBuckets, file d' (.bucket b) = some [])
    ((List.range nBuckets).forM fun b => (create (.bucket b) : Task Unit)) d
  := by
  have hloop := wp_forM (P := .none _) (I := I) (f := fun b => (create (.bucket b) : Task Unit))
    (R := fun rest d => HasLog frames stats d
      ∧ ∀ b < nBuckets, b ∉ rest → file d (.bucket b) = some [])
    (fun _ d h => hI d h.1)
    (by
      rintro b rest d ⟨hlog, hfiles⟩
      have hlog' := hlog.setFile (f := .bucket b) (by simp) (some [])
      apply wp_create (hI d hlog) (hI _ hlog')
      refine ⟨hlog', ?_⟩
      intro b' hb' hrest
      by_cases heq : b' = b
      · rw [heq, file_setFile]
      · rw [file_setFile_ne _ (by simpa using heq)]
        apply hfiles b' hb'
        simp [heq, hrest])
    (List.range nBuckets) d
    ⟨hlog, fun b hb hrest => absurd (List.mem_range.mpr hb) hrest⟩
  apply wp_mono hloop
  rintro _ d' - ⟨hlog', hfiles⟩
  exact ⟨hlog', fun b hb => hfiles b hb List.not_mem_nil⟩

/-- Flushing the writers of the bucket files. -/
theorem wp_flushBuckets (hI : ∀ d, HasLog frames stats d → I d) {nBuckets : Nat}
    {pending : Nat → Bytes} (hlog : HasLog frames stats d)
    (hdist : Distributed nBuckets frames pending d) :
  wp (.none _) I
    (fun _ d' => HasLog frames stats d' ∧ ∀ b < nBuckets,
      file d' (.bucket b) = some (encodeFrames (bucketFrames nBuckets frames b)))
    ((List.range nBuckets).forM fun b => (append (.bucket b) (pending b) : Task Unit)) d
  := by
  have hloop := wp_forM (P := .none _) (I := I) (f := fun b => (append (.bucket b) (pending b) : Task Unit))
    (R := fun rest d => HasLog frames stats d ∧ rest.Nodup
      ∧ Distributed nBuckets frames (fun b => if b ∈ rest then pending b else []) d)
    (fun _ d h => hI d h.1)
    (by
      rintro b rest d ⟨hlog, hnodup, hdist⟩
      obtain ⟨hb, hnodup'⟩ := List.nodup_cons.mp hnodup
      apply wp_append (hI d hlog)
      intro c hc _
      have hlog' := hlog.setFile (f := .bucket b) (by simp) (some (c ++ pending b))
      exact ⟨hI _ hlog', hlog', hnodup', hdist.flush hb hc⟩)
    (List.range nBuckets) d
    (by
      refine ⟨hlog, List.nodup_range, ?_⟩
      apply hdist.congr
      intro b hb
      rw [if_pos (List.mem_range.mpr hb)])
  apply wp_mono hloop
  rintro _ d' - ⟨hlog', -, hdist'⟩
  refine ⟨hlog', ?_⟩
  apply hdist'.files
  intro b _
  rw [if_neg List.not_mem_nil]

/-- Splitting the log leaves, in each bucket file, the log of the bucket's frames. -/
theorem wp_scatterToBuckets (hI : ∀ d, HasLog frames stats d → I d) (nBuckets : Nat)
    (hfits : ∀ f ∈ frames, f.Fits) (hlog : HasLog frames stats d) :
  wp (.none _) I
    (fun buckets d' => buckets = (List.range nBuckets).map .bucket ∧ HasLog frames stats d'
      ∧ ∀ b < nBuckets, file d' (.bucket b) = some (encodeFrames (bucketFrames nBuckets frames b)))
    (scatterToBuckets nBuckets) d
  := by
  apply wp_bind
  apply wp_mono (wp_createBuckets hI nBuckets hlog)
  rintro _ d - ⟨hlog, hempty⟩
  apply wp_bind
  apply wp_readFile (hI d hlog)
  intro input hinput
  obtain rfl : encodeFrames frames = input := by simpa [hlog.arrival] using hinput
  have hdist : Distributed nBuckets [] (fun _ => []) d := by
    intro b hb
    exact ⟨[], hempty b hb, rfl⟩
  apply wp_bind
  apply wp_mono (wp_scatterFrames hI nBuckets frames hfits _ [] _ d
    (Nat.lt_succ_of_le (length_le_encodeFrames frames)) hlog hdist)
  rintro pending d - ⟨hlog, hdist⟩
  rw [List.nil_append] at hdist
  apply wp_bind
  apply wp_mono (wp_flushBuckets hI hlog hdist)
  rintro _ d hd ⟨hlog, hfiles⟩
  apply wp_pure hd
  exact ⟨rfl, hlog, hfiles⟩

/-! ### Emitting frames -/

/-- What could be read can be read when the file has grown. -/
theorem pread_append {file more b : Bytes} {offset size : Nat} (h : pread file offset size = .ok b) :
  pread (file ++ more) offset size = .ok b
  := by
  rw [pread] at h
  split at h
  · simp at h
  · next hlen =>
    have hle : offset + size ≤ file.length := Nat.not_lt.mp hlen
    rw [pread, if_neg (by rw [List.length_append]; omega), ← Except.ok.inj h]
    rw [Bytes.slice, Bytes.slice, List.drop_append_of_le_length (by omega),
      List.take_append_of_le_length (by rw [List.length_drop]; omega)]

/-- A longer heap still resolves the records that the heap resolved. -/
theorem StandsFor.append_heap {codec : Option Decompressor} {heap : Bytes} {f : Frame} {e : Entry}
    (h : StandsFor E codec heap f e) (more : Bytes) :
  StandsFor E codec (heap ++ more) f e
  := by
  obtain ⟨hfp, hvfp, hres⟩ := h
  refine ⟨hfp, hvfp, ?_⟩
  cases hr : e.2 with
  | inline vfp value compressed =>
    rw [hr] at hres
    apply hres
  | stub vfp st compressed =>
    rw [hr] at hres
    simp only [resolve] at hres ⊢
    split at hres
    · simp at hres
    · next value hread =>
      simp only [pread_append hread]
      apply hres

/-- What the files hold, together with what the writers hold back: `blocks` are sealed and
`heap` is the heap. -/
structure Written (blocks : List Bytes) (heap : Bytes) (blocksPending heapPending : Bytes)
    (d : PartDir) : Prop where
  blocks : ∃ c, file d .blocks = some c ∧ c ++ blocksPending = blocks.flatten
  heap : ∃ c, file d .heap = some c ∧ c ++ heapPending = heap

/-- The state of a build after the frames `pre`. -/
structure Emitted (E : Env) (plan : Plan) (codec : Option Decompressor) (pre : List Frame)
    (blocks : List Bytes) (heap : Bytes) (st : BuildState) : Prop where
  heapOffset : st.heapOffset = heap.length
  sketchFps : st.sketchFps = if plan.sketch then pre.map Frame.fp else []
  packed : heap.length < 2 ^ 64 → st.asm.blockSize = plan.blockSize
    ∧ ∃ parts cur, Packed E.hash st.asm blocks parts cur
      ∧ List.Forall₂ (StandsFor E codec heap) pre (parts.flatten ++ cur)

/-- A property of the directory that does not depend on the two files a build appends to. -/
structure Framed (F : PartDir → Prop) : Prop where
  blocks : ∀ d c, F d → F (setFile d .blocks c)
  heap : ∀ d c, F d → F (setFile d .heap c)

variable {F : PartDir → Prop} {codec : Option Decompressor} {compressor : Option Compressor}
  {blocks : List Bytes} {heap blocksPending heapPending : Bytes} {st : BuildState}
  {pre : List Frame} {f : Frame}

/-- A sealed block is appended to the blocks. -/
theorem wp_sink (hF : Framed F) (hI : ∀ d, F d → I d) (sealed : Option Bytes) (hd : F d)
    (hw : Written blocks heap blocksPending heapPending d) :
  wp (.none _) I
    (fun pending d' => F d' ∧ Written (blocks ++ sealed.toList) heap pending heapPending d')
    (sink blocksPending sealed) d
  := by
  obtain ⟨⟨c, hc, hblocks⟩, hheap⟩ := hw
  cases sealed with
  | none =>
    apply wp_pure (hI d hd)
    refine ⟨hd, ⟨c, hc, ?_⟩, hheap⟩
    rw [hblocks, Option.toList_none, List.append_nil]
  | some block =>
    apply wp_bufWrite (hI d hd)
    intro c' flushed rest hc' hflush
    obtain rfl : c = c' := by simpa [hc] using hc'
    have hd' := hF.blocks d (some (c ++ flushed)) hd
    refine ⟨hI _ hd', hd', ⟨c ++ flushed, by simp, ?_⟩, hheap⟩
    rw [List.append_assoc, hflush, ← List.append_assoc, hblocks]
    simp

/-- A value is appended to the heap, behind those that are there. -/
theorem wp_bufWrite_heap (hF : Framed F) (hI : ∀ d, F d → I d) (stored : Bytes) (hd : F d)
    (hw : Written blocks heap blocksPending heapPending d) :
  wp (.none _) I
    (fun pending d' => F d' ∧ Written blocks (heap ++ stored) blocksPending pending d')
    (bufWrite .heap heapPending stored : Task Bytes) d
  := by
  obtain ⟨hblocks, c, hc, hheap⟩ := hw
  apply wp_bufWrite (hI d hd)
  intro c' flushed rest hc' hflush
  obtain rfl : c = c' := by simpa [hc] using hc'
  have hd' := hF.heap d (some (c ++ flushed)) hd
  refine ⟨hI _ hd', hd', hblocks, c ++ flushed, by simp, ?_⟩
  rw [List.append_assoc, hflush, ← List.append_assoc, hheap]

/-- An inline record stands for its frame. -/
theorem standsFor_inline (hE : E.Lawful) (hcodec : ∀ c, compressor = some c → codec = some ⟨c.dict⟩)
    (hf : f.Fits) {stored : Bytes} {compressed : Bool}
    (h : storedForm E.zstd compressor f.value = .ok (stored, compressed)) (heap : Bytes) :
  StandsFor E codec heap f (f.fp, .inline f.vfp stored compressed)
  :=
  ⟨rfl, rfl, decode_storedForm hE.zstd hcodec hf h⟩

/-- A stub stands for its frame when the stored bytes are at the end of the heap. -/
theorem standsFor_stub (hE : E.Lawful) (hcodec : ∀ c, compressor = some c → codec = some ⟨c.dict⟩)
    (hf : f.Fits) {stored : Bytes} {compressed : Bool}
    (h : storedForm E.zstd compressor f.value = .ok (stored, compressed)) (heap : Bytes) :
  StandsFor E codec (heap ++ stored) f
    (f.fp, .stub f.vfp ⟨heap.length, stored.length % 2 ^ 32, checksum32 E.hash stored⟩ compressed)
  := by
  have hlen : stored.length % 2 ^ 32 = stored.length := by
    have hle := length_storedForm_le h
    simp only [Frame.Fits, maxValueLen] at hf
    omega
  have hread : pread (heap ++ stored) heap.length stored.length = .ok stored := by
    rw [pread, List.length_append, if_neg (Nat.lt_irrefl _)]
    have hslice := Bytes.slice_mid (a := heap) (b := stored) (c := []) rfl rfl
    rw [List.append_nil] at hslice
    rw [hslice]
  refine ⟨rfl, rfl, ?_⟩
  simp only [hlen, resolve, hread]
  rw [if_neg (by simp)]
  apply decode_storedForm hE.zstd hcodec hf h

/-- Emitting one frame. -/
theorem wp_emitFrame (hE : E.Lawful) (hcodec : ∀ c, compressor = some c → codec = some ⟨c.dict⟩)
    (hF : Framed F) (hI : ∀ d, F d → I d) (hf : f.Fits) (hd : F d)
    (hst : Emitted E plan codec pre blocks heap st)
    (hw : Written blocks heap st.blocksPending st.heapPending d) :
  wp (.none _) I
    (fun st' d' => F d' ∧ ∃ blocks' heap', Emitted E plan codec (pre ++ [f]) blocks' heap' st'
      ∧ Written blocks' heap' st'.blocksPending st'.heapPending d')
    (emitFrame E plan compressor st f) d
  := by
  have hsketch : (if plan.sketch then st.sketchFps ++ [f.fp] else st.sketchFps)
      = if plan.sketch then (pre ++ [f]).map Frame.fp else [] := by
    rw [hst.sketchFps]
    split
    · rw [List.map_append, List.map_singleton]
    · rfl
  apply wp_bind
  apply wp_ofExcept (hI d hd)
  rintro ⟨stored, compressed⟩ hstored
  dsimp only
  split
  · apply wp_bind
    apply wp_ofExcept (hI d hd)
    rintro ⟨sealed, asm⟩ hpush
    apply wp_bind
    apply wp_mono (wp_sink hF hI sealed hd hw)
    rintro pending d' hd' ⟨hF', hw'⟩
    apply wp_pure hd'
    refine ⟨hF', blocks ++ sealed.toList, heap, ⟨hst.heapOffset, hsketch, ?_⟩, hw'⟩
    intro hheap
    obtain ⟨hsize, parts, cur, hp, hstands⟩ := hst.packed hheap
    obtain ⟨parts', cur', hp', heq, hsize'⟩ := hp.pushInline hpush
    refine ⟨hsize'.trans hsize, parts', cur', hp', ?_⟩
    rw [heq]
    apply List.rel_append hstands
    apply List.Forall₂.cons _ List.Forall₂.nil
    apply standsFor_inline hE hcodec hf hstored
  · apply wp_bind
    apply wp_mono (wp_bufWrite_heap hF hI stored hd hw)
    rintro heapPending d' hd' ⟨hF', hw'⟩
    apply wp_bind
    apply wp_ofExcept hd'
    rintro ⟨sealed, asm⟩ hpush
    apply wp_bind
    apply wp_mono (wp_sink hF hI sealed hF' hw')
    rintro blocksPending d'' hd'' ⟨hF'', hw''⟩
    apply wp_pure hd''
    refine ⟨hF'', blocks ++ sealed.toList, heap ++ stored, ⟨?_, hsketch, ?_⟩, hw''⟩
    · rw [List.length_append, hst.heapOffset]
    · intro hheap
      rw [List.length_append] at hheap
      rw [hst.heapOffset] at hpush
      obtain ⟨hsize, parts, cur, hp, hstands⟩ := hst.packed (by omega)
      obtain ⟨parts', cur', hp', heq, hsize'⟩ := hp.pushStub (by dsimp only; omega) hpush
      refine ⟨hsize'.trans hsize, parts', cur', hp', ?_⟩
      rw [heq]
      apply List.rel_append
      · apply hstands.imp
        intro g e hge
        apply hge.append_heap stored
      · apply List.Forall₂.cons _ List.Forall₂.nil
        apply standsFor_stub hE hcodec hf hstored

/-- Emitting frames one after the other. -/
theorem wp_emitFrames (hE : E.Lawful) (hcodec : ∀ c, compressor = some c → codec = some ⟨c.dict⟩)
    (hF : Framed F) (hI : ∀ d, F d → I d) (fs : List Frame) (hfs : ∀ f ∈ fs, f.Fits) (hd : F d)
    (hst : Emitted E plan codec pre blocks heap st)
    (hw : Written blocks heap st.blocksPending st.heapPending d) :
  wp (.none _) I
    (fun st' d' => F d' ∧ ∃ blocks' heap', Emitted E plan codec (pre ++ fs) blocks' heap' st'
      ∧ Written blocks' heap' st'.blocksPending st'.heapPending d')
    (fs.foldlM (emitFrame E plan compressor) st) d
  := by
  induction fs generalizing pre blocks heap st d with
  | nil =>
    apply wp_pure (hI d hd)
    rw [List.append_nil]
    exact ⟨hd, blocks, heap, hst, hw⟩
  | cons f fs ih =>
    rw [List.foldlM_cons]
    apply wp_bind
    apply wp_mono (wp_emitFrame hE hcodec hF hI (hfs f List.mem_cons_self) hd hst hw)
    rintro st' d' - ⟨hd', blocks', heap', hst', hw'⟩
    have hnext := ih (fun g hg => hfs g (List.mem_cons_of_mem _ hg)) hd' hst' hw'
    rwa [List.append_assoc, List.singleton_append] at hnext

/-! ### Emitting buckets -/

/-- The log is there, and so are the buckets that are still to be emitted. -/
def Buckets (frames : List Frame) (stats : ArrivalStats) (rest : List (PartFile × List Frame))
    (d : PartDir) : Prop :=
  HasLog frames stats d ∧ ∀ b ∈ rest, file d b.1 = some (encodeFrames b.2)

/-- The file is the log or one of its buckets. -/
def PartFile.IsBucket : PartFile → Prop
  | .arrival => True
  | .bucket _ => True
  | _ => False

theorem PartFile.IsBucket.ne_blocks {b : PartFile} (h : b.IsBucket) : b ≠ .blocks := by
  rintro rfl
  apply h

theorem PartFile.IsBucket.ne_heap {b : PartFile} (h : b.IsBucket) : b ≠ .heap := by
  rintro rfl
  apply h

/-- The blocks and the heap are no concern of the buckets. -/
theorem framed_buckets {rest : List (PartFile × List Frame)} (h : ∀ b ∈ rest, b.1.IsBucket) :
  Framed (Buckets frames stats rest)
  := by
  constructor
  · rintro d c ⟨hlog, hrest⟩
    refine ⟨hlog.setFile (by simp) c, ?_⟩
    intro b hb
    rw [file_setFile_ne _ (h b hb).ne_blocks, hrest b hb]
  · rintro d c ⟨hlog, hrest⟩
    refine ⟨hlog.setFile (by simp) c, ?_⟩
    intro b hb
    rw [file_setFile_ne _ (h b hb).ne_heap, hrest b hb]

/-- Removing a bucket file that is not needed any more. -/
theorem Buckets.remove {rest : List (PartFile × List Frame)} {b : PartFile}
    (h : Buckets frames stats rest d) (hne : b ≠ .arrival) (hnew : b ∉ rest.map Prod.fst) :
  Buckets frames stats rest (setFile d b none)
  := by
  refine ⟨h.1.setFile hne none, ?_⟩
  intro b' hb'
  rw [file_setFile_ne, h.2 b' hb']
  intro heq
  apply hnew
  rw [← heq]
  apply List.mem_map_of_mem hb'

theorem Written.setFile {g : PartFile} (hw : Written blocks heap blocksPending heapPending d)
    (h₁ : .blocks ≠ g) (h₂ : .heap ≠ g) (c : Option Bytes) :
  Written blocks heap blocksPending heapPending (setFile d g c)
  := by
  constructor
  · rw [file_setFile_ne _ h₁]
    apply hw.blocks
  · rw [file_setFile_ne _ h₂]
    apply hw.heap

/-- Emitting one bucket. -/
theorem wp_emitBucket (hE : E.Lawful) (hcodec : ∀ c, compressor = some c → codec = some ⟨c.dict⟩)
    (hI : ∀ d, HasLog frames stats d → I d) {b : PartFile} {fs : List Frame}
    {rest : List (PartFile × List Frame)} (hfs : ∀ f ∈ fs, f.Fits)
    (hbuckets : ∀ b' ∈ (b, fs) :: rest, b'.1.IsBucket) (hnew : b ∉ rest.map Prod.fst)
    (hd : Buckets frames stats ((b, fs) :: rest) d)
    (hst : Emitted E plan codec pre blocks heap st)
    (hw : Written blocks heap st.blocksPending st.heapPending d) :
  wp (.none _) I
    (fun st' d' => Buckets frames stats rest d' ∧
      ∃ blocks' heap', Emitted E plan codec (pre ++ E.sortUnstable fs) blocks' heap' st'
        ∧ Written blocks' heap' st'.blocksPending st'.heapPending d')
    (emitBucket E plan compressor st b) d
  := by
  have hI' : ∀ d, Buckets frames stats rest d → I d := fun d h => hI d h.1
  have hrest : ∀ b' ∈ rest, b'.1.IsBucket := fun b' hb' => hbuckets b' (List.mem_cons_of_mem _ hb')
  have hb : b.IsBucket := hbuckets (b, fs) List.mem_cons_self
  have hd₀ : Buckets frames stats rest d :=
    ⟨hd.1, fun b' hb' => hd.2 b' (List.mem_cons_of_mem _ hb')⟩
  apply wp_bind
  apply wp_readFile (hI d hd.1)
  intro buf hbuf
  obtain rfl : encodeFrames fs = buf := by simpa [hd.2 _ List.mem_cons_self] using hbuf
  rw [parseFrames_encodeFrames hfs]
  apply wp_bind
  apply wp_ofExcept (hI d hd.1)
  intro fs' hfs'
  obtain rfl := Except.ok.inj hfs'
  have hsorted : ∀ f ∈ E.sortUnstable fs, f.Fits := by
    intro f hf
    apply hfs f ((hE.sort_perm fs).mem_iff.mp hf)
  apply wp_bind
  apply wp_mono (wp_emitFrames hE hcodec (framed_buckets hrest) hI' _ hsorted hd₀ hst hw)
  rintro st' d' hd' ⟨hB, blocks', heap', hst', hw'⟩
  split
  · next hne =>
    have hB' := hB.remove hne hnew
    apply wp_bind
    apply wp_remove hd' (hI' _ hB')
    apply wp_pure (hI' _ hB')
    exact ⟨hB', blocks', heap', hst', hw'.setFile hb.ne_blocks.symm hb.ne_heap.symm none⟩
  · apply wp_pure hd'
    exact ⟨hB, blocks', heap', hst', hw'⟩

/-- Emitting the buckets one after the other. -/
theorem wp_emitBuckets (hE : E.Lawful) (hcodec : ∀ c, compressor = some c → codec = some ⟨c.dict⟩)
    (hI : ∀ d, HasLog frames stats d → I d) (bs : List (PartFile × List Frame))
    (hfits : ∀ b ∈ bs, ∀ f ∈ b.2, f.Fits) (hbuckets : ∀ b ∈ bs, b.1.IsBucket)
    (hnodup : (bs.map Prod.fst).Nodup) (hd : Buckets frames stats bs d)
    (hst : Emitted E plan codec pre blocks heap st)
    (hw : Written blocks heap st.blocksPending st.heapPending d) :
  wp (.none _) I
    (fun st' d' => HasLog frames stats d' ∧ ∃ blocks' heap',
      Emitted E plan codec (pre ++ bs.flatMap fun b => E.sortUnstable b.2) blocks' heap' st'
        ∧ Written blocks' heap' st'.blocksPending st'.heapPending d')
    ((bs.map Prod.fst).foldlM (emitBucket E plan compressor) st) d
  := by
  induction bs generalizing pre blocks heap st d with
  | nil =>
    apply wp_pure (hI d hd.1)
    rw [List.flatMap_nil, List.append_nil]
    exact ⟨hd.1, blocks, heap, hst, hw⟩
  | cons b bs ih =>
    rw [List.map_cons, List.nodup_cons] at hnodup
    rw [List.map_cons, List.foldlM_cons]
    apply wp_bind
    apply wp_mono (wp_emitBucket hE hcodec hI (hfits b List.mem_cons_self) hbuckets hnodup.1 hd hst hw)
    rintro st' d' - ⟨hd', blocks', heap', hst', hw'⟩
    have hnext := ih (fun b' hb' => hfits b' (List.mem_cons_of_mem _ hb'))
      (fun b' hb' => hbuckets b' (List.mem_cons_of_mem _ hb')) hnodup.2 hd' hst' hw'
    rwa [List.append_assoc] at hnext

end

/-! ### Whole builds -/

/-- The partition is built, and its marker is published. -/
def Built (E : Env) (plan : Plan) (codec : Option Decompressor) (frames : List Frame)
    (done : PartitionBuildDone) (d : PartDir) : Prop :=
  d.buildDone = some done
    ∧ BuiltPartition E plan.blockSize plan.sketch codec frames d done.nBlocks done.sketchChecksum

/-- The states a partition goes through: scattered, then built. -/
def Resumable (E : Env) (plan : Plan) (codec : Option Decompressor) (frames : List Frame)
    (stats : ArrivalStats) (d : PartDir) : Prop :=
  HasLog frames stats d ∨ ∃ done, Built E plan codec frames done d

/-- How the values of a snapshot with this plan are decompressed. -/
def Plan.codec (plan : Plan) (dict : Option Bytes) : Option Decompressor :=
  match plan.compression with
  | .none => none
  | _ => some ⟨dict⟩

section

variable {E : Env} {plan : Plan} {frames : List Frame} {stats : ArrivalStats} {d : PartDir}
  {I : PartDir → Prop} {codec : Option Decompressor} {done : PartitionBuildDone}

/-- The fingerprints are the same without their repetitions. -/
theorem mem_dedup {fp : UInt64} (fps : List UInt64) :
  fp ∈ dedup fps ↔ fp ∈ fps
  := by
  induction fps using dedup.induct with
  | case1 => rfl
  | case2 a => rfl
  | case3 b l ih =>
    rw [dedup, if_pos rfl, ih]
    simp
  | case4 a b l h ih =>
    rw [dedup, if_neg h, List.mem_cons, ih, List.mem_cons (a := fp) (l := b :: l)]

/-- Cleaning up changes nothing a reader looks at. -/
theorem Built.sweep (h : Built E plan codec frames done d) {d' : PartDir} (hd' : Swept d d') :
  Built E plan codec frames done d'
  := by
  rw [hd'.files]
  apply h

theorem wp_sweep (hI : ∀ d, Built E plan codec frames done d → I d)
    (h : Built E plan codec frames done d) :
  wp (.none _) I (fun _ d' => Built E plan codec frames done d' ∧ d'.arrivalStats = none)
    sweepPartitionTransients d
  := by
  apply wp_sweepPartitionTransients
  · intro d' hd'
    apply hI _ (h.sweep hd')
  · intro d' hd' hstats
    exact ⟨h.sweep hd', hstats⟩

theorem blocks_length {H : Hash} {blockSize : Nat} {entries : List Entry} {blocks : List Bytes}
    {fences : List UInt32} (h : Blocks H blockSize entries blocks fences) :
  blocks.flatten.length = fences.length * blockSize
  := by
  obtain ⟨parts, -, -, hfits, rfl, rfl⟩ := h
  rw [Bytes.length_flatten_of_length (k := blockSize), List.length_map, List.length_map]
  intro b hb
  obtain ⟨p, hp, rfl⟩ := List.mem_map.mp hb
  apply (hfits p hp).length_sealedBlock

/-- The sketch that is written contains the fingerprints. -/
theorem wp_writeSketch (hE : E.Lawful) {F : PartDir → Prop} (hI : ∀ d, F d → I d)
    (hF : ∀ d c, F d → F (setFile d .sketch c)) {sorted : List Frame} (hperm : sorted.Perm frames)
    (hd : F d) :
  wp (.none _) I (fun r d' => F d' ∧ SketchBuilt E plan.sketch frames d'.sketch r.2)
    (writeSketch E plan (if plan.sketch then sorted.map Frame.fp else [])) d
  := by
  have hnil : sorted ≠ [] ↔ frames ≠ [] := by
    rw [← List.length_pos_iff, ← List.length_pos_iff, hperm.length_eq]
  by_cases hs : plan.sketch = true ∧ frames ≠ []
  · obtain ⟨hsketch, hne⟩ := hs
    have hwrite : plan.sketch = true ∧ sorted.map Frame.fp ≠ [] :=
      ⟨hsketch, by simpa using hnil.mpr hne⟩
    rw [writeSketch, if_pos hsketch, if_pos hwrite]
    apply wp_bind
    apply wp_ofExcept (hI d hd)
    intro bytes hbytes
    have hbuilt : E.xorf.tryFrom (dedup (sorted.map Frame.fp)) = .ok bytes := by
      rw [Sketch.build] at hbytes
      split at hbytes
      · next h => rw [h, Except.ok.inj hbytes]
      · simp at hbytes
    have hset : ∀ c, I (setFile d .sketch c) := fun c => hI _ (hF d c hd)
    apply wp_bind
    apply wp_writeDataFile (hI d hd) (fun b => hset (some b))
    apply wp_pure (hset _)
    refine ⟨hF d _ hd, ?_⟩
    rw [SketchBuilt, if_pos ⟨hsketch, hne⟩]
    refine ⟨bytes, rfl, rfl, ?_, ?_⟩
    · apply Sketch.parse_of_consistent (hE.xorf.descriptorConsistent _ _ hbuilt)
    · intro f hf
      apply hE.xorf.contains_of_mem _ _ hbuilt
      rw [mem_dedup]
      apply List.mem_map_of_mem (hperm.mem_iff.mpr hf)
  · have hskip : ¬ (plan.sketch = true ∧ (if plan.sketch then sorted.map Frame.fp else []) ≠ []) := by
      rintro ⟨hsketch, hne⟩
      rw [if_pos hsketch] at hne
      apply hs ⟨hsketch, hnil.mp (by simpa using hne)⟩
    rw [writeSketch, if_neg hskip]
    apply wp_pure (hI d hd)
    refine ⟨hd, ?_⟩
    rw [SketchBuilt, if_neg hs]

/-- The buckets of a log with the frames they hold: the log itself, or the bucket files. -/
def bucketsOf (nBuckets : Nat) (frames : List Frame) : List (PartFile × List Frame) :=
  if nBuckets = 1 then [(.arrival, frames)]
  else (List.range nBuckets).map fun b => (.bucket b, bucketFrames nBuckets frames b)

/-- The buckets are distinct, have only frames of the log, and emit them in the order of the
build. -/
theorem bucketsOf_spec (nBuckets : Nat) (frames : List Frame) :
  (∀ b ∈ bucketsOf nBuckets frames, b.1.IsBucket)
    ∧ ((bucketsOf nBuckets frames).map Prod.fst).Nodup
    ∧ (∀ b ∈ bucketsOf nBuckets frames, ∀ f ∈ b.2, f ∈ frames)
    ∧ ((bucketsOf nBuckets frames).flatMap fun b => E.sortUnstable b.2) = emitted E nBuckets frames
  := by
  by_cases h : nBuckets = 1
  · rw [bucketsOf, if_pos h, h, emitted_one]
    simp [PartFile.IsBucket]
  · rw [bucketsOf, if_neg h]
    refine ⟨?_, ?_, ?_, ?_⟩
    · intro b hb
      obtain ⟨i, -, rfl⟩ := List.mem_map.mp hb
      trivial
    · rw [List.map_map]
      apply List.Nodup.map _ List.nodup_range
      intro i j hij
      injection hij
    · intro b hb f hf
      obtain ⟨i, -, rfl⟩ := List.mem_map.mp hb
      apply List.mem_of_mem_filter hf
    · rw [List.flatMap_map, emitted]

/-- Splitting the log into its buckets. -/
theorem wp_openBuckets (hI : ∀ d, HasLog frames stats d → I d) (nBuckets : Nat)
    (hfits : ∀ f ∈ frames, f.Fits) (hlog : HasLog frames stats d) :
  wp (.none _) I
    (fun buckets d' => buckets = (bucketsOf nBuckets frames).map Prod.fst
      ∧ Buckets frames stats (bucketsOf nBuckets frames) d')
    (openBuckets nBuckets) d
  := by
  rw [openBuckets]
  split
  · next h =>
    apply wp_pure (hI d hlog)
    rw [bucketsOf, if_pos h]
    refine ⟨rfl, hlog, ?_⟩
    simpa using hlog.arrival
  · next h =>
    apply wp_mono (wp_scatterToBuckets hI nBuckets hfits hlog)
    rintro buckets d' - ⟨rfl, hlog', hfiles⟩
    rw [bucketsOf, if_neg h]
    refine ⟨by simp, hlog', ?_⟩
    intro b hb
    obtain ⟨i, hi, rfl⟩ := List.mem_map.mp hb
    apply hfiles i (List.mem_range.mp hi)

/-- The compressor a build uses agrees with the codec of the plan. -/
theorem Plan.codec_of_compressor {dict : Option Bytes} {compressor : Option Compressor}
    (h : openCompressor E plan dict = .ok compressor) :
  ∀ c, compressor = some c → plan.codec dict = some ⟨c.dict⟩
  := by
  rintro c rfl
  have hnew : ∀ n, (Compressor.new E.zstd dict n).map some = .ok (some c) → c.dict = dict := by
    intro n hn
    rw [Compressor.new] at hn
    split at hn
    · obtain rfl := Option.some.inj (Except.ok.inj hn)
      rfl
    · simp [Except.map] at hn
  rw [openCompressor] at h
  rw [Plan.codec]
  split at h
  · simp at h
  · next hmode => rw [hmode, hnew _ h]
  · next hmode => rw [hmode, hnew _ h]

/-- Completing a build: the marker is published over the whole data files. -/
theorem wp_completeBuild (hE : E.Lawful) (dataBytes : Nat) {sorted : List Frame}
    {blocks : List Bytes} {heap : Bytes} {st : BuildState} (hperm : sorted.Perm frames)
    (hsorted : sorted.Pairwise fun f g => f.fp.toNat ≤ g.fp.toNat) (hlog : HasLog frames stats d)
    (hst : Emitted E plan codec sorted blocks heap st)
    (hw : Written blocks heap st.blocksPending st.heapPending d) :
  wp (.none _) (Resumable E plan codec frames stats)
    (fun done d' => Built E plan codec frames done d' ∧ d'.arrivalStats = none)
    (completeBuild E plan dataBytes st) d
  := by
  have hI : ∀ d, HasLog frames stats d → Resumable E plan codec frames stats d :=
    fun d h => Or.inl h
  have hframed : Framed (HasLog frames stats) :=
    ⟨fun d c h => h.setFile (by simp) c, fun d c h => h.setFile (by simp) c⟩
  apply wp_bind
  apply wp_mono (wp_sink hframed hI (st.asm.finish E.hash).1 hlog hw)
  rintro blocksPending d - ⟨hlog, ⟨c, hc, hblocks⟩, c', hc', hheap⟩
  apply wp_bind
  apply wp_append (hI _ hlog)
  intro b hb hlen
  obtain rfl : c = b := by simpa [hc] using hb
  rw [← List.length_append, hblocks] at hlen
  rw [hblocks]
  have hlog₁ := hlog.setFile (f := .blocks) (by simp)
    (some (blocks ++ (st.asm.finish E.hash).1.toList).flatten)
  refine ⟨hI _ hlog₁, ?_⟩
  apply wp_bind
  apply wp_append (hI _ hlog₁)
  intro b hb hlen'
  rw [file_setFile_ne _ (by simp)] at hb
  obtain rfl : c' = b := by simpa [hc'] using hb
  rw [← List.length_append, hheap] at hlen'
  rw [hheap]
  have hlog₂ := hlog₁.setFile (f := .heap) (by simp) (some heap)
  refine ⟨hI _ hlog₂, ?_⟩
  have hset : ∀ contents, HasLog frames stats (setFile (setFile (setFile d .blocks
      (some (blocks ++ (st.asm.finish E.hash).1.toList).flatten)) .heap (some heap)) .fences
      contents) := fun contents => hlog₂.setFile (by simp) contents
  apply wp_bind
  apply wp_writeDataFile (hI _ hlog₂) (fun b => hI _ (hset (some b)))
  let F : PartDir → Prop := fun d' => HasLog frames stats d'
    ∧ d'.blocks = some (blocks ++ (st.asm.finish E.hash).1.toList).flatten
    ∧ d'.heap = some heap ∧ d'.fences = some (encodeFences (st.asm.finish E.hash).2)
  rw [hst.sketchFps]
  apply wp_bind
  apply wp_mono (wp_writeSketch hE (F := F) (fun d' h => hI d' h.1)
    (fun d' c h => ⟨h.1.setFile (by simp) c, h.2⟩) hperm ⟨hset _, rfl, rfl, rfl⟩)
  rintro ⟨sketchBytes, sketchChecksum⟩ d' hd' ⟨⟨-, hdblocks, hdheap, hdfences⟩, hsketch⟩
  obtain ⟨hsize, parts, cur, hp, hstands⟩ := hst.packed (by
    simp only [maxFileLen] at hlen'
    omega)
  have hfinish := hp.finish
  rw [hsize] at hfinish
  have hbound : (st.asm.finish E.hash).2.length * plan.blockSize < 2 ^ 64 := by
    rw [← blocks_length hfinish]
    simp only [maxFileLen] at hlen
    omega
  have hbuilt : ∀ done : PartitionBuildDone, done.nBlocks = (st.asm.finish E.hash).2.length →
      done.sketchChecksum = sketchChecksum →
      Built E plan codec frames done { d' with buildDone := some done } := by
    intro done hn hc
    refine ⟨rfl, sorted, _, _, _, heap, hperm, hsorted, hstands, hfinish, hdblocks, hdheap,
      hdfences, hn, ?_, ?_⟩
    · rw [hn]
      apply hbound
    · rw [hc]
      apply hsketch
  apply wp_bind
  apply wp_modify hd' (Or.inr ⟨_, hbuilt _ rfl rfl⟩)
  apply wp_bind
  apply wp_mono (wp_sweep (I := Resumable E plan codec frames stats) (fun d h => Or.inr ⟨_, h⟩)
    (hbuilt _ rfl rfl))
  intro _ d hd hdone
  apply wp_pure hd hdone

/-- A build from the log keeps the log until the partition is built. -/
theorem wp_buildFromLog (hE : E.Lawful) (dict : Option Bytes) (bucketBytes : Nat)
    (hfits : ∀ f ∈ frames, f.Fits) (hlog : HasLog frames stats d) :
  wp (.none _) (Resumable E plan (plan.codec dict) frames stats)
    (fun done d' => Built E plan (plan.codec dict) frames done d' ∧ d'.arrivalStats = none)
    (buildFromLog E plan dict bucketBytes) d
  := by
  have hI : ∀ d, HasLog frames stats d → Resumable E plan (plan.codec dict) frames stats d :=
    fun d h => Or.inl h
  have h₁ := hlog.setFile (f := .blocks) (by simp) none
  have h₂ := h₁.setFile (f := .heap) (by simp) none
  have h₃ := h₂.setFile (f := .fences) (by simp) none
  have h₄ := h₃.setFile (f := .sketch) (by simp) none
  apply wp_bind
  apply wp_remove (hI _ hlog) (hI _ h₁)
  apply wp_bind
  apply wp_remove (hI _ h₁) (hI _ h₂)
  apply wp_bind
  apply wp_remove (hI _ h₂) (hI _ h₃)
  apply wp_bind
  apply wp_remove (hI _ h₃) (hI _ h₄)
  apply wp_bind
  apply wp_removeBucketFiles
  · intro d' hd'
    apply hI _ (h₄.of_buckets hd')
  intro d hd
  replace hlog := h₄.of_buckets hd
  clear h₁ h₂ h₃ h₄ hd
  apply wp_bind
  apply wp_readFile (hI _ hlog)
  intro arrival harrival
  obtain rfl : encodeFrames frames = arrival := by simpa [hlog.arrival] using harrival
  obtain ⟨k, hk, hn⟩ := bucketCount_eq (encodeFrames frames).length bucketBytes
  generalize bucketCount (encodeFrames frames).length bucketBytes = nBuckets at hn ⊢
  obtain ⟨hbuckets, hnodup, hmem, hemitted⟩ := bucketsOf_spec (E := E) nBuckets frames
  apply wp_bind
  apply wp_mono (wp_openBuckets hI nBuckets hfits hlog)
  rintro buckets d - ⟨rfl, hB⟩
  have hF : Framed (Buckets frames stats (bucketsOf nBuckets frames)) := framed_buckets hbuckets
  have hB₁ := hF.blocks d (some []) hB
  have hB₂ := hF.heap _ (some []) hB₁
  apply wp_bind
  apply wp_create (hI _ hB.1) (hI _ hB₁.1)
  apply wp_bind
  apply wp_create (hI _ hB₁.1) (hI _ hB₂.1)
  apply wp_bind
  apply wp_ofExcept (hI _ hB₂.1)
  intro compressor hcompressor
  have hcodec := Plan.codec_of_compressor hcompressor
  apply wp_bind
  apply wp_ofExcept (hI _ hB₂.1)
  intro asm hasm
  have hnew := packed_new (H := E.hash) hasm
  have hst : Emitted E plan (plan.codec dict) [] [] [] ⟨asm, [], [], 0, 0, 0, 0, 0, 0, 0, []⟩ := by
    refine ⟨rfl, by simp, ?_⟩
    intro _
    exact ⟨hnew.2, [], [], hnew.1, List.Forall₂.nil⟩
  have hw : Written [] [] [] [] (setFile (setFile d .blocks (some [])) .heap (some [])) :=
    ⟨⟨[], rfl, rfl⟩, [], rfl, rfl⟩
  apply wp_bind
  apply wp_mono (wp_emitBuckets hE hcodec hI _ (fun b hb f hf => hfits f (hmem b hb f hf)) hbuckets
    hnodup hB₂ hst hw)
  rintro st d - ⟨hlog, blocks, heap, hst, hw⟩
  rw [List.nil_append, hemitted] at hst
  apply wp_completeBuild hE _ (emitted_perm hE hk hn frames) (emitted_sorted hE nBuckets frames) hlog
    hst hw

/-- `build_partition` from any state a killed build leaves. -/
theorem wp_buildPartition (hE : E.Lawful) (dict : Option Bytes) (bucketBytes : Nat)
    (hfits : ∀ f ∈ frames, f.Fits) (h : Resumable E plan (plan.codec dict) frames stats d) :
  wp (.none _) (Resumable E plan (plan.codec dict) frames stats)
    (fun done d' => Built E plan (plan.codec dict) frames done d' ∧ d'.arrivalStats = none)
    (buildPartition E plan dict bucketBytes) d
  := by
  apply wp_bind
  apply wp_read h
  rcases h with hlog | ⟨done, hdone⟩
  · rw [hlog.notBuilt]
    apply wp_buildFromLog hE dict bucketBytes hfits hlog
  · rw [hdone.1]
    apply wp_bind
    apply wp_mono (wp_sweep (I := Resumable E plan (plan.codec dict) frames stats)
      (fun d h => Or.inr ⟨_, h⟩) hdone)
    intro _ d' hd' hdone'
    apply wp_pure hd' hdone'

end

end V5
