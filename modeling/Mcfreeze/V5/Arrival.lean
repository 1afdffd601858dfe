import Mcfreeze.V5.Reader

/-!
# The arrival log

The frames a partition's appender writes to `arrival.bin` in arrival order, and how the
builder reads them back (`v5/builder.rs`): whole buffers at a time, through radix buckets
by the top bits of the fingerprint, and as samples for the compression plan.  The
histogram of record sizes decides the block size.
-/

open Format

namespace V5

open Bytes

def frameHeader : Nat := 20
def histBuckets : Nat := 33
def maxRadixBuckets : Nat := 64
def defaultBucketBytes : Nat := 128 * 1024 * 1024
def samplePrefixBytes : Nat := 64 * 1024 * 1024

/-- The bytes of a frame in the log. -/
def Frame.encode (f : Frame) : Bytes :=
  leBytes 8 f.fp.toNat ++ (leBytes 8 f.vfp.toNat ++ (leBytes 4 f.value.length ++ f.value))

/-- The log of a sequence of frames. -/
def encodeFrames (frames : List Frame) : Bytes :=
  (frames.map Frame.encode).flatten

/-- The fields of a frame header. -/
def headerFp (b : Bytes) : UInt64 := UInt64.ofNat (leNat (slice b 0 8))
def headerVfp (b : Bytes) : UInt64 := UInt64.ofNat (leNat (slice b 8 16))
def headerLength (b : Bytes) : Nat := leNat (slice b 16 20)

/-- Parse a buffer of at most `fuel` frames. -/
def parseFramesFuel : Nat → Bytes → Except Error (List Frame)
  | 0, _ => .ok []
  | fuel + 1, buf =>
    if buf = [] then .ok []
    else if buf.length < frameHeader then .error (.io "truncated arrival frame header")
    else
      let len := headerLength buf
      if buf.length < frameHeader + len then .error (.io "truncated arrival frame value")
      else
        match parseFramesFuel fuel (buf.drop (frameHeader + len)) with
        | .error e => .error e
        | .ok frames =>
          .ok (⟨headerFp buf, headerVfp buf, slice buf frameHeader (frameHeader + len)⟩ :: frames)

def parseFrames (buf : Bytes) : Except Error (List Frame) :=
  parseFramesFuel (buf.length + 1) buf

/-- Read the next frame of a stream, as its bytes; nothing at the end of the stream. -/
def readFrame (input : Bytes) : Except Error (Option (Bytes × Bytes)) :=
  if input = [] then .ok none
  else if input.length < frameHeader then .error (.io "truncated arrival frame")
  else
    let len := headerLength input
    if input.length < frameHeader + len then .error (.io "failed to fill whole buffer")
    else .ok (some (input.take (frameHeader + len), input.drop (frameHeader + len)))

/-- The values in the complete frames of a buffer, empty ones left out. -/
def samplesFuel : Nat → Bytes → List Bytes
  | 0, _ => []
  | fuel + 1, buf =>
    if buf.length < frameHeader then []
    else
      let len := headerLength buf
      if buf.length < frameHeader + len then []
      else
        let rest := samplesFuel fuel (buf.drop (frameHeader + len))
        if 0 < len then slice buf frameHeader (frameHeader + len) :: rest else rest

/-- The sample pool: the values in the first `maxBytes` bytes of a log. -/
def sampleArrivalPrefix (arrival : Bytes) (maxBytes : Nat) : List Bytes :=
  samplesFuel (arrival.length + 1) (arrival.take maxBytes)

/-- The least power of two that is at least `n`. -/
def nextPowerOfTwo (n : Nat) : Nat :=
  if n ≤ 1 then 1 else 2 ^ ((n - 1).log2 + 1)

/-- The number of radix buckets for a log of this size. -/
def bucketCount (arrivalBytes bucketBytes : Nat) : Nat :=
  max 1 (min (nextPowerOfTwo ((arrivalBytes + (max bucketBytes 1 - 1)) / max bucketBytes 1))
    maxRadixBuckets)

/-- The bucket of a fingerprint: its top bits. -/
def bucketOf (nBuckets : Nat) (fp : UInt64) : Nat :=
  fp.toNat / 2 ^ (64 - nBuckets.log2)

/-! ### The size histogram -/

/-- The number of bits of a number. -/
def bitWidth (n : Nat) : Nat :=
  if n = 0 then 0 else n.log2 + 1

/-- Count a record of `stored` payload bytes. -/
def countSize (hist : List Nat) (stored : Nat) : List Nat :=
  hist.modify (bitWidth (encodedLen stored)) (· + 1)

def emptyHist : List Nat :=
  List.replicate histBuckets 0

/-- The first bucket at which the running total reaches half of all records. -/
def medianBucket (half : Nat) : Nat → Nat → List Nat → Option Nat
  | _, _, [] => none
  | cumulative, b, c :: hist =>
    if half ≤ cumulative + c then some b else medianBucket half (cumulative + c) (b + 1) hist

def autoTuneBlockSize (hist : List Nat) : Except Error Nat :=
  let total := hist.sum
  if total = 0 then .ok minBlockSize
  else
    match medianBucket ((total + 1) / 2) 0 0 hist with
    | none => .error (.panic "non-empty histogram")
    | some median => .ok (max minBlockSize (min (2 ^ min (median + 1) 31) maxAutoBlockSize))

/-! ### Reading frames back -/

/-- A frame whose value fits the length field. -/
def Frame.Fits (f : Frame) : Prop :=
  f.value.length ≤ maxValueLen

section

variable {f : Frame} {rest : Bytes}

theorem length_frame_encode (f : Frame) :
  f.encode.length = frameHeader + f.value.length
  := by
  simp only [Frame.encode, List.length_append, length_leBytes, frameHeader]
  omega

theorem headerFp_encode (f : Frame) (rest : Bytes) :
  headerFp (f.encode ++ rest) = f.fp
  := by
  rw [headerFp, slice_zero, Frame.encode, List.append_assoc, List.take_left' (length_leBytes 8 _),
    leNat_leBytes_of_lt f.fp.toNat_lt, UInt64.ofNat_toNat]

theorem headerVfp_encode (f : Frame) (rest : Bytes) :
  headerVfp (f.encode ++ rest) = f.vfp
  := by
  rw [headerVfp, Frame.encode, List.append_assoc, List.append_assoc, slice_mid,
    leNat_leBytes_of_lt f.vfp.toNat_lt, UInt64.ofNat_toNat]
  · simp
  · simp

/-- The header of a frame has the length of its value. -/
theorem headerLength_encode (hf : f.Fits) (rest : Bytes) :
  headerLength (f.encode ++ rest) = f.value.length
  := by
  have hassoc : f.encode ++ rest = (leBytes 8 f.fp.toNat ++ leBytes 8 f.vfp.toNat)
      ++ (leBytes 4 f.value.length ++ (f.value ++ rest)) := by
    simp only [Frame.encode, List.append_assoc]
  rw [headerLength, hassoc, slice_mid, leNat_leBytes_of_lt]
  · simp only [Frame.Fits, maxValueLen] at hf
    omega
  · simp
  · simp

theorem slice_value_encode (f : Frame) (rest : Bytes) :
  slice (f.encode ++ rest) frameHeader (frameHeader + f.value.length) = f.value
  := by
  have hassoc : f.encode ++ rest = (leBytes 8 f.fp.toNat ++ leBytes 8 f.vfp.toNat
      ++ leBytes 4 f.value.length) ++ (f.value ++ rest) := by
    simp only [Frame.encode, List.append_assoc]
  rw [hassoc, slice_mid]
  · simp [frameHeader]
  · simp [frameHeader]

theorem encode_append_ne_nil (f : Frame) (rest : Bytes) :
  f.encode ++ rest ≠ []
  := by
  intro h
  have hlen := congrArg List.length h
  rw [List.length_append, length_frame_encode, List.length_nil, frameHeader] at hlen
  omega

/-- A frame that fits is parsed, and then the rest. -/
theorem parseFramesFuel_encode {fuel : Nat} (hf : f.Fits) :
  parseFramesFuel (fuel + 1) (f.encode ++ rest)
    = (parseFramesFuel fuel rest).map (f :: ·)
  := by
  have hlen : (f.encode ++ rest).length = frameHeader + f.value.length + rest.length := by
    rw [List.length_append, length_frame_encode]
  simp only [parseFramesFuel, headerLength_encode hf, headerFp_encode, headerVfp_encode,
    slice_value_encode, if_neg (encode_append_ne_nil f rest), hlen,
    List.drop_left' (length_frame_encode f)]
  rw [if_neg (by omega), if_neg (by omega)]
  cases parseFramesFuel fuel rest with
  | ok frames => rfl
  | error e => rfl

theorem length_le_encodeFrames (frames : List Frame) :
  frames.length ≤ (encodeFrames frames).length
  := by
  induction frames with
  | nil => apply Nat.zero_le
  | cons f frames ih =>
    have hf := length_frame_encode f
    simp only [encodeFrames, List.map_cons, List.flatten_cons, List.length_append,
      List.length_cons, frameHeader] at ih hf ⊢
    omega

/-- Frames that fit are parsed as they were encoded. -/
theorem parseFramesFuel_encodeFrames (frames : List Frame) (h : ∀ f ∈ frames, f.Fits) :
  ∀ fuel, frames.length < fuel → parseFramesFuel fuel (encodeFrames frames) = .ok frames
  := by
  induction frames with
  | nil =>
    intro fuel hfuel
    obtain ⟨fuel, rfl⟩ : ∃ n, fuel = n + 1 := ⟨fuel - 1, by omega⟩
    rfl
  | cons f frames ih =>
    intro fuel hfuel
    obtain ⟨fuel, rfl⟩ : ∃ n, fuel = n + 1 := ⟨fuel - 1, by omega⟩
    have hrest := ih (fun g hg => h g (List.mem_cons_of_mem _ hg)) fuel (by
      rw [List.length_cons] at hfuel
      omega)
    have hsplit : encodeFrames (f :: frames) = f.encode ++ encodeFrames frames := rfl
    rw [hsplit, parseFramesFuel_encode (h f List.mem_cons_self), hrest]
    rfl

/-- Parsing the log of frames gives back the frames. -/
theorem parseFrames_encodeFrames {frames : List Frame} (h : ∀ f ∈ frames, f.Fits) :
  parseFrames (encodeFrames frames) = .ok frames
  := by
  apply parseFramesFuel_encodeFrames frames h
  apply Nat.lt_succ_of_le (length_le_encodeFrames frames)

theorem readFrame_encode (hf : f.Fits) :
  readFrame (f.encode ++ rest) = .ok (some (f.encode, rest))
  := by
  have hlen : (f.encode ++ rest).length = frameHeader + f.value.length + rest.length := by
    rw [List.length_append, length_frame_encode]
  simp only [readFrame, headerLength_encode hf, if_neg (encode_append_ne_nil f rest), hlen,
    List.drop_left' (length_frame_encode f), List.take_left' (length_frame_encode f)]
  rw [if_neg (by omega), if_neg (by omega)]

end

/-! ### Radix buckets -/

theorem nextPowerOfTwo_isPowerOfTwo (n : Nat) :
  (nextPowerOfTwo n).isPowerOfTwo
  := by
  rw [nextPowerOfTwo]
  split
  · exact ⟨0, rfl⟩
  · exact ⟨_, rfl⟩

/-- The number of buckets is a power of two between `1` and `64`. -/
theorem bucketCount_eq (arrivalBytes bucketBytes : Nat) :
  ∃ k ≤ 6, bucketCount arrivalBytes bucketBytes = 2 ^ k
  := by
  obtain ⟨k, hk⟩ := nextPowerOfTwo_isPowerOfTwo
    ((arrivalBytes + (max bucketBytes 1 - 1)) / max bucketBytes 1)
  have hpos : 1 ≤ 2 ^ k := Nat.one_le_two_pow
  have h64 : maxRadixBuckets = 2 ^ 6 := rfl
  rw [bucketCount, hk, h64]
  rcases Nat.le_total k 6 with hle | hle
  · use k, hle
    have hpow : 2 ^ k ≤ 2 ^ 6 := Nat.pow_le_pow_right (by omega) hle
    omega
  · use 6, Nat.le_refl 6
    have hpow : 2 ^ 6 ≤ 2 ^ k := Nat.pow_le_pow_right (by omega) hle
    omega

theorem bucketOf_lt {nBuckets k : Nat} (hk : k ≤ 6) (h : nBuckets = 2 ^ k) (fp : UInt64) :
  bucketOf nBuckets fp < nBuckets
  := by
  have hlt := fp.toNat_lt
  rw [bucketOf, h, Nat.log2_two_pow, Nat.div_lt_iff_lt_mul (Nat.two_pow_pos _), ← Nat.pow_add]
  rwa [Nat.add_sub_cancel' (by omega)]

theorem le_of_bucketOf_lt {nBuckets : Nat} {fp fp' : UInt64}
    (h : bucketOf nBuckets fp < bucketOf nBuckets fp') :
  fp.toNat ≤ fp'.toNat
  := by
  by_contra hgt
  apply Nat.not_le_of_lt h
  apply Nat.div_le_div_right
  omega

/-- The frames sent to a bucket. -/
def bucketFrames (nBuckets : Nat) (frames : List Frame) (b : Nat) : List Frame :=
  frames.filter fun f => bucketOf nBuckets f.fp = b

/-- The frames in the order in which the builder emits them: each bucket is sorted, and
the buckets follow each other. -/
def emitted (E : Env) (nBuckets : Nat) (frames : List Frame) : List Frame :=
  (List.range nBuckets).flatMap fun b => E.sortUnstable (bucketFrames nBuckets frames b)

/-- The buckets emit every frame once. -/
theorem emitted_perm {E : Env} (hE : E.Lawful) {nBuckets k : Nat} (hk : k ≤ 6)
    (h : nBuckets = 2 ^ k) (frames : List Frame) :
  (emitted E nBuckets frames).Perm frames
  := by
  have hsort : (emitted E nBuckets frames).Perm
      ((List.range nBuckets).flatMap (bucketFrames nBuckets frames)) := by
    apply List.Perm.flatMap_left
    intro b _
    apply hE.sort_perm
  have hall : (frames.filter fun f => bucketOf nBuckets f.fp < nBuckets) = frames := by
    rw [List.filter_eq_self]
    intro f _
    simpa using bucketOf_lt hk h f.fp
  apply hsort.trans
  have hperm := List.flatMap_range_filter_perm (fun f : Frame => bucketOf nBuckets f.fp) frames nBuckets
  rwa [hall] at hperm

/-- The frames are emitted in the order of their fingerprints. -/
theorem emitted_sorted {E : Env} (hE : E.Lawful) (nBuckets : Nat) (frames : List Frame) :
  (emitted E nBuckets frames).Pairwise fun f g => f.fp.toNat ≤ g.fp.toNat
  := by
  rw [emitted, List.pairwise_flatMap]
  constructor
  · intro b _
    apply hE.sort_sorted
  · apply List.pairwise_lt_range.imp
    intro b b' hlt f hf g hg
    rw [(hE.sort_perm _).mem_iff, bucketFrames, List.mem_filter, decide_eq_true_eq] at hf hg
    apply le_of_bucketOf_lt
    rw [hf.2, hg.2]
    apply hlt

/-- With a single bucket the log is sorted as a whole. -/
theorem emitted_one (E : Env) (frames : List Frame) :
  emitted E 1 frames = E.sortUnstable frames
  := by
  have hall : bucketFrames 1 frames 0 = frames := by
    rw [bucketFrames, List.filter_eq_self]
    intro f _
    have hlt := f.fp.toNat_lt
    rw [decide_eq_true_eq, bucketOf]
    apply Nat.div_eq_of_lt hlt
  simp [emitted, hall]

end V5
