import Mcfreeze.V5.Block

/-!
# Value compression and sketches

The compressor and decompressor of values (`v5/compress.rs`) and the per-partition sketch
(`v5/sketch.rs`).  The zstd library and the binary fuse filter are parameters of the
model; `Zstd.Lawful` and `Xorf.Lawful` say what the code relies on.
-/

open Format

namespace V5

open Bytes

/-! ### The libraries -/

/-- The zstd library.  Contexts are created for an optional dictionary; frames are bare,
with the content size pinned.  Training is not reproducible, so it takes a further
number. -/
structure Zstd where
  compressor : Option Bytes → Except String Unit
  compress : Option Bytes → Bytes → Except String Bytes
  decompressor : Option Bytes → Except String Unit
  decompress : Option Bytes → Bytes → Nat → Except String Bytes
  fromSamples : Nat → List Bytes → Nat → Except String Bytes
  version : String

/-- The binary fuse filter in its serialized form. -/
structure Xorf where
  tryFrom : List UInt64 → Except String Bytes
  contains : Bytes → UInt64 → Bool

/-! ### Compression -/

/-- The compression mode of a snapshot. -/
inductive Mode where
  | none
  | zstd
  | zstdDict
  deriving DecidableEq, Repr

def defaultMinCompressLen : Nat := 64
def defaultDictLen : Nat := 64 * 1024

def trainDict (Z : Zstd) (seed : Nat) (samples : List Bytes) (maxSize : Nat) :
    Except Error Bytes :=
  match Z.fromSamples seed samples maxSize with
  | .ok dict => .ok dict
  | .error e => .error (.dictTrain e)

def verifyDict (H : Hash) (dict : Bytes) (expected : UInt32) : Except Error Unit :=
  if checksum32 H dict ≠ expected then
    .error (.dictChecksumMismatch (checksum32 H dict) expected)
  else .ok ()

/-- A compression context. -/
structure Compressor where
  dict : Option Bytes
  minCompressLen : Nat
  deriving DecidableEq, Repr

def Compressor.new (Z : Zstd) (dict : Option Bytes) (minCompressLen : Nat) :
    Except Error Compressor :=
  match Z.compressor dict with
  | .ok () => .ok ⟨dict, minCompressLen⟩
  | .error e => .error (.zstd e)

/-- The frame of a value, or nothing when the value is stored raw: it is short, or its
frame is not shorter. -/
def Compressor.compress (Z : Zstd) (c : Compressor) (value : Bytes) :
    Except Error (Option Bytes) :=
  if value.length < c.minCompressLen then .ok none
  else
    match Z.compress c.dict value with
    | .error e => .error (.zstd e)
    | .ok frame => .ok (if frame.length < value.length then some frame else none)

/-- The decompression state of a snapshot. -/
structure Decompressor where
  dict : Option Bytes
  deriving DecidableEq, Repr

def Decompressor.new (Z : Zstd) (dict : Option Bytes) : Except Error Decompressor :=
  match Z.decompressor dict with
  | .ok () => .ok ⟨dict⟩
  | .error e => .error (.zstd e)

/-- The content size pinned in the header of a magicless frame. -/
def frameContentSize (frame : Bytes) : Except Error Nat :=
  match frame with
  | [] => .error (.corruptFrame "empty frame")
  | fhd :: _ =>
    if fhd &&& 0x08 ≠ 0 then .error (.corruptFrame "reserved frame header bit set")
    else
      let singleSegment := fhd &&& 0x20 ≠ 0
      let fcsLen : Option Nat :=
        if fhd >>> 6 = 0 then (if singleSegment then some 1 else none)
        else if fhd >>> 6 = 1 then some 2
        else if fhd >>> 6 = 2 then some 4
        else some 8
      match fcsLen with
      | none => .error (.corruptFrame "frame content size not pinned")
      | some fcsLen =>
        let dictIdLen :=
          if fhd &&& 0x03 = 0 then 0
          else if fhd &&& 0x03 = 1 then 1
          else if fhd &&& 0x03 = 2 then 2
          else 4
        let start := 1 + (if singleSegment then 0 else 1) + dictIdLen
        if frame.length < start + fcsLen then .error (.corruptFrame "truncated frame header")
        else
          let size := leNat (slice frame start (start + fcsLen))
          .ok (if fcsLen = 2 then size + 256 else size)

def Decompressor.decompress (Z : Zstd) (d : Decompressor) (frame : Bytes) :
    Except Error Bytes :=
  match frameContentSize frame with
  | .error e => .error e
  | .ok contentSize =>
    if maxValueLen < contentSize then
      .error (.frameContentTooLarge contentSize maxValueLen)
    else
      match Z.decompress d.dict frame contentSize with
      | .error e => .error (.decompress e)
      | .ok value =>
        if value.length ≠ contentSize then
          .error (.corruptFrame "decompressed size differs from pinned content size")
        else .ok value

/-- The value of a record's stored bytes. -/
def decode (Z : Zstd) (stored : Bytes) (compressed : Bool) (codec : Option Decompressor) :
    Except Error Bytes :=
  match compressed, codec with
  | false, _ => .ok stored
  | true, some d => d.decompress Z stored
  | true, none => .error .compressedValueWithoutCodec

/-- Decompression undoes compression, a frame's header pins the length of its value, and a
dictionary that can be compressed with can be decompressed with. -/
structure Zstd.Lawful (Z : Zstd) : Prop where
  decompress_compress : ∀ dict value frame, Z.compress dict value = .ok frame →
    Z.decompress dict frame value.length = .ok value
  contentSize_compress : ∀ dict value frame, Z.compress dict value = .ok frame →
    frameContentSize frame = .ok value.length
  decompressor_of_compressor : ∀ dict, Z.compressor dict = .ok () → Z.decompressor dict = .ok ()

/-- What the builder stores for a value: its frame or the value itself. -/
def storedForm (Z : Zstd) (compressor : Option Compressor) (value : Bytes) :
    Except Error (Bytes × Bool) :=
  match compressor with
  | none => .ok (value, false)
  | some c =>
    match c.compress Z value with
    | .error e => .error e
    | .ok none => .ok (value, false)
    | .ok (some frame) => .ok (frame, true)

/-- A value is stored as it is, or as a shorter frame. -/
theorem storedForm_cases {Z : Zstd} {compressor : Option Compressor} {value stored : Bytes}
    {compressed : Bool} (h : storedForm Z compressor value = .ok (stored, compressed)) :
  (stored = value ∧ compressed = false)
    ∨ ∃ c, compressor = some c ∧ Z.compress c.dict value = .ok stored
      ∧ stored.length < value.length ∧ compressed = true
  := by
  cases compressor with
  | none =>
    left
    obtain ⟨rfl, rfl⟩ := Prod.mk.inj (Except.ok.inj h)
    exact ⟨rfl, rfl⟩
  | some c =>
    simp only [storedForm] at h
    split at h
    · simp at h
    · left
      obtain ⟨rfl, rfl⟩ := Prod.mk.inj (Except.ok.inj h)
      exact ⟨rfl, rfl⟩
    · next frame hc =>
      right
      obtain ⟨rfl, rfl⟩ := Prod.mk.inj (Except.ok.inj h)
      rw [Compressor.compress] at hc
      split at hc
      · simp at hc
      · split at hc
        · simp at hc
        · next frame' hframe =>
          obtain ⟨hlt, heq⟩ := Option.ite_none_right_eq_some.mp (Except.ok.inj hc)
          obtain rfl := Option.some.inj heq
          exact ⟨c, rfl, hframe, hlt, rfl⟩

theorem length_storedForm_le {Z : Zstd} {compressor : Option Compressor} {value stored : Bytes}
    {compressed : Bool} (h : storedForm Z compressor value = .ok (stored, compressed)) :
  stored.length ≤ value.length
  := by
  obtain ⟨rfl, -⟩ | ⟨c, -, -, hlt, -⟩ := storedForm_cases h
  · apply Nat.le_refl
  · apply Nat.le_of_lt hlt

/-- The decompressor of a dictionary decodes what the compressor of the dictionary
stored. -/
theorem decode_storedForm {Z : Zstd} (hZ : Z.Lawful) {compressor : Option Compressor}
    {codec : Option Decompressor} {value stored : Bytes} {compressed : Bool}
    (hcodec : ∀ c, compressor = some c → codec = some ⟨c.dict⟩)
    (hlen : value.length ≤ maxValueLen)
    (h : storedForm Z compressor value = .ok (stored, compressed)) :
  decode Z stored compressed codec = .ok value
  := by
  obtain ⟨rfl, rfl⟩ | ⟨c, hc, hframe, -, rfl⟩ := storedForm_cases h
  · rfl
  · have hsize := hZ.contentSize_compress c.dict value _ hframe
    have hback := hZ.decompress_compress c.dict value _ hframe
    simp only [hcodec c hc, decode, Decompressor.decompress, hsize, hback]
    rw [if_neg (Nat.not_lt.mpr hlen), if_neg (by simp)]

/-! ### Sketches -/

def descriptorLen : Nat := 20

/-- The name of the filter in `meta.json`. -/
def sketchKind : String := "binary_fuse8"

/-- The descriptor of a serialized filter agrees with its length. -/
def DescriptorConsistent (buf : Bytes) : Prop :=
  let sl := leNat (slice buf 8 12)
  let mask := leNat (slice buf 12 16)
  let scl := leNat (slice buf 16 20)
  descriptorLen ≤ buf.length ∧ sl.isPowerOfTwo ∧ mask = sl - 1 ∧ scl % sl = 0
    ∧ buf.length - descriptorLen = scl + 2 * sl

/-- A sketch read from a file: the bytes of a filter. -/
structure Sketch where
  bytes : Bytes
  deriving DecidableEq, Repr

def Sketch.parse (buf : Bytes) : Except Error Sketch :=
  if buf.length < descriptorLen then
    .error (.corruptSketch "sketch shorter than its descriptor")
  else
    let sl := leNat (slice buf 8 12)
    let mask := leNat (slice buf 12 16)
    let scl := leNat (slice buf 16 20)
    let nFingerprints := buf.length - descriptorLen
    if sl = 0 ∨ ¬ sl.isPowerOfTwo ∨ mask ≠ sl - 1 then
      .error (.corruptSketch "invalid sketch segment descriptor")
    else if scl % sl ≠ 0 ∨ nFingerprints ≠ scl + 2 * sl then
      .error (.corruptSketch "sketch descriptor/fingerprint length mismatch")
    else .ok ⟨buf⟩

def Sketch.contains (X : Xorf) (sketch : Sketch) (fp : UInt64) : Bool :=
  X.contains sketch.bytes fp

def Sketch.build (X : Xorf) (fps : List UInt64) : Except Error Bytes :=
  match X.tryFrom fps with
  | .ok bytes => .ok bytes
  | .error e => .error (.sketchBuild e)

def verifySketch (H : Hash) (sketch : Bytes) (expected : UInt32) : Except Error Unit :=
  if checksum32 H sketch ≠ expected then
    .error (.sketchChecksumMismatch (checksum32 H sketch) expected)
  else .ok ()

/-- A filter contains the fingerprints it was built from, and its descriptor is
consistent. -/
structure Xorf.Lawful (X : Xorf) : Prop where
  contains_of_mem : ∀ fps bytes, X.tryFrom fps = .ok bytes → ∀ fp ∈ fps,
    X.contains bytes fp = true
  descriptorConsistent : ∀ fps bytes, X.tryFrom fps = .ok bytes → DescriptorConsistent bytes

/-- A sketch with a consistent descriptor is parsed. -/
theorem Sketch.parse_of_consistent {buf : Bytes} (h : DescriptorConsistent buf) :
  Sketch.parse buf = .ok ⟨buf⟩
  := by
  obtain ⟨hlen, hpow, hmask, hmod, hsize⟩ := h
  have hpos := Nat.pos_of_isPowerOfTwo hpow
  simp only [Sketch.parse]
  rw [if_neg (Nat.not_lt.mpr hlen), if_neg (by
    rintro (hzero | hnot | hne)
    · omega
    · apply hnot hpow
    · apply hne hmask), if_neg (by
    rintro (hne | hne)
    · apply hne hmod
    · apply hne hsize)]

end V5
