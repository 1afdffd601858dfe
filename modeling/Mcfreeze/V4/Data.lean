import Mcfreeze.V4.Index

/-!
# The files of a V4 partition

`data.bin` (`data.rs`, `v4/reader.rs`): each value is stored at an aligned offset behind a
header with its verify fingerprint and length, and is read back with a speculative read up
to the next page.  `spill.bin` (`v4/spill.rs`): the index entries in arrival order behind
a header whose count is filled in at the end.
-/

open Format

namespace V4

open Bytes

def valueAlignment : Nat := 64
def valueHeaderSize : Nat := 12
def pageSize : Nat := 4096

/-- The default cap of the loader on values: 16 MiB. -/
def defaultMaxValueBytes : Nat := 16 * 1024 * 1024

def verifyFingerprint (H : Hash) (key : Bytes) (seed : UInt64) : UInt64 :=
  H.xxh64 key seed

/-! ### Values -/

def alignedSize (size : Nat) : Nat :=
  (size + (valueAlignment - 1)) / valueAlignment * valueAlignment

/-- The size of a value with its header, in 32 bits. -/
def onDiskSize (value : Bytes) : Nat :=
  (valueHeaderSize + value.length % 2 ^ 32) % 2 ^ 32

/-- What is written to `data.bin` for a value. -/
def encodeValue (vfp : UInt64) (value : Bytes) : Bytes :=
  leBytes 8 vfp.toNat ++ (leBytes 4 (value.length % 2 ^ 32) ++ (value
    ++ List.replicate (alignedSize (onDiskSize value) - onDiskSize value) 0))

/-- Read up to `size` bytes at an offset. -/
def preadUpTo (file : Bytes) (offset size : Nat) : Bytes :=
  slice file offset (offset + size)

/-- The value at an offset, if its verify fingerprint is the expected one. -/
def readAndVerify (file : Bytes) (byteOffset : Nat) (expected : UInt64) :
    Except Error (Option Bytes) :=
  let firstRead := preadUpTo file byteOffset (pageSize - byteOffset % pageSize)
  if firstRead.length < valueHeaderSize then
    .error (.io "short read: value header truncated")
  else if UInt64.ofNat (leNat (slice firstRead 0 8)) ≠ expected then .ok none
  else
    let byteLen := leNat (slice firstRead 8 12)
    let onDisk := valueHeaderSize + byteLen
    if onDisk ≤ firstRead.length then .ok (some (slice firstRead valueHeaderSize onDisk))
    else if 2 ^ 32 ≤ onDisk then .ok none
    else
      match pread file byteOffset (alignedSize onDisk % 2 ^ 32) with
      | .error e => .error e
      | .ok raw =>
        if raw.length < onDisk then .error (.panic "range end index out of range")
        else .ok (some (slice raw valueHeaderSize onDisk))

section

variable {vfp : UInt64} {value : Bytes}

/-- The value fits the length field, with its header and padding. -/
def Small (value : Bytes) : Prop :=
  valueHeaderSize + value.length + valueAlignment ≤ 2 ^ 32

/-- The default cap is well below the limit. -/
theorem small_of_le (h : value.length ≤ defaultMaxValueBytes) :
  Small value
  := by
  simp only [defaultMaxValueBytes] at h
  simp only [Small, valueHeaderSize, valueAlignment]
  omega

theorem onDiskSize_eq (h : Small value) :
  onDiskSize value = valueHeaderSize + value.length
  := by
  simp only [Small, valueHeaderSize, valueAlignment] at h
  simp only [onDiskSize, valueHeaderSize]
  omega

theorem length_encodeValue (h : Small value) :
  (encodeValue vfp value).length = alignedSize (valueHeaderSize + value.length)
  := by
  simp only [encodeValue, List.length_append, length_leBytes, List.length_replicate,
    onDiskSize_eq h]
  simp only [alignedSize, valueAlignment, valueHeaderSize]
  omega

theorem slice_take {b : Bytes} {i j k : Nat} (h : j ≤ k) :
  slice (b.take k) i j = slice b i j
  := by
  rw [slice, slice, List.drop_take, List.take_take]
  congr 1
  omega

/-- Reading a value back finds it if the fingerprint is its own, and nothing otherwise. -/
theorem readAndVerify_encodeValue (h : Small value) {pre post : Bytes}
    (hpre : pre.length % valueAlignment = 0) (expected : UInt64) :
  readAndVerify (pre ++ (encodeValue vfp value ++ post)) pre.length expected
    = .ok (if vfp = expected then some value else none)
  := by
  have hlen : (encodeValue vfp value).length = alignedSize (valueHeaderSize + value.length) :=
    length_encodeValue h
  have hsmall : valueHeaderSize + value.length + valueAlignment ≤ 2 ^ 32 := h
  simp only [valueHeaderSize, valueAlignment] at hsmall
  have halign : valueHeaderSize + value.length ≤ alignedSize (valueHeaderSize + value.length)
      ∧ alignedSize (valueHeaderSize + value.length) < 2 ^ 32
      ∧ 64 ≤ alignedSize (valueHeaderSize + value.length) := by
    simp only [alignedSize, valueAlignment, valueHeaderSize]
    omega
  obtain ⟨hle, hlt, hge⟩ := halign
  have hpage : 64 ≤ pageSize - pre.length % pageSize := by
    simp only [valueAlignment, pageSize] at hpre ⊢
    omega
  generalize hk : pageSize - pre.length % pageSize = k at hpage
  have hfirst : preadUpTo (pre ++ (encodeValue vfp value ++ post)) pre.length k
      = (encodeValue vfp value ++ post).take k := by
    rw [preadUpTo, slice, List.drop_left, Nat.add_sub_cancel_left]
  have hrest : (encodeValue vfp value ++ post).length
      = alignedSize (valueHeaderSize + value.length) + post.length := by
    rw [List.length_append, hlen]
  have hassoc : encodeValue vfp value ++ post = leBytes 8 vfp.toNat
      ++ (leBytes 4 (value.length % 2 ^ 32) ++ (value ++ (List.replicate
        (alignedSize (onDiskSize value) - onDiskSize value) 0 ++ post))) := by
    simp only [encodeValue, List.append_assoc]
  have hvfp : slice (encodeValue vfp value ++ post) 0 8 = leBytes 8 vfp.toNat := by
    rw [hassoc, slice_zero, List.take_left' (length_leBytes 8 _)]
  have hbyteLen : leNat (slice (encodeValue vfp value ++ post) 8 12) = value.length := by
    rw [hassoc, slice_mid]
    · rw [leNat_leBytes_of_lt]
      · omega
      · omega
    · simp
    · simp
  have hvalue : slice (encodeValue vfp value ++ post) valueHeaderSize (valueHeaderSize + value.length)
      = value := by
    rw [hassoc, ← List.append_assoc (leBytes 8 _), slice_mid]
    · simp [valueHeaderSize]
    · simp [valueHeaderSize]
  have hread : pread (pre ++ (encodeValue vfp value ++ post)) pre.length
      (alignedSize (valueHeaderSize + value.length) % 2 ^ 32) = .ok (encodeValue vfp value) := by
    rw [Nat.mod_eq_of_lt hlt, pread, if_neg (by rw [List.length_append, hrest]; omega)]
    rw [slice_mid _ _ _ rfl (by rw [hlen])]
  simp only [readAndVerify, hk, hfirst]
  rw [if_neg (by rw [List.length_take, hrest]; simp only [valueHeaderSize] at *; omega),
    slice_take (by omega), slice_take (by omega), hvfp, hbyteLen,
    leNat_leBytes_of_lt vfp.toNat_lt, UInt64.ofNat_toNat]
  by_cases heq : vfp = expected
  · rw [if_neg (by simpa using heq), if_pos heq]
    split
    · next hfits =>
      rw [List.length_take] at hfits
      rw [slice_take (by omega), hvalue]
    · rw [if_neg (by omega), hread]
      dsimp only
      have hraw : slice (encodeValue vfp value) valueHeaderSize (valueHeaderSize + value.length)
          = value := by
        rw [← slice_append_left (b := post) (by rw [hlen]; exact hle), hvalue]
      rw [if_neg (by rw [hlen]; omega), hraw]
  · rw [if_pos heq, if_neg heq]

end

/-! ### Spill files -/

def spillMagic : Bytes := [0x4b, 0x56, 0x53, 0x50, 0x49, 0x4c, 0x33, 0x0a]
def spillHeaderSize : Nat := 16

/-- The header of a spill file. -/
def spillHeader (count : Nat) : Bytes :=
  spillMagic ++ leBytes 8 count

/-- The bytes of a bucket, in spill files and tables. -/
def Bucket.encode (b : Bucket) : Bytes :=
  leBytes 4 b.fingerprint.toNat ++ leBytes 4 b.offset.toNat

def encodeBuckets (bs : List Bucket) : Bytes :=
  (bs.map Bucket.encode).flatten

/-- The bucket at the start of a byte string. -/
def decodeBucket (b : Bytes) : Bucket :=
  ⟨UInt32.ofNat (leNat (slice b 0 4)), UInt32.ofNat (leNat (slice b 4 8))⟩

/-- The count in the header of a spill file. -/
def SpillReader.open (file : Bytes) : Except Error Nat :=
  if file.length < spillHeaderSize then .error (.io "failed to fill whole buffer")
  else if file.take 8 ≠ spillMagic then .error (.io "invalid magic bytes in spill header")
  else .ok (leNat (slice file 8 16))

/-- Read the given number of records. -/
def readRecords : Nat → Bytes → Except Error (List Bucket)
  | 0, _ => .ok []
  | n + 1, b =>
    if b.length < 8 then .error (.io "failed to fill whole buffer")
    else
      match readRecords n (b.drop 8) with
      | .error e => .error e
      | .ok bs => .ok (decodeBucket b :: bs)

/-- The records of a spill file. -/
def SpillReader.records (file : Bytes) : Except Error (List Bucket) :=
  match SpillReader.open file with
  | .error e => .error e
  | .ok count => readRecords count (file.drop spillHeaderSize)

/-- Overwrite the count in the header. -/
def overwriteCount (file : Bytes) (count : Nat) : Bytes :=
  file.take 8 ++ (leBytes 8 count ++ file.drop spillHeaderSize)

section

theorem length_spillHeader (count : Nat) :
  (spillHeader count).length = spillHeaderSize
  := by
  simp [spillHeader, spillMagic, spillHeaderSize]

theorem length_encode (b : Bucket) :
  b.encode.length = 8
  := by
  simp [Bucket.encode]

/-- A bucket is decoded as it was encoded. -/
theorem decodeBucket_encode (b : Bucket) (rest : Bytes) :
  decodeBucket (b.encode ++ rest) = b
  := by
  have h₁ : slice (b.encode ++ rest) 0 4 = leBytes 4 b.fingerprint.toNat := by
    rw [slice_zero, Bucket.encode, List.append_assoc, List.take_left' (length_leBytes 4 _)]
  have h₂ : slice (b.encode ++ rest) 4 8 = leBytes 4 b.offset.toNat := by
    rw [Bucket.encode, List.append_assoc, slice_mid]
    · simp
    · simp
  rw [decodeBucket, h₁, h₂, leNat_leBytes_of_lt b.fingerprint.toNat_lt,
    leNat_leBytes_of_lt b.offset.toNat_lt, UInt32.ofNat_toNat, UInt32.ofNat_toNat]

theorem readRecords_encodeBuckets (bs : List Bucket) (rest : Bytes) :
  readRecords bs.length (encodeBuckets bs ++ rest) = .ok bs
  := by
  induction bs with
  | nil => rfl
  | cons b bs ih =>
    have hsplit : encodeBuckets (b :: bs) ++ rest = b.encode ++ (encodeBuckets bs ++ rest) := by
      simp [encodeBuckets]
    rw [List.length_cons, readRecords, hsplit, if_neg (by rw [List.length_append, length_encode]; omega),
      List.drop_left' (length_encode b), ih, decodeBucket_encode]

theorem take_spillHeader (count : Nat) (rest : Bytes) :
  (spillHeader count ++ rest).take 8 = spillMagic
  := by
  rw [spillHeader, List.append_assoc]
  apply List.take_left' (by rfl : spillMagic.length = 8)

/-- The count of a file with a header. -/
theorem open_spillHeader {count : Nat} (h : count < 2 ^ 64) (rest : Bytes) :
  SpillReader.open (spillHeader count ++ rest) = .ok count
  := by
  have hcount : slice (spillHeader count ++ rest) 8 16 = leBytes 8 count := by
    rw [spillHeader, List.append_assoc, slice_mid]
    · rfl
    · simp [spillMagic]
  rw [SpillReader.open, if_neg (by rw [List.length_append, length_spillHeader]; omega),
    if_neg (by simpa using take_spillHeader count rest), hcount, leNat_leBytes_of_lt h]

/-- A finished spill file gives back its entries. -/
theorem records_spillFile {bs : List Bucket} (h : bs.length < 2 ^ 64) :
  SpillReader.records (spillHeader bs.length ++ encodeBuckets bs) = .ok bs
  := by
  rw [SpillReader.records, open_spillHeader h]
  dsimp only
  rw [List.drop_left' (length_spillHeader _)]
  have hread := readRecords_encodeBuckets bs []
  rwa [List.append_nil] at hread

theorem overwriteCount_spillHeader (count count' : Nat) (rest : Bytes) :
  overwriteCount (spillHeader count ++ rest) count' = spillHeader count' ++ rest
  := by
  rw [overwriteCount, take_spillHeader, List.drop_left' (length_spillHeader _), spillHeader, List.append_assoc]

theorem encodeBuckets_append (bs : List Bucket) (b : Bucket) :
  encodeBuckets (bs ++ [b]) = encodeBuckets bs ++ b.encode
  := by
  simp [encodeBuckets]

theorem length_encodeBuckets (bs : List Bucket) :
  (encodeBuckets bs).length = bs.length * 8
  := by
  rw [encodeBuckets, length_flatten_of_length (k := 8), List.length_map]
  intro c hc
  obtain ⟨b, -, rfl⟩ := List.mem_map.mp hc
  apply length_encode

end

end V4
